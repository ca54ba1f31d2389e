import Crossbank.Backend.Memory
import Crossbank.Key
import Crossbank.Locker.Policy

/-!
# Chunked values

A value that does not fit inline is a pointer in `records` and pieces in `chunks`.

* `ChunkPointer.encode`, `ChunkPointer.parse`, `isPointer` : the pointer record;
* `chunkKey`, `chunkRange`, `gcOps` : where the pieces of a value id live, and how they are dropped;
* `ValueIds` : the allocator of value ids, and `ValueIds.allocate` that seeds it;
* `parse_eq_ok` : what parses is the form of a pointer within the limits;
* `contains_chunkRange` : a value id owns exactly the chunk keys that carry it.
-/

namespace Crossbank
open Async

def POINTER_MAGIC : Bytes := ascii "CCHK"

def POINTER_VERSION : UInt8 := 1

def POINTER_LEN : Nat := 26

def FLAG_POSTCARD : UInt8 := 0

def FLAG_RAW : UInt8 := 1

def META_NEXT_VALUE_ID : Bytes := ascii "next_value_id"

structure ChunkPointer where
  valueId : UInt64
  nChunks : UInt32
  totalLen : UInt64
  flags : UInt8
  deriving DecidableEq, Repr

namespace ChunkPointer

def encode (p : ChunkPointer) : Bytes :=
  POINTER_MAGIC ++ [POINTER_VERSION, p.flags] ++ u64be p.valueId ++ u32be p.nChunks ++
    u64be p.totalLen

def parse (raw : Bytes) : Except Error ChunkPointer :=
  if raw.length ≠ POINTER_LEN ∨ raw.take 4 ≠ POINTER_MAGIC then
    .error (.corrupt "not a chunk pointer")
  else if raw.getD 4 0 ≠ POINTER_VERSION then
    .error (.unsupportedVersion (raw.getD 4 0).toNat POINTER_VERSION.toNat)
  else
    let nChunks := UInt32.ofNat (beNat ((raw.drop 14).take 4))
    let totalLen := UInt64.ofNat (beNat ((raw.drop 18).take 8))
    if totalLen.toNat > MAX_DECODED_BYTES then
      .error (.corrupt s!"chunk pointer declares {totalLen} bytes, over the {MAX_DECODED_BYTES} byte limit")
    else if nChunks.toNat > totalLen.toNat then
      .error (.corrupt s!"chunk pointer declares {nChunks} chunks for {totalLen} bytes; a chunk holds at least one byte")
    else .ok
      { flags := raw.getD 5 0
        valueId := UInt64.ofNat (beNat ((raw.drop 6).take 8))
        nChunks := nChunks
        totalLen := totalLen }

/-- The limits a pointer has to keep to be read back. -/
def Within (p : ChunkPointer) : Prop :=
  p.totalLen.toNat ≤ MAX_DECODED_BYTES ∧ p.nChunks.toNat ≤ p.totalLen.toNat

instance (p : ChunkPointer) : Decidable p.Within := inferInstanceAs (Decidable (_ ∧ _))

end ChunkPointer

def isPointer (raw : Bytes) : Bool := 4 ≤ raw.length && raw.take 4 == POINTER_MAGIC

def chunkKey (valueId : UInt64) (seq : UInt32) : Bytes := u64be valueId ++ u32be seq

def chunkRange (valueId : UInt64) : KeyRange := .ofPrefix (u64be valueId)

def gcOps (pointer : ChunkPointer) : Op := .deleteRange .chunks (chunkRange pointer.valueId)

def counterOpFor (next : UInt64) : Op := .put .meta META_NEXT_VALUE_ID (u64be next)

def parseCounter : Option Bytes → Except Error UInt64
  | none => .ok 0
  | some bytes =>
    match u64FromBe bytes with
    | some n => .ok n
    | none => .error (.corrupt "next_value_id is not an 8-byte integer")

/-- The allocator of value ids: the next id, once it is known. -/
structure ValueIds where
  next : Option UInt64
  deriving DecidableEq, Repr

/-- The logical clock of the byte budgets: the next tick, and the least one that stored records
allow. -/
structure Ticks where
  next : Option UInt64
  floor : UInt64
  deriving DecidableEq, Repr

/-- What every locker of a bank shares with it. -/
structure Shared where
  values : ValueIds
  ticks : Ticks
  deriving DecidableEq, Repr

def Shared.fresh : Shared := ⟨⟨none⟩, ⟨none, 0⟩⟩

instance : WriteLock Shared := ⟨fun _ => none⟩

namespace ValueIds

def advance (id : UInt64) : Except Error UInt64 :=
  match checkedSucc id with
  | some next => .ok next
  | none => .error (.backend "value id space is exhausted")

/-- Take the next id if the cursor is seeded. -/
def take (s : Shared) : Except Error (Option UInt64) × Shared :=
  match s.values.next with
  | none => (.ok none, s)
  | some id =>
    match advance id with
    | .ok next => (.ok (some id), { s with values := ⟨some next⟩ })
    | .error e => (.error e, s)

/-- Seed the cursor and take one id. The cursor only moves forward. -/
def seedAndTake (stored : UInt64) (s : Shared) : Except Error UInt64 × Shared :=
  let id := match s.values.next with
    | some current => max current stored
    | none => stored
  match advance id with
  | .ok next => (.ok id, { s with values := ⟨some next⟩ })
  | .error e => (.error e, s)

/-- The op that persists the cursor, once it is seeded. -/
def counterOp (s : Shared) : Option Op := s.values.next.map counterOpFor

/-- The highest value id any stored chunk belongs to. -/
def highestStoredId {ρ : Type} : Io ρ (Option UInt64) := do
  let page ← Backend.scan ⟨.chunks, .all, true, 1, false⟩
  match page.items.head? with
  | none => pure none
  | some (key, _) =>
    if key.length < 8 then .fail (.corrupt "a chunk key is shorter than a value id")
    else pure (some (UInt64.ofNat (beNat (key.take 8))))

/-- Where a fresh cursor starts: past the stored counter and past every stored chunk. -/
def seedFloor {ρ : Type} : Io ρ UInt64 := do
  let raw ← Backend.get .meta META_NEXT_VALUE_ID
  let stored ← Prog.ofExcept (parseCounter raw)
  match ← highestStoredId with
  | some id => do
    let past ← Prog.ofExcept (advance id)
    pure (max stored past)
  | none => pure stored

def allocate : Io Shared UInt64 := do
  match ← Prog.sync take with
  | some id => pure id
  | none => do
    let floor ← seedFloor
    Prog.sync (seedAndTake floor)

end ValueIds

/-! ## Pointers -/

theorem pointer_magic_eq : POINTER_MAGIC = [67, 67, 72, 75] := by decide

theorem isPointer_encode (p : ChunkPointer) : isPointer p.encode = true := by
  simp [isPointer, ChunkPointer.encode, pointer_magic_eq]

@[simp] theorem length_encode (p : ChunkPointer) : p.encode.length = POINTER_LEN := by
  simp [ChunkPointer.encode, pointer_magic_eq, POINTER_LEN]

section
variable (p : ChunkPointer)

theorem encode_eq_append : p.encode =
    POINTER_MAGIC ++ ([POINTER_VERSION, p.flags] ++ (u64be p.valueId ++ (u32be p.nChunks ++
      u64be p.totalLen))) := by
  simp [ChunkPointer.encode]

theorem getD_four_encode : p.encode.getD 4 0 = POINTER_VERSION := by
  simp [ChunkPointer.encode, pointer_magic_eq]

theorem getD_five_encode : p.encode.getD 5 0 = p.flags := by
  simp [ChunkPointer.encode, pointer_magic_eq]

theorem take_four_encode : p.encode.take 4 = POINTER_MAGIC := by
  simp [ChunkPointer.encode, pointer_magic_eq]

theorem id_bytes_encode : (p.encode.drop 6).take 8 = u64be p.valueId := by
  simp [ChunkPointer.encode, pointer_magic_eq]

theorem count_bytes_encode : (p.encode.drop 14).take 4 = u32be p.nChunks := by
  have h : p.encode = (POINTER_MAGIC ++ [POINTER_VERSION, p.flags] ++ u64be p.valueId) ++
      (u32be p.nChunks ++ u64be p.totalLen) := by simp [ChunkPointer.encode]
  rw [h, List.drop_append_of_le_length (by simp [pointer_magic_eq]),
    List.drop_of_length_le (by simp [pointer_magic_eq])]
  simp

theorem total_bytes_encode : (p.encode.drop 18).take 8 = u64be p.totalLen := by
  have h : p.encode = (POINTER_MAGIC ++ [POINTER_VERSION, p.flags] ++ u64be p.valueId ++
      u32be p.nChunks) ++ u64be p.totalLen := by simp [ChunkPointer.encode]
  rw [h, List.drop_append_of_le_length (by simp [pointer_magic_eq]),
    List.drop_of_length_le (by simp [pointer_magic_eq])]
  simp

end

/-- What parses is the form of a pointer within the limits, and is that pointer. -/
theorem parse_eq_ok {raw : Bytes} {p : ChunkPointer} :
    ChunkPointer.parse raw = .ok p ↔ raw = p.encode ∧ p.Within := by
  constructor
  · intro h
    unfold ChunkPointer.parse at h
    split at h
    · cases h
    next hshape =>
    split at h
    · cases h
    next hversion =>
    dsimp only at h
    split at h
    · cases h
    next hlimit =>
    split at h
    · cases h
    next hcount =>
    rw [not_or, not_not, not_not] at hshape
    rw [not_not] at hversion
    obtain ⟨hlen, hmagic⟩ := hshape
    have hp := Except.ok.inj h
    subst hp
    refine ⟨?_, by simp only [ChunkPointer.Within]; omega⟩
    have hlen : raw.length = 26 := hlen
    have e1 : raw = raw.take 4 ++ raw.drop 4 := (List.take_append_drop 4 raw).symm
    have e2 : raw.drop 4 = [raw.getD 4 0, raw.getD 5 0] ++ raw.drop 6 := by
      rw [List.drop_eq_getElem_cons (by omega), List.drop_eq_getElem_cons (by omega)]
      simp [List.getD_eq_getElem?_getD, hlen]
    have e3 : raw.drop 6 = (raw.drop 6).take 8 ++ ((raw.drop 14).take 4 ++ (raw.drop 18).take 8) := by
      have h1 : raw.drop 6 = (raw.drop 6).take 8 ++ raw.drop 14 := by
        have h := (List.take_append_drop 8 (raw.drop 6)).symm
        rwa [List.drop_drop] at h
      have h2 : raw.drop 14 = (raw.drop 14).take 4 ++ raw.drop 18 := by
        have h := (List.take_append_drop 4 (raw.drop 14)).symm
        rwa [List.drop_drop] at h
      have h3 : (raw.drop 18).take 8 = raw.drop 18 := List.take_of_length_le (by simp [hlen])
      rw [h3, ← h2, ← h1]
    rw [encode_eq_append, u64be_ofNat_beNat (by simp [hlen]), u32be_ofNat_beNat (by simp [hlen]),
      u64be_ofNat_beNat (by simp [hlen])]
    calc raw = raw.take 4 ++ raw.drop 4 := e1
      _ = POINTER_MAGIC ++ ([POINTER_VERSION, raw.getD 5 0] ++ raw.drop 6) := by
        rw [hmagic, e2, hversion]
      _ = _ := by rw [← e3]
  · rintro ⟨rfl, hlimit, hcount⟩
    rw [ChunkPointer.parse, if_neg (by simp [take_four_encode]),
      if_neg (by rw [getD_four_encode]; exact not_not_intro rfl), getD_five_encode,
      id_bytes_encode, count_bytes_encode, total_bytes_encode, beNat_u64be, beNat_u32be,
      beNat_u64be, UInt32.ofNat_toNat, UInt64.ofNat_toNat, UInt64.ofNat_toNat]
    dsimp only
    rw [if_neg (by omega), if_neg (by omega)]

theorem isPointer_of_parse {raw : Bytes} {p : ChunkPointer}
    (h : ChunkPointer.parse raw = .ok p) : isPointer raw = true := by
  rw [(parse_eq_ok.1 h).1]
  exact isPointer_encode p

theorem encode_inj {p q : ChunkPointer} (h : p.encode = q.encode) : p = q := by
  have h1 := congrArg (fun raw => (raw.drop 6).take 8) h
  have h2 := congrArg (fun raw => (raw.drop 14).take 4) h
  have h3 := congrArg (fun raw => (raw.drop 18).take 8) h
  have h4 := congrArg (fun raw => raw.getD 5 0) h
  simp only [id_bytes_encode, u64be_inj] at h1
  simp only [count_bytes_encode, u32be_inj] at h2
  simp only [total_bytes_encode, u64be_inj] at h3
  simp only [getD_five_encode] at h4
  cases p
  cases q
  simp_all

theorem sealed_not_pointer {chain : FilterChain} {payload sealed : Bytes}
    (h : chain.sealSlice payload = .ok sealed) : isPointer sealed = false := by
  obtain ⟨body, _, rfl⟩ := FilterChain.sealSlice_eq_ok.1 h
  have hm : MAGIC = [67, 66, 78, 75] := by decide
  simp [isPointer, header, hm, pointer_magic_eq]

/-! ## Chunk keys -/

/-- A value id owns exactly the chunk keys that carry it. -/
theorem contains_chunkRange (id : UInt64) (key : Bytes) :
    (chunkRange id).contains key = true ↔ ∃ rest, key = u64be id ++ rest := by
  rw [chunkRange, KeyRange.contains_ofPrefix]
  constructor
  · rintro ⟨k, rfl⟩
    exact ⟨k, rfl⟩
  · rintro ⟨k, rfl⟩
    exact ⟨k, rfl⟩

@[simp] theorem contains_chunkRange_chunkKey (a b : UInt64) (seq : UInt32) :
    (chunkRange a).contains (chunkKey b seq) = true ↔ a = b := by
  rw [contains_chunkRange]
  constructor
  · rintro ⟨k, hk⟩
    exact (u64be_append_inj.1 hk).1.symm
  · rintro rfl
    exact ⟨u32be seq, rfl⟩

@[simp] theorem chunkKey_inj {a b : UInt64} {s t : UInt32} :
    chunkKey a s = chunkKey b t ↔ a = b ∧ s = t := by
  rw [chunkKey, chunkKey, u64be_append_inj, u32be_inj]

end Crossbank
