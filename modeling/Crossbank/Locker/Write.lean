import Crossbank.Locker.Stored
import Crossbank.Locker.Transaction

/-!
# Writes, as what they leave

The ops a locker commits to its records and chunks are a batch: perhaps a clear, then one write for
each of some keys.

* `KeyWrite`, `Batch` : one key's write, and a commit's; `Batch.ops` : the ops they stand for;
* `dataOps` : the part of a list of ops that is not bookkeeping;
* `WellFormed` : a store whose pointers have all their pieces, and value ids to themselves; `Apart` :
  the latter alone;
* `Batch.Fits` : a batch that collects only what it replaces, and stores under ids of its own;
* `lookup_commit_record`, `lookup_commit_chunk` : what landing a batch leaves under each key;
* `wellFormed_commit`, `storedAt_commit` : a batch that fits leaves a well-formed store, that holds
  the payloads of its writes.
-/

namespace Crossbank
open Async

/-- What a write leaves under its key. -/
inductive Body where
  | gone
  | inline (sealed : Bytes)
  | chunked (pointer : ChunkPointer) (sealed : List Bytes)
  deriving DecidableEq

def Body.record : Body → Option Bytes
  | .gone => none
  | .inline sealed => some sealed
  | .chunked pointer _ => some pointer.encode

def Body.newId : Body → Option UInt64
  | .chunked pointer _ => some pointer.valueId
  | _ => none

/-- One key's write, with the value whose chunks it collects. -/
structure KeyWrite where
  key : Bytes
  gc : Option ChunkPointer
  body : Body
  deriving DecidableEq

/-- The writes of one commit. A clear collects the chunks of `cleared`. -/
structure Batch where
  cleared : Option (List ChunkPointer)
  writes : List KeyWrite

/-- The chunk pointer a stored record is, if it is one. -/
def pointerIn (existing : Option Bytes) : Option ChunkPointer :=
  existing.bind fun raw => (ChunkPointer.parse raw).toOption

def dataOps (ops : List Op) : List Op := ops.filter fun op => op.table ≠ .meta

section
variable {T : Type} (inner : Inner T)

def Body.ops (key : Bytes) : Body → List Op
  | .gone => [inner.deleteOp key]
  | .inline sealed => [.put .records (inner.encodeKey key) sealed]
  | .chunked pointer sealed =>
    Inner.pieceOpsFrom pointer.valueId 0 sealed ++
      [.put .records (inner.encodeKey key) pointer.encode]

def KeyWrite.ops (w : KeyWrite) : List Op :=
  w.gc.toList.map gcOps ++ w.body.ops inner w.key

def Batch.ops (b : Batch) : List Op :=
  (match b.cleared with
    | some dropped => dropped.map gcOps ++ [inner.clearOp]
    | none => []) ++ b.writes.flatMap (KeyWrite.ops inner)

end

theorem pointerIn_of_ok {raw : Bytes} {p : ChunkPointer} (h : ChunkPointer.parse raw = .ok p) :
    pointerIn (some raw) = some p := by
  rw [pointerIn, Option.bind_some, h]
  rfl

theorem pointerIn_of_error {raw : Bytes} {e : Error} (h : ChunkPointer.parse raw = .error e) :
    pointerIn (some raw) = none := by
  rw [pointerIn, Option.bind_some, h]
  rfl

theorem pointerIn_eq_some {existing : Option Bytes} {p : ChunkPointer} :
    pointerIn existing = some p ↔ ∃ raw, existing = some raw ∧ ChunkPointer.parse raw = .ok p := by
  constructor
  · intro h
    cases existing with
    | none => cases h
    | some raw =>
      cases hp : ChunkPointer.parse raw with
      | ok q =>
        rw [pointerIn_of_ok hp] at h
        exact ⟨raw, rfl, (Option.some.inj h) ▸ hp⟩
      | error e =>
        rw [pointerIn_of_error hp] at h
        cases h
  · rintro ⟨raw, rfl, hp⟩
    exact pointerIn_of_ok hp

/-! ## What a list of ops writes -/

theorem Op.written_of_table {op : Op} {table : Table} {key : Bytes} (h : op.table ≠ table) :
    op.written table key = none := by
  cases op with
  | put t k v => exact if_neg fun h' => h h'.1
  | delete t k => exact if_neg fun h' => h h'.1
  | deleteRange t r => exact if_neg fun h' => h h'.1

theorem written_of_table {ops : List Op} {table : Table} {key : Bytes}
    (h : ∀ op ∈ ops, op.table ≠ table) : written ops table key = none :=
  written_eq_none.2 fun op hop => Op.written_of_table (h op hop)

theorem written_dataOps (ops : List Op) {table : Table} (ht : table ≠ .meta) (key : Bytes) :
    written (dataOps ops) table key = written ops table key := by
  induction ops with
  | nil => rfl
  | cons op ops ih =>
    by_cases hop : op.table = .meta
    · have hnone : op.written table key = none := Op.written_of_table (hop ▸ ht.symm)
      rw [written_cons, hnone, Option.or_none, ← ih]
      simp [dataOps, hop]
    · rw [written_cons, ← ih, ← written_cons]
      simp [dataOps, hop]

theorem dataOps_append (a b : List Op) : dataOps (a ++ b) = dataOps a ++ dataOps b :=
  List.filter_append _ _

theorem dataOps_of_meta {ops : List Op} (h : ∀ op ∈ ops, op.table = .meta) : dataOps ops = [] := by
  rw [dataOps, List.filter_eq_nil_iff]
  intro op hop
  simp [h op hop]

theorem dataOps_of_data {ops : List Op} (h : ∀ op ∈ ops, op.table ≠ .meta) : dataOps ops = ops := by
  rw [dataOps, List.filter_eq_self]
  intro op hop
  simpa using h op hop

section
variable {T : Type} {inner : Inner T}

theorem table_of_mem_pieceOpsFrom {id : UInt64} {seq : Nat} {sealed : List Bytes} {op : Op}
    (h : op ∈ Inner.pieceOpsFrom id seq sealed) : op.table = .chunks := by
  induction sealed generalizing seq with
  | nil => cases h
  | cons s sealed ih =>
    rcases List.mem_cons.1 h with rfl | h
    · rfl
    · exact ih h

theorem table_of_mem_ops {w : KeyWrite} {op : Op} (h : op ∈ w.ops inner) : op.table ≠ .meta := by
  rcases List.mem_append.1 h with h | h
  · obtain ⟨p, -, rfl⟩ := List.mem_map.1 h
    simp [gcOps, Op.table]
  · cases hb : w.body with
    | gone =>
      simp only [hb, Body.ops, List.mem_singleton] at h
      simp [h, Inner.deleteOp, Op.table]
    | inline sealed =>
      simp only [hb, Body.ops, List.mem_singleton] at h
      simp [h, Op.table]
    | chunked p sealed =>
      simp only [hb, Body.ops, List.mem_append, List.mem_singleton] at h
      rcases h with h | rfl
      · simp [table_of_mem_pieceOpsFrom h]
      · simp [Op.table]

@[simp] theorem dataOps_keyWrite (w : KeyWrite) : dataOps (w.ops inner) = w.ops inner :=
  dataOps_of_data fun _ => table_of_mem_ops

/-! ## Records -/

theorem written_gcOps (ps : List ChunkPointer) (key : Bytes) :
    written (ps.map gcOps) .records key = none := by
  refine written_of_table fun op hop => ?_
  obtain ⟨p, -, rfl⟩ := List.mem_map.1 hop
  simp [gcOps, Op.table]

theorem written_keyWrite_record (w : KeyWrite) (key : Bytes) :
    written (w.ops inner) .records key =
      if inner.encodeKey w.key = key then some w.body.record else none := by
  rw [KeyWrite.ops, written_append, written_gcOps, Option.or_none]
  cases w.body with
  | gone => simp [Body.ops, Body.record, written_cons, Inner.deleteOp, Op.written]
  | inline sealed => simp [Body.ops, Body.record, written_cons, Op.written]
  | chunked p sealed =>
    have hp : written (Inner.pieceOpsFrom p.valueId 0 sealed) .records key = none :=
      written_of_table fun op hop => by simp [table_of_mem_pieceOpsFrom hop]
    rw [Body.ops, written_append, hp]
    simp [Body.record, written_cons, Op.written]

def Batch.find (b : Batch) (key : Bytes) : Option KeyWrite := b.writes.find? fun w => w.key = key

theorem encodeKey_inj {a b : Bytes} : inner.encodeKey a = inner.encodeKey b ↔ a = b := by
  simp [Inner.encodeKey]

theorem written_writes_record {writes : List KeyWrite} (nodup : (writes.map KeyWrite.key).Nodup)
    (key : Bytes) :
    written (writes.flatMap (KeyWrite.ops inner)) .records (inner.encodeKey key) =
      (writes.find? fun w => w.key = key).map fun w => w.body.record := by
  induction writes with
  | nil => rfl
  | cons w writes ih =>
    rw [List.map_cons, List.nodup_cons] at nodup
    rw [List.flatMap_cons, written_append, ih nodup.2, written_keyWrite_record]
    simp only [encodeKey_inj]
    by_cases hk : w.key = key
    · have hnone : (writes.find? fun w => w.key = key) = none := by
        rw [List.find?_eq_none]
        intro w' hw' hk'
        exact nodup.1 (List.mem_map.2 ⟨w', hw', by simpa [hk] using hk'⟩)
      simp [hk, hnone]
    · simp [hk]

theorem written_writes_record_other {writes : List KeyWrite} {key : Bytes}
    (other : ∀ k, key ≠ inner.encodeKey k) :
    written (writes.flatMap (KeyWrite.ops inner)) .records key = none := by
  induction writes with
  | nil => rfl
  | cons w writes ih =>
    rw [List.flatMap_cons, written_append, ih, written_keyWrite_record,
      if_neg fun h => other w.key h.symm]
    rfl

theorem written_clearOp (key : Bytes) :
    written [inner.clearOp] .records (inner.encodeKey key) = some none := by
  simp [written_cons, Inner.clearOp, Op.written, Inner.encodeKey]

theorem written_clearOp_other {key : Bytes} (other : ∀ k, key ≠ inner.encodeKey k) :
    written [inner.clearOp] .records key = none := by
  have hout : ¬ (lockerRange inner.id).contains key = true := by
    rw [contains_lockerRange]
    rintro ⟨k, hk⟩
    exact other k hk
  simp [written_cons, Inner.clearOp, Op.written, hout]

/-- What landing a batch leaves in the locker's records. -/
theorem written_batch_record {b : Batch} (nodup : (b.writes.map KeyWrite.key).Nodup) (key : Bytes) :
    written (b.ops inner) .records (inner.encodeKey key) =
      match b.find key with
      | some w => some w.body.record
      | none => if b.cleared.isSome then some none else none := by
  rw [Batch.ops, written_append, written_writes_record nodup, Batch.find]
  cases b.writes.find? fun w => w.key = key with
  | some w => rfl
  | none =>
    cases b.cleared with
    | none => rfl
    | some dropped =>
      simp [written_append, written_gcOps, written_clearOp]

theorem written_batch_record_other {b : Batch} {key : Bytes}
    (other : ∀ k, key ≠ inner.encodeKey k) : written (b.ops inner) .records key = none := by
  rw [Batch.ops, written_append, written_writes_record_other other]
  cases b.cleared with
  | none => rfl
  | some dropped => simp [written_append, written_gcOps, written_clearOp_other other]

/-! ## Chunks -/

def Batch.collected (b : Batch) : List UInt64 :=
  (b.cleared.getD []).map ChunkPointer.valueId ++
    b.writes.filterMap fun w => w.gc.map ChunkPointer.valueId

def Batch.newIds (b : Batch) : List UInt64 := b.writes.filterMap fun w => w.body.newId

theorem written_gcOps_chunk (ps : List ChunkPointer) (id : UInt64) (rest : Bytes) :
    written (ps.map gcOps) .chunks (u64be id ++ rest) =
      if id ∈ ps.map ChunkPointer.valueId then some none else none := by
  induction ps with
  | nil => rfl
  | cons p ps ih =>
    have hp : (gcOps p).written .chunks (u64be id ++ rest) =
        if p.valueId = id then some none else none := by
      have hc : (chunkRange p.valueId).contains (u64be id ++ rest) = true ↔ p.valueId = id := by
        rw [contains_chunkRange]
        constructor
        · rintro ⟨r, hr⟩
          exact (u64be_append_inj.1 hr).1.symm
        · rintro rfl
          exact ⟨rest, rfl⟩
      simp [gcOps, Op.written, hc]
    rw [List.map_cons, written_cons, ih, hp, List.map_cons]
    by_cases h1 : id ∈ ps.map ChunkPointer.valueId
    · rw [if_pos h1, if_pos (List.mem_cons_of_mem _ h1)]
      rfl
    · rw [if_neg h1, Option.none_or]
      by_cases h2 : p.valueId = id
      · rw [if_pos h2, if_pos (h2 ▸ List.mem_cons_self)]
      · rw [if_neg h2, if_neg]
        intro h3
        rcases List.mem_cons.1 h3 with rfl | h3
        · exact h2 rfl
        · exact h1 h3

theorem written_pieces_other {id id' : UInt64} (hne : id ≠ id') (seq : Nat) (sealed : List Bytes)
    (rest : Bytes) :
    written (Inner.pieceOpsFrom id seq sealed) .chunks (u64be id' ++ rest) = none := by
  induction sealed generalizing seq with
  | nil => rfl
  | cons s sealed ih =>
    have hk : chunkKey id (UInt32.ofNat seq) ≠ u64be id' ++ rest := by
      intro h
      exact hne (u64be_append_inj.1 h).1
    rw [Inner.pieceOpsFrom, written_cons, ih]
    simp [Op.written, hk]

theorem written_body_chunk_other {body : Body} {key : Bytes} {id : UInt64}
    (h : body.newId ≠ some id) (rest : Bytes) :
    written (body.ops inner key) .chunks (u64be id ++ rest) = none := by
  cases body with
  | gone => simp [Body.ops, written_cons, Inner.deleteOp, Op.written]
  | inline sealed => simp [Body.ops, written_cons, Op.written]
  | chunked p sealed =>
    have hne : p.valueId ≠ id := fun h' => h (congrArg some h')
    rw [Body.ops, written_append, written_pieces_other hne]
    simp [written_cons, Op.written]

theorem written_keyWrite_chunk {w : KeyWrite} {id : UInt64} (h : w.body.newId ≠ some id)
    (rest : Bytes) :
    written (w.ops inner) .chunks (u64be id ++ rest) =
      if w.gc.map ChunkPointer.valueId = some id then some none else none := by
  rw [KeyWrite.ops, written_append, written_body_chunk_other h, written_gcOps_chunk]
  cases w.gc with
  | none => rfl
  | some p => simp [eq_comm]

theorem written_writes_chunk {writes : List KeyWrite} {id : UInt64}
    (h : ∀ w ∈ writes, w.body.newId ≠ some id) (rest : Bytes) :
    written (writes.flatMap (KeyWrite.ops inner)) .chunks (u64be id ++ rest) =
      if id ∈ writes.filterMap (fun w => w.gc.map ChunkPointer.valueId) then some none else none := by
  induction writes with
  | nil => rfl
  | cons w writes ih =>
    rw [List.flatMap_cons, written_append, ih fun w' hw' => h w' (List.mem_cons_of_mem _ hw'),
      written_keyWrite_chunk (h w List.mem_cons_self)]
    by_cases h1 : id ∈ writes.filterMap fun w => w.gc.map ChunkPointer.valueId
    · obtain ⟨w', hw', he⟩ := List.mem_filterMap.1 h1
      rw [if_pos h1, if_pos (List.mem_filterMap.2 ⟨w', List.mem_cons_of_mem _ hw', he⟩)]
      rfl
    · rw [if_neg h1, Option.none_or]
      by_cases h2 : w.gc.map ChunkPointer.valueId = some id
      · rw [if_pos h2, if_pos (List.mem_filterMap.2 ⟨w, List.mem_cons_self, h2⟩)]
      · rw [if_neg h2, if_neg]
        intro h3
        obtain ⟨w', hw', he⟩ := List.mem_filterMap.1 h3
        rcases List.mem_cons.1 hw' with rfl | hw'
        · exact h2 he
        · exact h1 (List.mem_filterMap.2 ⟨w', hw', he⟩)

theorem written_clearOp_chunk (key : Bytes) : written [inner.clearOp] .chunks key = none := by
  simp [written_cons, Inner.clearOp, Op.written]

/-- What landing a batch does to the chunks of a value it does not store: it collects them
all, or leaves them all. -/
theorem written_batch_chunk {b : Batch} {id : UInt64} (h : id ∉ b.newIds) (rest : Bytes) :
    written (b.ops inner) .chunks (u64be id ++ rest) =
      if id ∈ b.collected then some none else none := by
  have hw : ∀ w ∈ b.writes, w.body.newId ≠ some id :=
    fun w hw he => h (List.mem_filterMap.2 ⟨w, hw, he⟩)
  rw [Batch.ops, written_append, written_writes_chunk hw, Batch.collected]
  cases b.cleared with
  | none => simp
  | some dropped =>
    rw [written_append, written_clearOp_chunk, Option.none_or, written_gcOps_chunk]
    simp only [Option.getD_some, List.mem_append]
    by_cases h1 : id ∈ b.writes.filterMap fun w => w.gc.map ChunkPointer.valueId
    · simp [h1]
    · by_cases h2 : id ∈ dropped.map ChunkPointer.valueId
      · rw [if_neg h1, if_pos h2, if_pos (.inl h2)]
        rfl
      · rw [if_neg h1, if_neg h2, if_neg (by tauto)]
        rfl

theorem written_pieces {id : UInt64} {seq n : Nat} {sealed : List Bytes}
    (room : seq + sealed.length ≤ 2 ^ 32) (hlo : seq ≤ n) (hhi : n < 2 ^ 32) :
    written (Inner.pieceOpsFrom id seq sealed) .chunks (chunkKey id (UInt32.ofNat n)) =
      (sealed[n - seq]?).map some := by
  induction sealed generalizing seq with
  | nil => rfl
  | cons s sealed ih =>
    rw [List.length_cons] at room
    have hkey : chunkKey id (UInt32.ofNat seq) = chunkKey id (UInt32.ofNat n) ↔ seq = n := by
      rw [chunkKey_inj]
      constructor
      · rintro ⟨-, h⟩
        have h1 := congrArg UInt32.toNat h
        rwa [toNat_ofNat_u32 (by omega), toNat_ofNat_u32 (by omega)] at h1
      · rintro rfl
        exact ⟨rfl, rfl⟩
    rw [Inner.pieceOpsFrom, written_cons]
    rcases Nat.eq_or_lt_of_le hlo with rfl | hlt
    · have hafter (k : Nat) (hk : seq < k) (l : List Bytes) (hl : k + l.length ≤ 2 ^ 32) :
          written (Inner.pieceOpsFrom id k l) .chunks (chunkKey id (UInt32.ofNat seq)) = none := by
        induction l generalizing k with
        | nil => rfl
        | cons x l ihl =>
          rw [List.length_cons] at hl
          have hne : chunkKey id (UInt32.ofNat k) ≠ chunkKey id (UInt32.ofNat seq) := by
            rw [Ne, chunkKey_inj]
            rintro ⟨-, h⟩
            have h1 := congrArg UInt32.toNat h
            rw [toNat_ofNat_u32 (by omega), toNat_ofNat_u32 (by omega)] at h1
            omega
          rw [Inner.pieceOpsFrom, written_cons, ihl (k + 1) (by omega) (by omega)]
          simp [Op.written, hne]
      rw [hafter (seq + 1) (by omega) sealed (by omega)]
      simp [Op.written]
    · rw [ih (by omega) (by omega)]
      have hne : ¬ chunkKey id (UInt32.ofNat seq) = chunkKey id (UInt32.ofNat n) := by
        rw [hkey]
        omega
      have hidx : n - seq = (n - (seq + 1)) + 1 := by omega
      rw [hidx, List.getElem?_cons_succ]
      simp [Op.written, hne]

/-- Every piece of a value that a batch stores lands. -/
theorem written_batch_piece {b : Batch} (nodup : b.newIds.Nodup) {w : KeyWrite}
    (hw : w ∈ b.writes) {p : ChunkPointer} {sealed : List Bytes} (hb : w.body = .chunked p sealed)
    (fresh : p.valueId ∉ b.collected) (room : sealed.length ≤ 2 ^ 32) {n : Nat}
    (hn : n < sealed.length) :
    written (b.ops inner) .chunks (chunkKey p.valueId (UInt32.ofNat n)) = (sealed[n]?).map some := by
  obtain ⟨l, r, hlr⟩ := List.append_of_mem hw
  have hid : w.body.newId = some p.valueId := by
    rw [hb]
    rfl
  have hr : ∀ w' ∈ r, w'.body.newId ≠ some p.valueId := by
    intro w' hw' he
    rw [Batch.newIds, hlr, List.filterMap_append, List.filterMap_cons, hid] at nodup
    have hmem : p.valueId ∈ r.filterMap fun w => w.body.newId := List.mem_filterMap.2 ⟨w', hw', he⟩
    exact (List.nodup_cons.1 (List.nodup_append.1 nodup).2.1).1 hmem
  have hgc : p.valueId ∉ r.filterMap fun w => w.gc.map ChunkPointer.valueId := by
    intro h
    obtain ⟨w', hw', he⟩ := List.mem_filterMap.1 h
    refine fresh (List.mem_append_right _ (List.mem_filterMap.2 ⟨w', ?_, he⟩))
    rw [hlr]
    exact List.mem_append_right _ (List.mem_cons_of_mem _ hw')
  have hafter : written (r.flatMap (KeyWrite.ops inner)) .chunks
      (chunkKey p.valueId (UInt32.ofNat n)) = none := by
    rw [chunkKey, written_writes_chunk hr, if_neg hgc]
  have hbody : written (w.ops inner) .chunks (chunkKey p.valueId (UInt32.ofNat n)) =
      (sealed[n]?).map some := by
    have hpieces : written (Inner.pieceOpsFrom p.valueId 0 sealed) .chunks
        (chunkKey p.valueId (UInt32.ofNat n)) = _ :=
      written_pieces (by omega) (by omega) (by omega)
    rw [KeyWrite.ops, hb, Body.ops, written_append, written_append, hpieces, Nat.sub_zero]
    have hrec : written [.put .records (inner.encodeKey w.key) p.encode] .chunks
        (chunkKey p.valueId (UInt32.ofNat n)) = none := by simp [written_cons, Op.written]
    rw [hrec, List.getElem?_eq_getElem hn]
    rfl
  rw [Batch.ops, hlr, List.flatMap_append, List.flatMap_cons, written_append, written_append,
    written_append, hafter, hbody, List.getElem?_eq_getElem hn]
  rfl

/-! ## Well-formed stores -/

/-- The records of a locker whose values are whole: each of its pointers parses and has all its
pieces, and each pointer that is stored has a value id to itself, below the cursor. -/
structure WellFormed (inner : Inner T) (db : Tables) (cursor : Nat) : Prop where
  whole : ∀ key raw, db.lookup .records (inner.encodeKey key) = some raw → isPointer raw = true →
    ∃ p, ChunkPointer.parse raw = .ok p ∧ ∀ seq, seq < p.nChunks.toNat →
      (db.lookup .chunks (chunkKey p.valueId (UInt32.ofNat seq))).isSome = true
  unique : ∀ k k' raw raw' p p', db.lookup .records k = some raw →
    db.lookup .records k' = some raw' → ChunkPointer.parse raw = .ok p →
    ChunkPointer.parse raw' = .ok p' → p.valueId = p'.valueId → k = k'
  below : ∀ k raw p, db.lookup .records k = some raw → ChunkPointer.parse raw = .ok p →
    p.valueId.toNat < cursor

/-- Each pointer that is stored has a value id to itself, below the cursor. -/
structure Apart (db : Tables) (cursor : Nat) : Prop where
  unique : ∀ k k' raw raw' p p', db.lookup .records k = some raw →
    db.lookup .records k' = some raw' → ChunkPointer.parse raw = .ok p →
    ChunkPointer.parse raw' = .ok p' → p.valueId = p'.valueId → k = k'
  below : ∀ k raw p, db.lookup .records k = some raw → ChunkPointer.parse raw = .ok p →
    p.valueId.toNat < cursor

theorem WellFormed.apart {db : Tables} {cursor : Nat} (wf : WellFormed inner db cursor) :
    Apart db cursor := ⟨wf.unique, wf.below⟩

/-- A write that can be read back: a pointer within its limits, with all its pieces, or a record
that is not a pointer. -/
def Body.Whole : Body → Prop
  | .gone => True
  | .inline sealed => isPointer sealed = false
  | .chunked p sealed => p.Within ∧ sealed.length = p.nChunks.toNat

/-- A batch that collects only what it replaces, and stores under value ids of its own, from `lo`
up to `hi`. -/
structure Batch.Fits (inner : Inner T) (db : Tables) (lo hi : Nat) (b : Batch) : Prop where
  nodup : (b.writes.map KeyWrite.key).Nodup
  collects : ∀ id ∈ b.collected, ∃ key raw p, db.lookup .records (inner.encodeKey key) = some raw ∧
    ChunkPointer.parse raw = .ok p ∧ p.valueId = id ∧ (b.cleared.isSome ∨ (b.find key).isSome)
  ids : b.newIds.Nodup
  fresh : ∀ id ∈ b.newIds, lo ≤ id.toNat ∧ id.toNat < hi
  whole : ∀ w ∈ b.writes, w.body.Whole
  le : lo ≤ hi

theorem mem_writes_of_find {b : Batch} {key : Bytes} {w : KeyWrite} (h : b.find key = some w) :
    w ∈ b.writes ∧ w.key = key :=
  ⟨List.mem_of_find?_eq_some h, by simpa using List.find?_some h⟩

section
variable {db : Tables} {lo hi : Nat} {b : Batch} {ops : List Op}

/-- What landing a batch leaves under a user key. -/
theorem lookup_commit_record (fits : b.Fits inner db lo hi) (data : dataOps ops = b.ops inner)
    (key : Bytes) :
    (db.commit ops).lookup .records (inner.encodeKey key) =
      match b.find key with
      | some w => w.body.record
      | none => if b.cleared.isSome then none else db.lookup .records (inner.encodeKey key) := by
  rw [Tables.lookup_commit, ← written_dataOps ops (by decide), data, written_batch_record fits.nodup]
  cases b.find key with
  | some w => rfl
  | none =>
    dsimp only
    split <;> rfl

theorem lookup_commit_record_other (data : dataOps ops = b.ops inner) {key : Bytes}
    (other : ∀ k, key ≠ inner.encodeKey k) :
    (db.commit ops).lookup .records key = db.lookup .records key := by
  rw [Tables.lookup_commit, ← written_dataOps ops (by decide), data,
    written_batch_record_other other]
  rfl

/-- The pieces of a value that a batch neither stores nor collects stay. -/
theorem lookup_commit_chunk (data : dataOps ops = b.ops inner) {id : UInt64} (hn : id ∉ b.newIds)
    (hc : id ∉ b.collected) (rest : Bytes) :
    (db.commit ops).lookup .chunks (u64be id ++ rest) = db.lookup .chunks (u64be id ++ rest) := by
  rw [Tables.lookup_commit, ← written_dataOps ops (by decide), data, written_batch_chunk hn,
    if_neg hc]
  rfl

theorem not_collected_of_new (apart : Apart db lo) (fits : b.Fits inner db lo hi)
    {id : UInt64} (h : id ∈ b.newIds) : id ∉ b.collected := by
  intro hc
  obtain ⟨key, raw, p, hraw, hp, rfl, -⟩ := fits.collects id hc
  have h1 := apart.below _ raw p hraw hp
  have h2 := (fits.fresh _ h).1
  omega

/-- A pointer that a batch does not replace keeps its pieces. -/
theorem pieces_of_kept (apart : Apart db lo) (fits : b.Fits inner db lo hi)
    (data : dataOps ops = b.ops inner) {k raw : Bytes} {p : ChunkPointer}
    (hk : db.lookup .records k = some raw) (hp : ChunkPointer.parse raw = .ok p)
    (kept : ∀ key, k = inner.encodeKey key → b.cleared.isSome = false ∧ b.find key = none)
    (rest : Bytes) :
    (db.commit ops).lookup .chunks (u64be p.valueId ++ rest) =
      db.lookup .chunks (u64be p.valueId ++ rest) := by
  refine lookup_commit_chunk data (fun hn => ?_) (fun hc => ?_) rest
  · have h1 := apart.below _ raw p hk hp
    have h2 := (fits.fresh _ hn).1
    omega
  · obtain ⟨key, raw', p', hraw', hp', hid, hrepl⟩ := fits.collects _ hc
    obtain ⟨hcl, hf⟩ := kept key (apart.unique _ _ _ _ _ _ hk hraw' hp hp' hid.symm)
    simp [hcl, hf] at hrepl

theorem storedPieces_of_written (apart : Apart db lo) (fits : b.Fits inner db lo hi)
    (data : dataOps ops = b.ops inner) {w : KeyWrite} (hw : w ∈ b.writes) {p : ChunkPointer}
    {sealed : List Bytes} (hb : w.body = .chunked p sealed) {seq : Nat}
    (hseq : seq < p.nChunks.toNat) :
    (db.commit ops).lookup .chunks (chunkKey p.valueId (UInt32.ofNat seq)) = sealed[seq]? := by
  have hwhole := fits.whole w hw
  rw [hb] at hwhole
  obtain ⟨-, hlen⟩ := hwhole
  have hnew : p.valueId ∈ b.newIds := List.mem_filterMap.2 ⟨w, hw, by rw [hb]; rfl⟩
  have hroom : sealed.length ≤ 2 ^ 32 := by
    have h1 := p.nChunks.toNat_lt
    omega
  rw [Tables.lookup_commit, ← written_dataOps ops (by decide), data,
    written_batch_piece fits.ids hw hb (not_collected_of_new apart fits hnew) hroom (by omega),
    List.getElem?_eq_getElem (by omega)]
  rfl

/-- A batch stores one value under each of its value ids. -/
theorem eq_of_newId {writes : List KeyWrite} {id : UInt64}
    (nodup : (writes.filterMap fun w => w.body.newId).Nodup) {w w' : KeyWrite} (hw : w ∈ writes)
    (hw' : w' ∈ writes) (h : w.body.newId = some id) (h' : w'.body.newId = some id) : w = w' := by
  induction writes with
  | nil => cases hw
  | cons x writes ih =>
    -- Once the head has the id, nothing after it has.
    have alone (hx : x.body.newId = some id) (y : KeyWrite) (hy : y ∈ writes) :
        y.body.newId ≠ some id := by
      intro hid
      rw [List.filterMap_cons, hx] at nodup
      exact (List.nodup_cons.1 nodup).1 (List.mem_filterMap.2 ⟨y, hy, hid⟩)
    have htail : (writes.filterMap fun w => w.body.newId).Nodup := by
      rw [List.filterMap_cons] at nodup
      split at nodup
      · exact nodup
      · exact (List.nodup_cons.1 nodup).2
    rcases List.mem_cons.1 hw with rfl | htail₁
    · rcases List.mem_cons.1 hw' with rfl | htail₂
      · rfl
      · exact absurd h' (alone h w' htail₂)
    · rcases List.mem_cons.1 hw' with rfl | htail₂
      · exact absurd h (alone h' w htail₁)
      · exact ih htail htail₁ htail₂

theorem not_pointer_of_isPointer {raw : Bytes} (h : isPointer raw = false) (p : ChunkPointer) :
    ChunkPointer.parse raw ≠ .ok p := by
  intro hp
  rw [isPointer_of_parse hp] at h
  cases h

/-- A batch that fits leaves a well-formed store, under the cursor past the value ids it took. -/
theorem wellFormed_commit (wf : WellFormed inner db lo) (fits : b.Fits inner db lo hi)
    (data : dataOps ops = b.ops inner) : WellFormed inner (db.commit ops) hi := by
  -- What is stored under a key is what was, with its pieces, or what the batch wrote.
  have record (k raw : Bytes) (h : (db.commit ops).lookup .records k = some raw) :
      (db.lookup .records k = some raw ∧
        ∀ key, k = inner.encodeKey key → b.cleared.isSome = false ∧ b.find key = none) ∨
      ∃ w ∈ b.writes, k = inner.encodeKey w.key ∧ w.body.record = some raw := by
    by_cases hown : ∃ key, k = inner.encodeKey key
    · obtain ⟨key, rfl⟩ := hown
      rw [lookup_commit_record fits data] at h
      cases hf : b.find key with
      | some w =>
        obtain ⟨hw, rfl⟩ := mem_writes_of_find hf
        rw [hf] at h
        exact .inr ⟨w, hw, rfl, h⟩
      | none =>
        rw [hf] at h
        dsimp only at h
        split at h
        · cases h
        · next hcl =>
          refine .inl ⟨h, fun key' hkey' => ?_⟩
          obtain rfl := encodeKey_inj.1 hkey'
          exact ⟨by simpa using hcl, hf⟩
    · rw [lookup_commit_record_other data fun key hk => hown ⟨key, hk⟩] at h
      exact .inl ⟨h, fun key hk => absurd ⟨key, hk⟩ hown⟩
  have new (w : KeyWrite) (raw : Bytes) (p : ChunkPointer) (hw : w ∈ b.writes)
      (hraw : w.body.record = some raw) (hp : ChunkPointer.parse raw = .ok p) :
      ∃ sealed, w.body = .chunked p sealed := by
    have hwhole := fits.whole w hw
    cases hb : w.body with
    | gone => simp [hb, Body.record] at hraw
    | inline sealed =>
      obtain rfl : sealed = raw := by simpa [hb, Body.record] using hraw
      rw [hb] at hwhole
      exact absurd hp (not_pointer_of_isPointer hwhole p)
    | chunked q sealed =>
      have hq : q.encode = raw := by simpa [hb, Body.record] using hraw
      obtain ⟨hp', -⟩ := parse_eq_ok.1 hp
      obtain rfl := encode_inj (hq.trans hp')
      exact ⟨sealed, rfl⟩
  have newId {w : KeyWrite} {p : ChunkPointer} {sealed : List Bytes} (hw : w ∈ b.writes)
      (hb : w.body = .chunked p sealed) : p.valueId ∈ b.newIds :=
    List.mem_filterMap.2 ⟨w, hw, by rw [hb]; rfl⟩
  have old {k raw : Bytes} {p : ChunkPointer} (hk : db.lookup .records k = some raw)
      (hp : ChunkPointer.parse raw = .ok p) : p.valueId ∉ b.newIds := by
    intro hn
    have h1 := wf.below k raw p hk hp
    have h2 := (fits.fresh _ hn).1
    omega
  refine ⟨?_, ?_, ?_⟩
  · intro key raw h hptr
    rcases record _ raw h with ⟨hk, kept⟩ | ⟨w, hw, -, hraw⟩
    · obtain ⟨p, hp, hall⟩ := wf.whole key raw hk hptr
      refine ⟨p, hp, fun seq hseq => ?_⟩
      rw [chunkKey, pieces_of_kept wf.apart fits data hk hp kept]
      exact hall seq hseq
    · have hwhole := fits.whole w hw
      cases hb : w.body with
      | gone => simp [hb, Body.record] at hraw
      | inline sealed =>
        obtain rfl : sealed = raw := by simpa [hb, Body.record] using hraw
        rw [hb] at hwhole
        simp [show isPointer sealed = false from hwhole] at hptr
      | chunked p sealed =>
        obtain rfl : p.encode = raw := by simpa [hb, Body.record] using hraw
        rw [hb] at hwhole
        refine ⟨p, parse_eq_ok.2 ⟨rfl, hwhole.1⟩, fun seq hseq => ?_⟩
        rw [storedPieces_of_written wf.apart fits data hw hb hseq, List.getElem?_eq_getElem
          (by have := hwhole.2; omega)]
        rfl
  · intro k k' raw raw' p p' h h' hp hp' hid
    rcases record k raw h with ⟨hk, -⟩ | ⟨w, hw, rfl, hraw⟩
    · rcases record k' raw' h' with ⟨hk', -⟩ | ⟨w', hw', rfl, hraw'⟩
      · exact wf.unique k k' raw raw' p p' hk hk' hp hp' hid
      · obtain ⟨sealed, hb⟩ := new w' raw' p' hw' hraw' hp'
        exact absurd (hid ▸ newId hw' hb) (old hk hp)
    · obtain ⟨sealed, hb⟩ := new w raw p hw hraw hp
      rcases record k' raw' h' with ⟨hk', -⟩ | ⟨w', hw', rfl, hraw'⟩
      · exact absurd (hid ▸ newId hw hb) (old hk' hp')
      · obtain ⟨sealed', hb'⟩ := new w' raw' p' hw' hraw' hp'
        have hsame : w = w' := eq_of_newId fits.ids hw hw' (by rw [hb]; rfl) (by rw [hb', hid]; rfl)
        rw [hsame]
  · intro k raw p h hp
    rcases record k raw h with ⟨hk, -⟩ | ⟨w, hw, rfl, hraw⟩
    · have h1 := wf.below k raw p hk hp
      have h2 := fits.le
      omega
    · obtain ⟨sealed, hb⟩ := new w raw p hw hraw hp
      exact (fits.fresh _ (newId hw hb)).2

/-! ## Payloads -/

/-- What a write stores: the sealed payload, or its sealed pieces; nothing, when it removes. -/
def Body.Holds (inner : Inner T) : Body → Option Bytes → Prop
  | .gone, none => True
  | .inline sealed, some payload => inner.chain.sealSlice payload = .ok sealed
  | .chunked p sealed, some payload => p.totalLen.toNat = payload.length ∧
    ∃ pieces, List.Forall₂ (fun piece s => inner.chain.sealSlice piece = .ok s) pieces sealed ∧
      pieces.flatten = payload
  | _, _ => False

theorem payloadOf_written (inverts : inner.chain.Inverts) (apart : Apart db lo)
    (fits : b.Fits inner db lo hi) (data : dataOps ops = b.ops inner) {w : KeyWrite}
    (hw : w ∈ b.writes) {payload : Option Bytes} (holds : w.body.Holds inner payload)
    (small : ∀ bytes, payload = some bytes → bytes.length ≤ MAX_DECODED_BYTES) :
    w.body.record.map (inner.payloadOf (db.commit ops)) = payload.map .ok := by
  have hwhole := fits.whole w hw
  cases hb : w.body with
  | gone =>
    rw [hb] at holds
    cases payload with
    | none => rfl
    | some bytes => exact holds.elim
  | inline sealed =>
    rw [hb] at holds hwhole
    cases payload with
    | none => exact holds.elim
    | some bytes =>
      have hptr : ¬ isPointer sealed = true := by simp [show isPointer sealed = false from hwhole]
      rw [Body.record, Option.map_some, Inner.payloadOf, if_neg hptr]
      exact congrArg some (inverts bytes sealed (small bytes rfl) holds)
  | chunked p sealed =>
    rw [hb] at holds hwhole
    cases payload with
    | none => exact holds.elim
    | some bytes =>
      obtain ⟨hlen, pieces, hall, rfl⟩ := holds
      obtain ⟨within, hcount⟩ := hwhole
      have hstored : Inner.storedPieces (db.commit ops) p = sealed.map some := by
        refine List.ext_getElem (by simp [Inner.storedPieces, hcount]) fun n h1 h2 => ?_
        rw [List.length_map] at h2
        simp only [Inner.storedPieces, List.getElem_map, List.getElem_range', Nat.zero_add,
          Nat.one_mul]
        rw [storedPieces_of_written apart fits data hw hb (by omega), List.getElem?_eq_getElem h2]
      have happend : inner.appendPieces p 0 (sealed.map some) [] = _ :=
        Inner.appendPieces_sealed inner inverts hall within.1 (by simp [hlen])
      rw [Body.record, Option.map_some, Inner.payloadOf, if_pos (isPointer_encode p),
        parse_eq_ok.2 ⟨rfl, within⟩]
      simp only [bind, Except.bind, Inner.assemble, hstored, happend, List.nil_append, hlen]
      simp

/-- A payload that a batch does not replace is read as before. -/
theorem payloadOf_kept (apart : Apart db lo) (fits : b.Fits inner db lo hi)
    (data : dataOps ops = b.ops inner) {key raw : Bytes}
    (hk : db.lookup .records (inner.encodeKey key) = some raw) (hcl : b.cleared.isSome = false)
    (hf : b.find key = none) : inner.payloadOf (db.commit ops) raw = inner.payloadOf db raw := by
  unfold Inner.payloadOf
  split
  · next hptr =>
    have kept (key' : Bytes) (he : inner.encodeKey key = inner.encodeKey key') :
        b.cleared.isSome = false ∧ b.find key' = none := by
      obtain rfl := encodeKey_inj.1 he
      exact ⟨hcl, hf⟩
    cases hp : ChunkPointer.parse raw with
    | error e => rfl
    | ok p =>
      have hpieces : Inner.storedPieces (db.commit ops) p = Inner.storedPieces db p :=
        List.map_congr_left fun s _ => pieces_of_kept apart fits data hk hp kept _
      simp only [bind, Except.bind, Inner.assemble, hpieces]
  · rfl

/-- What payloads a locker holds once a batch has landed. -/
theorem storedAt_commit (inverts : inner.chain.Inverts) (apart : Apart db lo)
    (fits : b.Fits inner db lo hi) (data : dataOps ops = b.ops inner) (want : Bytes → Option Bytes)
    (holds : ∀ w ∈ b.writes, w.body.Holds inner (want w.key))
    (small : ∀ key bytes, want key = some bytes → bytes.length ≤ MAX_DECODED_BYTES) (key : Bytes) :
    inner.storedAt (db.commit ops) key =
      match b.find key with
      | some _ => (want key).map .ok
      | none => if b.cleared.isSome then none else inner.storedAt db key := by
  rw [Inner.storedAt, lookup_commit_record fits data]
  cases hf : b.find key with
  | some w =>
    obtain ⟨hw, rfl⟩ := mem_writes_of_find hf
    exact payloadOf_written inverts apart fits data hw (holds w hw) (small _)
  | none =>
    dsimp only
    split
    · rfl
    · next hcl =>
      rw [Inner.storedAt]
      cases hk : db.lookup .records (inner.encodeKey key) with
      | none => rfl
      | some raw =>
        exact congrArg some (payloadOf_kept apart fits data hk (by simpa using hcl) hf)

end

end
end Crossbank
