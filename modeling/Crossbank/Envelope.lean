import Crossbank.Codec

/-!
# Envelopes from buffers

A chain owns its intermediate buffers and hands them to its filters, which may work in place.

* `OwningFilter`, `OwningChain` : a filter with both versions of each direction, and a chain of them;
* `OwningChain.sealOwned`, `sealSlice`, `openStored` : wrap a payload by value or from a borrow, and unwrap;
* `OwningChain.borrowing` : the chain that only lends; where the versions agree both chains do the
  same (`seal_borrowing`, `openStored_borrowing`);
* `crc32`, `verify` : the checksum filter, for the hash of the checksum crate;
* `opens_sealed` : an envelope opens to what was sealed, and to nothing else.
-/

namespace Crossbank

/-- A reversible byte transform that may be handed a buffer to consume. -/
structure OwningFilter extends Filter where
  forwardOwned : Bytes → Except Error Bytes := forward
  reverseOwned : Bytes → Except Error Bytes := reverse

structure OwningChain where
  id : UInt8
  filters : List OwningFilter

namespace OwningChain

/-- The same chain, where every buffer is lent. -/
def borrowing (chain : OwningChain) : FilterChain := ⟨chain.id, chain.filters.map (·.toFilter)⟩

/-- `FilterChain::seal`. -/
def sealOwned (chain : OwningChain) (payload : Bytes) : Except Error Bytes := do
  let body ← chain.filters.foldlM (fun body filter => filter.forwardOwned body) payload
  .ok (header chain.id ++ body)

def sealSlice (chain : OwningChain) (payload : Bytes) : Except Error Bytes := chain.sealOwned payload

def openStored (chain : OwningChain) (stored : Bytes) : Except Error Bytes :=
  if stored.length < HEADER_LEN then
    .error (.corrupt s!"value is {stored.length} bytes, shorter than the {HEADER_LEN} byte header")
  else if stored.take 4 ≠ MAGIC then
    .error (.corrupt "value does not carry the crossbank magic")
  else
    let version := stored.getD 4 0
    let chainId := stored.getD 5 0
    if version ≠ VERSION then .error (.unsupportedVersion version.toNat VERSION.toNat)
    else if chainId ≠ chain.id then
      .error (.schemaMismatch s!"chain {chainId}" chain.borrowing.describe)
    else chain.filters.reverse.foldlM (fun body filter => filter.reverseOwned body)
      (stored.drop HEADER_LEN)

/-- Every filter does the same with a buffer it owns as with one it borrows. -/
def OwnsAlike (chain : OwningChain) : Prop :=
  ∀ filter ∈ chain.filters, ∀ x, filter.forwardOwned x = filter.forward x ∧
    filter.reverseOwned x = filter.reverse x

/-- The reverse of every filter undoes its forward. -/
def Undoes (chain : OwningChain) : Prop :=
  ∀ filter ∈ chain.filters, ∀ x y, filter.forward x = .ok y → filter.reverse y = .ok x

theorem foldlM_congr {ε α β : Type} {l : List α} {f g : β → α → Except ε β}
    (same : ∀ a ∈ l, ∀ b, f b a = g b a) (b : β) : l.foldlM f b = l.foldlM g b := by
  induction l generalizing b with
  | nil => rfl
  | cons a l ih =>
    rw [List.foldlM_cons, List.foldlM_cons, same a List.mem_cons_self]
    exact congrArg _ (funext fun b => ih (fun a ha => same a (List.mem_cons_of_mem _ ha)) b)

variable {chain : OwningChain}

theorem seal_borrowing (alike : chain.OwnsAlike) (payload : Bytes) :
    chain.sealOwned payload = chain.borrowing.sealSlice payload := by
  rw [sealOwned, FilterChain.sealSlice, borrowing, List.foldlM_map,
    foldlM_congr fun filter hmem body => (alike filter hmem body).1]

theorem openStored_borrowing (alike : chain.OwnsAlike) (stored : Bytes) :
    chain.openStored stored = chain.borrowing.openStored stored := by
  have filters (body : Bytes) :
      chain.filters.reverse.foldlM (fun body filter => filter.reverseOwned body) body =
        chain.borrowing.filters.reverse.foldlM (fun body filter => filter.reverse body) body := by
    rw [borrowing, ← List.map_reverse, List.foldlM_map]
    exact foldlM_congr (fun filter hmem body => (alike filter (List.mem_reverse.1 hmem) body).2) body
  rw [openStored, filters]
  rfl

theorem undoes_borrowing (undoes : chain.Undoes) : ∀ filter ∈ chain.borrowing.filters, ∀ x y,
    filter.forward x = .ok y → filter.reverse y = .ok x := by
  intro filter hmem
  obtain ⟨owning, howning, rfl⟩ := List.mem_map.1 hmem
  exact undoes owning howning

end OwningChain

namespace FilterChain

/-- A chain refuses what does not begin with its own header. -/
theorem openStored_error {chain : FilterChain} {stored : Bytes}
    (other : stored.take HEADER_LEN ≠ header chain.id) : ∃ e, chain.openStored stored = .error e := by
  rw [openStored]
  split
  · exact ⟨_, rfl⟩
  next long =>
  split
  · exact ⟨_, rfl⟩
  next magic =>
  dsimp only
  split
  · exact ⟨_, rfl⟩
  next version =>
  split
  · exact ⟨_, rfl⟩
  next id =>
  refine absurd ?_ other
  unfold HEADER_LEN at long
  have fifth : stored[4]? = some VERSION := by
    rw [← not_not.1 version, List.getD_eq_getElem _ _ (by omega), List.getElem?_eq_getElem]
  have sixth : stored[5]? = some chain.id := by
    rw [← not_not.1 id, List.getD_eq_getElem _ _ (by omega), List.getElem?_eq_getElem]
  show stored.take 6 = MAGIC ++ [VERSION, chain.id]
  rw [List.take_add_one, List.take_add_one, fifth, sixth, not_not.1 magic]
  rfl

end FilterChain

/-! ## The checksum -/

def u32le (n : UInt32) : Bytes := (u32be n).reverse

def u32FromLe (b : Bytes) : UInt32 := UInt32.ofNat (beNat b.reverse)

@[simp] theorem length_u32le (n : UInt32) : (u32le n).length = 4 := by simp [u32le]

@[simp] theorem u32FromLe_u32le (n : UInt32) : u32FromLe (u32le n) = n := by
  rw [u32FromLe, u32le, List.reverse_reverse, beNat_u32be, UInt32.ofNat_toNat]

theorem u32le_u32FromLe {b : Bytes} (h : b.length = 4) : u32le (u32FromLe b) = b := by
  rw [u32le, u32FromLe, u32be_ofNat_beNat (by rwa [List.length_reverse]), List.reverse_reverse]

def hex32 (n : UInt32) : String :=
  "0x" ++ String.ofList ((Nat.toDigits 16 n.toNat).leftpad 8 '0')

section
variable (hash : Bytes → UInt32)

/-- Check the trailing checksum, and hand back the body it covers. -/
def verify (input : Bytes) : Except Error Bytes :=
  if input.length < 4 then .error (.corrupt "value is too short to carry a CRC32")
  else
    let body := input.take (input.length - 4)
    let expected := u32FromLe (input.drop (input.length - 4))
    let actual := hash body
    if expected ≠ actual then
      .error (.corrupt s!"CRC32 mismatch: stored {hex32 expected}, computed {hex32 actual}")
    else .ok body

def crc32 : OwningFilter where
  name := "crc32"
  forward input := .ok (input ++ u32le (hash input))
  reverse input := verify hash input
  forwardOwned input := .ok (input ++ u32le (hash input))
  reverseOwned input := do
    let body ← verify hash input
    .ok (input.take body.length)

theorem verify_eq_ok {input body : Bytes} :
    verify hash input = .ok body ↔ input = body ++ u32le (hash body) := by
  rw [verify]
  constructor
  · intro h
    split at h
    · cases h
    · next long =>
      dsimp only at h
      split at h
      · cases h
      · next same =>
        have tail : (input.drop (input.length - 4)).length = 4 := by
          rw [List.length_drop]
          omega
        obtain rfl := Except.ok.inj h
        rw [← not_not.1 same, u32le_u32FromLe tail, List.take_append_drop]
  · rintro rfl
    have length : (body ++ u32le (hash body)).length - 4 = body.length := by simp
    rw [if_neg (by simp)]
    dsimp only
    rw [length, List.take_left' rfl, List.drop_left' rfl, u32FromLe_u32le, if_neg (not_not_intro rfl)]

/-- Both ways back agree. They accept and reject alike. -/
theorem crc32_reverseOwned (input : Bytes) :
    (crc32 hash).reverseOwned input = (crc32 hash).reverse input := by
  show (verify hash input >>= fun body => .ok (input.take body.length)) = verify hash input
  cases h : verify hash input with
  | error e => rfl
  | ok body =>
    have whole := (verify_eq_ok hash).1 h
    show Except.ok (input.take body.length) = .ok body
    rw [whole, List.take_left' rfl]

theorem crc32_ownsAlike (id : UInt8) : (OwningChain.mk id [crc32 hash]).OwnsAlike := by
  intro filter hmem x
  obtain rfl := List.mem_singleton.1 hmem
  exact ⟨rfl, crc32_reverseOwned hash x⟩

theorem crc32_undoes (id : UInt8) : (OwningChain.mk id [crc32 hash]).Undoes := by
  intro filter hmem x y h
  obtain rfl := List.mem_singleton.1 hmem
  exact (verify_eq_ok hash).2 (Except.ok.inj h).symm

/-- An envelope opens to what was sealed, and to nothing else. -/
theorem opens_sealed {chain : OwningChain} (undoes : chain.Undoes) (alike : chain.OwnsAlike) :
    (∀ payload sealed, chain.sealOwned payload = .ok sealed → chain.openStored sealed = .ok payload) ∧
    (∀ payload, chain.sealSlice payload = chain.sealOwned payload) ∧
    (∀ stored, stored.take HEADER_LEN ≠ header chain.id → ∃ e, chain.openStored stored = .error e) ∧
    (∀ input, (crc32 hash).reverseOwned input = (crc32 hash).reverse input) ∧
    ∀ input body, (crc32 hash).reverse input = .ok body ↔ (crc32 hash).forward body = .ok input := by
  refine ⟨fun payload sealed h => ?_, fun payload => rfl, fun stored other => ?_,
    crc32_reverseOwned hash, fun input body => ?_⟩
  · rw [OwningChain.seal_borrowing alike] at h
    rw [OwningChain.openStored_borrowing alike]
    obtain ⟨sealedBody, hbody, rfl⟩ := FilterChain.sealSlice_eq_ok.1 h
    exact (FilterChain.openStored_header sealedBody).trans
      (FilterChain.foldlM_reverse_of_foldlM_forward (OwningChain.undoes_borrowing undoes) hbody)
  · rw [OwningChain.openStored_borrowing alike]
    exact FilterChain.openStored_error other
  · show verify hash input = .ok body ↔ Except.ok (body ++ u32le (hash body)) = .ok input
    rw [verify_eq_ok, Except.ok.injEq, eq_comm]

end

def crcBits : Nat → UInt32 → UInt32
  | 0, c => c
  | n + 1, c => crcBits n (if c &&& 1 = 1 then (c >>> 1) ^^^ 0xEDB88320 else c >>> 1)

def crcBitwise (bytes : Bytes) : UInt32 :=
  bytes.foldl (fun c b => crcBits 8 (c ^^^ b.toUInt32)) 0xFFFFFFFF ^^^ 0xFFFFFFFF

/-- The letter `a` under the checksum chain. -/
theorem opens_sealed_checksum : ∃ sealed, (OwningChain.mk 2 [crc32 crcBitwise]).sealOwned [97] =
      .ok sealed ∧ (OwningChain.mk 2 [crc32 crcBitwise]).openStored sealed = .ok [97] := by
  have opens := (opens_sealed crcBitwise (crc32_undoes crcBitwise 2) (crc32_ownsAlike crcBitwise 2)).1
  exact ⟨_, rfl, opens [97] _ rfl⟩

end Crossbank
