import Crossbank.Bytes
import Crossbank.Error

/-!
# The value envelope

* `Filter`, `FilterChain` : reversible byte transforms, and the chain whose id is in every value;
* `FilterChain.sealSlice`, `FilterChain.openStored` : wrap a payload for storage, and unwrap it;
* `Postcard T` : the serialiser of the value type, which is not part of this repository;
* `FilterChain.Inverts`, `FilterChain.Faithful` : the laws of a chain, which it has when its filters
  do (`Inverts.of_filters`, `Faithful.of_filters`);
* `Postcard.vecU8` : the serialiser of byte vectors, which inverts (`vecU8_inverts`) and wraps raw
  bytes (`vecU8_wraps`).
-/

namespace Crossbank

def MAGIC : Bytes := ascii "CBNK"

def VERSION : UInt8 := 1

def HEADER_LEN : Nat := 6

def header (chainId : UInt8) : Bytes := MAGIC ++ [VERSION, chainId]

def MAX_DECODED_BYTES : Nat := 256 * 1024 * 1024

structure Filter where
  name : String
  forward : Bytes → Except Error Bytes
  reverse : Bytes → Except Error Bytes

structure FilterChain where
  id : UInt8
  filters : List Filter

namespace FilterChain

def raw : FilterChain := ⟨0, []⟩

def describe (chain : FilterChain) : String :=
  if chain.filters.isEmpty then s!"chain {chain.id} (raw)"
  else
    let names := " -> ".intercalate (chain.filters.map Filter.name)
    s!"chain {chain.id} ({names})"

def sealSlice (chain : FilterChain) (payload : Bytes) : Except Error Bytes := do
  let body ← chain.filters.foldlM (fun body filter => filter.forward body) payload
  .ok (header chain.id ++ body)

def openStored (chain : FilterChain) (stored : Bytes) : Except Error Bytes :=
  if stored.length < HEADER_LEN then
    .error (.corrupt s!"value is {stored.length} bytes, shorter than the {HEADER_LEN} byte header")
  else if stored.take 4 ≠ MAGIC then
    .error (.corrupt "value does not carry the crossbank magic")
  else
    let version := stored.getD 4 0
    let chainId := stored.getD 5 0
    if version ≠ VERSION then .error (.unsupportedVersion version.toNat VERSION.toNat)
    else if chainId ≠ chain.id then
      .error (.schemaMismatch s!"chain {chainId}" chain.describe)
    else chain.filters.reverse.foldlM (fun body filter => filter.reverse body) (stored.drop HEADER_LEN)

/-- What a chain seals, it opens again, up to the size it refuses to decode. -/
def Inverts (chain : FilterChain) : Prop :=
  ∀ payload sealed, payload.length ≤ MAX_DECODED_BYTES → chain.sealSlice payload = .ok sealed →
    chain.openStored sealed = .ok payload

/-- Whatever a chain opens of what it sealed is what it sealed. It may refuse what decodes past its
limit. -/
def Faithful (chain : FilterChain) : Prop :=
  ∀ payload sealed opened, chain.sealSlice payload = .ok sealed →
    chain.openStored sealed = .ok opened → opened = payload

end FilterChain

/-- How values of `T` are serialised. `wrapRaw` serialises a byte string as a value. -/
structure Postcard (T : Type) where
  toAllocvec : T → Except String Bytes
  fromBytes : Bytes → Except String T
  wrapRaw : Bytes → Except String Bytes

namespace Postcard
variable {T : Type} (value : Postcard T)

def payload (v : T) : Except Error Bytes :=
  match value.toAllocvec v with
  | .ok bytes => .ok bytes
  | .error e => .error (.filter s!"postcard serialisation failed: {e}")

def ofPayload (bytes : Bytes) : Except Error T :=
  match value.fromBytes bytes with
  | .ok v => .ok v
  | .error e => .error (.corrupt s!"postcard deserialisation failed: {e}")

def encode (chain : FilterChain) (v : T) : Except Error Bytes := do
  let payload ← value.payload v
  chain.sealSlice payload

def decode (chain : FilterChain) (stored : Bytes) : Except Error T := do
  let payload ← chain.openStored stored
  value.ofPayload payload

def Inverts : Prop := ∀ v bytes, value.toAllocvec v = .ok bytes → value.fromBytes bytes = .ok v

/-- A byte string that a reader accepts is a value, once it is serialised as one. -/
def Wraps (value : Postcard Bytes) : Prop :=
  ∀ b, b.length ≤ MAX_DECODED_BYTES → ∃ wrapped, value.wrapRaw b = .ok wrapped ∧
    value.fromBytes wrapped = .ok b

end Postcard

/-! ## Sealed values -/

namespace FilterChain
variable {chain : FilterChain} {payload sealed : Bytes}

theorem sealSlice_eq_ok : chain.sealSlice payload = .ok sealed ↔
    ∃ body, chain.filters.foldlM (fun body filter => filter.forward body) payload = .ok body ∧
      sealed = header chain.id ++ body := by
  rw [sealSlice, bind_eq_ok]
  simp only [Except.ok.injEq, eq_comm (b := sealed)]

theorem openStored_header (body : Bytes) :
    chain.openStored (header chain.id ++ body) =
      chain.filters.reverse.foldlM (fun body filter => filter.reverse body) body := by
  have hm : MAGIC = [67, 66, 78, 75] := by decide
  simp [openStored, header, hm, HEADER_LEN]

theorem foldlM_reverse_of_foldlM_forward {filters : List Filter} {x y : Bytes}
    (h : ∀ filter ∈ filters, ∀ x y, filter.forward x = .ok y → filter.reverse y = .ok x)
    (hxy : filters.foldlM (fun body filter => filter.forward body) x = .ok y) :
    filters.reverse.foldlM (fun body filter => filter.reverse body) y = .ok x := by
  induction filters generalizing x with
  | nil =>
    obtain rfl := pure_eq_ok.1 hxy
    rfl
  | cons filter filters ih =>
    rw [List.foldlM_cons, bind_eq_ok] at hxy
    obtain ⟨mid, hf, hrest⟩ := hxy
    have hback := ih (fun g hg => h g (List.mem_cons_of_mem _ hg)) hrest
    rw [List.reverse_cons, List.foldlM_append, bind_eq_ok]
    exact ⟨mid, hback, by simp [h filter List.mem_cons_self x mid hf]⟩

theorem Inverts.of_filters
    (h : ∀ filter ∈ chain.filters, ∀ x y, filter.forward x = .ok y → filter.reverse y = .ok x) :
    chain.Inverts := by
  intro payload sealed _ hs
  obtain ⟨body, hb, rfl⟩ := sealSlice_eq_ok.1 hs
  rw [openStored_header]
  exact foldlM_reverse_of_foldlM_forward h hb

end FilterChain

namespace FilterChain
variable {chain : FilterChain}

theorem eq_of_foldlM_reverse {filters : List Filter} {x y z : Bytes}
    (h : ∀ filter ∈ filters, ∀ x y z, filter.forward x = .ok y → filter.reverse y = .ok z → z = x)
    (hxy : filters.foldlM (fun body filter => filter.forward body) x = .ok y)
    (hyz : filters.reverse.foldlM (fun body filter => filter.reverse body) y = .ok z) : z = x := by
  induction filters generalizing x z with
  | nil =>
    obtain rfl := pure_eq_ok.1 hxy
    exact (pure_eq_ok.1 hyz).symm
  | cons filter filters ih =>
    rw [List.foldlM_cons, bind_eq_ok] at hxy
    obtain ⟨mid, hf, hrest⟩ := hxy
    rw [List.reverse_cons, List.foldlM_append, bind_eq_ok] at hyz
    obtain ⟨back, hback, hlast⟩ := hyz
    obtain rfl := ih (fun g hg => h g (List.mem_cons_of_mem _ hg)) hrest hback
    refine h filter List.mem_cons_self x back z hf ?_
    simpa using hlast

theorem Faithful.of_filters
    (h : ∀ filter ∈ chain.filters, ∀ x y z, filter.forward x = .ok y → filter.reverse y = .ok z →
      z = x) : chain.Faithful := by
  intro payload sealed opened hs ho
  obtain ⟨body, hb, rfl⟩ := sealSlice_eq_ok.1 hs
  rw [openStored_header] at ho
  exact eq_of_foldlM_reverse h hb ho

end FilterChain

/-! ## Byte vectors -/

namespace Postcard

/-- `n` in groups of seven bits, least significant first, in at most `fuel` bytes. -/
def varint : Nat → Nat → Bytes
  | 0, _ => []
  | fuel + 1, n =>
    if n < 128 then [UInt8.ofNat n] else UInt8.ofNat (n % 128 + 128) :: varint fuel (n / 128)

/-- The number in front of a byte string, and what follows it. -/
def takeVarint : Nat → Bytes → Option (Nat × Bytes)
  | 0, _ | _, [] => none
  | fuel + 1, b :: rest =>
    if b.toNat < 128 then some (b.toNat, rest)
    else (takeVarint fuel rest).map fun (n, rest) => (b.toNat - 128 + 128 * n, rest)

/-- A byte vector is its length, then its bytes. -/
def vecU8 : Postcard Bytes where
  toAllocvec v := if v.length < 2 ^ 64 then .ok (varint 10 v.length ++ v) else .error "length"
  fromBytes bytes :=
    match takeVarint 10 bytes with
    | none => .error "Found a varint that didn't terminate"
    | some (n, rest) => if n ≤ rest.length then .ok (rest.take n) else .error "Hit the end of buffer"
  wrapRaw v := if v.length < 2 ^ 64 then .ok (varint 10 v.length ++ v) else .error "length"

theorem takeVarint_varint {fuel n : Nat} (h : n < 128 ^ (fuel + 1)) (rest : Bytes) :
    takeVarint (fuel + 1) (varint (fuel + 1) n ++ rest) = some (n, rest) := by
  induction fuel generalizing n with
  | zero =>
    have hn : n < 128 := by simpa using h
    have hb : (UInt8.ofNat n).toNat = n := toNat_ofNat_byte (by omega)
    simp [varint, takeVarint, hb, hn]
  | succ fuel ih =>
    rw [varint]
    split
    · next hn =>
      have hb : (UInt8.ofNat n).toNat = n := toNat_ofNat_byte (by omega)
      simp [takeVarint, hb, hn]
    · next hn =>
      have hb : (UInt8.ofNat (n % 128 + 128)).toNat = n % 128 + 128 :=
        toNat_ofNat_byte (by omega)
      have hdiv : n / 128 < 128 ^ (fuel + 1) :=
        Nat.div_lt_of_lt_mul (by rwa [pow_succ, Nat.mul_comm] at h)
      rw [List.cons_append, takeVarint, hb, ih hdiv, if_neg (by omega), Option.map_some]
      simp only [Nat.add_sub_cancel, Nat.mod_add_div]

theorem vecU8_inverts : vecU8.Inverts := by
  intro v bytes h
  simp only [vecU8] at h ⊢
  split at h
  · next hlt =>
    obtain rfl := Except.ok.inj h
    rw [takeVarint_varint (lt_trans hlt (by norm_num))]
    simp
  · cases h

theorem vecU8_wraps : vecU8.Wraps := by
  intro b hb
  have hmax : MAX_DECODED_BYTES < 2 ^ 64 := by decide
  have hlt : b.length < 2 ^ 64 := by omega
  refine ⟨varint 10 b.length ++ b, if_pos hlt, ?_⟩
  exact vecU8_inverts b _ (if_pos hlt)

end Postcard
end Crossbank
