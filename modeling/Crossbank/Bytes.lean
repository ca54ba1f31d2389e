import Mathlib

/-!
# Byte strings

* `asBytes` : the UTF-8 bytes of a string, and `fromUtf8` back; `utf8Error` : what stands in the way;
* `u32be`, `u64be` and `u32FromBe`, `u64FromBe` : fixed-width big-endian integers;
* `compare_append` : strings of one length in front sort byte strings.
-/

namespace Crossbank

abbrev Bytes := List UInt8

/-- A set of keys, listed in byte order. -/
abbrev KeySet := Std.ExtTreeSet Bytes compare

instance : LawfulBEq Bytes := List.instLawfulBEq

def ascii (s : String) : Bytes := s.toList.map fun c => UInt8.ofNat c.toNat

def asBytes (s : String) : Bytes := s.toByteArray.data.toList

/-- The string a byte string spells, or nothing when it is not UTF-8. -/
def fromUtf8 (b : Bytes) : Option String := String.fromUTF8? ⟨b.toArray⟩

theorem toNat_ofNat_byte {n : Nat} (h : n < 256) : (UInt8.ofNat n).toNat = n :=
  UInt8.toNat_ofNat_of_lt h

theorem toNat_ofNat_u32 {n : Nat} (h : n < 2 ^ 32) : (UInt32.ofNat n).toNat = n :=
  UInt32.toNat_ofNat_of_lt h

theorem asBytes_inj {s t : String} : asBytes s = asBytes t ↔ s = t := by
  constructor
  · intro h
    exact String.toByteArray_inj.1 (ByteArray.ext (Array.toList_inj.1 h))
  · rintro rfl
    rfl

@[simp] theorem fromUtf8_asBytes (s : String) : fromUtf8 (asBytes s) = some s := by
  have h : (⟨(asBytes s).toArray⟩ : ByteArray) = s.toByteArray := rfl
  rw [fromUtf8, h, String.fromUTF8?, dif_pos s.isValidUTF8]
  rfl

theorem asBytes_of_fromUtf8 {b : Bytes} {s : String} (h : fromUtf8 b = some s) : b = asBytes s := by
  rw [fromUtf8, String.fromUTF8?] at h
  split at h
  · rw [← Option.some.inj h]
    rfl
  · cases h

def isContinuation (b : UInt8) : Bool := 0x80 ≤ b ∧ b ≤ 0xBF

/-- How many of some bytes are continuations, before the first that is none; `none` when all are. -/
def continued : Nat → Bytes → Option Nat
  | 0, _ => some 0
  | _ + 1, [] => none
  | n + 1, b :: rest => if isContinuation b then (continued n rest).map (· + 1) else some 0

/-- The second byte after a first one, where not every continuation may follow. -/
def followsFirst (first second : UInt8) : Bool :=
  if first = 0xE0 then 0xA0 ≤ second ∧ second ≤ 0xBF
  else if first = 0xED then 0x80 ≤ second ∧ second ≤ 0x9F
  else if first = 0xF0 then 0x90 ≤ second ∧ second ≤ 0xBF
  else if first = 0xF4 then 0x80 ≤ second ∧ second ≤ 0x8F
  else isContinuation second

/-- The length of a character that starts with a byte. -/
def charWidth (first : UInt8) : Nat :=
  if first < 0x80 then 1
  else if 0xC2 ≤ first ∧ first ≤ 0xDF then 2
  else if 0xE0 ≤ first ∧ first ≤ 0xEF then 3
  else if 0xF0 ≤ first ∧ first ≤ 0xF4 then 4
  else 0

/-- The length of the first character, or that of what is none: `none` when the bytes end in it. -/
def firstChar (first : UInt8) (rest : Bytes) : Except (Option Nat) Nat :=
  match charWidth first, rest with
  | 0, _ => .error (some 1)
  | 1, _ => .ok 1
  | _, [] => .error none
  | width, second :: tail =>
    if followsFirst first second then
      match continued (width - 2) tail with
      | none => .error none
      | some n => if n = width - 2 then .ok width else .error (some (n + 2))
    else .error (some 1)

/-- What `Utf8Error` says of the bytes from an index on. -/
def utf8ErrorFrom : Nat → Nat → Bytes → String
  | fuel + 1, index, first :: rest =>
    match firstChar first rest with
    | .ok width => utf8ErrorFrom fuel (index + width) (rest.drop (width - 1))
    | .error none => s!"incomplete utf-8 byte sequence from index {index}"
    | .error (some bad) => s!"invalid utf-8 sequence of {bad} bytes from index {index}"
  | _, _, _ => ""

/-- What `Utf8Error` says of bytes that are not UTF-8. -/
def utf8Error (raw : Bytes) : String := utf8ErrorFrom raw.length 0 raw

/-- A whole character of three bytes, and one that lacks its last. -/
example : utf8Error [0xE2, 0x82, 0xAC, 0xE2, 0x82] = "incomplete utf-8 byte sequence from index 3" := by
  decide

/-! ## Big-endian integers -/

/-- The low `w` bytes of `n`, most significant first. -/
def beBytes : Nat → Nat → Bytes
  | 0, _ => []
  | w + 1, n => beBytes w (n / 256) ++ [UInt8.ofNat n]

/-- The number a byte string spells, most significant byte first. -/
def beNat : Bytes → Nat
  | [] => 0
  | b :: rest => b.toNat * 256 ^ rest.length + beNat rest

def u32be (n : UInt32) : Bytes := beBytes 4 n.toNat

def u64be (n : UInt64) : Bytes := beBytes 8 n.toNat

/-- `<[u8; 4]>::try_from(bytes).map(u32::from_be_bytes)`. -/
def u32FromBe (b : Bytes) : Option UInt32 :=
  if b.length = 4 then some (UInt32.ofNat (beNat b)) else none

/-- `<[u8; 8]>::try_from(bytes).map(u64::from_be_bytes)`. -/
def u64FromBe (b : Bytes) : Option UInt64 :=
  if b.length = 8 then some (UInt64.ofNat (beNat b)) else none

@[simp] theorem length_beBytes (w n : Nat) : (beBytes w n).length = w := by
  induction w generalizing n with
  | zero => rfl
  | succ w ih => simp [beBytes, ih]

@[simp] theorem length_u32be (n : UInt32) : (u32be n).length = 4 := length_beBytes 4 _

@[simp] theorem length_u64be (n : UInt64) : (u64be n).length = 8 := length_beBytes 8 _

theorem beNat_append (a b : Bytes) : beNat (a ++ b) = beNat a * 256 ^ b.length + beNat b := by
  induction a with
  | nil => simp [beNat]
  | cons x a ih =>
    simp only [List.cons_append, beNat, ih, List.length_append, pow_add]
    ring

theorem beNat_lt (b : Bytes) : beNat b < 256 ^ b.length := by
  induction b with
  | nil => simp [beNat]
  | cons x b ih =>
    have hx : x.toNat < 256 := x.toNat_lt
    simp only [beNat, List.length_cons, pow_succ]
    nlinarith [pow_pos (show 0 < 256 by norm_num) b.length]

theorem beNat_beBytes (w n : Nat) : beNat (beBytes w n) = n % 256 ^ w := by
  induction w generalizing n with
  | zero => simp [beBytes, beNat, Nat.mod_one]
  | succ w ih =>
    have hlast : beNat [UInt8.ofNat n] = n % 256 := by simp [beNat]
    rw [beBytes, beNat_append, ih, hlast, List.length_singleton, pow_one, pow_succ,
      Nat.mul_comm (256 ^ w), Nat.mod_mul]
    ring

theorem beBytes_beNat {w : Nat} {b : Bytes} (h : b.length = w) : beBytes w (beNat b) = b := by
  induction b using List.reverseRecOn generalizing w with
  | nil =>
    obtain rfl := h
    rfl
  | append_singleton b x ih =>
    obtain rfl : w = b.length + 1 := by simpa [eq_comm] using h
    have hx := x.toNat_lt
    have hdiv : beNat (b ++ [x]) / 256 = beNat b := by
      rw [beNat_append]
      simp [beNat]
      omega
    have hlast : UInt8.ofNat (beNat (b ++ [x])) = x := by
      apply UInt8.toNat_inj.1
      rw [beNat_append]
      simp [beNat]
    rw [beBytes, hdiv, hlast, ih rfl]

theorem u32be_ofNat_beNat {b : Bytes} (h : b.length = 4) : u32be (UInt32.ofNat (beNat b)) = b := by
  have hlt : beNat b < 2 ^ 32 := by simpa [h] using beNat_lt b
  rw [u32be, UInt32.toNat_ofNat_of_lt' hlt, beBytes_beNat h]

theorem u64be_ofNat_beNat {b : Bytes} (h : b.length = 8) : u64be (UInt64.ofNat (beNat b)) = b := by
  have hlt : beNat b < 2 ^ 64 := by simpa [h] using beNat_lt b
  rw [u64be, UInt64.toNat_ofNat_of_lt' hlt, beBytes_beNat h]

@[simp] theorem u32FromBe_u32be (n : UInt32) : u32FromBe (u32be n) = some n := by
  simp [u32FromBe, u32be, beNat_beBytes]

@[simp] theorem u64FromBe_u64be (n : UInt64) : u64FromBe (u64be n) = some n := by
  simp [u64FromBe, u64be, beNat_beBytes]

theorem beNat_u32be (n : UInt32) : beNat (u32be n) = n.toNat := by
  rw [u32be, beNat_beBytes, Nat.mod_eq_of_lt (by simpa using n.toNat_lt)]

theorem beNat_u64be (n : UInt64) : beNat (u64be n) = n.toNat := by
  rw [u64be, beNat_beBytes, Nat.mod_eq_of_lt (by simpa using n.toNat_lt)]

@[simp] theorem u32be_inj {a b : UInt32} : u32be a = u32be b ↔ a = b := by
  constructor
  · intro h
    simpa using congrArg u32FromBe h
  · rintro rfl
    rfl

@[simp] theorem u64be_inj {a b : UInt64} : u64be a = u64be b ↔ a = b := by
  constructor
  · intro h
    simpa using congrArg u64FromBe h
  · rintro rfl
    rfl

theorem u32be_append_inj {a b : UInt32} {x y : Bytes} :
    u32be a ++ x = u32be b ++ y ↔ a = b ∧ x = y := by
  constructor
  · intro h
    obtain ⟨h1, h2⟩ := List.append_inj h (by simp)
    exact ⟨u32be_inj.1 h1, h2⟩
  · rintro ⟨rfl, rfl⟩
    rfl

theorem u64be_append_inj {a b : UInt64} {x y : Bytes} :
    u64be a ++ x = u64be b ++ y ↔ a = b ∧ x = y := by
  constructor
  · intro h
    obtain ⟨h1, h2⟩ := List.append_inj h (by simp)
    exact ⟨u64be_inj.1 h1, h2⟩
  · rintro ⟨rfl, rfl⟩
    rfl

/-! ## Byte order -/

theorem compare_append {a b x y : Bytes} (h : a.length = b.length) :
    compare (a ++ x) (b ++ y) = (compare a b).then (compare x y) := by
  induction a generalizing b with
  | nil =>
    obtain rfl := List.eq_nil_of_length_eq_zero h.symm
    rfl
  | cons c a ih =>
    cases b with
    | nil => simp at h
    | cons d b =>
      have hl : a.length = b.length := by simpa using h
      simp only [List.cons_append, List.compare_cons_cons, ih hl, Ordering.then_assoc]

end Crossbank
