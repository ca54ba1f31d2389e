import Crossbank.Backend.Api

/-!
# Stored keys

A user key is stored behind the big-endian id of its locker.

* `encodeBytes`, `decodeBytes` : to and from stored keys;
* `lockerRange`, `encodeRangeBytes` : the stored keys of a locker, and of a range of its user keys;
* `contains_lockerRange` : a locker owns exactly the keys that carry its id;
* `contains_encodeRangeBytes` : a stored key is in a range exactly when its user key is;
* `exists_of_contains_encodeRangeBytes` : what a range of user keys holds belongs to the locker.
-/

namespace Crossbank

abbrev LockerId := UInt32

def PREFIX_LEN : Nat := 4

def encodeBytes (locker : LockerId) (key : Bytes) : Bytes := u32be locker ++ key

def encode (locker : LockerId) (key : String) : Bytes := encodeBytes locker (asBytes key)

def decodeBytes (locker : LockerId) (encoded : Bytes) : Except Error Bytes :=
  if encoded.length < PREFIX_LEN then
    .error (.corrupt s!"stored key is {encoded.length} bytes, shorter than the {PREFIX_LEN} byte locker prefix")
  else
    let found := UInt32.ofNat (beNat (encoded.take PREFIX_LEN))
    if found ≠ locker then
      .error (.corrupt s!"stored key belongs to locker {found}, not {locker}")
    else .ok (encoded.drop PREFIX_LEN)

def decode (locker : LockerId) (encoded : Bytes) : Except Error String := do
  let rest ← decodeBytes locker encoded
  match fromUtf8 rest with
  | some key => .ok key
  | none => .error (.corrupt s!"stored key is not UTF-8: {utf8Error rest}")

def lockerRange (locker : LockerId) : KeyRange := .ofPrefix (u32be locker)

def prefixRangeBytes (locker : LockerId) (p : Bytes) : KeyRange := .ofPrefix (encodeBytes locker p)

def prefixRange (locker : LockerId) (p : String) : KeyRange := prefixRangeBytes locker (asBytes p)

/-- A user bound in stored-key space. An unbounded one becomes the edge of the locker. -/
def encodeBound (locker : LockerId) (edge : Bound Bytes) : Bound Bytes → Bound Bytes
  | .unbounded => edge
  | .included k => .included (encodeBytes locker k)
  | .excluded k => .excluded (encodeBytes locker k)

def encodeRangeBytes (locker : LockerId) (start stop : Bound Bytes) : KeyRange :=
  { start := encodeBound locker (lockerRange locker).start start
    stop := encodeBound locker (lockerRange locker).stop stop }

/-- Whether two user bounds describe a range that holds nothing. -/
def isDegenerate : Bound Bytes → Bound Bytes → Bool
  | .unbounded, _ | _, .unbounded => false
  | .included s, .included e => compare s e = .gt
  | .included s, .excluded e | .excluded s, .included e | .excluded s, .excluded e =>
    (compare s e).isGE

/-! ## Round trips -/

@[simp] theorem decodeBytes_encodeBytes (locker : LockerId) (key : Bytes) :
    decodeBytes locker (encodeBytes locker key) = .ok key := by
  have h4 : (u32be locker ++ key).take PREFIX_LEN = u32be locker := by
    rw [PREFIX_LEN, List.take_append_of_le_length (by simp)]
    exact List.take_of_length_le (by simp)
  have hd : (u32be locker ++ key).drop PREFIX_LEN = key := by
    rw [PREFIX_LEN, List.drop_append_of_le_length (by simp), List.drop_of_length_le (by simp)]
    rfl
  have hl : ¬ (u32be locker ++ key).length < PREFIX_LEN := by simp [PREFIX_LEN]
  have hid : UInt32.ofNat (beNat (u32be locker)) = locker := by
    rw [beNat_u32be, UInt32.ofNat_toNat]
  rw [decodeBytes, encodeBytes, if_neg hl, h4, hd, hid]
  exact if_neg (not_not_intro rfl)

@[simp] theorem encodeBytes_inj {a b : LockerId} {x y : Bytes} :
    encodeBytes a x = encodeBytes b y ↔ a = b ∧ x = y := u32be_append_inj

theorem contains_lockerRange (locker : LockerId) (key : Bytes) :
    (lockerRange locker).contains key = true ↔ ∃ k, key = encodeBytes locker k := by
  rw [lockerRange, KeyRange.contains_ofPrefix]
  constructor
  · rintro ⟨k, rfl⟩
    exact ⟨k, rfl⟩
  · rintro ⟨k, rfl⟩
    exact ⟨k, rfl⟩

@[simp] theorem contains_lockerRange_encodeBytes (a b : LockerId) (key : Bytes) :
    (lockerRange a).contains (encodeBytes b key) = true ↔ a = b := by
  rw [contains_lockerRange]
  constructor
  · rintro ⟨k, hk⟩
    exact (encodeBytes_inj.1 hk).1.symm
  · rintro rfl
    exact ⟨key, rfl⟩

theorem contains_prefixRangeBytes (locker : LockerId) (p key : Bytes) :
    (prefixRangeBytes locker p).contains key = true ↔ ∃ k, key = encodeBytes locker k ∧ p <+: k := by
  rw [prefixRangeBytes, KeyRange.contains_ofPrefix]
  constructor
  · rintro ⟨k, rfl⟩
    exact ⟨p ++ k, by simp [encodeBytes], List.prefix_append p k⟩
  · rintro ⟨_, rfl, k, rfl⟩
    exact ⟨k, by simp [encodeBytes]⟩

theorem compare_encodeBytes (locker : LockerId) (a b : Bytes) :
    compare (encodeBytes locker a) (encodeBytes locker b) = compare a b := by
  have h : compare (u32be locker) (u32be locker) = .eq := Std.ReflCmp.compare_self
  rw [encodeBytes, encodeBytes, compare_append rfl, h]
  rfl

def inBounds (key : Bytes) (start stop : Bound Bytes) : Bool := start.below key && stop.above key

/-- A stored key is in a range exactly when it is the locker's and its user key is in the
bounds. -/
theorem contains_encodeRangeBytes (locker : LockerId) (start stop : Bound Bytes) (k : Bytes) :
    (encodeRangeBytes locker start stop).contains (encodeBytes locker k) =
      inBounds k start stop := by
  have hown : (lockerRange locker).contains (encodeBytes locker k) = true := by simp
  rw [KeyRange.contains, Bool.and_eq_true] at hown
  rw [KeyRange.contains, inBounds, encodeRangeBytes]
  congr 1
  · cases start with
    | unbounded => exact hown.1
    | included s => simp [encodeBound, Bound.below, compare_encodeBytes]
    | excluded s => simp [encodeBound, Bound.below, compare_encodeBytes]
  · cases stop with
    | unbounded => exact hown.2
    | included s => simp [encodeBound, Bound.above, compare_encodeBytes]
    | excluded s => simp [encodeBound, Bound.above, compare_encodeBytes]

/-- What a range of user keys holds belongs to the locker. -/
theorem exists_of_contains_encodeRangeBytes {locker : LockerId} {start stop : Bound Bytes}
    {key : Bytes} (h : (encodeRangeBytes locker start stop).contains key = true) :
    ∃ k, key = encodeBytes locker k := by
  rw [← contains_lockerRange]
  rw [KeyRange.contains, encodeRangeBytes, Bool.and_eq_true] at h
  obtain ⟨hstart, hstop⟩ := h
  rw [KeyRange.contains, Bool.and_eq_true]
  have own (k : Bytes) : (lockerRange locker).contains (encodeBytes locker k) = true := by simp
  have lower : (lockerRange locker).start = .included (u32be locker) := by
    rw [lockerRange, KeyRange.ofPrefix]
    split <;> rfl
  have least (k : Bytes) : (compare (u32be locker) (encodeBytes locker k)).isLE = true := by
    have h1 := own k
    rw [KeyRange.contains, Bool.and_eq_true, lower] at h1
    exact h1.1
  have upper (k : Bytes) (hk : (compare key (encodeBytes locker k)).isLE = true) :
      (lockerRange locker).stop.above key = true := by
    have h1 := own k
    rw [KeyRange.contains, Bool.and_eq_true] at h1
    have h2 := h1.2
    rw [lockerRange, KeyRange.ofPrefix] at h2 ⊢
    split at h2
    · simp only [Bound.above, decide_eq_true_eq] at h2 ⊢
      exact Std.TransCmp.lt_of_isLE_of_lt hk h2
    · rfl
  constructor
  · cases start with
    | unbounded => exact hstart
    | included s =>
      rw [lower]
      exact Std.TransCmp.isLE_trans (least s) hstart
    | excluded s =>
      rw [lower]
      have hlt : compare (encodeBytes locker s) key = .lt := by
        simpa [encodeBound, Bound.below] using hstart
      exact Std.TransCmp.isLE_trans (least s) (Ordering.isLE_iff_eq_lt_or_eq_eq.2 (.inl hlt))
  · cases stop with
    | unbounded => exact hstop
    | included s => exact upper s hstop
    | excluded s =>
      have hlt : compare key (encodeBytes locker s) = .lt := by
        simpa [encodeBound, Bound.above] using hstop
      exact upper s (Ordering.isLE_iff_eq_lt_or_eq_eq.2 (.inl hlt))

/-- A degenerate pair of bounds admits nothing. -/
theorem inBounds_of_isDegenerate {start stop : Bound Bytes} (h : isDegenerate start stop = true)
    (key : Bytes) : inBounds key start stop = false := by
  rw [Bool.eq_false_iff]
  intro hin
  rw [inBounds, Bool.and_eq_true] at hin
  obtain ⟨hlo, hhi⟩ := hin
  cases start with
  | unbounded => simp [isDegenerate] at h
  | included s =>
    cases stop with
    | unbounded => simp [isDegenerate] at h
    | included e =>
      have hse : (compare s e).isLE = true := Std.TransCmp.isLE_trans hlo hhi
      simp only [isDegenerate, decide_eq_true_eq] at h
      simp [h] at hse
    | excluded e =>
      have hke : compare key e = .lt := by simpa [Bound.above] using hhi
      have hse : compare s e = .lt := Std.TransCmp.lt_of_isLE_of_lt hlo hke
      simp [isDegenerate, hse] at h
  | excluded s =>
    have hsk : compare s key = .lt := by simpa [Bound.below] using hlo
    cases stop with
    | unbounded => simp [isDegenerate] at h
    | included e =>
      have hse : compare s e = .lt := Std.TransCmp.lt_of_lt_of_isLE hsk hhi
      simp [isDegenerate, hse] at h
    | excluded e =>
      have hke : compare key e = .lt := by simpa [Bound.above] using hhi
      have hse : compare s e = .lt := Std.TransCmp.lt_trans hsk hke
      simp [isDegenerate, hse] at h

end Crossbank
