import Crossbank.Bank

/-!
# Who owns which key

* `MetaKey`, `MetaKey.bytes` : the rows of `Meta`, family by family, and how they are spelled;
* `MetaKey.bytes_injective` : no two rows of `Meta` are spelled alike;
* `contains_lruRange` : what forgets the accounting of a locker;
* `ranges_exact` : every range that is built from ids and bounds holds exactly what it is for.
-/

namespace Crossbank

inductive MetaKey where
  | formatVersion
  | nextLockerId
  | nextValueId
  | nextTick
  | locker (name : String)
  | schema (id : LockerId)
  | chain (id : LockerId)
  | lru (id : LockerId) (key : Bytes)
  deriving DecidableEq, Repr

namespace MetaKey

def bytes : MetaKey → Bytes
  | formatVersion => META_FORMAT_VERSION
  | nextLockerId => META_NEXT_LOCKER_ID
  | nextValueId => META_NEXT_VALUE_ID
  | nextTick => META_NEXT_TICK
  | locker name => lockerKey name
  | schema id => schemaKey id
  | chain id => chainKey id
  | lru id key => entryKey id key

end MetaKey

inductive MetaFamily where
  | formatVersion
  | nextLockerId
  | nextValueId
  | nextTick
  | locker
  | schema
  | chain
  | lru
  deriving DecidableEq, Repr

/-- What every row of a family begins with. -/
def MetaFamily.start : MetaFamily → Bytes
  | formatVersion => META_FORMAT_VERSION
  | nextLockerId => META_NEXT_LOCKER_ID
  | nextValueId => META_NEXT_VALUE_ID
  | nextTick => META_NEXT_TICK
  | locker => META_LOCKER_PREFIX
  | schema => META_SCHEMA_PREFIX
  | chain => META_CHAIN_PREFIX
  | lru => LRU_PREFIX

/-- No family begins with the start of another. -/
theorem MetaFamily.start_free (f g : MetaFamily) (h : f.start <+: g.start) : f = g := by
  cases f <;> cases g <;> first | rfl | exact absurd h (by decide)

namespace MetaKey

def family : MetaKey → MetaFamily
  | formatVersion => .formatVersion
  | nextLockerId => .nextLockerId
  | nextValueId => .nextValueId
  | nextTick => .nextTick
  | locker _ => .locker
  | schema _ => .schema
  | chain _ => .chain
  | lru _ _ => .lru

/-- What tells the rows of a family apart. -/
def rest : MetaKey → Bytes
  | formatVersion | nextLockerId | nextValueId | nextTick => []
  | locker name => asBytes name
  | schema id | chain id => u32be id
  | lru id key => u32be id ++ (ascii "::" ++ key)

theorem bytes_eq (row : MetaKey) : row.bytes = row.family.start ++ row.rest := by
  cases row with
  | lru id key =>
    show LRU_PREFIX ++ u32be id ++ ascii "::" ++ key = LRU_PREFIX ++ (u32be id ++ (ascii "::" ++ key))
    rw [List.append_assoc, List.append_assoc]
  | locker | schema | chain => rfl
  | formatVersion | nextLockerId | nextValueId | nextTick => exact (List.append_nil _).symm

/-- Rows that are spelled alike are of one family. -/
theorem family_eq {a b : MetaKey} (h : a.bytes = b.bytes) : a.family = b.family := by
  have first : a.family.start <+: b.bytes := by
    rw [← h, bytes_eq]
    exact List.prefix_append _ _
  have second : b.family.start <+: b.bytes := by
    rw [bytes_eq]
    exact List.prefix_append _ _
  rcases List.prefix_or_prefix_of_prefix first second with hab | hba
  · exact MetaFamily.start_free _ _ hab
  · exact (MetaFamily.start_free _ _ hba).symm

theorem eq_of_rest {a b : MetaKey} (family : a.family = b.family) (rests : a.rest = b.rest) :
    a = b := by
  cases a <;> cases b <;> cases family
  case locker => exact congrArg locker (asBytes_inj.1 rests)
  case schema => exact congrArg schema (u32be_inj.1 rests)
  case chain => exact congrArg chain (u32be_inj.1 rests)
  case lru id _ _ _ =>
    obtain ⟨rfl, keys⟩ := u32be_append_inj.1 rests
    exact congrArg (lru id) (List.append_cancel_left keys)
  all_goals rfl

/-- No two rows of `Meta` are spelled alike. -/
theorem bytes_injective : Function.Injective bytes := by
  intro a b h
  have family := family_eq h
  rw [bytes_eq, bytes_eq, family] at h
  exact eq_of_rest family (List.append_cancel_left h)

end MetaKey

/-- What forgets the accounting of a locker. -/
theorem contains_lruRange (id : LockerId) (key : Bytes) :
    (KeyRange.ofPrefix (lockerPrefix id)).contains key = true ↔ ∃ k, key = entryKey id k := by
  rw [KeyRange.contains_ofPrefix]
  constructor
  · rintro ⟨k, rfl⟩
    exact ⟨k, rfl⟩
  · rintro ⟨k, rfl⟩
    exact List.prefix_append _ _

/-- Every range holds exactly what it is for. A range of user keys, the range of a locker and that
of a prefix hold the stored keys of that locker whose user key is meant; the rows of `Meta` are all
spelled differently, and the clear of an accounting covers the rows of its locker alone. -/
theorem ranges_exact (id : LockerId) (start stop : Bound Bytes) (p stored : Bytes) :
    ((encodeRangeBytes id start stop).contains stored = true ↔
      ∃ k, stored = encodeBytes id k ∧ inBounds k start stop = true) ∧
    ((lockerRange id).contains stored = true ↔ ∃ k, stored = encodeBytes id k) ∧
    ((prefixRangeBytes id p).contains stored = true ↔ ∃ k, stored = encodeBytes id k ∧ p <+: k) ∧
    Function.Injective MetaKey.bytes ∧
    ∃ range, Lru.clearOp id = .deleteRange .meta range ∧
      (range.contains stored = true ↔ ∃ k, stored = (MetaKey.lru id k).bytes) := by
  refine ⟨⟨fun h => ?_, ?_⟩, contains_lockerRange id stored, contains_prefixRangeBytes id p stored,
    MetaKey.bytes_injective, .ofPrefix (lockerPrefix id), rfl, contains_lruRange id stored⟩
  · obtain ⟨k, rfl⟩ := exists_of_contains_encodeRangeBytes h
    exact ⟨k, rfl, (contains_encodeRangeBytes id start stop k).symm.trans h⟩
  · rintro ⟨k, rfl, inside⟩
    exact (contains_encodeRangeBytes id start stop k).trans inside

end Crossbank
