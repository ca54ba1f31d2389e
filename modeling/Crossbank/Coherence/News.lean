import Crossbank.Locker.Chunk

/-!
# The news of a commit

Another tab is not told which calls were made here, but what the mutations of the commit did.

* `Change`, `Announcement` : what one commit did, as it is posted;
* `announcementFromOps` : the news in a list of mutations;
* `Announcement.applyTo` : a key set after the news;
* `Op.OfLockers` : the mutations that a locker commits;
* `News.last`, `News.Tells`, `tells_ofOps` : the news of a key, and what was written under it;
* `applyTo_announcementFromOps` : the news takes the stored keys before the commit to those after it.
-/

namespace Crossbank

def INLINE_LIMIT : Nat := 4096

/-- The news of one key. `value` is the sealed record, when it is small enough to carry; `bytes` is
the length of the payload, when the record says it. -/
structure Change where
  key : Bytes
  value : Option Bytes
  bytes : Option UInt64
  deleted : Bool
  deriving DecidableEq, Repr

structure Announcement where
  instanceId : UInt32
  lockerId : LockerId
  epoch : UInt64
  cleared : Bool
  changes : List Change
  deriving DecidableEq, Repr

namespace Change

def ofPut (key value : Bytes) : Change :=
  let pointer := isPointer value
  { key := key
    value := if value.length ≤ INLINE_LIMIT ∧ pointer = false then some value else none
    bytes := if pointer then (ChunkPointer.parse value).toOption.map ChunkPointer.totalLen else none
    deleted := false }

def ofDelete (key : Bytes) : Change := ⟨key, none, none, true⟩

def applyTo (keys : KeySet) (change : Change) : KeySet :=
  if change.deleted then keys.erase change.key else keys.insert change.key

@[simp] theorem ofPut_key (key value : Bytes) : (ofPut key value).key = key := rfl

@[simp] theorem ofPut_deleted (key value : Bytes) : (ofPut key value).deleted = false := rfl

theorem applyTo_ofPut (key value : Bytes) (keys : KeySet) :
    (ofPut key value).applyTo keys = keys.insert key := by simp [applyTo]

theorem applyTo_ofDelete (key : Bytes) (keys : KeySet) :
    (ofDelete key).applyTo keys = keys.erase key := by simp [applyTo, ofDelete]

end Change

/-- The news gathered so far: whether the locker was cleared, and the changes since. -/
structure News where
  cleared : Bool
  changes : List Change
  deriving DecidableEq, Repr

namespace News

def push (news : News) (change : Change) : News := { news with changes := news.changes ++ [change] }

/-- What one mutation adds to the news of a locker. Only a range that is the whole locker is a
clear; the rows of the other tables, and of other lockers, are none of its news. -/
def note (locker : LockerId) (news : News) : Op → News
  | .put .records key value =>
    match decodeBytes locker key with
    | .ok userKey => news.push (.ofPut userKey value)
    | .error _ => news
  | .delete .records key =>
    match decodeBytes locker key with
    | .ok userKey => news.push (.ofDelete userKey)
    | .error _ => news
  | .deleteRange .records range => if range = lockerRange locker then ⟨true, []⟩ else news
  | _ => news

def ofOps (locker : LockerId) (ops : List Op) : News := ops.foldl (note locker) ⟨false, []⟩

/-- A key set after the news: clear first, then the changes in order. -/
def applyTo (keys : KeySet) (news : News) : KeySet :=
  news.changes.foldl Change.applyTo (if news.cleared then ∅ else keys)

end News

/-- The news in the mutations of a commit, when there is any. -/
def announcementFromOps (instanceId : UInt32) (locker : LockerId) (epoch : UInt64) (ops : List Op) :
    Option Announcement :=
  let news := News.ofOps locker ops
  if news.cleared = false ∧ news.changes.isEmpty = true then none
  else some ⟨instanceId, locker, epoch, news.cleared, news.changes⟩

def Announcement.applyTo (keys : KeySet) (a : Announcement) : KeySet :=
  News.applyTo keys ⟨a.cleared, a.changes⟩

/-- The mutations that the lockers of a bank commit: a range of records is always a whole locker. -/
def Op.OfLockers : Op → Prop
  | .deleteRange .records range => ∃ locker, range = lockerRange locker
  | _ => True

def storedKeys (locker : LockerId) (db : Tables) : Set Bytes :=
  {key | (db.lookup .records (encodeBytes locker key)).isSome = true}

theorem mem_storedKeys {locker : LockerId} {db : Tables} {key : Bytes} :
    key ∈ storedKeys locker db ↔ (db.lookup .records (encodeBytes locker key)).isSome = true := Iff.rfl

/-! ## The news of one mutation -/

section
variable {locker : LockerId} {key userKey value : Bytes} {news : News} {keys : KeySet} {db : Tables}

theorem decodeBytes_eq_ok (h : decodeBytes locker key = .ok userKey) :
    key = encodeBytes locker userKey := by
  unfold decodeBytes at h
  split at h
  · cases h
  · next hlen =>
    dsimp only at h
    split at h
    · cases h
    · next hid =>
      obtain rfl := Except.ok.inj h
      have hfour : (key.take PREFIX_LEN).length = 4 := by
        rw [List.length_take, PREFIX_LEN]
        rw [PREFIX_LEN] at hlen
        omega
      have hlt : beNat (key.take PREFIX_LEN) < 2 ^ 32 := by
        have h256 := beNat_lt (key.take PREFIX_LEN)
        rw [hfour] at h256
        exact h256
      have htake : u32be locker = key.take PREFIX_LEN := by
        rw [← not_not.1 hid, u32be, toNat_ofNat_u32 hlt, beBytes_beNat hfour]
      rw [encodeBytes, htake, List.take_append_drop]

theorem decodeBytes_error {e : Error} (h : decodeBytes locker key = .error e) (k : Bytes) :
    key ≠ encodeBytes locker k := by
  rintro rfl
  rw [decodeBytes_encodeBytes] at h
  cases h

theorem News.applyTo_push (change : Change) :
    (news.push change).applyTo keys = change.applyTo (news.applyTo keys) := by
  rw [applyTo, push, List.foldl_append]
  rfl

def News.last (news : News) (key : Bytes) : Option Change :=
  news.changes.reverse.find? fun change => change.key = key

theorem News.last_push (change : Change) (key : Bytes) :
    (news.push change).last key = if change.key = key then some change else news.last key := by
  rw [last, push, List.reverse_append, List.reverse_singleton, List.singleton_append,
    List.find?_cons]
  by_cases hk : change.key = key
  · simp [hk]
  · simp [hk, last]

theorem Change.mem_applyTo (change : Change) (keys : KeySet) (key : Bytes) :
    key ∈ change.applyTo keys ↔ if change.key = key then change.deleted = false else key ∈ keys := by
  unfold Change.applyTo
  cases hd : change.deleted with
  | true =>
    rw [if_pos rfl, Std.ExtTreeSet.mem_erase]
    by_cases hk : change.key = key
    · simp [hk]
    · simp [hk]
  | false =>
    rw [if_neg Bool.false_ne_true, Std.ExtTreeSet.mem_insert]
    by_cases hk : change.key = key
    · simp [hk]
    · simp [hk]

/-- A key after the news: as its last change says, or as the clear does, or as before. -/
theorem News.mem_applyTo (key : Bytes) : key ∈ news.applyTo keys ↔
    match news.last key with
    | some change => change.deleted = false
    | none => news.cleared = false ∧ key ∈ keys := by
  obtain ⟨cleared, changes⟩ := news
  induction changes using List.reverseRecOn with
  | nil =>
    cases cleared with
    | true => simp [applyTo, last]
    | false => simp [applyTo, last]
  | append_singleton changes change ih =>
    change key ∈ (News.push ⟨cleared, changes⟩ change).applyTo keys ↔
      match (News.push ⟨cleared, changes⟩ change).last key with
      | some change => change.deleted = false
      | none => cleared = false ∧ key ∈ keys
    rw [applyTo_push, last_push, Change.mem_applyTo]
    by_cases hk : change.key = key
    · rw [if_pos hk, if_pos hk]
    · rw [if_neg hk, if_neg hk]
      exact ih

/-- What the news says of a key whose record was left alone, dropped, or put. -/
def News.Tells (news : News) (key : Bytes) : Option (Option Bytes) → Prop
  | none => news.cleared = false ∧ news.last key = none
  | some none => (news.cleared = true ∧ news.last key = none) ∨ news.last key = some (.ofDelete key)
  | some (some raw) => news.last key = some (.ofPut key raw)

/-- What the news says of a key, told from the keys after it. -/
theorem News.Tells.mem_applyTo {key : Bytes} {w : Option (Option Bytes)} (h : news.Tells key w) :
    key ∈ news.applyTo keys ↔ match w with
      | some record => record.isSome = true
      | none => key ∈ keys := by
  rw [News.mem_applyTo]
  cases w with
  | none =>
    obtain ⟨hcleared, hlast⟩ := h
    simp [hcleared, hlast]
  | some record =>
    cases record with
    | none =>
      rcases h with ⟨hcleared, hlast⟩ | hlast
      · simp [hcleared, hlast]
      · simp [hlast, Change.ofDelete]
    | some raw =>
      rw [show news.last key = some (.ofPut key raw) from h]
      simp

theorem News.Tells.push {key : Bytes} {w : Option (Option Bytes)} {change : Change}
    (h : news.Tells key w) (other : change.key ≠ key) : (news.push change).Tells key w := by
  have hlast : (news.push change).last key = news.last key := by
    rw [last_push, if_neg other]
  unfold Tells
  rw [hlast]
  exact h

theorem News.Tells.note {key : Bytes} {w : Option (Option Bytes)} {op : Op} (built : op.OfLockers)
    (h : news.Tells key w) :
    (news.note locker op).Tells key ((op.written .records (encodeBytes locker key)).or w) := by
  cases op with
  | put table k value =>
    by_cases htable : table = .records
    · subst htable
      cases hkey : decodeBytes locker k with
      | ok userKey =>
        have hnote : news.note locker (.put .records k value) = news.push (.ofPut userKey value) := by
          simp only [News.note, hkey]
        rw [hnote, decodeBytes_eq_ok hkey]
        by_cases hk : userKey = key
        · subst hk
          simp [Op.written, Tells, last_push]
        · simpa [Op.written, hk] using h.push hk
      | error e =>
        have hnote : news.note locker (.put .records k value) = news := by
          simp only [News.note, hkey]
        rw [hnote, show (Op.put .records k value).written .records (encodeBytes locker key) = none from
          if_neg fun hk => decodeBytes_error hkey key hk.2]
        exact h
    · have hnote : news.note locker (.put table k value) = news := by
        cases table <;> first | exact absurd rfl htable | rfl
      rw [hnote, show (Op.put table k value).written .records (encodeBytes locker key) = none from
        if_neg fun hk => htable hk.1]
      exact h
  | delete table k =>
    by_cases htable : table = .records
    · subst htable
      cases hkey : decodeBytes locker k with
      | ok userKey =>
        have hnote : news.note locker (.delete .records k) = news.push (.ofDelete userKey) := by
          simp only [News.note, hkey]
        rw [hnote, decodeBytes_eq_ok hkey]
        by_cases hk : userKey = key
        · subst hk
          simp [Op.written, Tells, last_push, Change.ofDelete]
        · simpa [Op.written, hk] using h.push hk
      | error e =>
        have hnote : news.note locker (.delete .records k) = news := by
          simp only [News.note, hkey]
        rw [hnote, show (Op.delete .records k).written .records (encodeBytes locker key) = none from
          if_neg fun hk => decodeBytes_error hkey key hk.2]
        exact h
    · have hnote : news.note locker (.delete table k) = news := by
        cases table <;> first | exact absurd rfl htable | rfl
      rw [hnote, show (Op.delete table k).written .records (encodeBytes locker key) = none from
        if_neg fun hk => htable hk.1]
      exact h
  | deleteRange table range =>
    by_cases htable : table = .records
    · subst htable
      obtain ⟨owner, rfl⟩ := built
      by_cases howner : owner = locker
      · subst howner
        have hnote : news.note owner (.deleteRange .records (lockerRange owner)) = ⟨true, []⟩ :=
          if_pos rfl
        rw [hnote]
        simp [Op.written, Tells, last]
      · have hrange : lockerRange owner ≠ lockerRange locker := by
          intro heq
          have hown : (lockerRange owner).contains (encodeBytes locker []) = true := by
            rw [heq]
            simp
          exact howner ((contains_lockerRange_encodeBytes owner locker []).1 hown)
        have hnote : news.note locker (.deleteRange .records (lockerRange owner)) = news :=
          if_neg hrange
        rw [hnote, show (Op.deleteRange .records (lockerRange owner)).written .records
          (encodeBytes locker key) = none from if_neg fun hk => howner
            ((contains_lockerRange_encodeBytes owner locker key).1 hk.2)]
        exact h
    · have hnote : news.note locker (.deleteRange table range) = news := by
        cases table <;> first | exact absurd rfl htable | rfl
      rw [hnote, show (Op.deleteRange table range).written .records (encodeBytes locker key) = none from
        if_neg fun hk => htable hk.1]
      exact h

/-! ## The news of a commit -/

theorem tells_ofOps (locker : LockerId) {ops : List Op} (built : ∀ op ∈ ops, op.OfLockers)
    (key : Bytes) :
    (News.ofOps locker ops).Tells key (written ops .records (encodeBytes locker key)) := by
  induction ops using List.reverseRecOn with
  | nil => exact ⟨rfl, rfl⟩
  | append_singleton ops op ih =>
    have hrest := ih fun o ho => built o (List.mem_append_left _ ho)
    rw [written_append, written_cons, written_nil, Option.none_or, News.ofOps, List.foldl_append]
    exact hrest.note (built op (by simp))

/-- The news of a commit is that of its mutations. -/
theorem announcementFromOps_eq_some {instanceId : UInt32} {epoch : UInt64} {ops : List Op}
    {a : Announcement} (h : announcementFromOps instanceId locker epoch ops = some a) :
    a = ⟨instanceId, locker, epoch, (News.ofOps locker ops).cleared, (News.ofOps locker ops).changes⟩ := by
  unfold announcementFromOps at h
  dsimp only at h
  split at h
  · cases h
  · exact (Option.some.inj h).symm

theorem announcementFromOps_eq_none {instanceId : UInt32} {epoch : UInt64} {ops : List Op}
    (h : announcementFromOps instanceId locker epoch ops = none) :
    News.ofOps locker ops = ⟨false, []⟩ := by
  unfold announcementFromOps at h
  dsimp only at h
  split at h
  · next hempty =>
    obtain ⟨hcleared, hchanges⟩ := hempty
    rw [← hcleared, ← List.isEmpty_iff.1 hchanges]
  · cases h

def Holds (locker : LockerId) (db : Tables) (keys : KeySet) : Prop :=
  ∀ key, key ∈ keys ↔ key ∈ storedKeys locker db

/-- The news of a commit says what it did to the keys: it takes the stored keys before the commit
to those after it, and where there is none they stay. -/
theorem applyTo_announcementFromOps {instanceId : UInt32} {epoch : UInt64} {ops : List Op}
    (built : ∀ op ∈ ops, op.OfLockers) (h : Holds locker db keys) :
    Holds locker (db.commit ops)
      (match announcementFromOps instanceId locker epoch ops with
      | some a => a.applyTo keys
      | none => keys) := by
  intro key
  have hkey : key ∈ (News.ofOps locker ops).applyTo keys ↔ key ∈ storedKeys locker (db.commit ops) := by
    have htold := tells_ofOps locker built key
    rw [mem_storedKeys, Tables.lookup_commit]
    generalize written ops .records (encodeBytes locker key) = w at htold
    rw [htold.mem_applyTo]
    cases w with
    | some record => rfl
    | none => exact h key
  rw [← hkey]
  cases hnews : announcementFromOps instanceId locker epoch ops with
  | some a =>
    rw [announcementFromOps_eq_some hnews]
    rfl
  | none =>
    rw [announcementFromOps_eq_none hnews]
    rfl

end

/-- A put, a clear and a put of the locker, among the rows of others. -/
theorem applyTo_announcementFromOps_cleared :
    Holds 7 (Tables.empty.commit [.put .records (encodeBytes 7 [1]) [9],
        .deleteRange .records (lockerRange 8), .deleteRange .records (lockerRange 7),
        .put .meta META_NEXT_VALUE_ID (u64be 3), .put .records (encodeBytes 7 [2]) [9]])
      (match announcementFromOps 1 7 3 [.put .records (encodeBytes 7 [1]) [9],
        .deleteRange .records (lockerRange 8), .deleteRange .records (lockerRange 7),
        .put .meta META_NEXT_VALUE_ID (u64be 3), .put .records (encodeBytes 7 [2]) [9]] with
      | some a => a.applyTo ∅
      | none => ∅) := by
  refine applyTo_announcementFromOps (fun op hop => ?_) fun key => ?_
  · simp only [List.mem_cons, List.not_mem_nil, or_false] at hop
    rcases hop with rfl | rfl | rfl | rfl | rfl
    · trivial
    · exact ⟨8, rfl⟩
    · exact ⟨7, rfl⟩
    · trivial
    · trivial
  · simp [storedKeys, Tables.lookup, Tables.get, Tables.empty]

end Crossbank
