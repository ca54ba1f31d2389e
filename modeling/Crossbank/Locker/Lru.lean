import Crossbank.Locker.Chunk

/-!
# Byte-budget bookkeeping

One `meta` record per live key of an evictable locker: `lru::{locker}::{key}` holds the tick of its
last use and its payload size.

* `Ticks.allocate` : the logical clock of the bank;
* `LruState`, `LruState.plan`, `LruState.apply` : one locker's accounting, what a commit will shed,
  and the accounting once the commit has landed;
* `loadLru` : the accounting read back at open;
* `mem_candidates`, `not_mem_keep_of_victim` : what might be shed, and that it is never one to keep.
-/

namespace Crossbank
open Async

def LRU_PREFIX : Bytes := ascii "lru::"

def META_NEXT_TICK : Bytes := ascii "next_tick"

def RECORD_LEN : Nat := 12

/-- `lru::{locker_id BE}::` -/
def lockerPrefix (id : LockerId) : Bytes := LRU_PREFIX ++ u32be id ++ ascii "::"

def entryKey (id : LockerId) (key : Bytes) : Bytes := lockerPrefix id ++ key

/-- The user key an LRU meta key describes. -/
def userKey (p metaKey : Bytes) : Option Bytes :=
  if p.isPrefixOf metaKey then some (metaKey.drop p.length) else none

structure Entry where
  tick : UInt64
  bytes : Nat
  deriving DecidableEq, Repr

/-- A size past 4 GiB is recorded as 4 GiB. -/
def encodeEntry (entry : Entry) : Bytes :=
  u64be entry.tick ++ u32be (UInt32.ofNat (min entry.bytes (2 ^ 32 - 1)))

def parseEntry (raw : Bytes) : Option Entry :=
  if raw.length ≠ RECORD_LEN then none
  else some ⟨UInt64.ofNat (beNat (raw.take 8)), beNat ((raw.drop 8).take 4)⟩

namespace Lru

def putOp (id : LockerId) (key : Bytes) (entry : Entry) : Op :=
  .put .meta (entryKey id key) (encodeEntry entry)

def deleteOp (id : LockerId) (key : Bytes) : Op := .delete .meta (entryKey id key)

def clearOp (id : LockerId) : Op := .deleteRange .meta (.ofPrefix (lockerPrefix id))

end Lru

/-! ## The clock -/

namespace Ticks

def advance (tick : UInt64) : Except Error UInt64 :=
  match checkedSucc tick with
  | some next => .ok next
  | none => .error (.backend "tick space is exhausted")

/-- The next tick to issue, never below what the stored rows demand. -/
def cursor (t : Ticks) (stored : Option UInt64) : Option UInt64 :=
  let next := match t.next, stored with
    | some current, some stored => some (max current stored)
    | some current, none => some current
    | none, some stored => some stored
    | none, none => none
  next.map (max · t.floor)

def take (s : Shared) : Except Error (Option UInt64) × Shared :=
  match s.ticks.cursor none with
  | none => (.ok none, s)
  | some tick =>
    match advance tick with
    | .ok next => (.ok (some tick), { s with ticks := { s.ticks with next := some next } })
    | .error e => (.error e, s)

def seedAndTake (stored : UInt64) (s : Shared) : Except Error UInt64 × Shared :=
  let tick := (s.ticks.cursor (some stored)).getD stored
  match advance tick with
  | .ok next => (.ok tick, { s with ticks := { s.ticks with next := some next } })
  | .error e => (.error e, s)

/-- Raise the clock above a tick that storage already records. -/
def observeRecorded (maxSeen : UInt64) (s : Shared) : Except Error Unit × Shared :=
  match advance maxSeen with
  | .error e => (.error e, s)
  | .ok atLeast =>
    let floor := max s.ticks.floor atLeast
    (.ok (), { s with ticks := ⟨s.ticks.next.map (max · floor), floor⟩ })

def allocate : Io Shared UInt64 := do
  match ← Prog.sync take with
  | some tick => pure tick
  | none => do
    let raw ← Backend.get .meta META_NEXT_TICK
    let stored ← Prog.ofExcept <| match raw with
      | none => .ok 0
      | some bytes =>
        match u64FromBe bytes with
        | some n => .ok n
        | none => .error (.corrupt "next_tick is not an 8-byte integer")
    Prog.sync (seedAndTake stored)

def counterOp (s : Shared) : Op :=
  .put .meta META_NEXT_TICK (u64be ((s.ticks.cursor none).getD s.ticks.floor))

end Ticks

/-! ## One locker's accounting -/

/-- How many deferred tick bumps ride along on one commit. -/
def PENDING_PER_COMMIT : Nat := 64

structure Plan where
  victims : List Bytes
  total : Nat
  deriving DecidableEq, Repr

structure LruState where
  maxBytes : Nat
  entries : Std.ExtTreeMap Bytes Entry compare
  total : Nat
  pending : Std.ExtTreeMap Bytes UInt64 compare
  dirty : Bool
  deriving DecidableEq

/-- A key that might be shed: when it was last used, and what it holds. -/
structure Candidate where
  tick : UInt64
  key : Bytes
  bytes : Nat
  deriving DecidableEq, Repr

def Candidate.before (a b : Candidate) : Bool :=
  ((compare a.tick b.tick).then (compare a.key b.key)).isLE

namespace LruState

def new (maxBytes : Nat) : LruState := ⟨maxBytes, ∅, 0, ∅, false⟩

/-- Replace the accounting with a freshly loaded one, keeping the deferred ticks. -/
def adoptLoaded (s loaded : LruState) : LruState :=
  { s with entries := loaded.entries, total := loaded.total
           pending := s.pending.filter fun k _ => loaded.entries.contains k
           dirty := false }

def touch (key : Bytes) (tick : UInt64) (s : LruState) : LruState :=
  match s.entries[key]? with
  | some entry =>
    { s with entries := s.entries.insert key { entry with tick := tick }
             pending := s.pending.insert key tick }
  | none => s

/-- The deferred tick bumps of the next commit. A key in `skip` already gets a record. -/
def pendingOps (s : LruState) (id : LockerId) (skip : List Bytes) : List Bytes × List Op :=
  let taken := s.pending.toList.take PENDING_PER_COMMIT
  let keys := taken.filter fun (key, _) => key ∈ skip ∨ s.entries.contains key
  let ops := taken.filterMap fun (key, tick) =>
    if key ∈ skip then none
    else s.entries[key]?.map fun entry => Lru.putOp id key ⟨tick, entry.bytes⟩
  (keys.map Prod.fst, ops)

def clearPending (keys : List Bytes) (s : LruState) : LruState :=
  { s with pending := keys.foldl (fun pending key => pending.erase key) s.pending }

/-- Shed candidates in order until the total is inside the budget. -/
def shed (budget : Nat) : List Candidate → Nat → Plan
  | [], total => ⟨[], total⟩
  | c :: rest, total =>
    if total ≤ budget then ⟨[], total⟩
    else
      let plan := shed budget rest (total - c.bytes)
      ⟨c.key :: plan.victims, plan.total⟩

def held (s : LruState) (key : Bytes) : Nat :=
  match s.entries[key]? with
  | some entry => entry.bytes
  | none => 0

/-- The running total once the removals and the updates have landed. -/
def totalAfter (s : LruState) (updates : List (Bytes × Entry)) (removals : List Bytes)
    (cleared : Bool) : Nat :=
  let total := if cleared then 0 else removals.foldl (fun total key => total - s.held key) s.total
  updates.foldl (fun total update =>
    satAdd (if cleared then total else total - s.held update.1) update.2.bytes) total

/-- The keys that might be shed by a commit, in no order. -/
def candidates (s : LruState) (updates : List (Bytes × Entry)) (removals : List Bytes)
    (cleared : Bool) (keep : List Bytes) : List Candidate :=
  let old := if cleared then [] else
    s.entries.toList.filterMap fun (key, entry) =>
      if key ∈ removals ∨ key ∈ updates.map Prod.fst ∨ key ∈ keep then none
      else some ⟨entry.tick, key, entry.bytes⟩
  let new := updates.filterMap fun (key, entry) =>
    if key ∈ keep then none else some ⟨entry.tick, key, entry.bytes⟩
  old ++ new

/-- What a commit will cost and who has to go. `keep` is never shed. -/
def plan (s : LruState) (updates : List (Bytes × Entry)) (removals : List Bytes) (cleared : Bool)
    (budget : Nat) (keep : List Bytes) : Plan :=
  let total := s.totalAfter updates removals cleared
  if total ≤ budget then ⟨[], total⟩
  else
    shed budget
      ((s.candidates updates removals cleared keep).insertionSort fun a b => a.before b) total

/-- Apply a plan once its commit has landed. -/
def apply (updates : List (Bytes × Entry)) (removals : List Bytes) (cleared : Bool) (plan : Plan)
    (s : LruState) : LruState :=
  let entries := if cleared then ∅ else s.entries
  let pending := if cleared then ∅ else s.pending
  let entries := removals.foldl (fun entries key => entries.erase key) entries
  let pending := removals.foldl (fun pending key => pending.erase key) pending
  let entries := updates.foldl (fun entries update => entries.insert update.1 update.2) entries
  let entries := plan.victims.foldl (fun entries key => entries.erase key) entries
  let pending := plan.victims.foldl (fun pending key => pending.erase key) pending
  { s with entries := entries, pending := pending, total := plan.total }

/-- Seed a key that storage holds but no record accounts for: of size zero, and shed first. -/
def adopt (key : Bytes) (s : LruState) : LruState :=
  { s with entries := if s.entries.contains key then s.entries else s.entries.insert key ⟨0, 0⟩ }

def retainKeys (live : Bytes → Bool) (s : LruState) : LruState :=
  let entries := s.entries.filter fun k _ => live k
  { s with entries := entries
           pending := s.pending.filter fun k _ => live k
           total := (entries.toList.map fun e => e.2.bytes).sum }

theorem mem_candidates_of_shed {budget total : Nat} {cs : List Candidate} {key : Bytes}
    (h : key ∈ (shed budget cs total).victims) : ∃ c ∈ cs, c.key = key := by
  induction cs generalizing total with
  | nil => simp [shed] at h
  | cons c rest ih =>
    unfold shed at h
    split at h
    · simp at h
    · rcases List.mem_cons.1 h with rfl | h
      · exact ⟨c, List.mem_cons_self, rfl⟩
      · obtain ⟨c', hc', hk⟩ := ih h
        exact ⟨c', List.mem_cons_of_mem _ hc', hk⟩

theorem mem_candidates {s : LruState} {updates : List (Bytes × Entry)} {removals keep : List Bytes}
    {cleared : Bool} {c : Candidate} :
    c ∈ s.candidates updates removals cleared keep ↔
      (cleared = false ∧ s.entries[c.key]? = some ⟨c.tick, c.bytes⟩ ∧ c.key ∉ removals ∧
        c.key ∉ updates.map Prod.fst ∧ c.key ∉ keep) ∨
      ((c.key, ⟨c.tick, c.bytes⟩) ∈ updates ∧ c.key ∉ keep) := by
  obtain ⟨tick, key, bytes⟩ := c
  unfold candidates
  rw [List.mem_append]
  refine or_congr ?_ ?_
  · cases cleared with
    | true => simp
    | false =>
      rw [if_neg (by simp), List.mem_filterMap]
      constructor
      · rintro ⟨⟨k, entry⟩, he, hc⟩
        rw [Std.ExtTreeMap.mem_toList_iff_getElem?_eq_some] at he
        dsimp only at hc
        split at hc
        · cases hc
        · next hne =>
          obtain ⟨rfl, rfl, rfl⟩ := Candidate.mk.inj (Option.some.inj hc)
          exact ⟨rfl, he, fun h => hne (.inl h), fun h => hne (.inr (.inl h)),
            fun h => hne (.inr (.inr h))⟩
      · rintro ⟨-, he, hr, hu, hk⟩
        refine ⟨(key, ⟨tick, bytes⟩), Std.ExtTreeMap.mem_toList_iff_getElem?_eq_some.2 he, ?_⟩
        dsimp only at hr hu hk ⊢
        rw [if_neg (by tauto)]
  · rw [List.mem_filterMap]
    constructor
    · rintro ⟨⟨k, entry⟩, he, hc⟩
      dsimp only at hc
      split at hc
      · cases hc
      · next hne =>
        obtain ⟨rfl, rfl, rfl⟩ := Candidate.mk.inj (Option.some.inj hc)
        exact ⟨he, hne⟩
    · rintro ⟨he, hk⟩
      exact ⟨_, he, if_neg hk⟩

/-- Candidates taken from bindings, each under its own key, keep the order of the keys. -/
theorem keys_filterMap {f : Bytes × Entry → Option Candidate}
    (own : ∀ e c, f e = some c → c.key = e.1) (entries : List (Bytes × Entry)) :
    ((entries.filterMap f).map Candidate.key).Sublist (entries.map Prod.fst) := by
  induction entries with
  | nil => exact .slnil
  | cons e rest ih =>
    rw [List.filterMap_cons, List.map_cons]
    split
    · exact ih.cons _
    · next c hc =>
      rw [List.map_cons, own e c hc]
      exact ih.cons_cons _

/-- What is kept is not shed. -/
theorem not_mem_keep_of_victim {s : LruState} {updates : List (Bytes × Entry)}
    {removals keep : List Bytes} {cleared : Bool} {budget : Nat} {key : Bytes}
    (h : key ∈ (s.plan updates removals cleared budget keep).victims) : key ∉ keep := by
  unfold plan at h
  dsimp only at h
  split at h
  · simp at h
  · obtain ⟨c, hc, rfl⟩ := mem_candidates_of_shed h
    have hmem := (List.perm_insertionSort _ _).mem_iff.1 hc
    rcases mem_candidates.1 hmem with ⟨-, -, -, -, hk⟩ | ⟨-, hk⟩
    · exact hk
    · exact hk

end LruState

/-- Fold one page of records into the accounting, keeping the highest tick seen. -/
def loadPage (p : Bytes) (items : List (Bytes × Option Bytes)) :
    LruState × Option UInt64 → LruState × Option UInt64 :=
  fun start => items.foldl (fun (state, maxTick) (metaKey, value) =>
    match userKey p metaKey, value.bind parseEntry with
    | some key, some entry =>
      ({ state with total := satAdd state.total entry.bytes
                    entries := state.entries.insert key entry },
        some (match maxTick with | some m => max m entry.tick | none => entry.tick))
    | _, _ => (state, maxTick)) start

def loadPages (p : Bytes) : Nat → KeyRange → LruState × Option UInt64 →
    Io Shared (LruState × Option UInt64)
  | 0, _, _ => .stuck
  | fuel + 1, range, acc => do
    let page ← Backend.scan ⟨.meta, range, false, DEFAULT_SCAN_PAGE, true⟩
    let acc := loadPage p page.items acc
    match page.resume with
    | some last => loadPages p fuel { range with start := .excluded last } acc
    | none => pure acc

/-- Read one locker's accounting back, and raise the clock above every tick in it. -/
def loadLru (backend : Backend) (id : LockerId) (maxBytes : Nat) : Io Shared LruState := do
  let p := lockerPrefix id
  let (state, maxTick) ← loadPages p backend.walkFuel (.ofPrefix p) (.new maxBytes, none)
  match maxTick with
  | some maxTick => Prog.sync (Ticks.observeRecorded maxTick)
  | none => pure ()
  pure state

end Crossbank
