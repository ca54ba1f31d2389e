import Crossbank.Locker.Ledger
import Crossbank.Locker.Lazy

/-!
# The ticks in the rows

A read defers its tick, a commit writes those of its own keys and the first of the deferred ones.

* `Ledger.Fresh` : a ledger as it is opened, and `fresh_opened`;
* `UseAct.Timely` : a commit that takes the deferred ticks of the keys it writes;
* `Recent` : no deferred tick is older than the row;
* `rows_never_back` : in a run of timely acts the tick in a row never goes back;
  `rows_go_back` : in others it may.
-/

namespace Crossbank
open Async

/-! ## Openings -/

/-- Nothing is deferred, and the clock is past every row. -/
structure Ledger.Fresh (id : LockerId) (l : Ledger) : Prop where
  clean : l.lru.dirty = false
  pending : l.lru.pending = ∅
  rows : ∀ key entry, rowAt id l.db key = some entry → entry.tick.toNat < l.clock

theorem loadPage_cons (p : Bytes) (row : Bytes × Option Bytes) (rest : List (Bytes × Option Bytes))
    (acc : LruState × Option UInt64) :
    loadPage p (row :: rest) acc = loadPage p rest (loadPage p [row] acc) := rfl

/-- The highest tick seen only grows. -/
theorem most_grows {p : Bytes} {rows : List (Bytes × Option Bytes)} {acc : LruState × Option UInt64}
    {tick : UInt64} (h : ∃ most, acc.2 = some most ∧ tick ≤ most) :
    ∃ most, (loadPage p rows acc).2 = some most ∧ tick ≤ most := by
  induction rows generalizing acc with
  | nil => exact h
  | cons row rest ih =>
    rw [loadPage_cons]
    refine ih ?_
    obtain ⟨state, maxTick⟩ := acc
    obtain ⟨most, hmost, le⟩ := h
    obtain rfl : maxTick = some most := hmost
    unfold loadPage
    rw [List.foldl_cons, List.foldl_nil]
    dsimp only
    split
    · refine ⟨_, rfl, ?_⟩
      rw [UInt64.le_iff_toNat_le] at le ⊢
      rw [UInt64.toNat_max]
      omega
    · exact ⟨most, rfl, le⟩

theorem userKey_append (p key : Bytes) : userKey p (p ++ key) = some key := by
  rw [userKey, if_pos (by simp), List.drop_left]

/-- It is at least the tick of each row. -/
theorem most_of_mem {p key raw : Bytes} {entry : Entry} {rows : List (Bytes × Option Bytes)}
    {acc : LruState × Option UInt64} (h : (p ++ key, some raw) ∈ rows)
    (hraw : parseEntry raw = some entry) :
    ∃ most, (loadPage p rows acc).2 = some most ∧ entry.tick ≤ most := by
  induction rows generalizing acc with
  | nil => cases h
  | cons row rest ih =>
    rw [loadPage_cons]
    rcases List.mem_cons.1 h with rfl | hmem
    · refine most_grows ?_
      obtain ⟨state, maxTick⟩ := acc
      unfold loadPage
      rw [List.foldl_cons, List.foldl_nil]
      simp only [userKey_append, Option.bind_some, hraw]
      refine ⟨_, rfl, ?_⟩
      cases maxTick with
      | none => exact UInt64.le_iff_toNat_le.2 (le_refl _)
      | some most =>
        rw [UInt64.le_iff_toNat_le, UInt64.toNat_max]
        exact le_max_right _ _
    · exact ih hmem

theorem loadPage_pending (p : Bytes) (rows : List (Bytes × Option Bytes))
    (acc : LruState × Option UInt64) : (loadPage p rows acc).1.pending = acc.1.pending := by
  induction rows generalizing acc with
  | nil => rfl
  | cons row rest ih =>
    rw [loadPage_cons, ih]
    unfold loadPage
    rw [List.foldl_cons, List.foldl_nil]
    dsimp only
    split <;> rfl

/-- A locker opens with a fresh ledger. -/
theorem fresh_opened {T : Type} {inner : Inner T} {m m' : Machine Tables Shared} {res : Resident}
    {state : LruState} (run : Run Served (LazyLocker.openLocker inner) m (.ok res) m')
    (budgeted : res.lru = some state) :
    Ledger.Fresh inner.id ⟨m'.dev, state, m'.mem.ticks.least⟩ := by
  have opened : Clean (Ram.opened m'.mem res (∅ : Std.ExtTreeMap Bytes T compare)) := clean_opened run
  have clean : state.dirty = false := opened state budgeted
  obtain ⟨index, m₁, hwalk, hrest⟩ := run_bind_ok.1 run
  obtain rfl : m = m₁ := ((reads_walk inner _ _ _ _ _ _).run hwalk).symm
  obtain ⟨lru, m₂, hlru, hrest⟩ := run_bind_ok.1 hrest
  obtain ⟨hres, rfl⟩ := run_pure.1 hrest
  obtain rfl := Except.ok.inj hres
  obtain rfl : lru = some state := budgeted
  unfold openLru at hlru
  split at hlru
  · cases (run_pure.1 hlru).1
  · next maxBytes _ =>
    obtain ⟨loaded, m₃, hload, hrest⟩ := run_bind_ok.1 hlru
    obtain ⟨hs, rfl⟩ := run_pure.1 hrest
    obtain rfl := Option.some.inj (Except.ok.inj hs)
    obtain ⟨most, hrows, hdev, hclock⟩ := loadLru_run hload
    refine ⟨clean, ?_, fun key entry hrow => ?_⟩
    · have adopted (keys : List Bytes) (s : LruState) :
          (keys.foldl (fun state key => state.adopt key) s).pending = s.pending := by
        induction keys generalizing s with
        | nil => rfl
        | cons key keys ih => exact ih _
      have none_loaded : loaded.pending = ∅ := by
        have same := loadPage_pending (lockerPrefix inner.id) (rowsOf inner.id m.dev)
          (.new maxBytes, none)
        rw [hrows] at same
        exact same
      rw [adopted, LruState.retainKeys, none_loaded]
      rfl
    · dsimp only at hrow ⊢
      rw [hdev] at hrow
      obtain ⟨raw, hraw, hparse⟩ := Option.bind_eq_some_iff.1 hrow
      have shown : (lockerPrefix inner.id ++ key, some raw) ∈ rowsOf inner.id m.dev := by
        refine List.mem_map.2 ⟨(entryKey inner.id key, raw), Tree.mem_inRange.2 ⟨hraw, ?_⟩, rfl⟩
        exact (KeyRange.contains_ofPrefix _ _).2 (List.prefix_append _ _)
      obtain ⟨top, htop, le⟩ : ∃ most, (loadPage (lockerPrefix inner.id) (rowsOf inner.id m.dev)
          (.new maxBytes, none)).2 = some most ∧ entry.tick ≤ most := most_of_mem shown hparse
      rw [hrows] at htop
      obtain rfl : most = some top := htop
      rw [hclock]
      rw [UInt64.le_iff_toNat_le] at le
      dsimp only
      omega

/-! ## Deferred ticks -/

/-- A key whose deferred tick the next commit takes, if it has one: one of the first in key order. -/
def LruState.Takes (s : LruState) (key : Bytes) : Prop :=
  key ∈ (s.pending.toList.take PENDING_PER_COMMIT).map Prod.fst

instance (s : LruState) (key : Bytes) : Decidable (s.Takes key) :=
  inferInstanceAs (Decidable (_ ∈ _))

/-- A batch that leaves no deferred tick of a key that it writes. -/
def Accounting.Timely (acc : Accounting) (s : LruState) : Prop :=
  acc.cleared = true ∨ ∀ key ∈ acc.updates.map Prod.fst, key ∈ s.pending → s.Takes key

instance (acc : Accounting) (s : LruState) : Decidable (acc.Timely s) :=
  inferInstanceAs (Decidable (_ ∨ _))

/-- What a landed commit leaves deferred it has not taken. -/
theorem pending_landed {s : LruState} {id : LockerId} {tick deferred : UInt64} {acc : Accounting}
    {key : Bytes} (h : (s.landed (s.budgetFor id tick acc)).pending[key]? = some deferred) :
    s.pending[key]? = some deferred ∧
      (acc.Timely s → key ∉ acc.updates.map Prod.fst) := by
  have erased : (s.landed (s.budgetFor id tick acc)).pending =
      without (without (without (if acc.cleared then ∅ else s.pending) acc.removals)
        (s.budgetFor id tick acc).plan.victims) (s.budgetFor id tick acc).pending := rfl
  rw [erased, getElem?_without, getElem?_without, getElem?_without] at h
  split at h
  · cases h
  next untaken =>
    split at h
    · cases h
    split at h
    · cases h
    cases hc : acc.cleared with
    | true =>
      rw [hc] at h
      simp at h
    | false =>
      rw [hc] at h
      have held : s.pending[key]? = some deferred := h
      refine ⟨held, fun timely hwritten => untaken ?_⟩
      have hpending : key ∈ s.pending := Std.ExtTreeMap.mem_iff_isSome_getElem?.2 (by simp [held])
      have hfirst := timely.resolve_left (by simp [hc]) key hwritten hpending
      obtain ⟨e, he, rfl⟩ := List.mem_map.1 hfirst
      have skips : e.1 ∈ (acc.updates.map fun u => (u.1, (⟨tick, u.2⟩ : Entry))).map Prod.fst := by
        rw [List.map_map]
        exact hwritten
      rw [LruState.budgetFor, hc]
      exact List.mem_map_of_mem (List.mem_filter.2 ⟨he, decide_eq_true (.inl skips)⟩)

theorem row_evict {id : LockerId} {db : Tables} {victims : List Bytes} {key : Bytes} {entry : Entry}
    (h : rowAt id (db.commit (victims.map (Lru.deleteOp id))) key = some entry) :
    rowAt id db key = some entry := by
  rw [rowAt_commit, written_deleteOps] at h
  split at h
  · cases h
  · exact h

theorem pending_evict {s : LruState} {bytes : Nat} {key : Bytes} {deferred : UInt64}
    (h : (s.landed (s.budgetToShed bytes)).pending[key]? = some deferred) :
    s.pending[key]? = some deferred := by
  have erased : (s.landed (s.budgetToShed bytes)).pending =
      without s.pending (s.budgetToShed bytes).plan.victims := rfl
  rw [erased, getElem?_without] at h
  split at h
  · cases h
  · exact h

theorem pending_touch {s : LruState} {read key : Bytes} {tick deferred : UInt64}
    (h : (s.touch read tick).pending[key]? = some deferred) :
    deferred = tick ∧ key = read ∨ s.pending[key]? = some deferred := by
  unfold LruState.touch at h
  split at h
  · dsimp only at h
    rw [getElem?_inserted] at h
    split at h
    · next hk => exact .inl ⟨(Option.some.inj h).symm, hk.symm⟩
    · exact .inr h
  · exact .inr h

/-! ## Runs -/

def UseAct.Own : UseAct → Prop
  | .read .. | .commit .. | .evict .. => True
  | _ => False

/-- A commit that lands leaves no deferred tick of a key that it writes. -/
def UseAct.Timely (id : LockerId) (l : Ledger) : UseAct → Prop
  | .commit _ batch true => (accounting batch).Timely (l.reloaded id).lru
  | _ => True

instance : DecidablePred UseAct.Own
  | .read .. | .commit .. | .evict .. => isTrue trivial
  | .remotePut .. | .remoteDelete .. | .remoteClear | .foreign .. => isFalse id

instance (id : LockerId) (l : Ledger) : DecidablePred (UseAct.Timely id l)
  | .commit _ _ true => inferInstanceAs (Decidable (Accounting.Timely ..))
  | .commit _ _ false | .read .. | .evict .. | .remotePut .. | .remoteDelete .. | .remoteClear
  | .foreign .. => isTrue trivial

/-- The tick that the last landed commit to write the key assigned. -/
def assigned (acts : List UseAct) (key : Bytes) : Option UInt64 :=
  acts.foldl (fun last act =>
    match act with
    | .commit tick batch true =>
      if key ∈ (accounting batch).updates.map Prod.fst then some tick else last
    | _ => last) none

theorem assigned_concat (acts : List UseAct) (act : UseAct) (key : Bytes) :
    assigned (acts ++ [act]) key = match act with
      | .commit tick batch true =>
        if key ∈ (accounting batch).updates.map Prod.fst then some tick else assigned acts key
      | _ => assigned acts key := by
  rw [assigned, List.foldl_append, List.foldl_cons, List.foldl_nil]
  rfl

/-- No deferred tick is older than the row of the key, nor than what the last commit of the key
assigned, and no row is older than that. -/
structure Recent (id : LockerId) (acts : List UseAct) (l : Ledger) : Prop where
  clean : l.lru.dirty = false
  rows : ∀ key entry, rowAt id l.db key = some entry → entry.tick.toNat < l.clock ∧
    ∀ tick, assigned acts key = some tick → tick.toNat ≤ entry.tick.toNat
  issued : ∀ key tick, assigned acts key = some tick → tick.toNat < l.clock
  pending : ∀ key deferred, l.lru.pending[key]? = some deferred → deferred.toNat < l.clock ∧
    (∀ entry, rowAt id l.db key = some entry → entry.tick.toNat ≤ deferred.toNat) ∧
    ∀ tick, assigned acts key = some tick → tick.toNat ≤ deferred.toNat

theorem Ledger.Fresh.recent {id : LockerId} {l : Ledger} (fresh : l.Fresh id) : Recent id [] l where
  clean := fresh.clean
  rows key entry h := ⟨fresh.rows key entry h, fun tick h => by cases h⟩
  issued key tick h := by cases h
  pending key deferred h := by simp [fresh.pending] at h

/-- No row goes back with an act, nor behind what the last commit of its key has assigned. -/
def Forward (id : LockerId) (acts : List UseAct) (l l' : Ledger) : Prop :=
  (∀ (key : Bytes) (entry entry' : Entry), rowAt id l.db key = some entry →
    rowAt id l'.db key = some entry' → entry.tick ≤ entry'.tick) ∧
  ∀ (key : Bytes) (entry : Entry) (tick : UInt64), assigned acts key = some tick →
    rowAt id l'.db key = some entry → tick ≤ entry.tick

namespace Recent

variable {id : LockerId} {acts : List UseAct} {act : UseAct} {l l' : Ledger} {tick : UInt64}

theorem reloaded (recent : Recent id acts l) : l.reloaded id = l := by
  rw [Ledger.reloaded, recent.clean]
  rfl

/-- Time goes by. -/
theorem issue (recent : Recent id acts l) (h : l.issue tick = some l') :
    Recent id acts l' ∧ l'.db = l.db ∧ l'.lru = l.lru ∧ l.clock ≤ tick.toNat ∧
      l'.clock = tick.toNat + 1 := by
  obtain ⟨inTime, rfl⟩ := Ledger.issue_eq_some h
  refine ⟨⟨recent.clean, fun key entry hrow => ?_, fun key last hlast => ?_,
    fun key deferred hheld => ?_⟩, rfl, rfl, inTime, rfl⟩
  · obtain ⟨early, later⟩ := recent.rows key entry hrow
    exact ⟨show entry.tick.toNat < tick.toNat + 1 by omega, later⟩
  · have early := recent.issued key last hlast
    show last.toNat < tick.toNat + 1
    omega
  · obtain ⟨early, later⟩ := recent.pending key deferred hheld
    exact ⟨show deferred.toNat < tick.toNat + 1 by omega, later⟩

theorem touch (recent : Recent id acts l) (key : Bytes) (tick : UInt64)
    (issued : l.clock = tick.toNat + 1) (newest : ∀ key entry, rowAt id l.db key = some entry →
      entry.tick.toNat ≤ tick.toNat) :
    Recent id acts { l with lru := l.lru.touch key tick } where
  clean := by
    show (l.lru.touch key tick).dirty = false
    unfold LruState.touch
    split
    · exact recent.clean
    · exact recent.clean
  rows := recent.rows
  issued := recent.issued
  pending k deferred h := by
    rcases pending_touch h with ⟨rfl, rfl⟩ | hheld
    · refine ⟨show deferred.toNat < l.clock by omega, newest k, fun last hlast => ?_⟩
      have early := recent.issued k last hlast
      omega
    · exact recent.pending k deferred hheld

/-- Shedding only deletes. -/
theorem evict (recent : Recent id acts l) (bytes : Nat) :
    let budget := l.lru.budgetToShed bytes
    Recent id acts (l.land (budget.plan.victims.map (Lru.deleteOp id)) budget) where
  clean := recent.clean
  rows key entry h := recent.rows key entry (row_evict h)
  issued := recent.issued
  pending key deferred h := by
    obtain ⟨early, rowBound, lastBound⟩ := recent.pending key deferred (pending_evict h)
    exact ⟨early, fun entry hrow => rowBound entry (row_evict hrow), lastBound⟩

/-- A commit leaves its own tick, a deferred one, or the row as it was. -/
theorem commit (recent : Recent id acts l) {batch : List Pending} {old : Ledger}
    (earlier : Recent id acts old) (rows : l.db = old.db) (inTime : old.clock ≤ tick.toNat)
    (issued : l.clock = tick.toNat + 1) (timely : (accounting batch).Timely l.lru) :
    let budget := l.lru.budgetFor id tick (accounting batch)
    let next := l.land (l.lru.accountOps id budget) budget
    Recent id (acts ++ [.commit tick batch true]) next ∧
      Forward id (acts ++ [.commit tick batch true]) old next := by
  intro budget next
  have last (key : Bytes) : assigned (acts ++ [.commit tick batch true]) key =
      if key ∈ (accounting batch).updates.map Prod.fst then some tick else assigned acts key :=
    assigned_concat acts (.commit tick batch true) key
  have hrow (key : Bytes) (entry : Entry) (h : rowAt id next.db key = some entry) :
      key ∈ (accounting batch).updates.map Prod.fst ∧ entry.tick = tick ∨
        key ∉ (accounting batch).updates.map Prod.fst ∧
          (l.lru.pending[key]? = some entry.tick ∨ rowAt id old.db key = some entry) := by
    rw [← rows]
    exact row_commit h
  have hassigned (key : Bytes) (entry : Entry) (h : rowAt id next.db key = some entry)
      (assignedTick : UInt64) (hlast : assigned (acts ++ [.commit tick batch true]) key =
        some assignedTick) : assignedTick.toNat ≤ entry.tick.toNat := by
    rw [last] at hlast
    rcases hrow key entry h with ⟨hmem, htick⟩ | ⟨hno, hheld | hold⟩
    · rw [if_pos hmem] at hlast
      rw [htick, Option.some.inj hlast]
    · rw [if_neg hno] at hlast
      exact (recent.pending key _ hheld).2.2 _ hlast
    · rw [if_neg hno] at hlast
      exact (earlier.rows key entry hold).2 _ hlast
  refine ⟨⟨recent.clean, fun key entry h => ⟨?_, hassigned key entry h⟩, fun key first hfirst => ?_,
    fun key deferred hheld => ?_⟩, fun key entry entry' hold hnew => ?_,
    fun key entry first hfirst h => ?_⟩
  · show entry.tick.toNat < l.clock
    rcases hrow key entry h with ⟨-, htick⟩ | ⟨-, hheld | hold⟩
    · rw [htick]
      omega
    · exact (recent.pending key _ hheld).1
    · have early := (earlier.rows key entry hold).1
      omega
  · show first.toNat < l.clock
    rw [last] at hfirst
    split at hfirst
    · rw [← Option.some.inj hfirst]
      omega
    · exact recent.issued key first hfirst
  · obtain ⟨held, unwritten⟩ := pending_landed hheld
    have hno := unwritten timely
    obtain ⟨early, rowBound, lastBound⟩ := recent.pending key deferred held
    refine ⟨early, fun entry h => ?_, fun first hfirst => ?_⟩
    · rcases hrow key entry h with ⟨hmem, -⟩ | ⟨-, hsame | hold⟩
      · exact absurd hmem hno
      · rw [Option.some.inj (hsame.symm.trans held)]
      · exact rowBound entry (rows ▸ hold)
    · rw [last, if_neg hno] at hfirst
      exact lastBound first hfirst
  · rw [UInt64.le_iff_toNat_le]
    rcases hrow key entry' hnew with ⟨-, htick⟩ | ⟨-, hheld | hsame⟩
    · have early := (earlier.rows key entry hold).1
      rw [htick]
      omega
    · exact (recent.pending key _ hheld).2.1 entry (rows ▸ hold)
    · rw [Option.some.inj (hold.symm.trans hsame)]
  · exact UInt64.le_iff_toNat_le.2 (hassigned key entry h first hfirst)

/-- An act that leaves the rows that it does not delete. -/
theorem forward (recent : Recent id acts l')
    (kept : ∀ key entry, rowAt id l'.db key = some entry → rowAt id l.db key = some entry) :
    Forward id acts l l' := by
  refine ⟨fun key entry entry' hold hnew => ?_, fun key entry tick hlast hrow => ?_⟩
  · rw [Option.some.inj (hold.symm.trans (kept key entry' hnew))]
    exact UInt64.le_iff_toNat_le.2 le_rfl
  · exact UInt64.le_iff_toNat_le.2 ((recent.rows key entry hrow).2 tick hlast)

theorem step (recent : Recent id acts l) (own : act.Own) (timely : act.Timely id l)
    (h : l.step id act = some l') : Recent id (acts ++ [act]) l' ∧ Forward id (acts ++ [act]) l l' := by
  have same (hact : ∀ key, assigned (acts ++ [act]) key = assigned acts key) {l : Ledger}
      (next : Recent id acts l) : Recent id (acts ++ [act]) l :=
    ⟨next.clean, by simpa only [hact] using next.rows, by simpa only [hact] using next.issued,
      by simpa only [hact] using next.pending⟩
  cases act with
  | read key tick =>
    obtain ⟨l₁, hissue, rfl⟩ := Option.map_eq_some_iff.1 h
    obtain ⟨next, hdb, -, inTime, hclock⟩ := recent.issue hissue
    have touched := same (assigned_concat acts _) <| next.touch key tick hclock fun k entry hrow => by
      have early := (recent.rows k entry (hdb ▸ hrow)).1
      omega
    refine ⟨touched, touched.forward fun k entry hrow => ?_⟩
    rw [← hdb]
    exact hrow
  | commit tick batch lands =>
    obtain ⟨l₁, hissue, hl⟩ := Option.map_eq_some_iff.1 h
    rw [recent.reloaded] at hissue
    obtain ⟨next, hdb, hlru, inTime, hclock⟩ := recent.issue hissue
    cases lands with
    | false =>
      obtain rfl : l₁ = l' := hl
      have failed := same (assigned_concat acts _) next
      exact ⟨failed, failed.forward fun k entry hrow => hdb ▸ hrow⟩
    | true =>
      obtain rfl := hl
      have htimely : (accounting batch).Timely l₁.lru := by
        rw [hlru]
        have ht : (accounting batch).Timely (l.reloaded id).lru := timely
        rwa [recent.reloaded] at ht
      exact next.commit recent hdb inTime hclock htimely
  | evict bytes lands =>
    obtain rfl := Option.some.inj h
    cases lands with
    | false =>
      have failed := same (assigned_concat acts _) recent
      exact ⟨failed, failed.forward fun k entry hrow => hrow⟩
    | true =>
      have shed := same (assigned_concat acts (.evict bytes true)) (recent.evict bytes)
      exact ⟨shed, shed.forward fun k entry hrow => row_evict hrow⟩
  | remotePut | remoteDelete | remoteClear | foreign => exact own.elim

end Recent

/-- Runs of the locker itself, where every commit that lands is timely. -/
theorem Ledger.Reach.recent {id : LockerId} {start l : Ledger} {acts : List UseAct}
    (fresh : start.Fresh id)
    (run : Ledger.Reach id (fun _ l act => act.Own ∧ act.Timely id l) start acts l) :
    Recent id acts l := by
  induction run with
  | start => exact fresh.recent
  | act run allowed step ih => exact (ih.step allowed.1 allowed.2 step).1

/-- The tick in a row never goes back in a run of reads, commits and evictions where each commit
takes the deferred ticks of the keys that it writes. -/
theorem rows_never_back {id : LockerId} {start l l' : Ledger} {acts : List UseAct} {act : UseAct}
    (fresh : start.Fresh id)
    (run : Ledger.Reach id (fun _ l act => act.Own ∧ act.Timely id l) start acts l)
    (own : act.Own) (timely : act.Timely id l) (step : l.step id act = some l') :
    Forward id (acts ++ [act]) l l' :=
  ((run.recent fresh).step own timely step).2

/-- A locker without keys, opened with a budget of 1000 bytes. -/
def Ledger.vacant : Ledger := ⟨.empty, .new 1000, 0⟩

theorem Ledger.fresh_vacant (id : LockerId) : Ledger.vacant.Fresh id where
  clean := rfl
  pending := rfl
  rows key entry h := by simp [rowAt, vacant, Tables.empty, Tables.lookup, Tables.get] at h

def readOnce : List UseAct := [.commit 0 [.put [97] [7]] true, .read [97] 1,
  .commit 2 [.put [97] [7]] true]

theorem rows_never_back_readOnce : ∃ l l', Ledger.vacant.run 1 readOnce = some l ∧
    l.step 1 (.commit 3 [.put [98] [7]] true) = some l' ∧
    Forward 1 (readOnce ++ [.commit 3 [.put [98] [7]] true]) l l' := by
  have goes : ((Ledger.vacant.run 1 readOnce).bind
      (·.step 1 (.commit 3 [.put [98] [7]] true))).isSome := by decide
  obtain ⟨l', hl'⟩ := Option.isSome_iff_exists.1 goes
  obtain ⟨l, hrun, hstep⟩ := Option.bind_eq_some_iff.1 hl'
  have timely : ((Ledger.vacant.run 1 readOnce).all fun l =>
      UseAct.Timely 1 l (.commit 3 [.put [98] [7]] true)) = true := by decide
  rw [hrun] at timely
  exact ⟨l, l', hrun, hstep, rows_never_back (Ledger.fresh_vacant 1)
    (Ledger.reach_of_run (by decide) hrun) trivial (of_decide_eq_true timely) hstep⟩

/-- One more key than a commit takes deferred ticks of: each is put and then read, and the last one
is put again. -/
def readMany : List UseAct :=
  let keys := (List.range (PENDING_PER_COMMIT + 1)).map fun n => [UInt8.ofNat n]
  [.commit 0 (keys.map (.put · [7])) true] ++
    (keys.zipIdx.map fun (key, n) => .read key (UInt64.ofNat (n + 1))) ++
    [.commit 66 [.put [64] [7]] true]

/-- A row goes back: the commit after that writes the tick of the read, which was deferred
again, where the put had left a newer one. -/
theorem rows_go_back : ¬ ∀ (id : LockerId) (start l l' : Ledger) (acts : List UseAct) (act : UseAct),
    start.Fresh id → Ledger.Reach id (fun _ _ act => act.Own) start acts l → act.Own →
    l.step id act = some l' → Forward id (acts ++ [act]) l l' := by
  intro h
  have goes : ((Ledger.vacant.run 1 readMany).bind fun l =>
      (l.step 1 (.commit 67 [.put [200] [7]] true)).map fun l' =>
        (rowAt 1 l.db [64], rowAt 1 l'.db [64])) = some (some ⟨66, 1⟩, some ⟨65, 1⟩) := by
    decide +kernel
  obtain ⟨l, hrun, hnext⟩ := Option.bind_eq_some_iff.1 goes
  obtain ⟨l', hstep, hrows⟩ := Option.map_eq_some_iff.1 hnext
  obtain ⟨before, hrow⟩ := Prod.mk.inj hrows
  have own : ∀ n : Fin readMany.length, readMany[n].Own := by decide
  have reached : Ledger.Reach 1 (fun _ _ act => act.Own) Ledger.vacant readMany l :=
    Ledger.reach_of_run (fun n => (Option.all_eq_true _ _).2 fun _ _ => decide_eq_true (own n)) hrun
  have back := (h 1 _ l l' readMany (.commit 67 [.put [200] [7]] true) (Ledger.fresh_vacant 1)
    reached trivial hstep).1 [64] _ _ before hrow
  exact absurd back (by decide)

end Crossbank
