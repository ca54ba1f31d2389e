import Crossbank.Async.Trail
import Crossbank.Coherence.Budget
import Crossbank.Locker.Clock

/-!
# The accounting and the rows it writes

The byte budget of a locker is kept in memory and, one row for each key, in the store. A `Ledger` is
both, with the least tick that the bank may still issue.

* `LruState.accountOps` : the row ops of a commit; `rowAt` : the row of a key;
* `UseAct`, `Ledger.step` : a read, a commit that lands or fails, an eviction, the news and the
  commits of other tabs;
* `loadLru_run`, `budgetOps_shows`, `noteRead_shows` : the calls of a locker are these acts;
* `row_commit` : what a commit leaves in the row of a key.
-/

namespace Crossbank
open Async

/-! ## Rows -/

def rowAt (id : LockerId) (db : Tables) (key : Bytes) : Option Entry :=
  (db.lookup .meta (entryKey id key)).bind parseEntry

/-- The rows of a locker, as a scan shows them. -/
def rowsOf (id : LockerId) (db : Tables) : List (Bytes × Option Bytes) :=
  (Tree.inOrder false db.metadata (.ofPrefix (lockerPrefix id))).map (shown true)

/-- A row holds a size up to 4 GiB. -/
theorem parseEntry_encodeEntry (entry : Entry) :
    parseEntry (encodeEntry entry) = some ⟨entry.tick, min entry.bytes (2 ^ 32 - 1)⟩ := by
  have size : (UInt32.ofNat (min entry.bytes (2 ^ 32 - 1))).toNat = min entry.bytes (2 ^ 32 - 1) :=
    UInt32.toNat_ofNat_of_lt' (show min entry.bytes (2 ^ 32 - 1) < 2 ^ 32 by omega)
  have first : (encodeEntry entry).take 8 = u64be entry.tick := by
    rw [encodeEntry, List.take_append_of_le_length (by simp), List.take_of_length_le (by simp)]
  have rest : ((encodeEntry entry).drop 8).take 4 =
      u32be (UInt32.ofNat (min entry.bytes (2 ^ 32 - 1))) := by
    rw [encodeEntry, List.drop_append_of_le_length (by simp), List.drop_of_length_le (by simp),
      List.nil_append, List.take_of_length_le (by simp)]
  have len : (encodeEntry entry).length = RECORD_LEN := by simp [encodeEntry, RECORD_LEN]
  rw [parseEntry, if_neg (not_not_intro len), first, rest, beNat_u64be, beNat_u32be, size,
    UInt64.ofNat_toNat]

theorem entryKey_inj {id : LockerId} {a b : Bytes} : entryKey id a = entryKey id b ↔ a = b :=
  List.append_right_inj _

/-- The row ops of a commit that the accounting `s` has planned. -/
def LruState.accountOps (s : LruState) (id : LockerId) (budget : Budget) : List Op :=
  (if budget.cleared then [Lru.clearOp id] else []) ++
    budget.updates.map (fun (key, entry) => Lru.putOp id key entry) ++
    (if budget.cleared then [] else (s.pendingOps id (budget.updates.map Prod.fst)).2) ++
    budget.removals.map (Lru.deleteOp id) ++ budget.plan.victims.map (Lru.deleteOp id)

/-! ## Acts -/

/-- The store, the accounting, and the least tick that may still be issued. -/
structure Ledger where
  db : Tables
  lru : LruState
  clock : Nat

/-- What happens to a ledger: a key is read; a batch is committed, and the commit lands or fails;
least recently used keys are shed; news of another tab arrives; commits of other tabs change the
store. -/
inductive UseAct where
  | read (key : Bytes) (tick : UInt64)
  | commit (tick : UInt64) (batch : List Pending) (lands : Bool)
  | evict (bytes : Nat) (lands : Bool)
  | remotePut (key : Bytes) (bytes : Option Nat)
  | remoteDelete (key : Bytes)
  | remoteClear
  | foreign (db : Tables)

namespace Ledger

/-- The accounting read back from the rows, and the highest tick in them. -/
def stored (id : LockerId) (l : Ledger) : LruState × Option UInt64 :=
  loadPage (lockerPrefix id) (rowsOf id l.db) (.new l.lru.maxBytes, none)

/-- A commit first reloads accounting that is known to be incomplete. -/
def reloaded (id : LockerId) (l : Ledger) : Ledger :=
  if l.lru.dirty then
    { l with lru := l.lru.adoptLoaded (l.stored id).1
             clock := match (l.stored id).2 with
               | some most => max l.clock (most.toNat + 1)
               | none => l.clock }
  else l

def issue (tick : UInt64) (l : Ledger) : Option Ledger :=
  if l.clock ≤ tick.toNat then some { l with clock := tick.toNat + 1 } else none

/-- A commit lands with what has been planned on the accounting. -/
def land (ops : List Op) (budget : Budget) (l : Ledger) : Ledger :=
  { l with db := l.db.commit ops, lru := l.lru.landed budget }

/-- Calls come one after another: a commit draws its tick, is planned and lands in one act. In
`Accounts.step` these are apart. -/
def step (id : LockerId) (l : Ledger) : UseAct → Option Ledger
  | .read key tick => (l.issue tick).map fun l => { l with lru := l.lru.touch key tick }
  | .commit tick batch lands => ((l.reloaded id).issue tick).map fun l =>
    let budget := l.lru.budgetFor id tick (accounting batch)
    if lands then l.land (l.lru.accountOps id budget) budget else l
  | .evict bytes lands =>
    let budget := l.lru.budgetToShed bytes
    some (if lands then l.land (budget.plan.victims.map (Lru.deleteOp id)) budget else l)
  | .remotePut key bytes => some { l with lru := l.lru.remotePut key bytes }
  | .remoteDelete key => some { l with lru := l.lru.remoteDelete key }
  | .remoteClear => some { l with lru := l.lru.remoteClear }
  | .foreign db => some { l with db := db }

/-- A run of acts, each allowed by `may` after those before it. -/
inductive Reach (id : LockerId) (may : List UseAct → Ledger → UseAct → Prop) (start : Ledger) :
    List UseAct → Ledger → Prop
  | start : Reach id may start [] start
  | act {acts : List UseAct} {l l' : Ledger} {act : UseAct} (run : Reach id may start acts l)
      (allowed : may acts l act) (step : l.step id act = some l') :
      Reach id may start (acts ++ [act]) l'

def run (id : LockerId) (l : Ledger) (acts : List UseAct) : Option Ledger :=
  acts.foldlM (fun l act => l.step id act) l

theorem reach_iff {id : LockerId} {may : List UseAct → Ledger → UseAct → Prop} {start l : Ledger}
    {acts : List UseAct} : Reach id may start acts l ↔ Trail (step id) may start acts l := by
  constructor
  · intro run
    induction run with
    | start => exact .start
    | act run allowed step ih => exact .act ih allowed step
  · intro run
    induction run with
    | start => exact .start
    | act run allowed step ih => exact .act ih allowed step

theorem reach_of_run {id : LockerId} {may : List UseAct → Ledger → UseAct → Prop}
    [∀ acts l act, Decidable (may acts l act)] {l l' : Ledger} {acts : List UseAct}
    (allowed : ∀ n : Fin acts.length,
      (l.run id (acts.take n)).all (fun l₁ => may (acts.take n) l₁ acts[n]) = true)
    (h : l.run id acts = some l') : Reach id may l acts l' :=
  reach_iff.2 (.of_run allowed h)

theorem issue_eq_some {tick : UInt64} {l l' : Ledger} (h : l.issue tick = some l') :
    l.clock ≤ tick.toNat ∧ l' = { l with clock := tick.toNat + 1 } := by
  unfold issue at h
  split at h
  · next hle => exact ⟨hle, (Option.some.inj h).symm⟩
  · cases h

end Ledger

/-! ## Loads -/

section
variable {m m' : Machine Tables Shared}

theorem loadPage_append (p : Bytes) (a b : List (Bytes × Option Bytes))
    (acc : LruState × Option UInt64) :
    loadPage p (a ++ b) acc = loadPage p b (loadPage p a acc) := List.foldl_append

theorem loadPages_run {p : Bytes} {fuel : Nat} {range : KeyRange} {acc r : LruState × Option UInt64}
    (h : Run Served (loadPages p fuel range acc) m (.ok r) m') :
    r = loadPage p ((Tree.inOrder false m.dev.metadata range).map (shown true)) acc ∧ m' = m := by
  induction fuel generalizing range acc m with
  | zero => exact absurd h run_stuck
  | succ fuel ih =>
    obtain ⟨page, m₁, hscan, hrest⟩ := run_bind_ok.1 h
    obtain ⟨rfl, hpage⟩ := run_scan.1 hscan
    obtain rfl := hpage page rfl
    dsimp only at hrest
    split at hrest
    · next last hresume =>
      have hall := (scanTree_next hresume).1
      dsimp only at hall
      rw [show m₁.dev.metadata = m₁.dev.get .meta from rfl, hall, loadPage_append]
      exact ih hrest
    · next hresume =>
      have hall := scanTree_last DEFAULT_SCAN_PAGE_pos hresume
      dsimp only at hall
      obtain ⟨hr, hm⟩ := run_pure.1 hrest
      rw [show m₁.dev.metadata = m₁.dev.get .meta from rfl, ← hall]
      exact ⟨Except.ok.inj hr, hm⟩

/-- A load reads back the rows, and raises the clock above the highest tick in them. -/
theorem loadLru_run {backend : Backend} {id : LockerId} {maxBytes : Nat} {state : LruState}
    (h : Run Served (loadLru backend id maxBytes) m (.ok state) m') :
    ∃ most, loadPage (lockerPrefix id) (rowsOf id m.dev) (.new maxBytes, none) = (state, most) ∧
      m'.dev = m.dev ∧ m'.mem.ticks.least = match most with
        | some most => max m.mem.ticks.least (most.toNat + 1)
        | none => m.mem.ticks.least := by
  obtain ⟨⟨loaded, most⟩, m₁, hpages, h₁⟩ := run_bind_ok.1 h
  obtain ⟨hrows, rfl⟩ := loadPages_run hpages
  cases most with
  | none =>
    obtain ⟨hstate, rfl⟩ := run_pure.1 h₁
    obtain rfl := Except.ok.inj hstate
    exact ⟨none, hrows.symm, rfl, rfl⟩
  | some most =>
    obtain ⟨u, m₂, hu, h₂⟩ := run_bind_ok.1 h₁
    obtain ⟨hobserved, rfl⟩ := run_sync.1 hu
    obtain ⟨hstate, rfl⟩ := run_pure.1 h₂
    obtain rfl := Except.ok.inj hstate
    exact ⟨some most, hrows.symm, rfl, Ticks.least_observeRecorded hobserved.symm⟩

end

/-! ## Calls -/

section
variable {T : Type} {inner : Inner T} {m m' : Machine Tables (Ram T)} {state : LruState}
  {ops ops' : List Op} {budget : Budget}

/-- The ledger of a locker with a byte budget. -/
def ledgerOf (m : Machine Tables (Ram T)) (state : LruState) : Ledger :=
  ⟨m.dev, state, m.mem.shared.ticks.least⟩

/-- The machine has the rows, the accounting and the clock of the ledger. -/
structure Shows (id : LockerId) (m : Machine Tables (Ram T)) (l : Ledger) : Prop where
  rows : ∀ key, m.dev.lookup .meta (entryKey id key) = l.db.lookup .meta (entryKey id key)
  lru : m.mem.res.lru = some l.lru
  clock : m.mem.shared.ticks.least = l.clock

theorem shows_ledgerOf (id : LockerId) (h : m.mem.res.lru = some state) :
    Shows id m (ledgerOf m state) := ⟨fun _ => rfl, h, rfl⟩

theorem rowsOf_congr {id : LockerId} {db db' : Tables}
    (h : ∀ key, db.lookup .meta (entryKey id key) = db'.lookup .meta (entryKey id key)) :
    rowsOf id db = rowsOf id db' := by
  refine congrArg (List.map (shown true)) (Tree.inOrder_congr fun metaKey hin => ?_)
  rw [KeyRange.contains_ofPrefix] at hin
  obtain ⟨key, rfl⟩ := hin
  exact h key

theorem allocate_shows {id : LockerId} {l : Ledger} {tick : UInt64} (shows : Shows id m l)
    (h : Run Served (Ticks.allocate.zoom (sharedPart T)) m (.ok tick) m') :
    ∃ l', l.issue tick = some l' ∧ Shows id m' l' := by
  obtain ⟨m₁, hrun, rfl⟩ := draws_allocateTick.run_zoom_iff.1 h
  obtain ⟨⟨le, eq⟩, hdev⟩ := Ticks.allocate_run hrun
  have inTime : l.clock ≤ tick.toNat := shows.clock ▸ le
  refine ⟨_, if_pos inTime, ?_, ?_, ?_⟩
  · intro key
    rw [show m₁.dev = m.dev from hdev]
    exact shows.rows key
  · exact shows.lru
  · exact eq

theorem reloadLruIfDirty_shows {l : Ledger} (shows : Shows inner.id m l)
    (h : Run Served (reloadLruIfDirty inner) m (.ok ()) m') :
    Shows inner.id m' (l.reloaded inner.id) := by
  rw [reloadLruIfDirty, run_read_bind, shows.lru] at h
  dsimp only at h
  unfold Ledger.reloaded
  cases hdirty : l.lru.dirty with
  | false =>
    rw [hdirty] at h
    obtain ⟨-, rfl⟩ := run_pure.1 h
    exact shows
  | true =>
    rw [hdirty] at h
    obtain ⟨loaded, m₁, hload, h₁⟩ := run_bind_ok.1 h
    obtain ⟨m₂, hrun, rfl⟩ := (draws_loadLru _ _ _).run_zoom_iff.1 hload
    obtain ⟨most, hrows, hdev, hclock⟩ := loadLru_run hrun
    obtain ⟨-, rfl⟩ := run_update.1 h₁
    dsimp only at hrows
    rw [rowsOf_congr shows.rows] at hrows
    have hstored : l.stored inner.id = (loaded, most) := hrows
    rw [if_pos rfl, hstored]
    refine ⟨fun key => ?_, ?_, ?_⟩
    · rw [show m₂.dev = m.dev from hdev]
      exact shows.rows key
    · show (m.mem.res.lru.map _) = _
      rw [shows.lru]
      rfl
    · rw [← shows.clock]
      exact hclock

theorem noteRead_shows {id : LockerId} {l : Ledger} {key : Bytes} (shows : Shows id m l)
    (h : Run Served (noteRead key) m (.ok ()) m') :
    ∃ tick l', l.step id (.read key tick) = some l' ∧ Shows id m' l' := by
  rw [noteRead, run_read_bind, shows.lru] at h
  obtain ⟨tick, m₁, htick, h₁⟩ := run_bind_ok.1 h
  obtain ⟨l₁, hissue, shows₁⟩ := allocate_shows shows htick
  obtain ⟨-, rfl⟩ := run_update.1 h₁
  refine ⟨tick, { l₁ with lru := l₁.lru.touch key tick }, ?_, ⟨shows₁.rows, ?_, shows₁.clock⟩⟩
  · rw [Ledger.step, hissue]
    rfl
  · show (m₁.mem.res.lru.map _) = _
    rw [shows₁.lru]
    rfl

theorem victimOps_rows {victims : List Bytes}
    (h : Run Served (victimOps inner victims) m (.ok ops) m') (key : Bytes) :
    written ops .meta key = written (victims.map (Lru.deleteOp inner.id)) .meta key := by
  induction victims generalizing m' ops with
  | nil =>
    obtain rfl := Except.ok.inj (run_pure.1 h).1
    rfl
  | cons victim rest ih =>
    obtain ⟨first, m₁, hfirst, h₁⟩ := run_bind_ok.1 h
    obtain ⟨rfl, rfl⟩ := deleteValueOps_run hfirst
    obtain ⟨more, m₂, hmore, h₂⟩ := run_bind_ok.1 h₁
    obtain rfl := Except.ok.inj (run_pure.1 h₂).1
    have records : written (KeyWrite.ops inner
        ⟨victim, collected inner m₁.dev victim .unknown, .gone⟩) .meta key = none :=
      written_of_table fun op hop => table_of_mem_ops hop
    rw [written_append, written_append, ih hmore, records, List.map_cons, written_cons,
      written_cons, written_nil]
    simp

/-- Planning a commit is that of the ledger, with the row ops of the accounting. -/
theorem budgetOps_shows {l : Ledger} {acc : Accounting} (shows : Shows inner.id m l)
    (h : Run Served (budgetOps inner ops acc.updates acc.removals acc.cleared
      (acc.updates.map Prod.fst)) m (.ok (ops', budget)) m') :
    ∃ tick l', (l.reloaded inner.id).issue tick = some l' ∧ Shows inner.id m' l' ∧
      budget = l'.lru.budgetFor inner.id tick acc ∧
      ∀ key, written ops' .meta (entryKey inner.id key) =
        (written (l'.lru.accountOps inner.id budget) .meta (entryKey inner.id key)).or
          (written ops .meta (entryKey inner.id key)) := by
  rw [budgetOps, run_read_bind, shows.lru] at h
  obtain ⟨u, m₁, hreload, h₁⟩ := run_bind_ok.1 h
  have shows₁ := reloadLruIfDirty_shows shows hreload
  obtain ⟨tick, m₂, htick, h₂⟩ := run_bind_ok.1 h₁
  obtain ⟨l', hissue, shows₂⟩ := allocate_shows shows₁ htick
  rw [run_read_bind, shows₂.lru] at h₂
  obtain ⟨shed, m₃, hshed, h₃⟩ := run_bind_ok.1 h₂
  have hrows := victimOps_rows hshed
  obtain ⟨rfl, -⟩ := victimOps_run hshed
  rw [run_read_bind] at h₃
  obtain ⟨hpair, rfl⟩ := run_pure.1 h₃
  obtain ⟨rfl, rfl⟩ := Prod.mk.inj (Except.ok.inj hpair)
  refine ⟨tick, l', hissue, shows₂, rfl, fun key => ?_⟩
  have hcounter (s : Shared) : written [Ticks.counterOp s] .meta (entryKey inner.id key) = none := by
    have hne := (entryKey_ne (k := META_NEXT_TICK) (by decide) inner.id key).symm
    simp [Ticks.counterOp, written_cons, Op.written, hne]
  simp only [LruState.accountOps, written_append, hcounter, hrows, Option.none_or, Option.or_assoc]
  cases acc.cleared with
  | true => rfl
  | false => rfl

theorem Shows.land {l : Ledger} {rowOps : List Op} (shows : Shows inner.id m l)
    (same : ∀ key, written ops .meta (entryKey inner.id key) =
      written rowOps .meta (entryKey inner.id key)) :
    Shows inner.id ⟨m.dev.commit ops, applyBudget budget m.mem⟩ (l.land rowOps budget) where
  rows key := by
    rw [Ledger.land, Tables.lookup_commit, Tables.lookup_commit, same, shows.rows]
  lru := by
    rw [applyBudget_lru, shows.lru]
    rfl
  clock := shows.clock

/-- Shedding is an eviction, that lands or fails. -/
theorem evictTo_shows {l : Ledger} {bytes : Nat} {r : Except Error Nat} (shows : Shows inner.id m l)
    (h : Run Served (Resident.evictTo inner bytes) m r m') :
    ∃ lands l', l.step inner.id (.evict bytes lands) = some l' ∧ Shows inner.id m' l' := by
  rw [Resident.evictTo, run_read_bind, shows.lru] at h
  obtain ⟨-, m₁, hbody, rfl⟩ := run_withWriteLock.1 h
  rw [run_read_bind] at hbody
  dsimp only [Ram.lock] at hbody
  rw [shows.lru] at hbody
  dsimp only at hbody
  split at hbody
  · obtain ⟨-, rfl⟩ := run_pure.1 hbody
    exact ⟨false, l, rfl, shows.rows, shows.lru, shows.clock⟩
  have locked : Shows inner.id ⟨m.dev, m.mem.lock⟩ l := ⟨shows.rows, shows.lru, shows.clock⟩
  rcases run_bind.1 hbody with ⟨ops, m₂, hops, h₁⟩ | ⟨e, hops, rfl⟩
  · have hrows := victimOps_rows hops
    obtain ⟨rfl, -⟩ := victimOps_run hops
    rcases run_bind.1 h₁ with ⟨u, m₃, hcommit, h₂⟩ | ⟨e, hcommit, rfl⟩
    · rcases run_innerCommit.1 hcommit with ⟨-, rfl⟩ | ⟨e, he, -⟩
      · rw [run_update_bind] at h₂
        obtain ⟨-, rfl⟩ := run_pure.1 h₂
        have landed : Shows inner.id
            ⟨m.dev.commit ops, applyBudget (l.lru.budgetToShed bytes) m.mem.lock⟩
            (l.land ((l.lru.budgetToShed bytes).plan.victims.map (Lru.deleteOp inner.id))
              (l.lru.budgetToShed bytes)) :=
          locked.land fun key => hrows (entryKey inner.id key)
        exact ⟨true, _, rfl, landed.rows, landed.lru, landed.clock⟩
      · cases he
    · rcases run_innerCommit.1 hcommit with ⟨he, -⟩ | ⟨e', -, rfl⟩
      · cases he
      · exact ⟨false, l, rfl, shows.rows, shows.lru, shows.clock⟩
  · rw [(reads_victimOps inner _).run hops]
    exact ⟨false, l, rfl, shows.rows, shows.lru, shows.clock⟩

end

/-! ## What a commit leaves in the rows -/

section
variable {id : LockerId} {key : Bytes}

theorem written_putOps {l : List (Bytes × Entry)} {v : Option Bytes}
    (h : written (l.map fun u => Lru.putOp id u.1 u.2) .meta (entryKey id key) = some v) :
    ∃ entry, (key, entry) ∈ l ∧ v = some (encodeEntry entry) := by
  induction l with
  | nil => cases h
  | cons u rest ih =>
    rw [List.map_cons, written_cons] at h
    rcases Option.or_eq_some_iff.1 h with hrest | ⟨-, hput⟩
    · obtain ⟨entry, hmem, hv⟩ := ih hrest
      exact ⟨entry, List.mem_cons_of_mem _ hmem, hv⟩
    · simp only [Lru.putOp, Op.written, entryKey_inj, true_and] at hput
      split at hput
      · next hk =>
        obtain ⟨k, entry⟩ := u
        dsimp only at hk hput
        subst hk
        exact ⟨entry, List.mem_cons_self, (Option.some.inj hput).symm⟩
      · cases hput

theorem not_mem_of_written_putOps {l : List (Bytes × Entry)}
    (h : written (l.map fun u => Lru.putOp id u.1 u.2) .meta (entryKey id key) = none) :
    key ∉ l.map Prod.fst := by
  intro hmem
  obtain ⟨u, hu, rfl⟩ := List.mem_map.1 hmem
  have put := written_eq_none.1 h _ (List.mem_map_of_mem hu)
  simp [Lru.putOp, Op.written] at put

theorem written_deleteOps (keys : List Bytes) :
    written (keys.map (Lru.deleteOp id)) .meta (entryKey id key) =
      if key ∈ keys then some none else none := by
  induction keys with
  | nil => rfl
  | cons k rest ih =>
    rw [List.map_cons, written_cons, ih]
    simp only [Lru.deleteOp, Op.written, entryKey_inj, true_and, List.mem_cons]
    by_cases hrest : key ∈ rest
    · simp [hrest]
    · by_cases hk : k = key
      · simp [hrest, hk]
      · simp [hrest, hk, Ne.symm hk]

theorem rowAt_commit (db : Tables) (ops : List Op) : rowAt id (db.commit ops) key =
    ((written ops .meta (entryKey id key)).getD (db.lookup .meta (entryKey id key))).bind parseEntry := by
  rw [rowAt, Tables.lookup_commit]

/-- A deferred tick is written for a key that the commit does not write itself. -/
theorem mem_pendingOps {s : LruState} {skip : List Bytes} {v : Option Bytes}
    (h : written (s.pendingOps id skip).2 .meta (entryKey id key) = some v) :
    key ∉ skip ∧ ∃ tick entry, s.pending[key]? = some tick ∧ s.entries[key]? = some entry ∧
      v = some (encodeEntry ⟨tick, entry.bytes⟩) := by
  have puts : (s.pendingOps id skip).2 = ((s.pending.toList.take PENDING_PER_COMMIT).filterMap
      fun e => if e.1 ∈ skip then none
        else s.entries[e.1]?.map fun entry => (e.1, (⟨e.2, entry.bytes⟩ : Entry))).map
      fun u => Lru.putOp id u.1 u.2 := by
    rw [List.map_filterMap]
    refine List.filterMap_congr fun e _ => ?_
    dsimp only
    split
    · rfl
    · rw [Option.map_map]
      rfl
  rw [puts] at h
  obtain ⟨entry, hmem, rfl⟩ := written_putOps h
  obtain ⟨⟨k, tick⟩, htaken, hentry⟩ := List.mem_filterMap.1 hmem
  dsimp only at hentry
  split at hentry
  · cases hentry
  · next hskip =>
    obtain ⟨held, hheld, heq⟩ := Option.map_eq_some_iff.1 hentry
    obtain ⟨rfl, rfl⟩ := Prod.mk.inj heq
    exact ⟨hskip, tick, held,
      Std.ExtTreeMap.mem_toList_iff_getElem?_eq_some.1 (List.mem_of_mem_take htaken), hheld, rfl⟩

/-- What a commit leaves in the row of a key: the tick of the commit, if it writes the key, or
a deferred tick, or what was there. -/
theorem row_commit {s : LruState} {tick : UInt64} {acc : Accounting} {db : Tables} {entry : Entry}
    (h : rowAt id (db.commit (s.accountOps id (s.budgetFor id tick acc))) key = some entry) :
    key ∈ acc.updates.map Prod.fst ∧ entry.tick = tick ∨
      key ∉ acc.updates.map Prod.fst ∧
        (s.pending[key]? = some entry.tick ∨ rowAt id db key = some entry) := by
  have skips : (s.budgetFor id tick acc).updates.map Prod.fst = acc.updates.map Prod.fst := by
    rw [LruState.budgetFor, List.map_map]
    rfl
  have ticks {entry : Entry} (hmem : (key, entry) ∈ (s.budgetFor id tick acc).updates) :
      entry.tick = tick := by
    obtain ⟨u, -, hu⟩ := List.mem_map.1 hmem
    exact (congrArg (fun u => u.2.tick) hu).symm
  rw [rowAt_commit, LruState.accountOps] at h
  simp only [written_append, written_deleteOps] at h
  by_cases shed : key ∈ (s.budgetFor id tick acc).plan.victims
  · simp [shed] at h
  rw [if_neg shed, Option.none_or] at h
  by_cases removed : key ∈ (s.budgetFor id tick acc).removals
  · simp [removed] at h
  rw [if_neg removed, Option.none_or] at h
  -- The row of the write itself, or what the commit finds there.
  have rest (hrest : (((written ((s.budgetFor id tick acc).updates.map
      fun u => Lru.putOp id u.1 u.2) .meta (entryKey id key)).or
        (written (if acc.cleared then [Lru.clearOp id] else []) .meta (entryKey id key))).getD
          (db.lookup .meta (entryKey id key))).bind parseEntry = some entry) :
      key ∈ acc.updates.map Prod.fst ∧ entry.tick = tick ∨
        key ∉ acc.updates.map Prod.fst ∧ rowAt id db key = some entry := by
    cases hput : written ((s.budgetFor id tick acc).updates.map
        fun u => Lru.putOp id u.1 u.2) .meta (entryKey id key) with
    | some v =>
      obtain ⟨put, hmem, rfl⟩ := written_putOps hput
      rw [hput, Option.some_or, Option.getD_some, Option.bind_some, parseEntry_encodeEntry] at hrest
      obtain rfl := Option.some.inj hrest
      have put_tick : put.tick = tick := ticks hmem
      exact .inl ⟨skips ▸ List.mem_map_of_mem hmem, put_tick⟩
    | none =>
      rw [hput, Option.none_or] at hrest
      refine .inr ⟨skips ▸ not_mem_of_written_putOps hput, ?_⟩
      cases hc : acc.cleared with
      | true =>
        have gone : (KeyRange.ofPrefix (lockerPrefix id)).contains (entryKey id key) = true :=
          (KeyRange.contains_ofPrefix _ _).2 (List.prefix_append _ _)
        simp [hc, Lru.clearOp, written_cons, Op.written, gone] at hrest
      | false => simpa [hc, rowAt] using hrest
  have cleared : (s.budgetFor id tick acc).cleared = acc.cleared := rfl
  rw [cleared] at h
  cases hpending : written (if acc.cleared = true then []
      else (s.pendingOps id ((s.budgetFor id tick acc).updates.map Prod.fst)).2) .meta
        (entryKey id key) with
  | some v =>
    cases hc : acc.cleared with
    | true =>
      rw [hc] at hpending
      cases hpending
    | false =>
      rw [hpending, Option.some_or, Option.getD_some] at h
      rw [hc] at hpending
      obtain ⟨fresh, deferred, held, hdeferred, -, rfl⟩ := mem_pendingOps hpending
      rw [Option.bind_some, parseEntry_encodeEntry] at h
      obtain rfl := Option.some.inj h
      exact .inr ⟨skips ▸ fresh, .inl hdeferred⟩
  | none =>
    rw [hpending, Option.none_or] at h
    rcases rest h with hwritten | ⟨hno, hold⟩
    · exact .inl hwritten
    · exact .inr ⟨hno, .inr hold⟩

end
end Crossbank
