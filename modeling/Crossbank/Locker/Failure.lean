import Crossbank.Locker.Session

/-!
# A failed write leaves everything as it was

* `Keeps`, `Steady` : an invariant that no memory access of a program breaks, and one that no call of
  a lazy locker does (`LazyCall.keeps`);
* `LazyLocker.Reached.clean`, `Reached.isLazy`, `Reached.idle` : no state that calls reach has an
  accounting that is known to be incomplete, or is not lazy, or is immediate and stages something;
* `LazyCall.AllOrNothing`, `EagerCall.AllOrNothing` : the writes that land whole or not at all;
* `failed_write_unmoved` : one of them that fails has moved nothing but the cursors of the bank.
-/

namespace Crossbank
open Async

section
variable {T α β : Type} {inner : Inner T}

/-! ## What calls do to the memory of a locker -/

/-- No memory access of `p` breaks the invariant. -/
def Keeps (I : Ram T → Prop) (p : Io (Ram T) α) : Prop :=
  p.Only (fun _ => True) fun ram ram' => I ram → I ram'

/-- The part of a resident state that the invariants are about. -/
def Resident.core (r : Resident) : Option LruState × TxMode × List Pending := (r.lru, r.mode, r.staged)

/-- An invariant of whatever a call does to the memory of a locker, but for staging. -/
class Steady (I : Ram T → Prop) : Prop where
  other : ∀ ram, I ram → ∀ ram', ram'.res.core = ram.res.core → I ram'
  lru : ∀ ram (f : LruState → LruState), (∀ state, state.dirty = false → (f state).dirty = false) →
    I ram → I (ram.mapRes fun r => { r with lru := r.lru.map f })
  drained : ∀ ram, I ram → I (ram.mapRes fun r => { r with staged := [] })

structure Staging (I : Ram T → Prop) : Prop where
  stage : ∀ ram entry, I ram → I (ram.mapRes fun r => { r with staged := r.staged ++ [entry] })
  putBack : ∀ ram entries, I ram → I (ram.mapRes (.putBack entries))

section
variable {I : Ram T → Prop}

theorem Keeps.bind {p : Io (Ram T) α} {f : α → Io (Ram T) β} (hp : Keeps I p)
    (hf : ∀ a, Keeps I (f a)) : Keeps I (p >>= f) := Prog.Only.bind hp hf

theorem Reads.keeps {p : Io (Ram T) α} (hp : Reads p) : Keeps I p :=
  Prog.Only.mono hp (fun _ _ => trivial) fun _ _ h => h.elim

theorem keeps_read {f : Ram T → α} : Keeps I (Prog.read f) :=
  Prog.only_read.2 fun _ h => h

theorem keeps_pure {a : α} : Keeps I (pure a : Io (Ram T) α) := reads_pure.keeps

theorem keeps_fail {e : Error} : Keeps I (Prog.fail e : Io (Ram T) α) :=
  reads_fail.keeps

theorem keeps_ofExcept {x : Except Error α} : Keeps I (Prog.ofExcept x : Io (Ram T) α) :=
  reads_ofExcept.keeps

theorem keeps_ensureOpen : Keeps I (Ram.ensureOpen : Io (Ram T) Unit) :=
  Prog.only_sync.2 fun _ h => h

theorem keeps_commit {ops : List Op} : Keeps I (inner.commit ops : Io (Ram T) Unit) :=
  Backend.only_commitWith.2 trivial

theorem keeps_restagingOnError {entries : List Pending}
    (putBack : ∀ ram, I ram → I (ram.mapRes (.putBack entries))) {p : Io (Ram T) α}
    (hp : Keeps I p) : Keeps I (restagingOnError entries p) := by
  unfold restagingOnError
  apply Keeps.bind (Prog.Only.attempt hp)
  intro x
  cases x with
  | ok a => exact keeps_pure
  | error e => exact Keeps.bind (Prog.only_update.2 putBack) fun _ => keeps_fail

theorem keeps_stage (staging : Staging I) {entry : Pending} : Keeps I (stage inner entry) :=
  Prog.only_sync.2 fun ram => staging.stage ram entry

theorem reads_decodeEntries (items : List (Bytes × Source)) :
    Reads (LazyLocker.decodeEntries inner items) := by
  induction items with
  | nil => exact reads_pure
  | cons item rest ih =>
    obtain ⟨key, source⟩ := item
    unfold LazyLocker.decodeEntries
    cases source with
    | stored bytes =>
      exact (reads_decodeRecord inner bytes).bind fun v => ih.bind fun more => reads_pure
    | staged payload => exact reads_ofExcept.bind fun v => ih.bind fun more => reads_pure

theorem keeps_collect {start stop : Bound Bytes} {reverse : Bool} {limit : Option Nat} :
    Keeps I (LazyLocker.collect inner start stop reverse limit) := by
  unfold LazyLocker.collect
  apply keeps_read.bind
  intro staged
  apply (reads_walk inner _ _ _ _ _ _).keeps.bind
  intro stored
  split
  · exact (reads_decodeEntries _).keeps
  · exact (reads_decodeEntries _).keeps

theorem keeps_flushBackend : Keeps I (inner.flushBackend : Io (Ram T) Unit) := by
  unfold Inner.flushBackend
  split
  · exact Backend.only_flush.2 trivial
  · exact keeps_pure

theorem keeps_flushPiece {w : Writer} {piece : Bytes} :
    Keeps I (w.flushPiece inner piece) :=
  keeps_ofExcept.bind fun _ => keeps_commit

theorem keeps_abort {w : Writer} : Keeps I (w.abort inner) := keeps_commit

theorem keeps_writeChunk {w : Writer} {bytes : Bytes} :
    Keeps I (w.writeChunk inner bytes) := by
  have full (fuel : Nat) (w : Writer) : Keeps I (w.flushFull inner fuel) := by
    induction fuel generalizing w with
    | zero => exact reads_stuck.keeps
    | succ fuel ih =>
      unfold Writer.flushFull
      split
      · apply Keeps.bind (Prog.Only.attempt keeps_flushPiece)
        intro x
        cases x with
        | ok => exact ih _
        | error e => exact keeps_pure
      · exact keeps_pure
  exact full _ _

variable [steady : Steady I]

theorem Keeps.run {p : Io (Ram T) α} (hp : Keeps I p) {m m' : Machine Tables (Ram T)}
    {r : Except Error α} (h : Run Served p m r m') (hm : I m.mem) : I m'.mem := by
  refine Prog.Only.run (I := fun m => I m.mem) hp h hm (fun _ _ hm hr => hr hm) ?_
  intro m q x m' hm _ hs
  cases q with
  | get | getMany | scan => exact hs.1 ▸ hm
  | commit ops options =>
    rcases hs with ⟨-, rfl⟩ | ⟨_, -, rfl⟩
    · exact hm
    · exact hm
  | flush | idle =>
    obtain rfl := hs
    exact hm
  | lock =>
    obtain ⟨s, hs, rfl⟩ := hs
    simp only [WriteLock.acquire] at hs
    split at hs
    · cases hs
    · obtain rfl := Option.some.inj hs
      exact steady.other _ hm _ rfl

theorem Draws.keeps {p : Io Shared α} (hp : Draws p) :
    Keeps I (p.zoom (sharedPart T)) := by
  refine Prog.Only.mono (Prog.Only.zoom hp) (fun _ _ => trivial) ?_
  rintro ram _ ⟨s, -, rfl⟩ h
  exact steady.other _ h _ rfl

theorem keeps_update {f : Ram T → Ram T} (h : ∀ ram, (f ram).res.core = ram.res.core) :
    Keeps I (Prog.update f) := Prog.only_update.2 fun ram hram => steady.other ram hram _ (h ram)

theorem keeps_update_bind {f : Ram T → Ram T} {k : Unit → Io (Ram T) α}
    (h : ∀ ram, (f ram).res.core = ram.res.core) (hk : Keeps I (k ())) :
    Keeps I (Prog.update f >>= k) := (keeps_update h).bind fun _ => hk

theorem keeps_withWriteLock {p : Io (Ram T) α} (hp : Keeps I p) :
    Keeps I (withWriteLock p) :=
  Prog.Only.bind (Prog.only_ask.2 trivial) fun _ =>
    Prog.Only.guarded hp fun _ h => steady.other _ h _ rfl

theorem keeps_reloadLruIfDirty : Keeps I (reloadLruIfDirty inner) := by
  unfold reloadLruIfDirty
  apply keeps_read.bind
  intro lru
  cases lru with
  | none => exact keeps_pure
  | some state =>
    dsimp only
    split
    · exact keeps_pure
    apply (draws_loadLru _ _ _).keeps.bind
    intro loaded
    exact Prog.only_update.2 fun ram => steady.lru ram (·.adoptLoaded loaded) fun _ _ => rfl

theorem keeps_budgetOps {ops : List Op} {updates : List (Bytes × Nat)}
    {removals keep : List Bytes} {cleared : Bool} :
    Keeps I (budgetOps inner ops updates removals cleared keep) := by
  unfold budgetOps
  apply keeps_read.bind
  intro isNone
  split
  · exact keeps_pure
  apply keeps_reloadLruIfDirty.bind
  intro _
  apply draws_allocateTick.keeps.bind
  intro tick
  apply keeps_read.bind
  intro lru
  cases lru with
  | none => exact keeps_pure
  | some state =>
    apply (reads_victimOps inner _).keeps.bind
    intro shed
    exact keeps_read.bind fun counter => keeps_pure

theorem foldl_noteInline_core (victims : List Bytes) (r : Resident) :
    (victims.foldl (fun r victim => r.noteInline victim false) r).core = r.core := by
  induction victims generalizing r with
  | nil => rfl
  | cons victim rest ih => exact ih _

theorem keeps_applyBudget {budget : Budget} :
    Keeps I (Prog.update (applyBudget budget) : Io (Ram T) Unit) := by
  refine Prog.only_update.2 fun ram hram => ?_
  have happlied := steady.lru ram (fun state => (LruState.apply budget.updates budget.removals
    budget.cleared budget.plan state).clearPending budget.pending) (fun _ h => h) hram
  refine steady.other _ happlied _ ((foldl_noteInline_core budget.plan.victims _).trans ?_)
  unfold Resident.core Resident.touchIndex
  dsimp only [Ram.mapRes]
  rw [Option.map_map]
  rfl

theorem keeps_noteRead {key : Bytes} : Keeps I (noteRead key : Io (Ram T) Unit) := by
  unfold noteRead
  apply keeps_read.bind
  intro isNone
  split
  · exact keeps_pure
  apply draws_allocateTick.keeps.bind
  intro tick
  refine Prog.only_update.2 fun ram => steady.lru ram (·.touch key tick) fun state hstate => ?_
  unfold LruState.touch
  split
  · exact hstate
  · exact hstate

theorem keeps_batchOps {merged : List Pending} {mode : TxMode} :
    Keeps I (batchOps inner merged mode) :=
  (draws_opsForItems inner merged mode).keeps.bind fun _ => keeps_budgetOps

theorem keeps_takeStaged : Keeps I (takeStaged : Io (Ram T) (List Pending)) :=
  Prog.only_sync.2 fun ram hram => steady.other _ (steady.drained ram hram) _ rfl

theorem keeps_flushLocked (staging : Staging I) : Keeps I (flushLocked inner) := by
  unfold flushLocked
  apply keeps_takeStaged.bind
  intro entries
  refine Prog.Only.guarded ?_ fun _ h => steady.other _ h _ rfl
  split
  · exact keeps_pure
  apply keeps_read.bind
  intro mode
  apply (keeps_restagingOnError (fun ram => staging.putBack ram _) keeps_batchOps).bind
  intro opsBudget
  exact (keeps_restagingOnError (fun ram => staging.putBack ram _) keeps_commit).bind fun _ =>
    keeps_applyBudget

theorem keeps_loadAndNote {key : Bytes} : Keeps I (LazyLocker.loadAndNote inner key) := by
  unfold LazyLocker.loadAndNote
  apply Keeps.bind (Prog.Only.attempt (reads_loadValue inner key).keeps)
  intro x
  cases x with
  | ok found => exact keeps_pure
  | error e =>
    dsimp only
    split
    · exact keeps_update_bind (fun _ => rfl) (keeps_fail)
    · exact keeps_pure.bind fun _ => keeps_fail

theorem keeps_getBy {key : Bytes} : Keeps I (LazyLocker.getBy inner key) := by
  unfold LazyLocker.getBy
  apply keeps_ensureOpen.bind
  intro _
  apply keeps_read.bind
  intro staged
  split
  · exact keeps_pure
  · exact keeps_ofExcept
  · apply keeps_loadAndNote.bind
    intro found
    dsimp only
    split
    · exact keeps_noteRead.bind fun _ => keeps_pure
    · exact keeps_pure.bind fun _ => keeps_pure

theorem keeps_putBy (staging : isDeferred inner = true → Staging I) {key : Bytes} {value : T} :
    Keeps I (LazyLocker.putBy inner key value) := by
  unfold LazyLocker.putBy
  refine keeps_ensureOpen.bind fun _ => keeps_withWriteLock ?_
  apply keeps_ofExcept.bind
  intro payload
  split
  · next deferred =>
    apply (keeps_stage (staging deferred)).bind
    intro full
    refine keeps_update_bind (fun _ => rfl) ?_
    refine keeps_update_bind (fun _ => rfl) ?_
    refine keeps_update_bind (fun _ => rfl) ?_
    split
    · exact keeps_flushLocked (staging deferred)
    · exact keeps_pure
  · apply keeps_read.bind
    intro prior
    apply (draws_putPayloadOps inner _ _ _ _).keeps.bind
    intro ops
    apply keeps_budgetOps.bind
    intro opsBudget
    apply keeps_commit.bind
    intro _
    refine keeps_update_bind (fun _ => rfl) ?_
    refine keeps_update_bind (fun _ => rfl) ?_
    exact keeps_applyBudget.bind fun _ => keeps_update fun _ => rfl

theorem keeps_deleteBy (staging : isDeferred inner = true → Staging I) {key : Bytes} : Keeps I (LazyLocker.deleteBy inner key) := by
  unfold LazyLocker.deleteBy
  refine keeps_ensureOpen.bind fun _ => keeps_withWriteLock ?_
  split
  · next deferred =>
    apply (keeps_stage (staging deferred)).bind
    intro full
    refine keeps_update_bind (fun _ => rfl) ?_
    refine keeps_update_bind (fun _ => rfl) ?_
    refine keeps_update_bind (fun _ => rfl) ?_
    split
    · exact keeps_flushLocked (staging deferred)
    · exact keeps_pure
  · apply keeps_read.bind
    intro prior
    apply (reads_deleteValueOps inner _ _).keeps.bind
    intro ops
    apply keeps_budgetOps.bind
    intro opsBudget
    apply keeps_commit.bind
    intro _
    refine keeps_update_bind (fun _ => rfl) ?_
    refine keeps_update_bind (fun _ => rfl) ?_
    exact keeps_applyBudget.bind fun _ => keeps_update fun _ => rfl

theorem keeps_clear (staging : isDeferred inner = true → Staging I) : Keeps I (LazyLocker.clear inner) := by
  unfold LazyLocker.clear
  refine keeps_ensureOpen.bind fun _ => keeps_withWriteLock ?_
  split
  · next deferred =>
    apply (keeps_stage (staging deferred)).bind
    intro full
    refine keeps_update_bind (fun _ => rfl) ?_
    refine keeps_update_bind (fun _ => rfl) ?_
    refine keeps_update_bind (fun _ => rfl) ?_
    split
    · exact keeps_flushLocked (staging deferred)
    · exact keeps_pure
  · apply (reads_clearValueOps inner).keeps.bind
    intro ops
    apply keeps_budgetOps.bind
    intro opsBudget
    apply keeps_commit.bind
    intro _
    refine keeps_update_bind (fun _ => rfl) ?_
    refine keeps_update_bind (fun _ => rfl) ?_
    exact keeps_applyBudget.bind fun _ => keeps_update fun _ => rfl

theorem keeps_landing {before : List Pending} {entries : List (Staged T)}
    (putBack : ∀ ram, I ram → I (ram.mapRes (.putBack before))) :
    Keeps I (Prog.guarded dropDrained do
      let (ops, budget) ← restagingOnError before (batchOps inner (mergeBatches before entries) .lazy)
      restagingOnError before (inner.commit ops)
      Prog.update (Ram.mapRes (·.touchIndex (LazyLocker.indexAfter entries)))
      Prog.update (Ram.mapRes Resident.forgetInline)
      Prog.update (applyBudget budget)
      Prog.update fun ram => { ram with events := ram.events ++ entries.map LazyLocker.noticeOf } :
        Io (Ram T) Unit) := by
  refine Prog.Only.guarded ?_ fun _ h => steady.other _ h _ rfl
  apply (keeps_restagingOnError putBack keeps_batchOps).bind
  intro opsBudget
  apply (keeps_restagingOnError putBack keeps_commit).bind
  intro _
  refine keeps_update_bind (fun _ => rfl) (keeps_update_bind (fun _ => rfl) ?_)
  exact keeps_applyBudget.bind fun _ => keeps_update fun _ => rfl

theorem keeps_transact (staging : Staging I) {body : TxBody T} :
    Keeps I (LazyLocker.transact inner body) := by
  unfold LazyLocker.transact
  refine keeps_ensureOpen.bind fun _ => keeps_withWriteLock ?_
  apply (reads_txBody inner body []).keeps.bind
  intro entries
  split
  · exact keeps_pure
  exact keeps_takeStaged.bind fun before => keeps_landing fun ram => staging.putBack ram before

theorem keeps_flush (staging : Staging I) : Keeps I (Resident.flush inner) := by
  unfold Resident.flush
  apply keeps_read.bind
  intro n
  split
  · exact keeps_pure
  · exact keeps_withWriteLock (keeps_flushLocked staging)

theorem keeps_lazyFlush (staging : Staging I) : Keeps I (LazyLocker.flush inner) := by
  refine Keeps.bind (Prog.Only.attempt (keeps_flush staging)) fun a => ?_
  refine Keeps.bind (Prog.Only.attempt keeps_flushBackend) fun b => ?_
  exact keeps_ofExcept.bind fun _ => keeps_ofExcept

theorem keeps_evictTo {bytes : Nat} : Keeps I (LazyLocker.evictTo inner bytes) := by
  refine keeps_ensureOpen.bind fun _ => ?_
  unfold Resident.evictTo
  apply keeps_read.bind
  intro isNone
  split
  · exact keeps_pure
  refine keeps_withWriteLock (keeps_read.bind fun lru => ?_)
  cases lru with
  | none => exact keeps_pure
  | some state =>
    dsimp only
    split
    · exact keeps_pure
    apply (reads_victimOps inner _).keeps.bind
    intro ops
    apply keeps_commit.bind
    intro _
    exact keeps_applyBudget.bind fun _ => keeps_pure

theorem keeps_writer {key : String} : Keeps I (LazyLocker.writer inner key) := by
  refine keeps_ensureOpen.bind fun _ => keeps_withWriteLock ?_
  unfold Writer.start
  apply draws_allocateValueId.keeps.bind
  intro valueId
  apply keeps_read.bind
  intro op
  cases op with
  | none => exact keeps_pure.bind fun _ => keeps_pure
  | some op => exact keeps_commit.bind fun _ => keeps_pure

theorem keeps_finish {w : Writer} : Keeps I (w.finish inner) := by
  have tail (w : Writer) : Keeps I (do
      let existing ← inner.fetch (asBytes w.key)
      let gc ← Prog.ofExcept (Inner.gcExisting existing)
      let pointer : ChunkPointer := ⟨w.valueId, w.seq, w.totalLen, FLAG_RAW⟩
      inner.commit (gc ++ [.put .records (inner.encodeKey (asBytes w.key)) pointer.encode])
      Prog.update (Ram.mapRes (·.touchIndex (·.insert (asBytes w.key))))
      Prog.update (Ram.mapRes (·.noteInline (asBytes w.key) false))
      Prog.update (Ram.announce (.put (asBytes w.key))) : Io (Ram T) Unit) := by
    apply (show Reads (inner.fetch (asBytes w.key) : Io (Ram T) _) from reads_get).keeps.bind
    intro existing
    apply keeps_ofExcept.bind
    intro gc
    apply keeps_commit.bind
    intro _
    refine keeps_update_bind (fun _ => rfl) ?_
    exact keeps_update_bind (fun _ => rfl) (keeps_update fun _ => rfl)
  unfold Writer.finish
  dsimp only
  split
  · exact keeps_pure.bind tail
  · exact keeps_flushPiece.bind fun _ => keeps_pure.bind tail

/-- What a close does once it has tried to flush. -/
theorem keeps_closeRest (flushed : Except Error Unit) : Keeps I (do
    if flushed.isOk then discardStaged
    let forced ← inner.flushBackend.attempt
    Prog.update fun ram => { ram with closed := true }
    Prog.update (Ram.mapRes (·.touchIndex fun _ => ∅))
    Prog.update (Ram.mapRes Resident.forgetInline)
    Prog.ofExcept flushed
    Prog.ofExcept forced : Io (Ram T) Unit) := by
  have tail : Keeps I (do
      let forced ← inner.flushBackend.attempt
      Prog.update fun ram => { ram with closed := true }
      Prog.update (Ram.mapRes (·.touchIndex fun _ => ∅))
      Prog.update (Ram.mapRes Resident.forgetInline)
      Prog.ofExcept flushed
      Prog.ofExcept forced : Io (Ram T) Unit) := by
    apply Keeps.bind (Prog.Only.attempt keeps_flushBackend)
    intro forced
    refine keeps_update_bind (fun _ => rfl) (keeps_update_bind (fun _ => rfl) ?_)
    refine keeps_update_bind (fun _ => rfl) ?_
    exact keeps_ofExcept.bind fun _ => keeps_ofExcept
  dsimp only
  split
  · exact Keeps.bind (Prog.only_update.2 steady.drained) fun _ => tail
  · exact tail

theorem keeps_close (staging : Staging I) : Keeps I (LazyLocker.close inner) :=
  Keeps.bind (Prog.Only.attempt (keeps_flush staging)) keeps_closeRest

theorem LazyCall.keeps (staging : Staging I) (c : LazyCall T) : Keeps I (c.prog inner) := by
  cases c with
  | get key => exact Prog.Only.map keeps_getBy
  | list start stop reverse limit => exact Prog.Only.map keeps_collect
  | put key value => exact keeps_putBy fun _ => staging
  | delete key => exact keeps_deleteBy fun _ => staging
  | clear => exact keeps_clear fun _ => staging
  | transact body => exact keeps_transact staging
  | putAll entries =>
    show Keeps I (LazyLocker.putAll inner entries)
    unfold LazyLocker.putAll
    split
    · exact keeps_pure
    · exact keeps_transact staging
  | deleteAll keys =>
    show Keeps I (LazyLocker.deleteAll inner keys)
    unfold LazyLocker.deleteAll
    split
    · exact keeps_pure
    · exact keeps_transact staging
  | flush => exact keeps_lazyFlush staging
  | evictTo bytes => exact Prog.Only.map keeps_evictTo
  | writer key => exact Prog.Only.map keeps_writer
  | writeChunk w bytes => exact Prog.Only.map keeps_writeChunk
  | finish w => exact keeps_finish
  | abort w => exact keeps_abort
  | close => exact keeps_close staging

end

/-! ## The accounting stays complete -/

/-- No memory access of `p` makes the accounting incomplete. -/
def KeepsClean (p : Io (Ram T) α) : Prop :=
  p.Only (fun _ => True) fun ram ram' => Clean ram → Clean ram'

instance : Steady (Clean (T := T)) where
  other ram hclean ram' hcore state hstate := by
    have hlru : ram'.res.lru = ram.res.lru := (Prod.mk.inj hcore).1
    rw [hlru] at hstate
    exact hclean state hstate
  lru ram f hf hclean state hstate := by
    obtain ⟨old, hold, rfl⟩ := Option.map_eq_some_iff.1 hstate
    exact hf old (hclean old hold)
  drained _ hclean := hclean

theorem staging_clean : Staging (Clean (T := T)) := ⟨fun _ _ h => h, fun _ _ h => h⟩

theorem LazyCall.keepsClean (c : LazyCall T) : KeepsClean (c.prog inner) := c.keeps staging_clean

theorem loadPage_dirty (p : Bytes) (items : List (Bytes × Option Bytes))
    (acc : LruState × Option UInt64) : (loadPage p items acc).1.dirty = acc.1.dirty := by
  unfold loadPage
  induction items generalizing acc with
  | nil => rfl
  | cons item rest ih =>
    rw [List.foldl_cons, ih]
    dsimp only
    split
    · rfl
    · rfl

theorem loadPages_dirty {p : Bytes} {fuel : Nat} {range : KeyRange}
    {acc acc' : LruState × Option UInt64} {m m' : Machine Tables Shared}
    (h : Run Served (loadPages p fuel range acc) m (.ok acc') m') :
    acc'.1.dirty = acc.1.dirty := by
  induction fuel generalizing range acc m with
  | zero => exact absurd h run_stuck
  | succ fuel ih =>
    obtain ⟨page, m₁, -, hrest⟩ := run_bind_ok.1 h
    dsimp only at hrest
    split at hrest
    · rw [ih hrest, loadPage_dirty]
    · obtain ⟨hacc, -⟩ := run_pure.1 hrest
      rw [Except.ok.inj hacc, loadPage_dirty]

theorem loadLru_dirty {backend : Backend} {id : LockerId} {maxBytes : Nat} {state : LruState}
    {m m' : Machine Tables Shared} (h : Run Served (loadLru backend id maxBytes) m (.ok state) m') :
    state.dirty = false := by
  obtain ⟨⟨loaded, maxTick⟩, m₁, hload, hrest⟩ := run_bind_ok.1 h
  have hd : loaded.dirty = false := loadPages_dirty hload
  cases maxTick with
  | none => exact Except.ok.inj (run_pure.1 hrest).1 ▸ hd
  | some tick =>
    obtain ⟨_, _, -, hrest⟩ := run_bind_ok.1 hrest
    exact Except.ok.inj (run_pure.1 hrest).1 ▸ hd

theorem foldl_adopt_dirty (keys : List Bytes) (state : LruState) :
    (keys.foldl (fun state key => state.adopt key) state).dirty = state.dirty := by
  induction keys generalizing state with
  | nil => rfl
  | cons key rest ih => exact ih _

/-- A lazy locker is opened with an accounting that was just loaded. -/
theorem clean_opened {m m' : Machine Tables Shared} {res : Resident}
    (run : Run Served (LazyLocker.openLocker inner) m (.ok res) m')
    {values : Std.ExtTreeMap Bytes T compare} : Clean (Ram.opened m'.mem res values) := by
  obtain ⟨index, m₁, -, hrest⟩ := run_bind_ok.1 run
  obtain ⟨lru, m₂, hlru, hrest⟩ := run_bind_ok.1 hrest
  obtain ⟨hres, -⟩ := run_pure.1 hrest
  obtain rfl := Except.ok.inj hres
  intro state hstate
  obtain rfl : lru = some state := hstate
  unfold openLru at hlru
  split at hlru
  · cases (run_pure.1 hlru).1
  · obtain ⟨loaded, m₃, hload, hrest⟩ := run_bind_ok.1 hlru
    obtain ⟨hs, -⟩ := run_pure.1 hrest
    rw [Option.some.inj (Except.ok.inj hs), foldl_adopt_dirty]
    show loaded.dirty = false
    exact loadLru_dirty hload

theorem LazyLocker.Reached.clean {m : Machine Tables (Ram T)}
    (reached : LazyLocker.Reached inner m) : Clean m.mem := by
  induction reached with
  | opened run => exact clean_opened run
  | called _ c run ih => exact Keeps.run c.keepsClean run ih
  | outside _ change ih =>
    obtain ⟨db, shared, nameShared, -, rfl⟩ := change
    exact ih

/-! ## A lazy locker stays one, and an immediate one stages nothing -/

def IsLazy (ram : Ram T) : Prop := ram.res.mode = .lazy

instance : Steady (IsLazy (T := T)) where
  other ram hlazy ram' hcore := by
    have hmode : ram'.res.mode = ram.res.mode := (Prod.mk.inj (Prod.mk.inj hcore).2).1
    exact hmode.trans hlazy
  lru _ _ _ hlazy := hlazy
  drained _ hlazy := hlazy

theorem opened_eq_new {m m' : Machine Tables Shared} {res : Resident}
    (run : Run Served (LazyLocker.openLocker inner) m (.ok res) m') :
    ∃ index lru, res = .new .lazy (some index) lru := by
  obtain ⟨index, m₁, -, hrest⟩ := run_bind_ok.1 run
  obtain ⟨lru, m₂, -, hpure⟩ := run_bind_ok.1 hrest
  exact ⟨index, lru, Except.ok.inj (run_pure.1 hpure).1⟩

theorem LazyLocker.Reached.isLazy {m : Machine Tables (Ram T)}
    (reached : LazyLocker.Reached inner m) : IsLazy m.mem := by
  induction reached with
  | opened run =>
    obtain ⟨index, lru, rfl⟩ := opened_eq_new run
    rfl
  | called _ c run ih => exact Keeps.run (c.keeps ⟨fun _ _ h => h, fun _ _ h => h⟩) run ih
  | outside _ change ih =>
    obtain ⟨db, shared, nameShared, -, rfl⟩ := change
    exact ih

def Unbudgeted (ram : Ram T) : Prop := ram.res.lru = none

instance : Steady (Unbudgeted (T := T)) where
  other ram unbudgeted ram' hcore := by
    have hlru : ram'.res.lru = ram.res.lru := (Prod.mk.inj hcore).1
    exact hlru.trans unbudgeted
  lru ram f _ unbudgeted := by
    have hnone : ram.res.lru = none := unbudgeted
    show ram.res.lru.map f = none
    rw [hnone]
    rfl
  drained _ unbudgeted := unbudgeted

def Idle (ram : Ram T) : Prop := ram.res.staged = []

instance : Steady (Idle (T := T)) where
  other ram hidle ram' hcore := by
    have hstaged : ram'.res.staged = ram.res.staged := (Prod.mk.inj (Prod.mk.inj hcore).2).2
    exact hstaged.trans hidle
  lru _ _ _ hidle := hidle
  drained _ _ := rfl

theorem putBack_nil_idle (ram : Ram T) (h : Idle ram) : Idle (ram.mapRes (.putBack [])) := by
  unfold Idle at h ⊢
  simp [Ram.mapRes, Resident.putBack, h]

section
variable {m m' : Machine Tables (Ram T)} {r : Except Error Unit}

/-- A transaction that drains nothing has nothing to put back. -/
theorem idle_transact {body : TxBody T} (run : Run Served (LazyLocker.transact inner body) m r m')
    (idle : Idle m.mem) : Idle m'.mem := by
  rcases run_bind.1 run with ⟨u, m₁, hopen, hlocked⟩ | ⟨e, hopen, -⟩
  · obtain ⟨-, rfl⟩ := run_ensureOpen.1 hopen
    obtain ⟨-, m₂, hbody, rfl⟩ := run_withWriteLock.1 hlocked
    rcases run_bind.1 hbody with ⟨entries, m₃, htx, hrest⟩ | ⟨e, htx, -⟩
    · obtain rfl := (reads_txBody inner body []).run htx
      split at hrest
      · obtain ⟨-, rfl⟩ := run_pure.1 hrest
        exact idle
      · rcases run_bind.1 hrest with ⟨before, m₄, htake, hland⟩ | ⟨e, htake, -⟩
        · obtain ⟨hbefore, rfl⟩ := run_takeStaged.1 htake
          obtain rfl := Except.ok.inj hbefore
          have hnil : m₁.mem.lock.res.staged = [] := idle
          rw [hnil] at hland
          have drained : Idle (m₁.mem.lock.mapRes .drain) := rfl
          show Idle m₂.mem
          refine Keeps.run (m := ⟨m₁.dev, m₁.mem.lock.mapRes .drain⟩) ?_ hland drained
          exact keeps_landing putBack_nil_idle
        · cases (run_takeStaged.1 htake).1
    · obtain rfl := (reads_txBody inner body []).run htx
      exact idle
  · rw [(run_ensureOpen.1 hopen).2]
    exact idle

theorem idle_flush (run : Run Served (Resident.flush inner) m r m') (idle : Idle m.mem) :
    Idle m'.mem := by
  have hnil : m.mem.res.staged = [] := idle
  rw [Resident.flush, run_read_bind, hnil, List.length_nil, if_pos rfl] at run
  rw [(run_pure.1 run).2]
  exact idle

theorem idle_call (immediate : isDeferred inner = false) (c : LazyCall T)
    (run : Run Served (c.prog inner) m r m') (idle : Idle m.mem) : Idle m'.mem := by
  have never : isDeferred inner = true → Staging (Idle (T := T)) := by simp [immediate]
  cases c with
  | get key => exact Keeps.run (Prog.Only.map keeps_getBy) run idle
  | list start stop reverse limit => exact Keeps.run (Prog.Only.map keeps_collect) run idle
  | put key value => exact Keeps.run (keeps_putBy never) run idle
  | delete key => exact Keeps.run (keeps_deleteBy never) run idle
  | clear => exact Keeps.run (keeps_clear never) run idle
  | transact body => exact idle_transact run idle
  | putAll entries =>
    simp only [LazyCall.prog, LazyLocker.putAll] at run
    split at run
    · rw [(run_pure.1 run).2]
      exact idle
    · exact idle_transact run idle
  | deleteAll keys =>
    simp only [LazyCall.prog, LazyLocker.deleteAll] at run
    split at run
    · rw [(run_pure.1 run).2]
      exact idle
    · exact idle_transact run idle
  | flush =>
    obtain ⟨a, m₁, hflush, hrest⟩ := run_attempt_bind.1 run
    have hidle := idle_flush hflush idle
    refine Keeps.run ?_ hrest hidle
    exact Keeps.bind (Prog.Only.attempt keeps_flushBackend) fun b =>
      keeps_ofExcept.bind fun _ => keeps_ofExcept
  | evictTo bytes => exact Keeps.run (Prog.Only.map keeps_evictTo) run idle
  | writer key => exact Keeps.run (Prog.Only.map keeps_writer) run idle
  | writeChunk w bytes => exact Keeps.run (Prog.Only.map keeps_writeChunk) run idle
  | finish w => exact Keeps.run keeps_finish run idle
  | abort w => exact Keeps.run keeps_abort run idle
  | close =>
    obtain ⟨flushed, m₁, hflush, hrest⟩ := run_attempt_bind.1 run
    exact Keeps.run (keeps_closeRest flushed) hrest (idle_flush hflush idle)

end

/-- An immediate locker stages nothing. -/
theorem LazyLocker.Reached.idle {m : Machine Tables (Ram T)} (reached : LazyLocker.Reached inner m)
    (immediate : isDeferred inner = false) : Idle m.mem := by
  induction reached with
  | opened run =>
    obtain ⟨index, lru, rfl⟩ := opened_eq_new run
    rfl
  | called _ c run ih => exact idle_call immediate c run ih
  | outside _ change ih =>
    obtain ⟨db, shared, nameShared, -, rfl⟩ := change
    exact ih

/-! ## What fails has moved nothing -/

/-- The writes that land whole or not at all: those of an immediate locker, and every transaction. -/
def LazyCall.AllOrNothing (inner : Inner T) : LazyCall T → Prop
  | .put .. | .delete _ | .clear | .evictTo _ => isDeferred inner = false
  | .transact _ | .putAll _ | .deleteAll _ => True
  | _ => False

def EagerCall.AllOrNothing (inner : Inner T) : EagerCall T → Prop
  | .put .. | .delete _ | .clear => isDeferred inner = false
  | .transact _ | .putAll _ | .deleteAll _ => True
  | _ => False

/-- A call of an open locker that takes the write lock fails as its body does. -/
theorem unmoved_of_body {body : Io (Ram T) α} {m m' : Machine Tables (Ram T)} {e : Error}
    (h : Run Served (Ram.ensureOpen >>= fun _ => withWriteLock body) m (.error e) m')
    (hbody : ∀ m₂, Run Served body ⟨m.dev, m.mem.lock⟩ (.error e) m₂ →
      Unmoved ⟨m.dev, m.mem.lock⟩ m₂) : Unmoved m m' := by
  refine Run.of_bind Unmoved Unmoved.trans h ?_ ?_
  · intro r m₁ hopen
    exact (run_ensureOpen.1 hopen).2 ▸ .refl m
  · intro _ m₁ hopen hlocked
    obtain ⟨-, rfl⟩ := run_ensureOpen.1 hopen
    obtain ⟨hl, m₂, hb, rfl⟩ := run_withWriteLock.1 hlocked
    exact (hbody m₂ hb).unlock hl

/-- A commit fails by itself when what follows it cannot fail. -/
theorem commit_error_unmoved {ops : List Op} {after : Unit → Io (Ram T) α}
    {m m' : Machine Tables (Ram T)} {e : Error}
    (h : Run Served (inner.commit ops >>= after) m (.error e) m')
    (sure : ∀ m₁ m₂ e, ¬ Run Served (after ()) m₁ (.error e) m₂) : Unmoved m m' := by
  rcases run_bind.1 h with ⟨_, m₁, -, hafter⟩ | ⟨e', hc, -⟩
  · exact absurd hafter (sure _ _ _)
  · rcases run_innerCommit.1 hc with ⟨hbad, -⟩ | ⟨e'', -, rfl⟩
    · cases hbad
    · exact .refl _

theorem putBy_error {key : Bytes} {value : T} (immediate : isDeferred inner = false)
    {m m' : Machine Tables (Ram T)} {e : Error} (hm : Clean m.mem)
    (h : Run Served (LazyLocker.putBy inner key value) m (.error e) m') : Unmoved m m' := by
  refine unmoved_of_body h fun m₂ hb => ?_
  rw [immediate] at hb
  refine Run.of_bind Unmoved Unmoved.trans hb (fun _ _ => reads_ofExcept.unmoved) ?_
  intro payload m₃ hp hrest
  have hm₃ : Clean m₃.mem := (reads_ofExcept.unmoved hp).clean hm
  simp only [Bool.false_eq_true, if_false, run_read_bind] at hrest
  refine Run.of_bind Unmoved Unmoved.trans hrest
    (fun _ _ => (draws_putPayloadOps inner _ _ _ _).unmoved) ?_
  intro ops m₄ hops hbudget
  have hm₄ : Clean m₄.mem := ((draws_putPayloadOps inner _ _ _ _).unmoved hops).clean hm₃
  refine Run.of_bind Unmoved Unmoved.trans hbudget (fun _ _ => budgetOps_unmoved hm₄) ?_
  intro opsBudget m₅ _ hcommit
  refine commit_error_unmoved hcommit fun m₆ m₇ e he => ?_
  simp [run_update_bind] at he

theorem deleteBy_error {key : Bytes} (immediate : isDeferred inner = false)
    {m m' : Machine Tables (Ram T)} {e : Error} (hm : Clean m.mem)
    (h : Run Served (LazyLocker.deleteBy inner key) m (.error e) m') : Unmoved m m' := by
  refine unmoved_of_body h fun m₂ hb => ?_
  simp only [immediate, Bool.false_eq_true, if_false, run_read_bind] at hb
  refine Run.of_bind Unmoved Unmoved.trans hb
    (fun _ _ => (reads_deleteValueOps inner _ _).unmoved) ?_
  intro ops m₃ hops hbudget
  have hm₃ : Clean m₃.mem := ((reads_deleteValueOps inner _ _).unmoved hops).clean hm
  refine Run.of_bind Unmoved Unmoved.trans hbudget (fun _ _ => budgetOps_unmoved hm₃) ?_
  intro opsBudget m₅ _ hcommit
  refine commit_error_unmoved hcommit fun m₆ m₇ e he => ?_
  simp [run_update_bind] at he

theorem clear_error (immediate : isDeferred inner = false)
    {m m' : Machine Tables (Ram T)} {e : Error} (hm : Clean m.mem)
    (h : Run Served (LazyLocker.clear inner) m (.error e) m') : Unmoved m m' := by
  refine unmoved_of_body h fun m₂ hb => ?_
  simp only [immediate, Bool.false_eq_true, if_false] at hb
  refine Run.of_bind Unmoved Unmoved.trans hb (fun _ _ => (reads_clearValueOps inner).unmoved) ?_
  intro ops m₃ hops hbudget
  have hm₃ : Clean m₃.mem := ((reads_clearValueOps inner).unmoved hops).clean hm
  refine Run.of_bind Unmoved Unmoved.trans hbudget (fun _ _ => budgetOps_unmoved hm₃) ?_
  intro opsBudget m₅ _ hcommit
  refine commit_error_unmoved hcommit fun m₆ m₇ e he => ?_
  simp [run_update_bind] at he

theorem evictTo_error {bytes : Nat} {m m' : Machine Tables (Ram T)} {e : Error}
    (h : Run Served (LazyLocker.evictTo inner bytes) m (.error e) m') : Unmoved m m' := by
  refine Run.of_bind Unmoved Unmoved.trans h
    (fun _ _ hopen => (run_ensureOpen.1 hopen).2 ▸ .refl m) ?_
  intro _ m₁ _ hevict
  rw [Resident.evictTo, run_read_bind] at hevict
  split at hevict
  · exact (run_pure.1 hevict).2 ▸ .refl _
  obtain ⟨hl, m₂, hb, rfl⟩ := run_withWriteLock.1 hevict
  refine Unmoved.unlock hl ?_
  rw [run_read_bind] at hb
  split at hb
  · exact (run_pure.1 hb).2 ▸ .refl _
  dsimp only at hb
  split at hb
  · exact (run_pure.1 hb).2 ▸ .refl _
  refine Run.of_bind Unmoved Unmoved.trans hb (fun _ _ => (reads_victimOps inner _).unmoved) ?_
  intro ops m₃ _ hcommit
  refine commit_error_unmoved hcommit fun m₆ m₇ e he => ?_
  simp [Except.map] at he

/-- What a drained batch's failure leaves: the batch, back in its place. -/
theorem unmoved_of_drained {body : List Pending → Io (Ram T) Unit} {m m' : Machine Tables (Ram T)}
    {e : Error}
    (h : Run Served (takeStaged >>= fun before => (body before).guarded dropDrained) m (.error e) m')
    (hbody : ∀ m₂, Run Served (body m.mem.res.staged) ⟨m.dev, m.mem.mapRes .drain⟩ (.error e) m₂ →
      ∃ m₃, Unmoved ⟨m.dev, m.mem.mapRes .drain⟩ m₃ ∧
        m₂ = ⟨m₃.dev, m₃.mem.mapRes (.putBack m.mem.res.staged)⟩) : Unmoved m m' := by
  rcases run_bind.1 h with ⟨before, m₁, htake, hrest⟩ | ⟨e', htake, -⟩
  · obtain ⟨hbefore, rfl⟩ := run_takeStaged.1 htake
    obtain rfl := Except.ok.inj hbefore
    obtain ⟨m₂, hb, rfl⟩ := run_guarded.1 hrest
    obtain ⟨m₃, ⟨s, d, rfl⟩, rfl⟩ := hbody m₂ hb
    refine ⟨s, [], ?_⟩
    simp [Ram.mapRes, dropDrained, Resident.putBack, Resident.drain, Resident.letGo]
  · cases (run_takeStaged.1 htake).1

/-- A batch whose ops cannot be built, or whose commit fails, is put back. -/
theorem batch_error {before : List Pending} {α : Type} {build : Io (Ram T) α} {ops : α → List Op}
    {after : α → Io (Ram T) Unit} {m m' : Machine Tables (Ram T)} {e : Error}
    (h : Run Served (do
      let built ← restagingOnError before build
      restagingOnError before (inner.commit (ops built))
      after built) m (.error e) m')
    (hbuild : ∀ r m₁, Run Served build m r m₁ → Unmoved m m₁)
    (sure : ∀ built m₁ m₂ e, ¬ Run Served (after built) m₁ (.error e) m₂) :
    ∃ m₃, Unmoved m m₃ ∧ m' = ⟨m₃.dev, m₃.mem.mapRes (.putBack before)⟩ := by
  rcases run_bind.1 h with ⟨built, m₁, hb, hrest⟩ | ⟨e', hb, -⟩
  · have h₁ := hbuild _ _ (run_restagingOnError_ok.1 hb)
    rcases run_bind.1 hrest with ⟨_, m₂, -, hafter⟩ | ⟨e', hc, -⟩
    · exact absurd hafter (sure _ _ _ _)
    · obtain ⟨m₂, hfailed, rfl⟩ := run_restagingOnError_error.1 hc
      rcases run_innerCommit.1 hfailed with ⟨hbad, -⟩ | ⟨e'', -, rfl⟩
      · cases hbad
      · exact ⟨_, h₁, rfl⟩
  · obtain ⟨m₁, hfailed, rfl⟩ := run_restagingOnError_error.1 hb
    exact ⟨m₁, hbuild _ _ hfailed, rfl⟩

theorem batchOps_unmoved {m m' : Machine Tables (Ram T)} (hm : Clean m.mem) {merged : List Pending}
    {mode : TxMode} {r : Except Error (List Op × Budget)}
    (h : Run Served (batchOps inner merged mode) m r m') : Unmoved m m' := by
  refine Run.of_bind Unmoved Unmoved.trans h
    (fun _ _ => (draws_opsForItems inner merged mode).unmoved) ?_
  intro ops m₁ hops hbudget
  exact budgetOps_unmoved (((draws_opsForItems inner merged mode).unmoved hops).clean hm) hbudget

theorem lazyTransact_error {body : TxBody T} {m m' : Machine Tables (Ram T)} {e : Error}
    (hm : Clean m.mem) (h : Run Served (LazyLocker.transact inner body) m (.error e) m') :
    Unmoved m m' := by
  refine unmoved_of_body h fun m₂ hb => ?_
  refine Run.of_bind Unmoved Unmoved.trans hb (fun _ _ => (reads_txBody inner body []).unmoved) ?_
  intro entries m₃ hentries hrest
  have hm₃ : Clean m₃.mem := ((reads_txBody inner body []).unmoved hentries).clean hm
  split at hrest
  · exact (run_pure.1 hrest).2 ▸ .refl _
  refine unmoved_of_drained hrest fun m₄ hguarded => ?_
  refine batch_error hguarded (fun _ _ => batchOps_unmoved (by exact hm₃)) fun built m₆ m₇ e he => ?_
  simp [run_update_bind] at he

theorem eagerTransact_error {body : TxBody T} {m m' : Machine Tables (Ram T)} {e : Error}
    (h : Run Served (EagerLocker.transact inner body) m (.error e) m') :
    Unmoved m m' := by
  refine unmoved_of_body h fun m₂ hb => ?_
  refine Run.of_bind Unmoved Unmoved.trans hb (fun _ _ => (reads_txBody inner body []).unmoved) ?_
  intro entries m₃ _ hrest
  split at hrest
  · exact (run_pure.1 hrest).2 ▸ .refl _
  refine unmoved_of_drained hrest fun m₄ hguarded => ?_
  refine batch_error hguarded (fun _ _ => (draws_opsForItems inner _ _).unmoved)
    fun built m₆ m₇ e he => ?_
  simp at he

theorem eagerPutBy_error {key : Bytes} {value : T} (immediate : isDeferred inner = false)
    {m m' : Machine Tables (Ram T)} {e : Error}
    (h : Run Served (EagerLocker.putBy inner key value) m (.error e) m') : Unmoved m m' := by
  refine Run.of_bind Unmoved Unmoved.trans h
    (fun _ _ hopen => (run_ensureOpen.1 hopen).2 ▸ .refl m) ?_
  intro _ m₁ _ hrest
  refine Run.of_bind Unmoved Unmoved.trans hrest (fun _ _ => reads_ofExcept.unmoved) ?_
  intro sealed m₂ _ hrest
  split at hrest
  · exact (run_fail.1 hrest).2 ▸ .refl _
  simp only [immediate, Bool.false_eq_true, if_false] at hrest
  refine commit_error_unmoved hrest fun m₆ m₇ e he => ?_
  simp [EagerLocker.mirrorPut, run_bind, Except.map] at he

theorem eagerDeleteBy_error {key : Bytes} (immediate : isDeferred inner = false)
    {m m' : Machine Tables (Ram T)} {e : Error}
    (h : Run Served (EagerLocker.deleteBy inner key) m (.error e) m') : Unmoved m m' := by
  refine Run.of_bind Unmoved Unmoved.trans h
    (fun _ _ hopen => (run_ensureOpen.1 hopen).2 ▸ .refl m) ?_
  intro _ m₁ _ hrest
  rw [run_read_bind, run_read_bind] at hrest
  split at hrest
  · exact (run_pure.1 hrest).2 ▸ .refl _
  simp only [immediate, Bool.false_eq_true, if_false] at hrest
  refine commit_error_unmoved hrest fun m₆ m₇ e he => ?_
  simp only [EagerLocker.mirrorDelete, run_update_bind] at he
  split at he
  · simp at he
  · simp at he

theorem eagerClear_error (immediate : isDeferred inner = false) {m m' : Machine Tables (Ram T)}
    {e : Error} (h : Run Served (EagerLocker.clear inner) m (.error e) m') : Unmoved m m' := by
  refine Run.of_bind Unmoved Unmoved.trans h
    (fun _ _ hopen => (run_ensureOpen.1 hopen).2 ▸ .refl m) ?_
  intro _ m₁ _ hrest
  simp only [immediate, Bool.false_eq_true, if_false] at hrest
  refine commit_error_unmoved hrest fun m₆ m₇ e he => ?_
  simp [EagerLocker.mirrorClear, run_update_bind] at he

/-- A failed write leaves everything as it was: a write that lands whole or not at all, and
fails, has moved nothing but the cursors of the bank. -/
theorem failed_write_unmoved (inner : Inner T) :
    (∀ (c : LazyCall T) m m' e, LazyLocker.Reached inner m → c.AllOrNothing inner →
      Run Served (c.prog inner) m (.error e) m' → Unmoved m m') ∧
    ∀ (c : EagerCall T) m m' e, c.AllOrNothing inner →
      Run Served (c.prog inner) m (.error e) m' → Unmoved m m' := by
  constructor
  · intro c m m' e reached writes run
    have hm := reached.clean
    cases c with
    | put key value => exact putBy_error writes hm run
    | delete key => exact deleteBy_error writes hm run
    | clear => exact clear_error writes hm run
    | transact body => exact lazyTransact_error hm run
    | putAll entries =>
      simp only [LazyCall.prog, LazyLocker.putAll] at run
      split at run
      · cases (run_pure.1 run).1
      · exact lazyTransact_error hm run
    | deleteAll keys =>
      simp only [LazyCall.prog, LazyLocker.deleteAll] at run
      split at run
      · cases (run_pure.1 run).1
      · exact lazyTransact_error hm run
    | evictTo bytes =>
      obtain ⟨x, hx, he⟩ := run_map.1 run
      cases x with
      | ok n => cases he
      | error e' => exact evictTo_error hx
    | get | list | flush | writer | writeChunk | finish | abort | close => exact writes.elim
  · intro c m m' e writes run
    cases c with
    | put key value =>
      obtain ⟨x, hx, he⟩ := run_map.1 run
      cases x with
      | ok n => cases he
      | error e' => exact eagerPutBy_error writes hx
    | delete key => exact eagerDeleteBy_error writes run
    | clear => exact eagerClear_error writes run
    | transact body => exact eagerTransact_error run
    | putAll entries =>
      simp only [EagerCall.prog, EagerLocker.putAll] at run
      split at run
      · cases (run_pure.1 run).1
      · exact eagerTransact_error run
    | deleteAll keys =>
      simp only [EagerCall.prog, EagerLocker.deleteAll] at run
      split at run
      · cases (run_pure.1 run).1
      · exact eagerTransact_error run
    | flush | close => exact writes.elim

end

/-- A batch whose commit fails, on a lazy locker with a put staged before it, and a delete whose commit
fails, on an eager locker that holds its key. -/
theorem failed_write_unmoved_full :
    (∃ m m' e, m.mem.res.staged = [.put (ascii "k") [2, 1, 2]] ∧
      Run Served ((LazyCall.putAll [(ascii "j", [3])]).prog Inner.batching) m (.error e) m' ∧
      Unmoved m m') ∧
    ∃ m m' e, m.mem.values.toList = [(ascii "k", [1, 2])] ∧
      Run Served ((EagerCall.delete (ascii "k")).prog Inner.plain) m (.error e) m' ∧ Unmoved m m' := by
  constructor
  · have h : (do
        let m₀ ← openedOver Inner.batching .empty
        let m₁ ← served ((LazyCall.put (ascii "k") [1, 2]).prog Inner.batching) m₀
        (refused ((LazyCall.putAll [(ascii "j", [3])]).prog Inner.batching) m₁.2).map
          fun _ => m₁.2.mem.res.staged) = some [.put (ascii "k") [2, 1, 2]] := by
      decide
    obtain ⟨m₀, opened, h⟩ := Option.bind_eq_some_iff.1 h
    obtain ⟨m₁, put, h⟩ := Option.bind_eq_some_iff.1 h
    obtain ⟨⟨e, m'⟩, refused, staged⟩ := Option.map_eq_some_iff.1 h
    have run := run_of_refused refused
    have reached := (LazyLocker.reached_openedOver opened).called_served put
    exact ⟨m₁.2, m', e, staged, run,
      (failed_write_unmoved Inner.batching).1 (.putAll [(ascii "j", [3])]) _ _ _ reached trivial run⟩
  · have h : (do
        let m₁ ← served ((EagerCall.put (ascii "k") [1, 2]).prog Inner.plain) openedEager
        (refused ((EagerCall.delete (ascii "k")).prog Inner.plain) m₁.2).map
          fun _ => m₁.2.mem.values.toList) = some [(ascii "k", [1, 2])] := by
      decide
    obtain ⟨m₁, put, h⟩ := Option.bind_eq_some_iff.1 h
    obtain ⟨⟨e, m'⟩, refused, held⟩ := Option.map_eq_some_iff.1 h
    have run := run_of_refused refused
    exact ⟨m₁.2, m', e, held, run,
      (failed_write_unmoved Inner.plain).2 (.delete (ascii "k")) _ _ _ rfl run⟩

end Crossbank
