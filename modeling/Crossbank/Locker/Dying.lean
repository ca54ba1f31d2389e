import Crossbank.Async.Crash
import Crossbank.Locker.Issuers

/-!
# Calls that die

A call of a lazy locker commits once, and asks for nothing afterwards that it could not do without. What
it commits is safe at once, unless its locker is eventual: then it is after the next flush.

* `Req.mark` : what an answer of the backend says of the store; `OnDisk` : the answers, on a disk;
* `Still p` : `p` asks for no commit; `still_budgetOps`, `looks_getBy`, ... : parts that ask for none;
* `Unwinds inner p` : `p` commits as the locker is configured to, once, and can end without the backend
  then; `unwinds_putBy`, ... : the calls do;
* `LazyCall.dies` : a call in which the process dies has landed its commit whole, or nothing;
* `LazyCall.older` : a cut brings back nothing from the middle of a call; `LazyCall.synced` : and
  nothing at all on an immediate locker; `flush_forced` : nor after a flush.
-/

namespace Crossbank
open Async

def Still {ρ α : Type} (p : Io ρ α) : Prop := p.Only (fun q => ¬ q.lands) fun _ _ => True

/-- A commit of this locker is made as it is configured. -/
def Inner.Configured {T : Type} (inner : Inner T) : Req → Prop
  | .commit _ options => options.durability = inner.config.durability
  | _ => True

/-- It can end without the backend, and commits nothing. -/
abbrev Coda {ρ α : Type} [WriteLock ρ] (p : Io ρ α) : Prop := Prog.Coda Served Req.lands p

/-- Once a commit has landed, the rest is a coda. -/
abbrev Unwinds {T ρ α : Type} [WriteLock ρ] (inner : Inner T) (p : Io ρ α) : Prop :=
  p.Settled Served Req.lands inner.Configured

/-- What an answer of the backend says of the store. A commit may be lost until the store is synced,
unless it is immediate; a flush syncs the store. -/
def Req.mark : (q : Req) → Resp q → Mark
  | .commit _ options, .ok () => if options.durability = .immediate then .syncs else .lands
  | .commit .., .error _ => .keeps
  | .flush, .ok () => .syncs
  | .flush, .error _ => .keeps
  | .get .., _ | .getMany .., _ | .scan _, _ | .lock, _ | .idle, _ => .keeps

/-- The answers of the backend, on a disk. -/
abbrev OnDisk {ρ : Type} [WriteLock ρ] :
    (q : Req) → Machine (Disk Tables) ρ → Resp q → Machine (Disk Tables) ρ → Prop :=
  Journaled Served Req.mark

/-- Only a commit may be lost. -/
theorem Req.mark_quiet (q : Req) (x : Resp q) (calm : ¬ q.lands) : q.mark x ≠ .lands := by
  cases q with
  | commit => exact absurd trivial calm
  | flush =>
    cases x with
    | ok u => simp [Req.mark]
    | error e => simp [Req.mark]
  | get | getMany | scan | lock | idle => simp [Req.mark]

/-- On an immediate locker not even that. -/
theorem Inner.Configured.synced {T : Type} {inner : Inner T} (immediate : inner.config.durability = .immediate)
    (q : Req) (fits : q.lands → inner.Configured q) (x : Resp q) : q.mark x ≠ .lands := by
  by_cases landed : q.lands
  · cases q with
    | commit ops options =>
      have same : options.durability = .immediate := (fits landed).trans immediate
      cases x with
      | ok u => simp [Req.mark, same]
      | error e => simp [Req.mark]
    | get | getMany | scan | flush | lock | idle => exact landed.elim
  · exact q.mark_quiet x landed

section
variable {ρ α β : Type} {p : Io ρ α}

theorem Still.bind {f : α → Io ρ β} (hp : Still p) (hf : ∀ a, Still (f a)) : Still (p >>= f) :=
  Prog.Only.bind hp hf

theorem Still.map {f : α → β} (hp : Still p) : Still (f <$> p) := Prog.Only.map hp

theorem Reads.still (hp : Reads p) : Still p :=
  hp.mono (fun _ => isRead_not_lands) fun _ _ h => h.elim

theorem still_pure {a : α} : Still (pure a : Io ρ α) := Prog.only_pure

theorem still_read {f : ρ → α} : Still (Prog.read f : Io ρ α) := Prog.only_read.2 fun _ => trivial

theorem still_sync {f : ρ → Except Error α × ρ} : Still (Prog.sync f : Io ρ α) :=
  Prog.only_sync.2 fun _ => trivial

theorem still_update {f : ρ → ρ} : Still (Prog.update f : Io ρ Unit) := Prog.only_update.2 fun _ => trivial

end

section
variable {T ρ α β : Type} [WriteLock ρ] {inner : Inner T} {p : Io ρ α}

theorem served_still (q : Req) (m : Machine Tables ρ) (x : Resp q) (m' : Machine Tables ρ)
    (hq : ¬ q.lands) (h : Served q m x m') : m'.dev = m.dev := by
  cases q with
  | get | getMany | scan => exact congrArg Machine.dev h.1
  | commit => exact absurd trivial hq
  | flush | idle => exact congrArg Machine.dev h
  | lock =>
    obtain ⟨s, -, rfl⟩ := h
    rfl

theorem Still.unwinds (hp : Still p) : Unwinds inner p := hp.settled fun _ h => h

theorem Still.unwinds_bind {f : α → Io ρ β} (hp : Still p) (hf : ∀ a, Unwinds inner (f a)) :
    Unwinds inner (p >>= f) := Prog.Only.settled_bind hp (fun _ h => h) hf

theorem coda_flushBackend : Coda (inner.flushBackend : Io ρ Unit) := by
  unfold Inner.flushBackend
  split
  · refine Prog.Coda.bind ?_ fun _ => Prog.coda_ofExcept
    exact Prog.coda_ask (.error .closed) (fun _ => rfl) fun h => h
  · exact Prog.coda_pure

theorem unwinds_ask {ops : List Op} : Unwinds inner (inner.commit ops : Io ρ Unit) :=
  Prog.settled_bind (Prog.settled_ask fun _ => rfl) fun _ => Prog.coda_ofExcept

theorem unwinds_commit {ops : List Op} {rest : Unit → Io ρ α} (coda : ∀ u, Coda (rest u)) :
    Unwinds inner (inner.commit ops >>= rest) := Prog.settled_bind unwinds_ask coda

end

/-! ## Parts that land nothing -/

section
variable {T α β : Type} {inner : Inner T}

theorem still_draws {p : Io Shared α} (hp : Draws p) : Still (p.zoom (sharedPart T)) :=
  (Prog.Only.zoom hp).mono (fun _ => isRead_not_lands) fun _ _ _ => trivial

theorem still_ensureOpen : Still (Ram.ensureOpen : Io (Ram T) Unit) := still_sync

theorem still_budgetOps {ops : List Op} {updates : List (Bytes × Nat)} {removals keep : List Bytes}
    {cleared : Bool} : Still (budgetOps inner ops updates removals cleared keep) := by
  unfold budgetOps
  apply still_read.bind
  intro unbudgeted
  split
  · exact still_pure
  refine Still.bind (calm_reloadLruIfDirty.mono (fun _ h => h) fun _ _ _ => trivial) ?_
  intro _
  apply (still_draws draws_allocateTick).bind
  intro tick
  apply still_read.bind
  intro lru
  cases lru with
  | none => exact still_pure
  | some state =>
    apply (reads_victimOps inner _).still.bind
    intro shed
    exact still_read.bind fun counter => still_pure

theorem still_batchOps {merged : List Pending} {mode : TxMode} : Still (batchOps inner merged mode) :=
  (still_draws (draws_opsForItems inner merged mode)).bind fun _ => still_budgetOps

theorem still_restagingOnError {entries : List Pending} {p : Io (Ram T) α} (hp : Still p) :
    Still (restagingOnError entries p) := by
  unfold restagingOnError
  apply Still.bind (Prog.Only.attempt hp)
  intro x
  cases x with
  | ok a => exact still_pure
  | error e => exact still_update.bind fun _ => reads_fail.still

/-! ## Reads -/

def Looks (p : Io (Ram T) α) : Prop :=
  p.Only (fun q => ¬ q.lands) fun ram ram' => ram'.res.staged = ram.res.staged

theorem Looks.bind {p : Io (Ram T) α} {f : α → Io (Ram T) β} (hp : Looks p) (hf : ∀ a, Looks (f a)) :
    Looks (p >>= f) := Prog.Only.bind hp hf

theorem Looks.still {p : Io (Ram T) α} (hp : Looks p) : Still p :=
  Prog.Only.mono hp (fun _ h => h) fun _ _ _ => trivial

theorem Reads.looks {p : Io (Ram T) α} (hp : Reads p) : Looks p :=
  Prog.Only.mono hp (fun _ => isRead_not_lands) fun _ _ h => h.elim

theorem looks_pure {a : α} : Looks (pure a : Io (Ram T) α) := Prog.only_pure

theorem looks_read {f : Ram T → α} : Looks (Prog.read f) := Prog.only_read.2 fun _ => rfl

theorem looks_getBy {key : Bytes} : Looks (LazyLocker.getBy inner key) := by
  have load : Looks (LazyLocker.loadAndNote inner key) := by
    unfold LazyLocker.loadAndNote
    apply Looks.bind (Prog.Only.attempt (reads_loadValue inner key).looks)
    intro found
    cases found with
    | ok found => exact looks_pure
    | error e =>
      dsimp only
      split
      · exact Looks.bind (Prog.only_update.2 fun _ => rfl) fun _ => reads_fail.looks
      · exact looks_pure.bind fun _ => reads_fail.looks
  have note : Looks (noteRead key : Io (Ram T) Unit) := by
    unfold noteRead
    apply looks_read.bind
    intro unbudgeted
    split
    · exact looks_pure
    · refine Looks.bind ?_ fun tick => Prog.only_update.2 fun _ => rfl
      refine (Prog.Only.zoom draws_allocateTick).mono (fun _ => isRead_not_lands) ?_
      rintro ram _ ⟨s, -, rfl⟩
      rfl
  unfold LazyLocker.getBy
  apply Looks.bind (Prog.only_sync.2 fun _ => rfl)
  intro _
  apply looks_read.bind
  intro staged
  split
  · exact looks_pure
  · exact reads_ofExcept.looks
  · apply load.bind
    intro found
    dsimp only
    split
    · exact note.bind fun _ => looks_pure
    · exact looks_pure

theorem looks_collect {start stop : Bound Bytes} {reverse : Bool} {limit : Option Nat} :
    Looks (LazyLocker.collect inner start stop reverse limit) := by
  unfold LazyLocker.collect
  apply looks_read.bind
  intro staged
  apply (reads_walk inner _ _ _ _ _ _).looks.bind
  intro stored
  split
  · exact (reads_decodeEntries _).looks
  · exact (reads_decodeEntries _).looks

theorem Looks.run {p : Io (Ram T) α} (hp : Looks p) {m m' : Machine Tables (Ram T)}
    {r : Except Error α} (h : Run Served p m r m') :
    m'.dev = m.dev ∧ m'.mem.res.staged = m.mem.res.staged := by
  refine Prog.Only.run (I := fun n => n.dev = m.dev ∧ n.mem.res.staged = m.mem.res.staged) hp h
    ⟨rfl, rfl⟩ (fun n s same hs => ⟨same.1, hs.trans same.2⟩) fun n q x n' same hq hs => ?_
  refine ⟨(served_still q n x n' hq hs).trans same.1, ?_⟩
  cases q with
  | get | getMany | scan => exact hs.1 ▸ same.2
  | commit => exact absurd trivial hq
  | flush | idle =>
    obtain rfl := hs
    exact same.2
  | lock =>
    obtain ⟨s, hs, rfl⟩ := hs
    simp only [WriteLock.acquire] at hs
    split at hs
    · cases hs
    · obtain rfl := Option.some.inj hs
      exact same.2

/-! ## Calls -/

theorem unwinds_withWriteLock {body : Io (Ram T) α} (hb : Unwinds inner body) :
    Unwinds inner (withWriteLock body) :=
  Still.unwinds_bind (Prog.only_ask.2 fun h => h) fun _ => Prog.settled_guarded hb

theorem unwinds_batch {entries : List Pending} {build : Io (Ram T) α} {ops : α → List Op}
    {after : α → Io (Ram T) β} (still : Still build) (coda : ∀ x, Coda (after x)) :
    Unwinds inner (do
      let built ← restagingOnError entries build
      restagingOnError entries (inner.commit (ops built))
      after built) := by
  apply (still_restagingOnError still).unwinds_bind
  intro built
  refine Prog.settled_bind ?_ fun _ => coda built
  refine Prog.settled_bind (Prog.settled_attempt unwinds_ask) fun x => ?_
  cases x with
  | ok u => exact Prog.coda_pure
  | error e => exact Prog.coda_update.bind fun _ => Prog.coda_fail

theorem unwinds_flushLocked : Unwinds inner (flushLocked inner) := by
  unfold flushLocked
  apply Still.unwinds_bind still_sync
  intro entries
  apply Prog.settled_guarded
  split
  · exact still_pure.unwinds
  · apply still_read.unwinds_bind
    intro mode
    exact unwinds_batch still_batchOps fun _ => Prog.coda_update

theorem unwinds_residentFlush : Unwinds inner (Resident.flush inner) := by
  unfold Resident.flush
  apply still_read.unwinds_bind
  intro n
  split
  · exact still_pure.unwinds
  · exact unwinds_withWriteLock unwinds_flushLocked

theorem unwinds_whenFull {full : Bool} {p : Io (Ram T) Unit} (hp : Unwinds inner p) :
    Unwinds inner (if full then p else pure ()) := by
  split
  · exact hp
  · exact still_pure.unwinds

theorem unwinds_staging {entry : Pending} {f g h : Ram T → Ram T} :
    Unwinds inner (do
      let full ← stage inner entry
      Prog.update f
      Prog.update g
      Prog.update h
      if full then flushLocked inner else pure () : Io (Ram T) Unit) := by
  apply Still.unwinds_bind still_sync
  intro full
  apply still_update.unwinds_bind
  intro _
  apply still_update.unwinds_bind
  intro _
  apply still_update.unwinds_bind
  intro _
  exact unwinds_whenFull unwinds_flushLocked

theorem unwinds_landing {build : Io (Ram T) (List Op)} {updates : List (Bytes × Nat)}
    {removals keep : List Bytes} {cleared : Bool} {f g h : Ram T → Ram T} (still : Still build) :
    Unwinds inner (do
      let ops ← build
      let (ops, budget) ← budgetOps inner ops updates removals cleared keep
      inner.commit ops
      Prog.update f
      Prog.update g
      Prog.update (applyBudget budget)
      Prog.update h : Io (Ram T) Unit) := by
  apply still.unwinds_bind
  intro ops
  apply still_budgetOps.unwinds_bind
  intro reckoned
  exact unwinds_commit fun _ => Prog.coda_update.bind fun _ => Prog.coda_update.bind fun _ =>
    Prog.coda_update.bind fun _ => Prog.coda_update

theorem unwinds_putBy {key : Bytes} {value : T} : Unwinds inner (LazyLocker.putBy inner key value) := by
  unfold LazyLocker.putBy
  apply still_ensureOpen.unwinds_bind
  intro _
  apply unwinds_withWriteLock
  apply reads_ofExcept.still.unwinds_bind
  intro payload
  split
  · exact unwinds_staging
  · apply still_read.unwinds_bind
    intro prior
    exact unwinds_landing (still_draws (draws_putPayloadOps inner key payload _ prior))

theorem unwinds_deleteBy {key : Bytes} : Unwinds inner (LazyLocker.deleteBy inner key) := by
  unfold LazyLocker.deleteBy
  apply still_ensureOpen.unwinds_bind
  intro _
  apply unwinds_withWriteLock
  split
  · exact unwinds_staging
  · apply still_read.unwinds_bind
    intro prior
    exact unwinds_landing (reads_deleteValueOps inner key prior).still

theorem unwinds_clear : Unwinds inner (LazyLocker.clear inner) := by
  unfold LazyLocker.clear
  apply still_ensureOpen.unwinds_bind
  intro _
  apply unwinds_withWriteLock
  split
  · exact unwinds_staging
  · exact unwinds_landing (reads_clearValueOps inner).still

theorem unwinds_transact {body : TxBody T} : Unwinds inner (LazyLocker.transact inner body) := by
  unfold LazyLocker.transact
  apply still_ensureOpen.unwinds_bind
  intro _
  apply unwinds_withWriteLock
  apply (reads_txBody inner body []).still.unwinds_bind
  intro entries
  split
  · exact still_pure.unwinds
  · apply Still.unwinds_bind still_sync
    intro before
    apply Prog.settled_guarded
    exact unwinds_batch still_batchOps fun _ => Prog.coda_update.bind fun _ => Prog.coda_update.bind fun _ =>
      Prog.coda_update.bind fun _ => Prog.coda_update

theorem unwinds_flush : Unwinds inner (LazyLocker.flush inner) := by
  unfold LazyLocker.flush LazyLocker.both
  refine Prog.settled_bind (Prog.settled_attempt unwinds_residentFlush) fun a => ?_
  exact coda_flushBackend.attempt.bind fun b => Prog.coda_ofExcept.bind fun _ => Prog.coda_ofExcept

theorem unwinds_evictTo {bytes : Nat} : Unwinds inner (LazyLocker.evictTo inner bytes) := by
  unfold LazyLocker.evictTo Resident.evictTo
  apply still_ensureOpen.unwinds_bind
  intro _
  apply still_read.unwinds_bind
  intro unbudgeted
  split
  · exact still_pure.unwinds
  apply unwinds_withWriteLock
  apply still_read.unwinds_bind
  intro lru
  cases lru with
  | none => exact still_pure.unwinds
  | some state =>
    dsimp only
    split
    · exact still_pure.unwinds
    · apply (reads_victimOps inner _).still.unwinds_bind
      intro ops
      exact unwinds_commit fun _ => Prog.coda_update.bind fun _ => Prog.coda_pure

theorem unwinds_close : Unwinds inner (LazyLocker.close inner) := by
  unfold LazyLocker.close
  refine Prog.settled_bind (Prog.settled_attempt unwinds_residentFlush) fun flushed => ?_
  have rest : Coda (do
      let forced ← (inner.flushBackend : Io (Ram T) Unit).attempt
      Prog.update fun ram => { ram with closed := true }
      Prog.update (Ram.mapRes (·.touchIndex fun _ => ∅))
      Prog.update (Ram.mapRes Resident.forgetInline)
      Prog.ofExcept flushed
      Prog.ofExcept forced) := by
    apply coda_flushBackend.attempt.bind
    intro forced
    exact Prog.coda_update.bind fun _ => Prog.coda_update.bind fun _ => Prog.coda_update.bind fun _ =>
      Prog.coda_ofExcept.bind fun _ => Prog.coda_ofExcept
  dsimp only
  split
  · exact Prog.coda_update.bind fun _ => rest
  · exact rest

/-- A call can end without the backend once its commit has landed. -/
theorem LazyCall.unwinds {c : LazyCall T} (plain : c.Plain) : Unwinds inner (c.prog inner) := by
  cases c with
  | get key => exact looks_getBy.still.map.unwinds
  | list start stop reverse limit => exact looks_collect.still.map.unwinds
  | put key value => exact unwinds_putBy
  | delete key => exact unwinds_deleteBy
  | clear => exact unwinds_clear
  | transact body => exact unwinds_transact
  | putAll entries =>
    simp only [LazyCall.prog, LazyLocker.putAll]
    split
    · exact still_pure.unwinds
    · exact unwinds_transact
  | deleteAll keys =>
    simp only [LazyCall.prog, LazyLocker.deleteAll]
    split
    · exact still_pure.unwinds
    · exact unwinds_transact
  | flush => exact unwinds_flush
  | evictTo bytes => exact Prog.settled_map unwinds_evictTo
  | close => exact unwinds_close
  | writer key => exact plain.elim
  | writeChunk w bytes => exact plain.elim
  | finish w => exact plain.elim
  | abort w => exact plain.elim

section
variable {m m' : Machine (Disk Tables) (Ram T)}

/-- A flush of the backend that returns has synced an eventual locker. -/
theorem flushBackend_forced (eventual : inner.config.isEventual = true)
    (h : Run OnDisk (inner.flushBackend : Io (Ram T) Unit) m (.ok ()) m') : m'.dev.older = [] := by
  unfold Inner.flushBackend at h
  rw [if_pos eventual] at h
  obtain ⟨x, m₁, answer, rest⟩ := h
  cases x with
  | ok u =>
    obtain rfl := rest.2
    exact answer.2
  | error e => cases rest.1

/-- A flush that returns has synced an eventual locker. -/
theorem flush_forced (eventual : inner.config.isEventual = true)
    (h : Run OnDisk (LazyLocker.flush inner) m (.ok ()) m') : m'.dev.older = [] := by
  unfold LazyLocker.flush LazyLocker.both at h
  obtain ⟨a, m₁, -, h₁⟩ := run_bind_ok.1 h
  obtain ⟨b, m₂, hforce, h₂⟩ := run_bind_ok.1 h₁
  obtain ⟨u, m₃, hstaged, hforced⟩ := run_bind_ok.1 h₂
  obtain ⟨-, rfl⟩ := run_ofExcept.1 hstaged
  obtain ⟨hok, rfl⟩ := run_ofExcept.1 hforced
  obtain ⟨y, hy, hb⟩ := run_attempt.1 hforce
  obtain rfl := Except.ok.inj hb
  rw [← hok] at hy
  exact flushBackend_forced eventual hy

theorem close_forced (eventual : inner.config.isEventual = true)
    (h : Run OnDisk (LazyLocker.close inner) m (.ok ()) m') : m'.dev.older = [] := by
  have rest {flushed : Except Error Unit} {n : Machine (Disk Tables) (Ram T)}
      (h : Run OnDisk (do
        let forced ← (inner.flushBackend : Io (Ram T) Unit).attempt
        Prog.update fun ram => { ram with closed := true }
        Prog.update (Ram.mapRes (·.touchIndex fun _ => ∅))
        Prog.update (Ram.mapRes Resident.forgetInline)
        Prog.ofExcept flushed
        Prog.ofExcept forced) n (.ok ()) m') : m'.dev.older = [] := by
    obtain ⟨b, m₂, hforce, h₂⟩ := run_bind_ok.1 h
    rw [run_update_bind, run_update_bind, run_update_bind] at h₂
    obtain ⟨u, m₃, hstaged, hforced⟩ := run_bind_ok.1 h₂
    obtain ⟨-, rfl⟩ := run_ofExcept.1 hstaged
    obtain ⟨hok, rfl⟩ := run_ofExcept.1 hforced
    obtain ⟨y, hy, hb⟩ := run_attempt.1 hforce
    obtain rfl := Except.ok.inj hb
    rw [← hok] at hy
    have forced : m₂.dev.older = [] := flushBackend_forced eventual hy
    exact forced
  unfold LazyLocker.close at h
  obtain ⟨flushed, m₁, -, h₁⟩ := run_bind_ok.1 h
  dsimp only at h₁
  split at h₁
  · obtain ⟨u, m₂, -, h₂⟩ := run_bind_ok.1 h₁
    exact rest h₂
  · exact rest h₁

end

section
variable {c : LazyCall T} (plain : c.Plain)
include plain

/-- A call in which the process dies leaves the store as it was, or as the call leaves it when it
ends. -/
theorem LazyCall.dies {m : Machine Tables (Ram T)} {db : Tables} (h : Dies Served (c.prog inner) m db) :
    db = m.dev ∨ ∃ r m', Run Served (c.prog inner) m r m' ∧ m'.dev = db :=
  Prog.Settled.dies (c.unwinds plain) served_still h

variable {m : Machine (Disk Tables) (Ram T)} {d : Disk Tables} (h : Dies OnDisk (c.prog inner) m d)
include h

/-- What a cut brings back of the time of a call is what was stored before it. -/
theorem LazyCall.older : ∀ left ∈ d.older, left = m.dev.live ∨ left ∈ m.dev.older :=
  Prog.Settled.older (c.unwinds plain) served_still Req.mark_quiet h

theorem LazyCall.synced (immediate : inner.config.durability = .immediate) (safe : m.dev.older = []) :
    d.older = [] := by
  have only : (c.prog inner).Only (fun q => ∀ x, q.mark x ≠ .lands) fun _ _ => True :=
    (c.unwinds plain).only.mono (Inner.Configured.synced immediate) fun _ _ h => h
  apply List.eq_nil_iff_forall_not_mem.2
  intro left hleft
  have before : left ∈ m.dev.older := only.older h left hleft
  rw [safe] at before
  exact List.not_mem_nil before

end
end
end Crossbank
