import Crossbank.Locker.Outcome
import Crossbank.Locker.Recency
import Crossbank.Locker.Streaming

/-!
# Calls as acts of the ledger

The calls of a lazy locker that keeps a byte budget, one after another, are acts of its ledger: a read
of a key, a commit that lands or fails, an eviction.

* `Advances` : the ledger has done acts of the locker itself; `Acts` : so it does in every run of a program;
* `Hidden` : a program that leaves the rows, the accounting and the clock alone;
* `Plans` : what is built for a commit, besides the rows of the ledger;
* `Reckons` : a commit that is planned, which lands or fails;
* `LazyLocker.Called.reach` : a run of calls is a run of the ledger.
-/

namespace Crossbank
open Async

/-! ## Acts of a ledger -/

/-- The ledger does an act of the locker itself. -/
def Ledger.Moves (id : LockerId) (l l' : Ledger) : Prop :=
  ∃ act : UseAct, act.Own ∧ l.step id act = some l'

namespace Ledger
variable {id : LockerId} {l l' start : Ledger}

theorem Moves.clean (h : Moves id l l') (clean : l.lru.dirty = false) : l'.lru.dirty = false := by
  obtain ⟨act, own, step⟩ := h
  cases act with
  | read key tick =>
    obtain ⟨l₁, hissue, rfl⟩ := Option.map_eq_some_iff.1 step
    obtain ⟨-, rfl⟩ := issue_eq_some hissue
    show (l.lru.touch key tick).dirty = false
    unfold LruState.touch
    split
    · exact clean
    · exact clean
  | commit tick batch lands =>
    obtain ⟨l₁, hissue, hl⟩ := Option.map_eq_some_iff.1 step
    rw [reloaded, clean] at hissue
    obtain ⟨-, rfl⟩ := issue_eq_some hissue
    subst hl
    cases lands with
    | false => exact clean
    | true => exact clean
  | evict bytes lands =>
    obtain rfl := Option.some.inj step
    cases lands with
    | false => exact clean
    | true => exact clean
  | remotePut | remoteDelete | remoteClear | foreign => exact own.elim

theorem clean_of_moves (h : Relation.ReflTransGen (Moves id) l l') (clean : l.lru.dirty = false) :
    l'.lru.dirty = false := by
  induction h with
  | refl => exact clean
  | tail _ step ih => exact step.clean ih

/-- Acts of the locker itself are a run. -/
theorem reach_of_moves {acts : List UseAct} (run : Reach id (fun _ _ act => act.Own) start acts l)
    (h : Relation.ReflTransGen (Moves id) l l') :
    ∃ acts', Reach id (fun _ _ act => act.Own) start acts' l' := by
  induction h with
  | refl => exact ⟨acts, run⟩
  | tail _ step ih =>
    obtain ⟨acts', run'⟩ := ih
    obtain ⟨act, own, hstep⟩ := step
    exact ⟨_, run'.act own hstep⟩

end Ledger

section
variable {T α β : Type} {inner : Inner T} {id : LockerId} {m m₁ m' : Machine Tables (Ram T)}
  {l l' : Ledger} {ops more : List Op}

/-- The ledger of the locker, if it has one that is complete, has done acts of its own. -/
def Advances (id : LockerId) (m m' : Machine Tables (Ram T)) : Prop :=
  ∀ l, Shows id m l → l.lru.dirty = false →
    ∃ l', Relation.ReflTransGen (Ledger.Moves id) l l' ∧ Shows id m' l'

def Acts (id : LockerId) (p : Io (Ram T) α) : Prop :=
  ∀ m r m', Run Served p m r m' → Advances id m m'

theorem Advances.trans (first : Advances id m m₁) (second : Advances id m₁ m') : Advances id m m' := by
  intro l shows clean
  obtain ⟨l₁, moves, shows₁⟩ := first l shows clean
  obtain ⟨l₂, moves', shows₂⟩ := second l₁ shows₁ (Ledger.clean_of_moves moves clean)
  exact ⟨l₂, moves.trans moves', shows₂⟩

theorem Acts.bind {p : Io (Ram T) α} {f : α → Io (Ram T) β} (hp : Acts id p) (hf : ∀ a, Acts id (f a)) :
    Acts id (p >>= f) := fun _ _ _ run =>
  Run.of_bind (Advances id) Advances.trans run (fun x m₁ h => hp _ x m₁ h) fun a m₁ _ h => hf a m₁ _ _ h

theorem Acts.attempt {p : Io (Ram T) α} (hp : Acts id p) : Acts id p.attempt := by
  intro m r m' run
  obtain ⟨x, h, -⟩ := run_attempt.1 run
  exact hp m x m' h

/-! ## What the ledger does not see -/

/-- The ops write no row of the locker's ledger. -/
def SparesRows (id : LockerId) (ops : List Op) : Prop :=
  ∀ key, written ops .meta (entryKey id key) = none

/-- A change of memory that the ledger does not see. -/
def Unseen (f : Ram T → Ram T) : Prop :=
  ∀ ram, (f ram).res.lru = ram.res.lru ∧ (f ram).shared.ticks = ram.shared.ticks

/-- A program that writes no row of the ledger, and leaves the accounting and the clock alone. -/
def Hidden (id : LockerId) (p : Io (Ram T) α) : Prop :=
  p.Only (fun q => ∀ ops options, q = .commit ops options → SparesRows id ops) fun ram ram' =>
    ram'.res.lru = ram.res.lru ∧ ram'.shared.ticks = ram.shared.ticks

theorem SparesRows.append (first : SparesRows id ops) (second : SparesRows id more) :
    SparesRows id (ops ++ more) := by
  intro key
  rw [written_append, first, second]
  rfl

theorem sparesRows_of_table (h : ∀ op ∈ ops, op.table ≠ .meta) : SparesRows id ops :=
  fun _ => written_of_table h

theorem sparesRows_counter (next : UInt64) : SparesRows id [counterOpFor next] := by
  intro key
  simp [written_cons, Op.written, counterOpFor, (entryKey_ne_counter id key).symm]

theorem Shows.unseen {ram : Ram T} (shows : Shows id m l) (lru : ram.res.lru = m.mem.res.lru)
    (ticks : ram.shared.ticks = m.mem.shared.ticks) : Shows id ⟨m.dev, ram⟩ l where
  rows := shows.rows
  lru := lru.trans shows.lru
  clock := by rw [← shows.clock, ← ticks]

theorem Touches.unseen {f : Ram T → Ram T} (h : Touches f) : Unseen f := by
  intro ram
  exact ⟨h.lru ram, congrArg Shared.ticks (h ram).2.1⟩

theorem Unseen.advances {f : Ram T → Ram T} (h : Unseen f) (m : Machine Tables (Ram T)) :
    Advances id m ⟨m.dev, f m.mem⟩ :=
  fun l shows _ => ⟨l, .refl, shows.unseen (h m.mem).1 (h m.mem).2⟩

theorem Hidden.bind {p : Io (Ram T) α} {f : α → Io (Ram T) β} (hp : Hidden id p)
    (hf : ∀ a, Hidden id (f a)) : Hidden id (p >>= f) := Prog.Only.bind hp hf

theorem Reads.hidden {p : Io (Ram T) α} (hp : Reads p) : Hidden id p := by
  refine Prog.Only.mono hp (fun q hq ops options heq => ?_) fun _ _ h => h.elim
  subst heq
  exact hq.elim

theorem hidden_read {f : Ram T → α} : Hidden id (Prog.read f) := Prog.only_read.2 fun _ => ⟨rfl, rfl⟩

theorem hidden_ensureOpen : Hidden id (Ram.ensureOpen : Io (Ram T) Unit) :=
  Prog.only_sync.2 fun _ => ⟨rfl, rfl⟩

theorem hidden_commit (spares : SparesRows id ops) : Hidden id (inner.commit ops : Io (Ram T) Unit) := by
  refine Backend.only_commitWith.2 fun ops' options heq => ?_
  obtain ⟨rfl, -⟩ := Req.commit.inj heq
  exact spares

theorem hidden_update {f : Ram T → Ram T} (h : Unseen f) : Hidden id (Prog.update f) := Prog.only_update.2 h

theorem hidden_zoom {p : Io Shared α} (hp : p.Only Req.isRead fun s s' => s'.ticks = s.ticks) :
    Hidden id (p.zoom (sharedPart T)) := by
  refine Prog.Only.mono (Prog.Only.zoom hp) (fun q hq ops options heq => ?_) ?_
  · subst heq
    exact hq.elim
  · rintro ram _ ⟨s, same, rfl⟩
    exact ⟨rfl, same⟩

theorem Hidden.shows {p : Io (Ram T) α} (hp : Hidden id p) {r : Except Error α} (h : Run Served p m r m')
    (shows : Shows id m l) : Shows id m' l := by
  refine Prog.Only.run (I := fun m => Shows id m l) hp h shows (fun m₁ s held same => ?_) ?_
  · exact held.unseen same.1 same.2
  · intro m₁ q x m₂ held hq hs
    cases q with
    | get | getMany | scan => exact hs.1 ▸ held
    | commit ops options =>
      rcases hs with ⟨-, rfl⟩ | ⟨_, -, rfl⟩
      · refine ⟨fun key => ?_, held.lru, held.clock⟩
        dsimp only
        rw [Tables.lookup_commit, hq ops options rfl]
        exact held.rows key
      · exact held
    | flush | idle =>
      obtain rfl := hs
      exact held
    | lock =>
      obtain ⟨s, hs, rfl⟩ := hs
      simp only [WriteLock.acquire] at hs
      split at hs
      · cases hs
      · obtain rfl := Option.some.inj hs
        exact held.unseen rfl rfl

theorem Hidden.acts {p : Io (Ram T) α} (hp : Hidden id p) : Acts id p :=
  fun _ _ _ run l shows _ => ⟨l, .refl, hp.shows run shows⟩

theorem Acts.guarded {p : Io (Ram T) α} {release : Ram T → Ram T} (hp : Acts id p)
    (unseen : Unseen release) : Acts id (p.guarded release) := by
  intro m r m' run
  obtain ⟨m₁, h, rfl⟩ := run_guarded.1 run
  exact (hp m r m₁ h).trans (unseen.advances m₁)

theorem Acts.withWriteLock {p : Io (Ram T) α} (hp : Acts id p) : Acts id (withWriteLock p) := by
  intro m r m' run
  obtain ⟨-, m₁, h, rfl⟩ := run_withWriteLock.1 run
  have locks : Unseen (Ram.lock (T := T)) := fun _ => ⟨rfl, rfl⟩
  have unlocks : Unseen (Ram.unlock (T := T)) := fun _ => ⟨rfl, rfl⟩
  exact ((locks.advances m).trans (hp _ r m₁ h)).trans (unlocks.advances m₁)

end

/-! ## What is built for a commit -/

/-- A program that reads, and leaves the clock alone. -/
def Untimed {α : Type} (p : Io Shared α) : Prop := p.Only Req.isRead fun s s' => s'.ticks = s.ticks

/-- What is built spares the rows of the ledger, and no tick is drawn for it. -/
structure Plans (id : LockerId) (p : Io Shared (List Op)) : Prop where
  untimed : Untimed p
  rows : ∀ m m' ops, Run Served p m (.ok ops) m' → SparesRows id ops

section
variable {T α β : Type} {inner : Inner T} {id : LockerId}

theorem Untimed.bind {p : Io Shared α} {f : α → Io Shared β} (hp : Untimed p) (hf : ∀ a, Untimed (f a)) :
    Untimed (p >>= f) := Prog.Only.bind hp hf

theorem Reads.untimed {p : Io Shared α} (hp : Reads p) : Untimed p :=
  Prog.Only.mono hp (fun _ h => h) fun _ _ h => h.elim

theorem untimed_allocateValueId : Untimed ValueIds.allocate := by
  have takes : Untimed (Prog.sync ValueIds.take) := Prog.only_sync.2 fun s => by
    unfold ValueIds.take
    split
    · rfl
    · split
      · rfl
      · rfl
  unfold ValueIds.allocate
  apply takes.bind
  intro taken
  cases taken with
  | some valueId => exact reads_pure.untimed
  | none =>
    refine reads_seedFloor.untimed.bind fun floor => Prog.only_sync.2 fun s => ?_
    unfold ValueIds.seedAndTake
    dsimp only
    split
    · rfl
    · rfl

theorem plans_putPayloadOps (key payload : Bytes) (flags : UInt8) (prior : Prior) :
    Plans id (inner.putPayloadOps key payload flags prior) where
  untimed := by
    unfold Inner.putPayloadOps
    apply (reads_gcPrior inner key prior).untimed.bind
    intro gc
    split
    · exact reads_ofExcept.untimed.bind fun sealed => reads_pure.untimed
    apply untimed_allocateValueId.bind
    intro valueId
    split
    · exact reads_stuck.untimed
    apply reads_ofExcept.untimed.bind
    intro pieces
    exact Untimed.bind (Prog.only_read.2 fun _ => rfl) fun counter => reads_pure.untimed
  rows m m' ops run := by
    obtain ⟨gc, m₁, hgc, h₁⟩ := run_bind_ok.1 run
    obtain ⟨rfl, rfl⟩ := gcPrior_run hgc
    have collects : ∀ op ∈ (collected inner m₁.dev key prior).toList.map gcOps, op.table ≠ .meta := by
      intro op hop
      obtain ⟨p, -, rfl⟩ := List.mem_map.1 hop
      simp [gcOps, Op.table]
    have stores (value : Bytes) : SparesRows id [Op.put .records (inner.encodeKey key) value] :=
      sparesRows_of_table fun op hop => by
        rw [List.mem_singleton.1 hop]
        simp [Op.table]
    split at h₁
    · obtain ⟨sealed, m₂, hseal, h₂⟩ := run_bind_ok.1 h₁
      obtain rfl := Except.ok.inj (run_pure.1 h₂).1
      exact (sparesRows_of_table collects).append (stores sealed)
    obtain ⟨valueId, m₂, -, h₂⟩ := run_bind_ok.1 h₁
    split at h₂
    · exact absurd h₂ run_stuck
    obtain ⟨⟨pieces, seq⟩, m₃, hpieces, h₃⟩ := run_bind_ok.1 h₂
    obtain ⟨hbuilt, rfl⟩ := run_ofExcept.1 hpieces
    obtain ⟨sealed, -, rfl, -⟩ := Inner.pieceOps_eq_ok inner hbuilt.symm
    obtain ⟨counter, m₄, hcounter, h₄⟩ := run_bind_ok.1 h₃
    obtain ⟨hc, rfl⟩ := run_read.1 hcounter
    obtain rfl := Except.ok.inj hc
    obtain rfl := Except.ok.inj (run_pure.1 h₄).1
    refine (((sparesRows_of_table collects).append (sparesRows_of_table fun op hop => ?_)).append
      (stores _)).append ?_
    · simp [table_of_mem_pieceOpsFrom hop]
    · unfold ValueIds.counterOp
      cases m₄.mem.values.next with
      | none => exact fun _ => rfl
      | some next => exact sparesRows_counter next

theorem plans_actionsOps (mode : TxMode) (actions : List (Bytes × Action)) :
    Plans id (actionsOps inner mode actions) := by
  have one (key : Bytes) (action : Action) : Plans id (actionOps inner mode key action) := by
    cases action with
    | put payload =>
      cases mode with
      | lazy => exact plans_putPayloadOps key payload _ _
      | eager =>
        refine ⟨(reads_eagerPutOps inner key payload).untimed, fun m m' ops run => ?_⟩
        obtain ⟨-, sealed, -, rfl⟩ := eagerPutOps_run run
        exact sparesRows_of_table fun op hop => table_of_mem_ops hop
    | delete =>
      refine ⟨(reads_deleteValueOps inner key .unknown).untimed, fun m m' ops run => ?_⟩
      obtain ⟨-, rfl⟩ := deleteValueOps_run run
      exact sparesRows_of_table fun op hop => table_of_mem_ops hop
  induction actions with
  | nil =>
    refine ⟨reads_pure.untimed, fun m m' ops run => ?_⟩
    obtain rfl := Except.ok.inj (run_pure.1 run).1
    exact fun _ => rfl
  | cons e rest ih =>
    obtain ⟨key, action⟩ := e
    refine ⟨(one key action).untimed.bind fun ops => ih.untimed.bind fun more => reads_pure.untimed,
      fun m m' ops run => ?_⟩
    obtain ⟨first, m₁, hfirst, h₁⟩ := run_bind_ok.1 run
    obtain ⟨more, m₂, hmore, h₂⟩ := run_bind_ok.1 h₁
    obtain rfl := Except.ok.inj (run_pure.1 h₂).1
    exact ((one key action).rows _ _ _ hfirst).append (ih.rows _ _ _ hmore)

theorem sparesRows_clearValueOps {ρ : Type} [WriteLock ρ] {m m' : Machine Tables ρ} {ops : List Op}
    (run : Run Served inner.clearValueOps m (.ok ops) m') : SparesRows id ops := by
  obtain ⟨-, rfl⟩ := clearValueOps_run run
  refine SparesRows.append (sparesRows_of_table fun op hop => ?_) (sparesRows_of_table fun op hop => ?_)
  · obtain ⟨p, -, rfl⟩ := List.mem_map.1 hop
    simp [gcOps, Op.table]
  · rw [List.mem_singleton.1 hop]
    simp [Inner.clearOp, Op.table]

theorem plans_opsForItems (staged : List Pending) (mode : TxMode) :
    Plans id (opsForItems inner staged mode) where
  untimed := by
    unfold opsForItems
    refine Untimed.bind ?_ fun ops => Untimed.bind ?_ fun more => reads_pure.untimed
    swap
    · exact Plans.untimed (plans_actionsOps mode _ : Plans inner.id (actionsOps inner mode _))
    split
    · exact (reads_clearValueOps inner).untimed
    · exact reads_pure.untimed
  rows m m' ops run := by
    obtain ⟨front, m₁, hfront, h₁⟩ := run_bind_ok.1 run
    obtain ⟨more, m₂, hmore, h₂⟩ := run_bind_ok.1 h₁
    obtain rfl := Except.ok.inj (run_pure.1 h₂).1
    refine SparesRows.append ?_ ((plans_actionsOps mode _).rows _ _ _ hmore)
    split at hfront
    · exact sparesRows_clearValueOps hfront
    · obtain rfl := Except.ok.inj (run_pure.1 hfront).1
      exact fun _ => rfl

end

/-! ## Commits -/

section
variable {T : Type} {inner : Inner T} {m m₁ m' : Machine Tables (Ram T)} {batch : List Pending}
  {x : List Op × Budget}

/-- The commit `x` of the batch is planned at a tick that the ledger has issued. -/
def Reckons (inner : Inner T) (batch : List Pending) (x : List Op × Budget)
    (m m₁ : Machine Tables (Ram T)) : Prop :=
  ∀ l, Shows inner.id m l → l.lru.dirty = false → ∃ tick l₁, l.issue tick = some l₁ ∧
    Shows inner.id m₁ l₁ ∧ x.2 = l₁.lru.budgetFor inner.id tick (accounting batch) ∧
    ∀ key, written x.1 .meta (entryKey inner.id key) =
      written (l₁.lru.accountOps inner.id x.2) .meta (entryKey inner.id key)

theorem moves_commit {id : LockerId} {l l₁ : Ledger} {tick : UInt64} (batch : List Pending)
    (clean : l.lru.dirty = false) (issue : l.issue tick = some l₁) (lands : Bool) : Ledger.Moves id l
      (if lands then
        let budget := l₁.lru.budgetFor id tick (accounting batch)
        l₁.land (l₁.lru.accountOps id budget) budget
      else l₁) := by
  refine ⟨.commit tick batch lands, trivial, ?_⟩
  have same : l.reloaded id = l := by
    rw [Ledger.reloaded, clean]
    rfl
  rw [Ledger.step, same, issue]
  rfl

theorem Reckons.fails (reckons : Reckons inner batch x m m₁) : Advances inner.id m m₁ := by
  intro l shows clean
  obtain ⟨tick, l₁, issue, shows₁, -, -⟩ := reckons l shows clean
  exact ⟨l₁, .single (moves_commit batch clean issue false), shows₁⟩

theorem Reckons.lands (reckons : Reckons inner batch x m m₁) {ram : Ram T}
    (lru : ram.res.lru = m₁.mem.res.lru) (ticks : ram.shared.ticks = m₁.mem.shared.ticks) :
    Advances inner.id m ⟨m₁.dev.commit x.1, applyBudget x.2 ram⟩ := by
  intro l shows clean
  obtain ⟨tick, l₁, issue, shows₁, budget, rows⟩ := reckons l shows clean
  have landed : Shows inner.id ⟨m₁.dev.commit x.1, applyBudget x.2 ram⟩
      (l₁.land (l₁.lru.accountOps inner.id x.2) x.2) :=
    (shows₁.unseen lru ticks).land rows
  refine ⟨_, .single (moves_commit batch clean issue true), ?_⟩
  rw [budget] at landed ⊢
  exact landed

/-- A clock that has no tick left stands still. -/
theorem Ticks.allocate_error {m m' : Machine Tables Shared} {e : Error}
    (h : Run Served Ticks.allocate m (.error e) m') : m' = m := by
  have taken {s : Shared} (h : ∀ tick, (Ticks.take s).1 ≠ .ok (some tick)) : (Ticks.take s).2 = s := by
    unfold Ticks.take at h ⊢
    cases hc : s.ticks.cursor none with
    | none => rfl
    | some tick =>
      rw [hc] at h
      dsimp only at h ⊢
      cases hnext : Ticks.advance tick with
      | error e => rfl
      | ok next =>
        rw [hnext] at h
        exact absurd rfl (h tick)
  rcases run_bind.1 h with ⟨tick, m₁, htake, h₁⟩ | ⟨e', htake, -⟩
  · obtain ⟨htaken, rfl⟩ := run_sync.1 htake
    cases tick with
    | some tick => cases (run_pure.1 h₁).1
    | none =>
      rw [taken fun tick => by rw [← htaken]; simp] at h₁
      rcases run_bind.1 h₁ with ⟨raw, m₂, hget, h₂⟩ | ⟨e', hget, -⟩
      · obtain ⟨rfl, -⟩ := run_get.1 hget
        rcases run_bind.1 h₂ with ⟨stored, m₃, hstored, h₃⟩ | ⟨e', hstored, -⟩
        · obtain ⟨-, rfl⟩ := run_ofExcept.1 hstored
          obtain ⟨hseed, rfl⟩ := run_sync.1 h₃
          unfold Ticks.seedAndTake at hseed ⊢
          dsimp only at hseed ⊢
          cases hnext : Ticks.advance (Option.getD (m.mem.ticks.cursor (some stored)) stored) with
          | error e => rfl
          | ok next =>
            rw [hnext] at hseed
            cases hseed
        · exact (run_ofExcept.1 hstored).2
      · exact (run_get.1 hget).1
  · obtain ⟨htaken, rfl⟩ := run_sync.1 htake
    rw [taken fun tick => by rw [← htaken]; simp]

/-- Planning that fails is a commit that fails, or nothing. -/
theorem budgetOps_advances {ops : List Op} {acc : Accounting} {e : Error}
    (h : Run Served (budgetOps inner ops acc.updates acc.removals acc.cleared
      (acc.updates.map Prod.fst)) m (.error e) m') : Advances inner.id m m' := by
  intro l shows clean
  rw [budgetOps, run_read_bind, shows.lru] at h
  have same : l.reloaded inner.id = l := by
    rw [Ledger.reloaded, clean]
    rfl
  rcases run_bind.1 h with ⟨u, m₁, hreload, h₁⟩ | ⟨e', hreload, -⟩
  · have shows₁ := reloadLruIfDirty_shows shows hreload
    rw [same] at shows₁
    rcases run_bind.1 h₁ with ⟨tick, m₂, htick, h₂⟩ | ⟨e', htick, -⟩
    · obtain ⟨l₁, issue, shows₂⟩ := allocate_shows shows₁ htick
      have failed : Ledger.Moves inner.id l l₁ := moves_commit [] clean issue false
      rw [run_read_bind, shows₂.lru] at h₂
      rcases run_bind.1 h₂ with ⟨shed, m₃, hshed, h₃⟩ | ⟨e', hshed, -⟩
      · rw [run_read_bind] at h₃
        cases (run_pure.1 h₃).1
      · rw [(reads_victimOps inner _).run hshed]
        exact ⟨l₁, .single failed, shows₂⟩
    · obtain ⟨m₂, hrun, rfl⟩ := draws_allocateTick.run_zoom_iff.1 htick
      obtain rfl := Ticks.allocate_error hrun
      exact ⟨l, .refl, shows₁.unseen rfl rfl⟩
  · rw [reloadLruIfDirty, run_read_bind, shows.lru] at hreload
    dsimp only at hreload
    rw [clean] at hreload
    cases (run_pure.1 hreload).1

/-- What is built for a commit is planned, or the ledger has done a commit that fails. -/
theorem reckons_of_build {build : Io (Ram T) (List Op)} (hidden : Hidden inner.id build)
    (rows : ∀ m m' ops, Run Served build m (.ok ops) m' → SparesRows inner.id ops)
    {r : Except Error (List Op × Budget)} (h : Run Served (reckon inner build batch) m r m₁) :
    (∃ x, r = .ok x ∧ Reckons inner batch x m m₁) ∨ (∃ e, r = .error e) ∧ Advances inner.id m m₁ := by
  rcases run_bind.1 h with ⟨ops, m₂, hbuild, hbudget⟩ | ⟨e, hbuild, rfl⟩
  · have built : Advances inner.id m m₂ := hidden.acts _ _ _ hbuild
    cases r with
    | error e => exact .inr ⟨⟨e, rfl⟩, built.trans (budgetOps_advances hbudget)⟩
    | ok x =>
      refine .inl ⟨x, rfl, fun l shows clean => ?_⟩
      obtain ⟨ops', budget⟩ := x
      obtain ⟨tick, l₁, issue, shows₁, hbudget, written⟩ :=
        budgetOps_shows (hidden.shows hbuild shows) hbudget
      have same : l.reloaded inner.id = l := by
        rw [Ledger.reloaded, clean]
        rfl
      rw [same] at issue
      refine ⟨tick, l₁, issue, shows₁, hbudget, fun key => ?_⟩
      rw [written, rows _ _ _ hbuild, Option.or_none]
  · exact .inr ⟨⟨e, rfl⟩, hidden.acts _ _ _ hbuild⟩

end

/-! ## Calls -/

section
variable {T α : Type} {inner : Inner T} {batch : List Pending} {f g k : Ram T → Ram T}

theorem Unseen.comp (hf : Unseen f) (hg : Unseen g) : Unseen fun ram => g (f ram) := by
  intro ram
  exact ⟨(hg (f ram)).1.trans (hf ram).1, (hg (f ram)).2.trans (hf ram).2⟩

theorem unseen_mapRes {f : Resident → Resident} (h : ∀ r, (f r).lru = r.lru) :
    Unseen (Ram.mapRes f : Ram T → Ram T) := fun ram => ⟨h ram.res, rfl⟩

theorem unseen_dropDrained : Unseen (dropDrained : Ram T → Ram T) := unseen_mapRes fun _ => rfl

theorem acts_noteRead (id : LockerId) (key : Bytes) : Acts id (noteRead key : Io (Ram T) Unit) := by
  intro m r m' run l shows clean
  cases r with
  | ok u =>
    obtain ⟨tick, l', step, shows'⟩ := noteRead_shows shows run
    exact ⟨l', .single ⟨.read key tick, trivial, step⟩, shows'⟩
  | error e =>
    rw [noteRead, run_read_bind, shows.lru] at run
    rcases run_bind.1 run with ⟨tick, m₁, -, h₁⟩ | ⟨e', htick, -⟩
    · cases (run_update.1 h₁).1
    · obtain ⟨m₁, hrun, rfl⟩ := draws_allocateTick.run_zoom_iff.1 htick
      obtain rfl := Ticks.allocate_error hrun
      exact ⟨l, .refl, shows.unseen rfl rfl⟩

theorem landing_advances {build : Io (Ram T) (List Op)} {acc : Accounting}
    (hf : Unseen f) (hg : Unseen g) (hk : Unseen k) (hacc : acc = accounting batch)
    (hidden : Hidden inner.id build)
    (rows : ∀ m m' ops, Run Served build m (.ok ops) m' → SparesRows inner.id ops)
    {m m' : Machine Tables (Ram T)} {r : Except Error Unit} (run : Run Served (do
      let ops ← build
      let (ops, budget) ← budgetOps inner ops acc.updates acc.removals acc.cleared
        (acc.updates.map Prod.fst)
      inner.commit ops
      Prog.update f
      Prog.update g
      Prog.update (applyBudget budget)
      Prog.update k : Io (Ram T) Unit) m r m') : Advances inner.id m m' := by
  subst hacc
  rw [← bind_assoc] at run
  rcases run_bind.1 run with ⟨⟨ops, budget⟩, m₁, hreckon, hrest⟩ | ⟨e, hreckon, rfl⟩
  · rcases reckons_of_build hidden rows hreckon with ⟨x, hx, reckons⟩ | ⟨⟨e, he⟩, -⟩
    · obtain rfl := Except.ok.inj hx
      rcases run_bind.1 hrest with ⟨u, m₂, hcommit, hafter⟩ | ⟨e, hcommit, rfl⟩
      · rcases run_innerCommit.1 hcommit with ⟨-, rfl⟩ | ⟨e, he, -⟩
        · simp only [run_update_bind, run_update] at hafter
          obtain ⟨-, rfl⟩ := hafter
          obtain ⟨lru, ticks⟩ := hf.comp hg m₁.mem
          exact (reckons.lands lru ticks).trans (hk.advances ⟨_, _⟩)
        · cases he
      · rcases run_innerCommit.1 hcommit with ⟨he, -⟩ | ⟨e, -, rfl⟩
        · cases he
        · exact reckons.fails
    · cases he
  · rcases reckons_of_build hidden rows hreckon with ⟨x, hx, -⟩ | ⟨-, advances⟩
    · cases hx
    · exact advances

/-- A batch of writes. What fails is staged again. -/
theorem batch_advances {before : List Pending} {mode : TxMode}
    {settle : List Op × Budget → Io (Ram T) Unit} (hf : Unseen f) (hk : Unseen k)
    (settles : ∀ x m r m', Run Served (settle x) m r m' →
      m' = ⟨m.dev, k (applyBudget x.2 (f m.mem))⟩)
    {m m' : Machine Tables (Ram T)} {r : Except Error Unit} (run : Run Served (do
      let x ← restagingOnError before (batchOps inner batch mode)
      restagingOnError before (inner.commit x.1)
      settle x : Io (Ram T) Unit) m r m') : Advances inner.id m m' := by
  have plans : Plans inner.id (opsForItems inner batch mode) := plans_opsForItems batch mode
  have hidden : Hidden inner.id ((opsForPending inner batch mode).zoom (sharedPart T)) :=
    hidden_zoom plans.untimed
  have rows (m m' : Machine Tables (Ram T)) (ops : List Op)
      (h : Run Served ((opsForPending inner batch mode).zoom (sharedPart T)) m (.ok ops) m') :
      SparesRows inner.id ops := by
    obtain ⟨m₁, h₁, -⟩ := (draws_opsForItems inner batch mode).run_zoom_iff.1 h
    exact plans.rows _ _ _ h₁
  have restages : Unseen (Ram.mapRes (Resident.putBack before) : Ram T → Ram T) :=
    unseen_mapRes fun _ => rfl
  rcases run_bind.1 run with ⟨⟨ops, budget⟩, m₁, hplan, hrest⟩ | ⟨e, hplan, rfl⟩
  · rcases reckons_of_build hidden rows (run_restagingOnError_ok.1 hplan) with
      ⟨x, hx, reckons⟩ | ⟨⟨e, he⟩, -⟩
    · obtain rfl := Except.ok.inj hx
      rcases run_bind.1 hrest with ⟨u, m₂, hcommit, hafter⟩ | ⟨e, hcommit, rfl⟩
      · rcases run_innerCommit.1 (run_restagingOnError_ok.1 hcommit) with ⟨-, rfl⟩ | ⟨e, he, -⟩
        · obtain rfl := settles _ _ _ _ hafter
          obtain ⟨lru, ticks⟩ := hf m₁.mem
          exact (reckons.lands lru ticks).trans (hk.advances ⟨_, _⟩)
        · cases he
      · obtain ⟨m₂, hfails, rfl⟩ := run_restagingOnError_error.1 hcommit
        rcases run_innerCommit.1 hfails with ⟨he, -⟩ | ⟨e, -, rfl⟩
        · cases he
        · exact reckons.fails.trans (restages.advances m₂)
    · cases he
  · obtain ⟨m₁, hfails, rfl⟩ := run_restagingOnError_error.1 hplan
    rcases reckons_of_build hidden rows hfails with ⟨x, hx, -⟩ | ⟨-, advances⟩
    · cases hx
    · exact advances.trans (restages.advances m₁)

theorem acts_flushLocked : Acts inner.id (flushLocked inner) := by
  have takes : Hidden inner.id (takeStaged : Io (Ram T) _) := Prog.only_sync.2 fun _ => ⟨rfl, rfl⟩
  unfold flushLocked
  refine takes.acts.bind fun entries => Acts.guarded ?_ unseen_dropDrained
  split
  · exact reads_pure.hidden.acts
  refine hidden_read.acts.bind fun mode m r m' run => ?_
  have same : Unseen fun ram : Ram T => ram := fun _ => ⟨rfl, rfl⟩
  exact batch_advances same same (fun x m r m' h => (run_update.1 h).2) run

theorem acts_residentFlush : Acts inner.id (Resident.flush inner) := by
  unfold Resident.flush
  refine hidden_read.acts.bind fun staged => ?_
  split
  · exact reads_pure.hidden.acts
  · exact acts_flushLocked.withWriteLock

theorem acts_staging {entry : Pending} (hf : Unseen f) (hg : Unseen g) (hk : Unseen k) :
    Acts inner.id (do
      let full ← stage inner entry
      Prog.update f
      Prog.update g
      Prog.update k
      if full then flushLocked inner else pure () : Io (Ram T) Unit) := by
  have stages : Hidden inner.id (stage inner entry : Io (Ram T) Bool) :=
    Prog.only_sync.2 fun _ => ⟨rfl, rfl⟩
  refine stages.acts.bind fun full => (hidden_update hf).acts.bind fun _ =>
    (hidden_update hg).acts.bind fun _ => (hidden_update hk).acts.bind fun _ => ?_
  split
  · exact acts_flushLocked
  · exact reads_pure.hidden.acts

theorem acts_putBy (key : Bytes) (value : T) : Acts inner.id (LazyLocker.putBy inner key value) := by
  have touches : Unseen (Ram.mapRes (·.touchIndex (·.insert key)) : Ram T → Ram T) :=
    (touches_touchIndex _).unseen
  have marks (inline : Bool) : Unseen (Ram.mapRes (·.noteInline key inline) : Ram T → Ram T) :=
    (touches_noteInline _ _).unseen
  have tells : Unseen (Ram.announce (.put key) : Ram T → Ram T) := (touches_announce _).unseen
  unfold LazyLocker.putBy
  refine hidden_ensureOpen.acts.bind fun _ => Acts.withWriteLock ?_
  refine reads_ofExcept.hidden.acts.bind fun payload => ?_
  split
  · exact acts_staging touches (marks false) tells
  · refine hidden_read.acts.bind fun prior => ?_
    have plans : Plans inner.id (inner.putPayloadOps key payload FLAG_POSTCARD prior) :=
      plans_putPayloadOps key payload FLAG_POSTCARD prior
    intro m r m' run
    refine landing_advances touches (marks _) tells (rfl : accounting [.put key payload] = _)
      (hidden_zoom plans.untimed) (fun m m' ops h => ?_) run
    obtain ⟨m₁, h₁, -⟩ := (draws_putPayloadOps inner _ _ _ _).run_zoom_iff.1 h
    exact plans.rows _ _ _ h₁

theorem acts_deleteBy (key : Bytes) : Acts inner.id (LazyLocker.deleteBy inner key) := by
  have touches : Unseen (Ram.mapRes (·.touchIndex (·.erase key)) : Ram T → Ram T) :=
    (touches_touchIndex _).unseen
  have marks : Unseen (Ram.mapRes (·.noteInline key false) : Ram T → Ram T) :=
    (touches_noteInline _ _).unseen
  have tells : Unseen (Ram.announce (.deleted key) : Ram T → Ram T) := (touches_announce _).unseen
  unfold LazyLocker.deleteBy
  refine hidden_ensureOpen.acts.bind fun _ => Acts.withWriteLock ?_
  split
  · exact acts_staging touches marks tells
  · refine hidden_read.acts.bind fun prior => ?_
    intro m r m' run
    refine landing_advances touches marks tells (rfl : accounting [.delete key] = _)
      (reads_deleteValueOps inner key prior).hidden (fun m m' ops h => ?_) run
    obtain ⟨-, rfl⟩ := deleteValueOps_run h
    exact sparesRows_of_table fun op hop => table_of_mem_ops hop

theorem acts_clear : Acts inner.id (LazyLocker.clear inner) := by
  have touches : Unseen (Ram.mapRes (·.touchIndex fun _ => ∅) : Ram T → Ram T) :=
    (touches_touchIndex _).unseen
  have forgets : Unseen (Ram.mapRes Resident.forgetInline : Ram T → Ram T) := touches_forgetInline.unseen
  have tells : Unseen (Ram.announce .cleared : Ram T → Ram T) := (touches_announce _).unseen
  unfold LazyLocker.clear
  refine hidden_ensureOpen.acts.bind fun _ => Acts.withWriteLock ?_
  split
  · exact acts_staging touches forgets tells
  · intro m r m' run
    exact landing_advances touches forgets tells (rfl : accounting [.clear] = _)
      (reads_clearValueOps inner).hidden (fun m m' ops h => sparesRows_clearValueOps h) run

theorem acts_transact (body : TxBody T) : Acts inner.id (LazyLocker.transact inner body) := by
  have takes : Hidden inner.id (takeStaged : Io (Ram T) _) := Prog.only_sync.2 fun _ => ⟨rfl, rfl⟩
  unfold LazyLocker.transact
  refine hidden_ensureOpen.acts.bind fun _ => Acts.withWriteLock ?_
  refine (reads_txBody inner body []).hidden.acts.bind fun entries => ?_
  split
  · exact reads_pure.hidden.acts
  refine takes.acts.bind fun before => Acts.guarded ?_ unseen_dropDrained
  intro m r m' run
  have tells : Unseen fun ram : Ram T =>
      { ram with events := ram.events ++ entries.map LazyLocker.noticeOf } := fun _ => ⟨rfl, rfl⟩
  refine batch_advances ((touches_touchIndex (LazyLocker.indexAfter entries)).unseen.comp
    touches_forgetInline.unseen) tells (fun x m r m' h => ?_) run
  simp only [run_update_bind, run_update] at h
  exact h.2

theorem hidden_flushBackend {id : LockerId} : Hidden id (inner.flushBackend : Io (Ram T) Unit) := by
  unfold Inner.flushBackend
  split
  · exact Backend.only_flush.2 fun _ _ heq => by cases heq
  · exact reads_pure.hidden

theorem acts_flush : Acts inner.id (LazyLocker.flush inner) :=
  acts_residentFlush.attempt.bind fun _ => hidden_flushBackend.acts.attempt.bind fun _ =>
    reads_ofExcept.hidden.acts.bind fun _ => reads_ofExcept.hidden.acts

theorem acts_close : Acts inner.id (LazyLocker.close inner) := by
  have closes : Unseen fun ram : Ram T => { ram with closed := true } := fun _ => ⟨rfl, rfl⟩
  have forgets : Unseen (Ram.mapRes (·.touchIndex fun _ => ∅) : Ram T → Ram T) :=
    (touches_touchIndex _).unseen
  have ends (flushed : Except Error Unit) : Acts inner.id (do
      let forced ← inner.flushBackend.attempt
      Prog.update fun ram => { ram with closed := true }
      Prog.update (Ram.mapRes (·.touchIndex fun _ => ∅))
      Prog.update (Ram.mapRes Resident.forgetInline)
      Prog.ofExcept flushed
      Prog.ofExcept forced : Io (Ram T) Unit) :=
    hidden_flushBackend.acts.attempt.bind fun forced => (hidden_update closes).acts.bind fun _ =>
      (hidden_update forgets).acts.bind fun _ =>
        (hidden_update touches_forgetInline.unseen).acts.bind fun _ =>
          reads_ofExcept.hidden.acts.bind fun _ => reads_ofExcept.hidden.acts
  have discards : Hidden inner.id (discardStaged : Io (Ram T) Unit) :=
    hidden_update (unseen_mapRes fun _ => rfl)
  unfold LazyLocker.close
  refine acts_residentFlush.attempt.bind fun flushed => ?_
  dsimp only
  split
  · exact discards.acts.bind fun _ => ends flushed
  · exact ends flushed

theorem acts_getBy (key : Bytes) : Acts inner.id (LazyLocker.getBy inner key) := by
  have loads : Hidden inner.id (LazyLocker.loadAndNote inner key) := by
    unfold LazyLocker.loadAndNote
    apply Hidden.bind (Prog.Only.attempt (reads_loadValue inner key).hidden)
    intro x
    cases x with
    | ok found => exact reads_pure.hidden
    | error e =>
      dsimp only
      split
      · exact (hidden_update (unseen_mapRes fun _ => rfl)).bind fun _ => reads_fail.hidden
      · exact reads_pure.hidden.bind fun _ => reads_fail.hidden
  unfold LazyLocker.getBy
  refine hidden_ensureOpen.acts.bind fun _ => hidden_read.acts.bind fun staged => ?_
  split
  · exact reads_pure.hidden.acts
  · exact reads_ofExcept.hidden.acts
  · refine loads.acts.bind fun found => ?_
    dsimp only
    split
    · exact (acts_noteRead inner.id key).bind fun _ => reads_pure.hidden.acts
    · exact reads_pure.hidden.acts.bind fun _ => reads_pure.hidden.acts

theorem acts_collect {start stop : Bound Bytes} {reverse : Bool} {limit : Option Nat} :
    Acts inner.id (LazyLocker.collect inner start stop reverse limit) := by
  unfold LazyLocker.collect
  refine hidden_read.acts.bind fun staged => (reads_walk inner _ _ _ _ _ _).hidden.acts.bind fun _ => ?_
  split
  · exact (reads_decodeEntries _).hidden.acts
  · exact (reads_decodeEntries _).hidden.acts

theorem acts_evictTo (bytes : Nat) : Acts inner.id (LazyLocker.evictTo inner bytes) := by
  refine hidden_ensureOpen.acts.bind fun _ m r m' run l shows clean => ?_
  obtain ⟨lands, l', step, shows'⟩ := evictTo_shows shows run
  exact ⟨l', .single ⟨.evict bytes lands, trivial, step⟩, shows'⟩

namespace Writer
variable {w : Writer}

theorem hidden_flushPiece {piece : Bytes} : Hidden inner.id (w.flushPiece inner piece) :=
  reads_ofExcept.hidden.bind fun sealed => hidden_commit fun key => by simp [written_cons, Op.written]

theorem hidden_writeChunk {bytes : Bytes} : Hidden inner.id (w.writeChunk inner bytes) := by
  have full (fuel : Nat) (w : Writer) : Hidden inner.id (w.flushFull inner fuel) := by
    induction fuel generalizing w with
    | zero => exact reads_stuck.hidden
    | succ fuel ih =>
      unfold Writer.flushFull
      split
      · apply Hidden.bind (Prog.Only.attempt hidden_flushPiece)
        intro x
        cases x with
        | ok => exact ih _
        | error e => exact reads_pure.hidden
      · exact reads_pure.hidden
  exact full _ _

theorem hidden_abort : Hidden inner.id (w.abort inner) :=
  hidden_commit fun key => by simp [written_cons, Op.written, gcOps]

theorem hidden_publish : Hidden inner.id (publish inner w) := by
  unfold publish
  refine Hidden.bind (p := inner.fetch (asBytes w.key)) reads_get.hidden fun existing => ?_
  cases hgc : Inner.gcExisting existing with
  | error e => exact reads_fail.hidden
  | ok gc =>
    obtain rfl := gcExisting_eq_ok hgc
    have spares : SparesRows inner.id ((pointerIn existing).toList.map gcOps ++
        [Op.put .records (inner.encodeKey (asBytes w.key)) (pointer w).encode]) := by
      refine sparesRows_of_table fun op hop => ?_
      rcases List.mem_append.1 hop with hop | hop
      · obtain ⟨p, -, rfl⟩ := List.mem_map.1 hop
        simp [gcOps, Op.table]
      · rw [List.mem_singleton.1 hop]
        simp [Op.table]
    exact (hidden_commit spares).bind fun _ => (hidden_update (touches_touchIndex _).unseen).bind fun _ =>
      (hidden_update (touches_noteInline _ _).unseen).bind fun _ => hidden_update (touches_announce _).unseen

theorem acts_finish : Acts inner.id (w.finish inner) := by
  rw [finish_eq]
  refine Acts.bind (Hidden.acts ?_) fun w => hidden_publish.acts
  unfold leftover
  split
  · exact reads_pure.hidden
  · exact hidden_flushPiece.bind fun _ => reads_pure.hidden

end Writer

theorem acts_writer (key : String) : Acts inner.id (LazyLocker.writer inner key) := by
  refine hidden_ensureOpen.acts.bind fun _ => Acts.withWriteLock ?_
  unfold Writer.start
  refine (hidden_zoom untimed_allocateValueId).acts.bind fun valueId m r m' run => ?_
  rw [run_read_bind] at run
  cases hop : ValueIds.counterOp m.mem.shared with
  | none =>
    rw [hop] at run
    exact reads_pure.hidden.acts _ _ _ run
  | some op =>
    rw [hop] at run
    obtain ⟨next, -, rfl⟩ := Option.map_eq_some_iff.1 hop
    exact ((hidden_commit (sparesRows_counter next)).bind fun _ => reads_pure.hidden).acts _ _ _ run

/-- A call is a few acts of the ledger, whatever becomes of it. -/
theorem LazyCall.acts (c : LazyCall T) : Acts inner.id (c.prog inner) := by
  have only {β : Type} {p : Io (Ram T) β} (hp : Acts inner.id p) : Acts inner.id ((fun _ => ()) <$> p) := by
    intro m r m' run
    obtain ⟨x, h, -⟩ := run_map.1 run
    exact hp _ _ _ h
  cases c with
  | get key => exact only (acts_getBy key)
  | list => exact only acts_collect
  | put key value => exact acts_putBy key value
  | delete key => exact acts_deleteBy key
  | clear => exact acts_clear
  | transact body => exact acts_transact body
  | putAll entries =>
    show Acts inner.id (LazyLocker.putAll inner entries)
    unfold LazyLocker.putAll
    split
    · exact reads_pure.hidden.acts
    · exact acts_transact _
  | deleteAll keys =>
    show Acts inner.id (LazyLocker.deleteAll inner keys)
    unfold LazyLocker.deleteAll
    split
    · exact reads_pure.hidden.acts
    · exact acts_transact _
  | flush => exact acts_flush
  | evictTo bytes => exact only (acts_evictTo bytes)
  | writer key => exact only (acts_writer key)
  | writeChunk w bytes => exact only Writer.hidden_writeChunk.acts
  | finish w => exact Writer.acts_finish
  | abort w => exact Writer.hidden_abort.acts
  | close => exact acts_close

end

/-! ## Runs -/

section
variable {T : Type} {inner : Inner T} {m : Machine Tables (Ram T)}

/-- A lazy locker that is opened and then called, one call after another. -/
inductive LazyLocker.Called (inner : Inner T) : Machine Tables (Ram T) → Prop
  | opened {m m' : Machine Tables Shared} {res : Resident}
      (run : Run Served (LazyLocker.openLocker inner) m (.ok res) m') :
      Called inner ⟨m'.dev, .opened m'.mem res ∅⟩
  | called {m m' : Machine Tables (Ram T)} {r : Except Error Unit} (before : Called inner m)
      (c : LazyCall T) (run : Run Served (c.prog inner) m r m') : Called inner m'

theorem LazyLocker.Called.reached (called : LazyLocker.Called inner m) : LazyLocker.Reached inner m := by
  induction called with
  | opened run => exact .opened run
  | called _ c run ih => exact ih.called c run

/-- The calls of a locker, one after another, are a run of its ledger, which starts fresh. -/
theorem LazyLocker.Called.reach (called : LazyLocker.Called inner m) (budgeted : m.mem.res.lru ≠ none) :
    ∃ start acts l, start.Fresh inner.id ∧
      Ledger.Reach inner.id (fun _ _ act => act.Own) start acts l ∧ Shows inner.id m l := by
  induction called with
  | opened run =>
    obtain ⟨state, hlru⟩ := Option.ne_none_iff_exists'.1 budgeted
    have fresh := fresh_opened run hlru
    exact ⟨_, [], _, fresh, .start, fun _ => rfl, hlru, rfl⟩
  | @called m m' r before c run ih =>
    have kept : m.mem.res.lru ≠ none := fun unbudgeted => budgeted
      (Keeps.run (I := Unbudgeted) (c.keeps ⟨fun _ _ h => h, fun _ _ h => h⟩) run unbudgeted)
    obtain ⟨start, acts, l, fresh, reach, shows⟩ := ih kept
    have clean : l.lru.dirty = false := before.reached.clean _ shows.lru
    obtain ⟨l', moves, shows'⟩ := c.acts _ _ _ run l shows clean
    obtain ⟨acts', reach'⟩ := Ledger.reach_of_moves reach moves
    exact ⟨start, acts', l', fresh, reach', shows'⟩

end
end Crossbank
