import Crossbank.Locker.Dying
import Crossbank.Locker.Landing
import Crossbank.Locker.Damage

/-!
# What a call leaves

A call of a lazy locker stores what is staged whole, with its own writes, or stages its write, or
leaves both as they were. What storing sheds it does not write.

* `StoresBatch` : a batch has landed, and keys are shed with it; `StoresBatch.valueStored`,
  `StoresBatch.wellFormed` : what is stored then;
* `StoreKept`, `Put` : what a call leaves that has stored nothing, and that has stored a batch;
* `WriteLeft`, `Took`, `Flushed`, `Evicted` : what a write, a transaction, a flush and an eviction leave;
* `putBy_wrote`, `transact_took`, `flush_flushed`, ... : and they do, whether they fail or not.
-/

namespace Crossbank
open Async

section
variable {T : Type} (inner : Inner T)

/-- The batch has landed, and `lost` is shed with it. -/
def StoresBatch (m : Machine Tables (Ram T)) (batch : List Pending) (lost : List Bytes)
    (db : Tables) : Prop :=
  ∃ ops built s' b, Laid inner m.dev m.mem.shared batch built s' b ∧ db = m.dev.commit ops ∧
    dataOps ops = dataOps built ++ (shedWrites inner m.dev lost).flatMap (KeyWrite.ops inner) ∧
    written ops .meta META_NEXT_VALUE_ID = written built .meta META_NEXT_VALUE_ID ∧
    lost.Nodup ∧ (∀ v ∈ lost, stagedView batch v = none) ∧ (m.mem.res.lru = none → lost = [])

/-- What is stored and what is staged are as they were. -/
structure StoreKept (m m' : Machine Tables (Ram T)) : Prop where
  dev : m'.dev = m.dev
  staged : m'.mem.res.staged = m.mem.res.staged

/-- The batch is stored, and nothing is staged any more. -/
def Put (m : Machine Tables (Ram T)) (batch : List Pending) (m' : Machine Tables (Ram T)) : Prop :=
  ∃ lost, StoresBatch inner m batch lost m'.dev ∧ m'.mem.res.staged = []

def WriteLeft (m : Machine Tables (Ram T)) (entry : Pending) (r : Except Error Unit)
    (m' : Machine Tables (Ram T)) : Prop :=
  r = .ok () ∧ Put inner m (m.mem.res.staged ++ [entry]) m' ∨
  isDeferred inner = true ∧ m'.dev = m.dev ∧ m'.mem.res.staged = m.mem.res.staged ++ [entry] ∨
  r ≠ .ok () ∧ StoreKept m m'

def Took (m : Machine Tables (Ram T)) (body : TxBody T) (r : Except Error Unit)
    (m' : Machine Tables (Ram T)) : Prop :=
  r ≠ .ok () ∧ StoreKept m m' ∨
  ∃ own, Run Served (body.run inner []) ⟨m.dev, m.mem.lock⟩ (.ok own) ⟨m.dev, m.mem.lock⟩ ∧
    (r = .ok () ∧ Put inner m (mergeBatches m.mem.res.staged own) m' ∨
      r = .ok () ∧ own = [] ∧ StoreKept m m')

def Flushed (m : Machine Tables (Ram T)) (r : Except Error Unit) (m' : Machine Tables (Ram T)) :
    Prop :=
  Put inner m m.mem.res.staged m' ∨ (r = .ok () → m.mem.res.staged = []) ∧ StoreKept m m'

def Evicted (m m' : Machine Tables (Ram T)) : Prop :=
  StoreKept m m' ∨ m.mem.res.lru ≠ none ∧ m'.mem.res.staged = m.mem.res.staged ∧
    ∃ lost, StoresBatch inner m [] lost m'.dev

end

section
variable {T : Type} {inner : Inner T} {m m₁ m' : Machine Tables (Ram T)} {batch : List Pending}
  {lost : List Bytes} {db : Tables}

namespace StoresBatch

/-- What is stored then: nothing under a key that is shed; elsewhere the last write, or what was
stored before. -/
theorem valueStored (h : StoresBatch inner m batch lost db) (inverts : inner.chain.Inverts)
    (apart : Apart m.dev (idCursor m.dev m.mem.shared))
    (small : ∀ key payload, .put key payload ∈ batch → payload.length ≤ MAX_DECODED_BYTES)
    (key : Bytes) : inner.valueStored db key =
      if key ∈ lost then .ok none
      else match stagedView batch key with
        | some write => inner.valueOfWrite write
        | none => inner.valueStored m.dev key := by
  obtain ⟨ops, built, s', b, laid, rfl, data, counter, nodup, untouched, -⟩ := h
  exact laid.valueStored small untouched inverts apart nodup data counter key

theorem wellFormed (h : StoresBatch inner m batch lost db)
    (wf : WellFormed inner m.dev (idCursor m.dev .fresh))
    (below : ∀ k raw p, m.dev.lookup .records k = some raw → ChunkPointer.parse raw = .ok p →
      p.valueId.toNat < idCursor m.dev m.mem.shared)
    (small : ∀ key payload, .put key payload ∈ batch → payload.length ≤ MAX_DECODED_BYTES) :
    WellFormed inner db (idCursor db .fresh) := by
  obtain ⟨ops, built, s', b, laid, rfl, data, counter, nodup, untouched, -⟩ := h
  exact laid.wellFormed small untouched wf below nodup data counter

theorem untouched (h : StoresBatch inner m batch lost db) : ∀ v ∈ lost, stagedView batch v = none := by
  obtain ⟨ops, built, s', b, -, -, -, -, -, untouched, -⟩ := h
  exact untouched

theorem unbudgeted (h : StoresBatch inner m batch lost db) (hlru : m.mem.res.lru = none) :
    lost = [] := by
  obtain ⟨ops, built, s', b, -, -, -, -, -, -, none⟩ := h
  exact none hlru

theorem congr (h : StoresBatch inner m batch lost db) (dev : m'.dev = m.dev)
    (shared : m'.mem.shared = m.mem.shared) (lru : m'.mem.res.lru = m.mem.res.lru) :
    StoresBatch inner m' batch lost db := by
  unfold StoresBatch
  rw [dev, shared, lru]
  exact h

end StoresBatch

theorem Put.congr (h : Put inner m batch m₁) (dev : m'.dev = m.dev)
    (shared : m'.mem.shared = m.mem.shared) (lru : m'.mem.res.lru = m.mem.res.lru) :
    Put inner m' batch m₁ := by
  obtain ⟨lost, stores, staged⟩ := h
  exact ⟨lost, stores.congr dev shared lru, staged⟩

/-- What a commit lays is stored with what it sheds. -/
theorem LandsBatch.stores {ops : List Op} (lands : LandsBatch inner m batch ops) :
    StoresBatch inner m batch (m.mem.shedsOf batch) (m.dev.commit ops) := by
  obtain ⟨built, s', b, laid, data, counter⟩ := lands
  refine ⟨ops, built, s', b, laid, rfl, data, counter, sheds_nodup,
    fun v hv => not_touched_of_sheds hv, fun hlru => ?_⟩
  unfold Ram.shedsOf Ram.sheds
  rw [hlru]

theorem StoreKept.refl (m : Machine Tables (Ram T)) : StoreKept m m := ⟨rfl, rfl⟩

theorem Unmoved.storeKept (h : Unmoved m m') : StoreKept m m' := by
  obtain ⟨s, d, rfl⟩ := h
  exact ⟨rfl, rfl⟩

theorem Touches.staged {f : Ram T → Ram T} (hf : Touches f) (ram : Ram T) :
    (f ram).res.staged = ram.res.staged := (Prod.mk.inj (Prod.mk.inj (hf ram).1).2).2

theorem Touches.lru {f : Ram T → Ram T} (hf : Touches f) (ram : Ram T) :
    (f ram).res.lru = ram.res.lru := (Prod.mk.inj (hf ram).1).1

theorem staged_applyBudget (budget : Budget) (ram : Ram T) :
    (applyBudget budget ram).res.staged = ram.res.staged := by
  have hcore := foldl_noteInline_core budget.plan.victims (Resident.touchIndex
    (fun index => budget.plan.victims.foldl (fun i victim => i.erase victim) index)
    { ram.res with lru := (ram.res.lru.map (LruState.apply budget.updates budget.removals
        budget.cleared budget.plan)).map (LruState.clearPending budget.pending) })
  exact (Prod.mk.inj (Prod.mk.inj hcore).2).2

/-! ## A batch -/

theorem stores_reckoned {commit : CallCommit} {build : Io (Ram T) (List Op)}
    {x : List Op × Budget} (builds : Builds inner m commit build) (clean : Clean m.mem)
    (run : Run Served (reckon inner build commit.batch) m (.ok x) m₁) :
    Unmoved m m₁ ∧ StoresBatch inner m commit.batch (m.mem.shedsOf commit.batch)
      (m₁.dev.commit x.1) := by
  obtain ⟨lands, unmoved, -⟩ := reckon_run builds clean run
  refine ⟨unmoved, ?_⟩
  rw [unmoved.storeKept.dev]
  exact lands.stores

theorem batch_stores {x : List Op × Budget} (clean : Clean m.mem)
    (run : Run Served (batchOps inner batch .lazy) m (.ok x) m₁) :
    Unmoved m m₁ ∧ StoresBatch inner m batch (m.mem.shedsOf batch) (m₁.dev.commit x.1) :=
  stores_reckoned (builds_batch batch) clean run

theorem flushLocked_flushed (clean : Clean m.mem) (lazy : IsLazy m.mem) {r : Except Error Unit}
    (h : Run Served (flushLocked inner) m r m') : Flushed inner m r m' ∧
      (r ≠ .ok () → StoreKept m m') := by
  rcases flushLocked_run clean h with ⟨unmoved, nil⟩ | ⟨ops, budget, m₁, rfl, hbatch, rfl⟩
  · exact ⟨.inr ⟨nil, unmoved.storeKept⟩, fun _ => unmoved.storeKept⟩
  · have mode : m.mem.res.mode = .lazy := lazy
    rw [mode] at hbatch
    have drained : Clean (m.mem.mapRes .drain) := clean
    obtain ⟨⟨s, d, rfl⟩, stores⟩ := batch_stores (m := ⟨m.dev, m.mem.mapRes .drain⟩) drained hbatch
    refine ⟨.inl ⟨_, stores.congr rfl rfl rfl, ?_⟩, fun failed => absurd rfl failed⟩
    exact staged_applyBudget budget _

theorem residentFlush_flushed (clean : Clean m.mem) (lazy : IsLazy m.mem) {r : Except Error Unit}
    (h : Run Served (Resident.flush inner) m r m') : Flushed inner m r m' := by
  rw [Resident.flush, run_read_bind] at h
  split at h
  · next hnil =>
    obtain ⟨-, rfl⟩ := run_pure.1 h
    exact .inr ⟨fun _ => List.length_eq_zero_iff.1 hnil, .refl _⟩
  · obtain ⟨-, m₁, hb, rfl⟩ := run_withWriteLock.1 h
    have locked : Clean m.mem.lock := clean
    have lazy' : IsLazy m.mem.lock := lazy
    rcases (flushLocked_flushed (m := ⟨m.dev, m.mem.lock⟩) locked lazy' hb).1 with
      ⟨lost, stores, nil⟩ | ⟨nil, kept⟩
    · exact .inl ⟨lost, stores.congr rfl rfl rfl, nil⟩
    · exact .inr ⟨nil, ⟨kept.dev, kept.staged⟩⟩

/-! ## Writes -/

section
variable {entry : Pending} {f g k : Ram T → Ram T} (hf : Touches f) (hg : Touches g)
  (hk : Touches k) {r : Except Error Unit}
include hf hg hk

/-- A write of a deferred locker is staged, and with it the batch that is full is stored. -/
theorem staging_wrote (deferred : isDeferred inner = true) (clean : Clean m.mem) (lazy : IsLazy m.mem)
    (h : Run Served (do
      let full ← stage inner entry
      Prog.update f
      Prog.update g
      Prog.update k
      if full then flushLocked inner else pure () : Io (Ram T) Unit) m r m') :
    WriteLeft inner m entry r m' := by
  rcases run_bind.1 h with ⟨full, m₁, hstage, hrest⟩ | ⟨e, hstage, -⟩
  · obtain ⟨-, rfl⟩ := run_sync.1 hstage
    simp only [run_update_bind] at hrest
    have all : Touches fun ram => k (g (f ram)) := hk.comp (hg.comp hf)
    have staged := all.staged (m.mem.mapRes fun r => { r with staged := m.mem.res.staged ++ [entry] })
    have lru := all.lru (m.mem.mapRes fun r => { r with staged := m.mem.res.staged ++ [entry] })
    obtain ⟨core, shared, -⟩ := all (m.mem.mapRes fun r => { r with
      staged := m.mem.res.staged ++ [entry] })
    split at hrest
    · have clean' : Clean (k (g (f (m.mem.mapRes fun r => { r with
          staged := m.mem.res.staged ++ [entry] })))) := fun state hs => clean state (lru ▸ hs)
      have lazy' : IsLazy (k (g (f (m.mem.mapRes fun r => { r with
          staged := m.mem.res.staged ++ [entry] })))) :=
        (Prod.mk.inj (Prod.mk.inj core).2).1.trans lazy
      obtain ⟨flushed, failed⟩ := flushLocked_flushed clean' lazy' hrest
      by_cases hr : r = .ok ()
      · rcases flushed with put | ⟨nil, -⟩
        · refine .inl ⟨hr, ?_⟩
          have put : Put inner m _ m' := put.congr rfl shared.symm lru.symm
          rw [staged] at put
          exact put
        · -- What has been staged just now is not nothing.
          rw [staged] at nil
          exact absurd (nil hr) (List.append_ne_nil_of_right_ne_nil _ (List.cons_ne_nil _ _))
      · have kept := failed hr
        exact .inr (.inl ⟨deferred, kept.dev, kept.staged.trans staged⟩)
    · obtain ⟨-, rfl⟩ := run_pure.1 hrest
      exact .inr (.inl ⟨deferred, rfl, staged⟩)
  · cases (run_sync.1 hstage).1

theorem landing_put {build : Io (Ram T) (List Op)} {reads : Bool} {acc : Accounting}
    (hacc : acc = accounting [entry]) (builds : Builds inner m ⟨[entry], reads⟩ build)
    (clean : Clean m.mem) (idle : m.mem.res.staged = [])
    (h : Run Served (do
      let ops ← build
      let (ops, budget) ← budgetOps inner ops acc.updates acc.removals acc.cleared
        (acc.updates.map Prod.fst)
      inner.commit ops
      Prog.update f
      Prog.update g
      Prog.update (applyBudget budget)
      Prog.update k : Io (Ram T) Unit) m (.ok ()) m') : Put inner m [entry] m' := by
  subst hacc
  rw [← bind_assoc] at h
  obtain ⟨⟨ops, budget⟩, m₁, hreckon, hrest⟩ := run_bind_ok.1 h
  obtain ⟨⟨s, d, rfl⟩, stores⟩ := stores_reckoned builds clean hreckon
  obtain ⟨_, m₂, hcommit, hafter⟩ := run_bind_ok.1 hrest
  rcases run_innerCommit.1 hcommit with ⟨-, rfl⟩ | ⟨e, he, -⟩
  · simp only [run_update_bind, run_update] at hafter
    obtain ⟨-, rfl⟩ := hafter
    refine ⟨_, stores, ?_⟩
    dsimp only
    rw [hk.staged, staged_applyBudget, hg.staged, hf.staged]
    exact idle
  · cases he

end

/-- A write that takes the lock of an open locker leaves what its body does. -/
theorem wrote_of_body {body : Io (Ram T) Unit} {entry : Pending} {r : Except Error Unit}
    (h : Run Served (Ram.ensureOpen >>= fun _ => withWriteLock body) m r m')
    (hbody : ∀ m₁, Run Served body ⟨m.dev, m.mem.lock⟩ r m₁ →
      WriteLeft inner ⟨m.dev, m.mem.lock⟩ entry r m₁) : WriteLeft inner m entry r m' := by
  rcases run_bind.1 h with ⟨u, m₁, hopen, hlocked⟩ | ⟨e, hopen, rfl⟩
  · obtain ⟨-, rfl⟩ := run_ensureOpen.1 hopen
    obtain ⟨-, m₂, hb, rfl⟩ := run_withWriteLock.1 hlocked
    rcases hbody m₂ hb with ⟨hr, lost, stores, nil⟩ | ⟨deferred, dev, staged⟩ | ⟨hr, kept⟩
    · exact .inl ⟨hr, lost, stores.congr rfl rfl rfl, nil⟩
    · exact .inr (.inl ⟨deferred, dev, staged⟩)
    · exact .inr (.inr ⟨hr, kept.dev, kept.staged⟩)
  · rw [(run_ensureOpen.1 hopen).2]
    exact .inr (.inr ⟨by simp, .refl _⟩)

section
variable (clean : Clean m.mem) (lazy : IsLazy m.mem)
  (idle : isDeferred inner = false → m.mem.res.staged = []) {r : Except Error Unit}
include clean lazy idle

theorem putBy_wrote {key : Bytes} {value : T} (h : Run Served (LazyLocker.putBy inner key value) m r m') :
    (∃ payload, inner.value.payload value = .ok payload ∧ WriteLeft inner m (.put key payload) r m') ∨
      r ≠ .ok () ∧ StoreKept m m' := by
  cases hpayload : inner.value.payload value with
  | error e =>
    rcases run_bind.1 h with ⟨u, m₁, hopen, hlocked⟩ | ⟨e', hopen, rfl⟩
    · obtain ⟨-, rfl⟩ := run_ensureOpen.1 hopen
      obtain ⟨-, m₂, hb, rfl⟩ := run_withWriteLock.1 hlocked
      rw [hpayload] at hb
      rcases run_bind.1 hb with ⟨payload, m₃, hp, -⟩ | ⟨e', hp, rfl⟩
      · cases (run_ofExcept.1 hp).1
      · rw [(run_ofExcept.1 hp).2]
        exact .inr ⟨by simp, rfl, rfl⟩
    · rw [(run_ensureOpen.1 hopen).2]
      exact .inr ⟨by simp, .refl _⟩
  | ok payload =>
    refine .inl ⟨payload, rfl, ?_⟩
    by_cases deferred : isDeferred inner = true
    · refine wrote_of_body h fun m₁ hb => ?_
      rw [hpayload, deferred] at hb
      rcases run_bind.1 hb with ⟨p, m₂, hp, hrest⟩ | ⟨e, hp, -⟩
      · obtain ⟨hsame, rfl⟩ := run_ofExcept.1 hp
        obtain rfl := Except.ok.inj hsame
        have clean' : Clean m.mem.lock := clean
        exact staging_wrote (touches_touchIndex _) (touches_noteInline _ _) (touches_announce _)
          deferred clean' lazy hrest
      · cases (run_ofExcept.1 hp).1
    · have immediate : isDeferred inner = false := by simpa using deferred
      cases r with
      | error e => exact .inr (.inr ⟨by simp, (putBy_error immediate clean h).storeKept⟩)
      | ok u =>
        refine wrote_of_body h fun m₁ hb => .inl ⟨rfl, ?_⟩
        obtain ⟨p, m₂, hp, hrest⟩ := run_bind_ok.1 hb
        obtain ⟨hsame, rfl⟩ := run_ofExcept.1 hp
        rw [hpayload] at hsame
        obtain rfl := Except.ok.inj hsame
        rw [immediate, if_neg Bool.false_ne_true, run_read_bind] at hrest
        have clean' : Clean m.mem.lock := clean
        have nil : m.mem.lock.res.staged = [] := idle immediate
        rw [nil, List.nil_append]
        exact landing_put (touches_touchIndex _)
          (touches_noteInline _ _) (touches_announce _) (rfl : accounting [.put key p] = _) (builds_put key p _) clean' nil hrest

theorem deleteBy_wrote {key : Bytes} (h : Run Served (LazyLocker.deleteBy inner key) m r m') :
    WriteLeft inner m (.delete key) r m' := by
  by_cases deferred : isDeferred inner = true
  · refine wrote_of_body h fun m₁ hb => ?_
    rw [deferred] at hb
    have clean' : Clean m.mem.lock := clean
    exact staging_wrote (touches_touchIndex _) (touches_noteInline _ _) (touches_announce _)
      deferred clean' lazy hb
  · have immediate : isDeferred inner = false := by simpa using deferred
    cases r with
    | error e => exact .inr (.inr ⟨by simp, (deleteBy_error immediate clean h).storeKept⟩)
    | ok u =>
      refine wrote_of_body h fun m₁ hb => .inl ⟨rfl, ?_⟩
      rw [immediate, if_neg Bool.false_ne_true, run_read_bind] at hb
      have clean' : Clean m.mem.lock := clean
      have nil : m.mem.lock.res.staged = [] := idle immediate
      rw [nil, List.nil_append]
      exact landing_put (touches_touchIndex _)
        (touches_noteInline _ _) (touches_announce _) (rfl : accounting [.delete key] = _) (builds_delete key _) clean' nil hb

theorem clear_wrote (h : Run Served (LazyLocker.clear inner) m r m') : WriteLeft inner m .clear r m' := by
  by_cases deferred : isDeferred inner = true
  · refine wrote_of_body h fun m₁ hb => ?_
    rw [deferred] at hb
    have clean' : Clean m.mem.lock := clean
    exact staging_wrote (touches_touchIndex _) touches_forgetInline (touches_announce _)
      deferred clean' lazy hb
  · have immediate : isDeferred inner = false := by simpa using deferred
    cases r with
    | error e => exact .inr (.inr ⟨by simp, (clear_error immediate clean h).storeKept⟩)
    | ok u =>
      refine wrote_of_body h fun m₁ hb => .inl ⟨rfl, ?_⟩
      rw [immediate, if_neg Bool.false_ne_true] at hb
      have clean' : Clean m.mem.lock := clean
      have nil : m.mem.lock.res.staged = [] := idle immediate
      rw [nil, List.nil_append]
      exact landing_put (touches_touchIndex _)
        touches_forgetInline (touches_announce _) (rfl : accounting [.clear] = _) builds_clear clean' nil hb

end

/-! ## Batches of writes -/

theorem transact_took {body : TxBody T} {r : Except Error Unit} (clean : Clean m.mem)
    (h : Run Served (LazyLocker.transact inner body) m r m') : Took inner m body r m' := by
  cases r with
  | error e => exact .inl ⟨by simp, (lazyTransact_error clean h).storeKept⟩
  | ok u =>
    obtain ⟨u, m₁, hopen, h₁⟩ := run_bind_ok.1 h
    obtain ⟨-, rfl⟩ := run_ensureOpen.1 hopen
    obtain ⟨-, m₂, hb, rfl⟩ := run_withWriteLock.1 h₁
    obtain ⟨own, m₃, hbody, hrest⟩ := run_bind_ok.1 hb
    obtain rfl := (reads_txBody inner body []).run hbody
    refine .inr ⟨own, hbody, ?_⟩
    split at hrest
    · next hempty =>
      obtain ⟨-, rfl⟩ := run_pure.1 hrest
      exact .inr ⟨rfl, List.isEmpty_iff.1 hempty, rfl, rfl⟩
    · obtain ⟨before, m₄, htake, h₂⟩ := run_bind_ok.1 hrest
      obtain ⟨he, rfl⟩ := run_takeStaged.1 htake
      obtain rfl := Except.ok.inj he
      obtain ⟨m₅, hguarded, rfl⟩ := run_guarded.1 h₂
      obtain ⟨⟨ops, budget⟩, m₆, hbuild, hafter⟩ := batch_ok hguarded
      have drained : Clean (m₁.mem.lock.mapRes .drain) := clean
      obtain ⟨⟨s, d, rfl⟩, stores⟩ :=
        batch_stores (m := ⟨m₁.dev, m₁.mem.lock.mapRes .drain⟩) drained hbuild
      simp only [run_update_bind, run_update] at hafter
      obtain ⟨-, rfl⟩ := hafter
      refine .inl ⟨rfl, _, stores.congr rfl rfl rfl, ?_⟩
      exact (staged_applyBudget budget _).trans rfl

/-- What a flush leaves, whatever the backend says to it. -/
theorem flush_flushed {r : Except Error Unit} (clean : Clean m.mem) (lazy : IsLazy m.mem)
    (h : Run Served (LazyLocker.flush inner) m r m') : Flushed inner m r m' := by
  obtain ⟨flushed, m₁, hflush, hrest⟩ := run_attempt_bind.1 h
  obtain ⟨forced, m₂, hforce, hends⟩ := run_attempt_bind.1 hrest
  obtain rfl := EagerLocker.run_flushBackend hforce
  obtain ⟨hr, rfl⟩ : (r = .ok () → flushed = .ok ()) ∧ m' = m₂ := by
    rcases run_bind.1 hends with ⟨_, m₃, hfirst, hsecond⟩ | ⟨e, hfirst, rfl⟩
    · obtain ⟨same, rfl⟩ := run_ofExcept.1 hfirst
      exact ⟨fun _ => same.symm, (run_ofExcept.1 hsecond).2⟩
    · exact ⟨by simp, (run_ofExcept.1 hfirst).2⟩
  rcases residentFlush_flushed clean lazy hflush with put | ⟨nil, kept⟩
  · exact .inl put
  · exact .inr ⟨fun ok => nil (hr ok), kept⟩

/-- What a close leaves: what a flush does. -/
theorem close_flushed {r : Except Error Unit} (clean : Clean m.mem) (lazy : IsLazy m.mem)
    (h : Run Served (LazyLocker.close inner) m r m') : Flushed inner m r m' := by
  obtain ⟨flushed, m₁, hflush, hrest⟩ := run_attempt_bind.1 h
  have flushes := residentFlush_flushed clean lazy hflush
  -- What follows the flush commits nothing, and discards what is staged if nothing is.
  have rest (m₂ : Machine Tables (Ram T)) (hrest : Run Served (do
      let forced ← inner.flushBackend.attempt
      Prog.update fun ram => { ram with closed := true }
      Prog.update (Ram.mapRes (·.touchIndex fun _ => ∅))
      Prog.update (Ram.mapRes Resident.forgetInline)
      Prog.ofExcept flushed
      Prog.ofExcept forced : Io (Ram T) Unit) m₂ r m') :
      (r = .ok () → flushed = .ok ()) ∧ StoreKept m₂ m' := by
    obtain ⟨forced, m₃, hforce, hends⟩ := run_attempt_bind.1 hrest
    obtain rfl := EagerLocker.run_flushBackend hforce
    simp only [run_update_bind] at hends
    rcases run_bind.1 hends with ⟨_, m₄, hfirst, hsecond⟩ | ⟨e, hfirst, rfl⟩
    · obtain ⟨same, rfl⟩ := run_ofExcept.1 hfirst
      rw [(run_ofExcept.1 hsecond).2]
      exact ⟨fun _ => same.symm, rfl, rfl⟩
    · rw [(run_ofExcept.1 hfirst).2]
      exact ⟨by simp, rfl, rfl⟩
  cases flushed with
  | error e =>
    obtain ⟨hr, kept⟩ := rest m₁ hrest
    rcases flushes with ⟨lost, stores, nil⟩ | ⟨-, kept'⟩
    · exact .inl ⟨lost, kept.dev ▸ stores, kept.staged.trans nil⟩
    · refine .inr ⟨fun ok => ?_, kept.dev.trans kept'.dev, kept.staged.trans kept'.staged⟩
      cases hr ok
  | ok u =>
    obtain ⟨-, kept⟩ := rest _ hrest
    rcases flushes with ⟨lost, stores, -⟩ | ⟨nil, kept'⟩
    · exact .inl ⟨lost, kept.dev ▸ stores, kept.staged⟩
    · have empty : m.mem.res.staged = [] := nil rfl
      exact .inr ⟨fun _ => empty, kept.dev.trans kept'.dev, kept.staged.trans empty.symm⟩

/-! ## Evictions -/

/-- What sheds keys alone is a batch that writes none. -/
theorem laid_nil (inner : Inner T) (db : Tables) (s : Shared) :
    Laid inner db s [] [] s ⟨none, []⟩ where
  built := .nil
  cleared := rfl
  nodup := .nil
  gc := by simp
  does := by simp
  inlines := by simp
  all key := by
    rw [collapsed, show afterLastClear [] = [] by simp [afterLastClear]]
    simp [Batch.find, actionsOf]

theorem evictTo_evicted {bytes : Nat} {r : Except Error Nat}
    (h : Run Served (LazyLocker.evictTo inner bytes) m r m') : Evicted inner m m' := by
  cases r with
  | error e => exact .inl (evictTo_error h).storeKept
  | ok n =>
    obtain ⟨_, m₁, hopen, hevict⟩ := run_bind_ok.1 h
    obtain ⟨-, rfl⟩ := run_ensureOpen.1 hopen
    rw [Resident.evictTo, run_read_bind] at hevict
    split at hevict
    · exact .inl ((run_pure.1 hevict).2 ▸ .refl _)
    obtain ⟨-, m₂, hb, rfl⟩ := run_withWriteLock.1 hevict
    rw [run_read_bind] at hb
    cases hlru : m₁.mem.lock.res.lru with
    | none =>
      rw [hlru] at hb
      obtain ⟨-, rfl⟩ := run_pure.1 hb
      exact .inl ⟨rfl, rfl⟩
    | some state =>
      rw [hlru] at hb
      dsimp only at hb
      split at hb
      · obtain ⟨-, rfl⟩ := run_pure.1 hb
        exact .inl ⟨rfl, rfl⟩
      · obtain ⟨ops, m₃, hvictims, hcommit⟩ := run_bind_ok.1 hb
        obtain ⟨rfl, -, data, counter⟩ := victimOps_run hvictims
        obtain ⟨_, m₄, hlands, hafter⟩ := run_bind_ok.1 hcommit
        rcases run_innerCommit.1 hlands with ⟨-, rfl⟩ | ⟨e, he, -⟩
        · rw [run_update_bind] at hafter
          obtain ⟨-, rfl⟩ := run_pure.1 hafter
          have budgeted : m₁.mem.res.lru ≠ none := fun none => by
            rw [show m₁.mem.lock.res.lru = m₁.mem.res.lru from rfl, none] at hlru
            cases hlru
          refine .inr ⟨budgeted, staged_applyBudget _ _, (state.plan [] [] false bytes []).victims,
            ops, [], m₁.mem.shared, ⟨none, []⟩, laid_nil _ _ _, rfl, ?_, counter, ?_,
            fun v hv => rfl, fun none => absurd none budgeted⟩
          · rw [data, shedWrites, List.flatMap_map]
            rfl
          · unfold LruState.plan
            dsimp only
            split
            · exact .nil
            · refine (LruState.shed_sublist _ _ _).nodup ?_
              refine (((List.perm_insertionSort _ _).map _).nodup_iff).2 ?_
              exact (candidates_kept state [] [] false).nodup (nodup_keys_toList _)
        · cases he

end
end Crossbank
