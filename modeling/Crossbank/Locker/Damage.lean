import Crossbank.Locker.Effect

/-!
# Damage, and whom it blocks

A write first opens what it replaces, and what it sheds, to find the chunks to drop. A record that
looks like a pointer and is none makes the whole write fail.

* `WriteCall` : the calls that write; `WriteCall.commits` : the batch that a call commits;
* `WriteCall.opened`, `WriteCall.shed` : the keys that the call opens, and those that it sheds;
* `Inner.seen`, `Answers` : what a get returns;
* `WriteCall.Confined` : the call succeeds, and touches no key but those it writes and sheds;
* `WriteCall.confined_iff` : it does exactly when everything it opens can be opened.
-/

namespace Crossbank
open Async

/-- A call that writes, with the payload of the value it is given, or the writes its closure leaves. -/
inductive WriteCall (T : Type) where
  | put (key payload : Bytes) (value : T)
  | delete (key : Bytes)
  | clear
  | transact (body : TxBody T) (own : List (Staged T))
  | flush

/-- What a call commits: a batch, and whether the call first reads what the batch replaces. -/
structure CallCommit where
  batch : List Pending
  reads : Bool

/-- The keys that committing a batch will shed. -/
def Ram.shedsOf {T : Type} (ram : Ram T) (batch : List Pending) : List Bytes :=
  ram.sheds (accounting batch).updates (accounting batch).removals (accounting batch).cleared

namespace WriteCall
section
variable {T : Type} (inner : Inner T)

def prog : WriteCall T → Io (Ram T) Unit
  | put key _ value => LazyLocker.putBy inner key value
  | delete key => LazyLocker.deleteBy inner key
  | clear => LazyLocker.clear inner
  | transact body _ => LazyLocker.transact inner body
  | flush => LazyLocker.flush inner

def own : WriteCall T → List (Staged T)
  | put key payload value => [.put key payload value]
  | delete key => [.delete key]
  | clear => [.clear]
  | transact _ own => own
  | flush => []

/-- What a put, a delete or a clear commits: itself, or the batch that it fills. -/
def single (m : Machine Tables (Ram T)) (entry : Pending) (prior : Prior) : Option CallCommit :=
  match inner.config.deferredAfter with
  | none => some ⟨[entry], prior.needsRead⟩
  | some after =>
    if after ≤ (m.mem.res.staged ++ [entry]).length then
      some ⟨m.mem.res.staged ++ [entry], true⟩
    else none

def commits (m : Machine Tables (Ram T)) : WriteCall T → Option CallCommit
  | put key payload _ => single inner m (.put key payload) (m.mem.prior key)
  | delete key => single inner m (.delete key) (m.mem.prior key)
  | clear => single inner m .clear .absent
  | transact _ own =>
    if own.isEmpty then none else some ⟨mergeBatches m.mem.res.staged own, true⟩
  | flush => if m.mem.res.staged.isEmpty then none else some ⟨m.mem.res.staged, true⟩

def shed (m : Machine Tables (Ram T)) (c : WriteCall T) : List Bytes :=
  match commits inner m c with
  | none => []
  | some commit => m.mem.shedsOf commit.batch

/-- The keys whose records the call opens: those that it writes, when it has to read them, and those
that it sheds. -/
def opened (m : Machine Tables (Ram T)) (c : WriteCall T) : List Bytes :=
  match commits inner m c with
  | none => []
  | some commit => (if commit.reads then (collapsed commit.batch).toList.map Prod.fst else []) ++
      m.mem.shedsOf commit.batch

end
end WriteCall

section
variable {T : Type} (inner : Inner T)

/-- What a get answers on an open locker: what is staged, else what is stored. -/
def Inner.seen (m : Machine Tables (Ram T)) (key : Bytes) : Except Error (Option T) :=
  match stagedView m.mem.res.staged key with
  | some write => inner.valueOfWrite write
  | none => inner.valueStored m.dev key

def Answers (m : Machine Tables (Ram T)) (key : Bytes) (r : Except Error (Option T)) : Prop :=
  ∃ m', Run Answered (LazyLocker.getBy inner key) m r m'

/-- The value that the last write to a key leaves: `none` when nothing has touched it, `some none` when
the last thing removed it. -/
def lastWrite {T : Type} (own : List (Staged T)) (key : Bytes) : Option (Option T) :=
  own.reverse.findSome? fun
    | .put k _ value => if k = key then some (some value) else none
    | .delete k => if k = key then some none else none
    | .clear => some none

/-- What committing a batch takes, besides: the chain seals each payload, and it is of a length that
can be read back; the bank has the value ids and, for a byte budget, a tick left; and a walk of the
locker ends. -/
structure Affords (m : Machine Tables (Ram T)) (batch : List Pending) : Prop where
  storable : ∀ key payload, .put key payload ∈ batch → inner.Storable payload FLAG_POSTCARD
  small : ∀ key payload, .put key payload ∈ batch → payload.length ≤ MAX_DECODED_BYTES
  ids : IdsLeft m.dev (collapsed batch).toList.length m.mem.shared
  clock : m.mem.res.lru.isSome = true → ClockRuns m
  fuel : (inner.entries m.dev .unbounded .unbounded).length < inner.backend.walkFuel

end

/-! ## What a get answers -/

section
variable {T : Type} {inner : Inner T} {m m' : Machine Tables (Ram T)} {key : Bytes}

/-- A get answers what is seen, once the read is noted. -/
theorem answers_iff (open_ : m.mem.closed = false)
    (clock : m.mem.res.lru.isSome = true → ClockRuns m) {r : Except Error (Option T)} :
    Answers inner m key r ↔ r = inner.seen m key := by
  have hget : ∃ m', Run Answered (LazyLocker.getBy inner key) m (inner.seen m key) m' := by
    unfold Inner.seen
    simp only [getBy_iff open_]
    cases stagedView m.mem.res.staged key with
    | some write =>
      cases write with
      | none => exact ⟨m, run_pure.2 ⟨rfl, rfl⟩⟩
      | some payload => exact ⟨m, run_ofExcept.2 ⟨rfl, rfl⟩⟩
    | none =>
      dsimp only
      obtain ⟨m₁, hload, hsame⟩ : ∃ m₁, Run Answered (LazyLocker.loadAndNote inner key) m
          (inner.valueStored m.dev key) m₁ ∧
          ((∃ found, inner.valueStored m.dev key = .ok found) → m₁ = m) := loadAndNote_eval
      cases hstored : inner.valueStored m.dev key with
      | error e =>
        rw [hstored] at hload
        exact ⟨m₁, run_bind.2 (.inr ⟨e, hload, rfl⟩)⟩
      | ok found =>
        rw [hstored] at hload
        obtain rfl := hsame ⟨found, hstored⟩
        cases found with
        | none => exact ⟨m₁, run_bind.2 (.inl ⟨none, m₁, hload, run_pure.2 ⟨rfl, rfl⟩⟩)⟩
        | some v =>
          obtain ⟨m₂, hnote⟩ := noteRead_iff.2 clock
          exact ⟨m₂, run_bind.2 (.inl ⟨some v, m₁, hload,
            run_bind.2 (.inl ⟨(), m₂, hnote, run_pure.2 ⟨rfl, rfl⟩⟩)⟩)⟩
  constructor
  · rintro ⟨m₁, h⟩
    obtain ⟨m₂, h₂⟩ := hget
    exact (Run.det Answered.one h h₂).1
  · rintro rfl
    exact hget

/-- The last write of a list, as a payload and as a value. -/
theorem stagedView_eq_lastWrite (key : Bytes) (inverts : inner.value.Inverts) {own : List (Staged T)}
    (serialised : ∀ entry ∈ own, entry.Serialised inner) :
    match lastWrite own key with
    | none => stagedView (own.map Staged.pending) key = none
    | some v => ∃ write, stagedView (own.map Staged.pending) key = some write ∧
        inner.valueOfWrite write = .ok v := by
  induction own using List.reverseRecOn with
  | nil => rfl
  | append_singleton own last ih =>
    have ih := ih fun entry he => serialised entry (List.mem_append_left _ he)
    have hlast : lastWrite (own ++ [last]) key = (lastWrite [last] key).or (lastWrite own key) := by
      simp only [lastWrite, List.reverse_append, List.findSome?_append]
    have hserialised := serialised last (List.mem_append_right _ List.mem_cons_self)
    rw [List.map_append, List.map_singleton, stagedView_concat, hlast]
    cases last with
    | put k payload value =>
      by_cases hk : k = key
      · have hone : lastWrite [.put k payload value] key = some (some value) := by
          simp [lastWrite, hk]
        have hvalue : inner.value.ofPayload payload = .ok value :=
          ofPayload_of_payload inverts hserialised
        rw [hone, Option.some_or]
        refine ⟨some payload, by simp [Staged.pending, Pending.effect, hk], ?_⟩
        rw [Inner.valueOfWrite, hvalue]
        rfl
      · have hone : lastWrite [.put k payload value] key = none := by simp [lastWrite, hk]
        rw [hone, Option.none_or]
        simpa [Staged.pending, Pending.effect, hk] using ih
    | delete k =>
      by_cases hk : k = key
      · have hone : lastWrite [(.delete k : Staged T)] key = some none := by simp [lastWrite, hk]
        rw [hone, Option.some_or]
        exact ⟨none, by simp [Staged.pending, Pending.effect, hk], rfl⟩
      · have hone : lastWrite [(.delete k : Staged T)] key = none := by simp [lastWrite, hk]
        rw [hone, Option.none_or]
        simpa [Staged.pending, Pending.effect, hk] using ih
    | clear =>
      have hone : lastWrite [(.clear : Staged T)] key = some none := rfl
      rw [hone, Option.some_or]
      exact ⟨none, by simp [Staged.pending, Pending.effect], rfl⟩

end
/-! ## Building a commit -/

section
variable {T : Type} {inner : Inner T} {m m' : Machine Tables (Ram T)} {commit : CallCommit}
  {build : Io (Ram T) (List Op)}

/-- The program builds the ops of the batch, and for that opens the keys it has to read. -/
structure Builds (inner : Inner T) (m : Machine Tables (Ram T)) (commit : CallCommit)
    (build : Io (Ram T) (List Op)) : Prop where
  answered : (commit.reads = true → ∀ e ∈ (collapsed commit.batch).toList,
      inner.Opens m.dev e.1) → Affords inner m commit.batch →
    ∃ ops s', Run Answered build m (.ok ops) ⟨m.dev, (sharedPart T).set s' m.mem⟩ ∧
      s'.ticks = m.mem.shared.ticks
  opens : ∀ ops m₁, Run Served build m (.ok ops) m₁ → commit.reads = true →
    ∀ e ∈ (collapsed commit.batch).toList, inner.Opens m.dev e.1
  laid : ∀ ops m₁, Run Served build m (.ok ops) m₁ → ∃ s' b,
    m₁ = ⟨m.dev, (sharedPart T).set s' m.mem⟩ ∧
      Laid inner m.dev m.mem.shared commit.batch ops s' b

theorem mem_singleton_actions {key : Bytes} {action : Action} {e : Bytes × Action}
    (h : e ∈ ((∅ : Std.ExtTreeMap Bytes Action compare).insert key action).toList) : e.1 = key := by
  have hget := Std.ExtTreeMap.mem_toList_iff_getElem?_eq_some.1 h
  rw [Std.ExtTreeMap.getElem?_insert] at hget
  split at hget
  · next heq => exact (by simpa using heq : key = e.1).symm
  · simp at hget

theorem mem_singleton_self (key : Bytes) (action : Action) :
    (key, action) ∈ ((∅ : Std.ExtTreeMap Bytes Action compare).insert key action).toList := by
  rw [Std.ExtTreeMap.mem_toList_iff_getElem?_eq_some]
  simp

theorem builds_put (key payload : Bytes) (prior : Prior) :
    Builds inner m ⟨[.put key payload], prior.needsRead⟩
      ((inner.putPayloadOps key payload FLAG_POSTCARD prior).zoom (sharedPart T)) where
  answered opens affords := by
    have hone := collapsed_singleton_put key payload
    have ids : IdsLeft m.dev (0 + 1) m.mem.shared := by
      refine affords.ids.mono ?_
      rw [hone, Std.ExtTreeMap.length_toList, Std.ExtTreeMap.size_insert]
      simp
    obtain ⟨ops, s', hops, -, hticks⟩ := answered_putPayloadOps (fun hread => by
      rw [hone] at opens
      exact opens hread _ (mem_singleton_self key _))
      (affords.storable key payload List.mem_cons_self) ids
    exact ⟨ops, s', (run_zoom (fun q m x m' hq => answered_zoom (sharedPart T) hq)
      (draws_putPayloadOps inner key payload FLAG_POSTCARD prior)).2 ⟨_, hops, rfl⟩, hticks⟩
  opens ops m₁ run hread e he := by
    obtain ⟨n, hrun, -⟩ := (draws_putPayloadOps inner key payload FLAG_POSTCARD prior).run_zoom_iff.1 run
    rw [collapsed_singleton_put] at he
    rw [mem_singleton_actions he]
    exact opens_of_putPayloadOps hrun hread
  laid ops m₁ run := by
    obtain ⟨n, hrun, rfl⟩ := (draws_putPayloadOps inner key payload FLAG_POSTCARD prior).run_zoom_iff.1 run
    obtain ⟨s', b, rfl, hlaid⟩ := putPayloadOps_laid hrun
    exact ⟨s', b, rfl, hlaid⟩

theorem builds_delete (key : Bytes) (prior : Prior) :
    Builds inner m ⟨[.delete key], prior.needsRead⟩ (inner.deleteValueOps key prior) where
  answered opens _ := by
    rw [collapsed_singleton_delete] at opens
    obtain ⟨ops, hops⟩ : ∃ ops, Run Answered (inner.deleteValueOps key prior) m (.ok ops) m :=
      answered_deleteValueOps fun hread => opens hread _ (mem_singleton_self key _)
    exact ⟨ops, m.mem.shared, hops, rfl⟩
  opens ops m₁ run hread e he := by
    rw [collapsed_singleton_delete] at he
    rw [mem_singleton_actions he]
    exact opens_of_deleteValueOps run hread
  laid ops m₁ run := by
    obtain ⟨rfl, b, hlaid⟩ := deleteValueOps_laid (s := m.mem.shared) run
    exact ⟨m₁.mem.shared, b, rfl, hlaid⟩

theorem builds_clear : Builds inner m ⟨[.clear], false⟩ inner.clearValueOps where
  answered _ affords := by
    obtain ⟨ops, hops⟩ : ∃ ops, Run Answered inner.clearValueOps m (.ok ops) m :=
      answered_clearValueOps affords.fuel
    exact ⟨ops, m.mem.shared, hops, rfl⟩
  opens ops m₁ run hread := by cases hread
  laid ops m₁ run := by
    obtain ⟨rfl, b, hlaid⟩ := clearValueOps_laid (s := m.mem.shared) run
    exact ⟨m₁.mem.shared, b, rfl, hlaid⟩

theorem builds_batch (batch : List Pending) :
    Builds inner m ⟨batch, true⟩
      ((opsForPending inner batch .lazy).zoom (sharedPart T)) where
  answered opens affords := by
    obtain ⟨ops, s', hops, hticks⟩ := answered_opsForItems (opens rfl)
      affords.storable affords.ids affords.fuel
    exact ⟨ops, s', (run_zoom (fun q m x m' hq => answered_zoom (sharedPart T) hq)
      (draws_opsForItems inner batch .lazy)).2 ⟨_, hops, rfl⟩, hticks⟩
  opens ops m₁ run _ e he := by
    obtain ⟨n, hrun, -⟩ := (draws_opsForItems inner batch .lazy).run_zoom_iff.1 run
    exact opens_of_opsForItems hrun e he
  laid ops m₁ run := by
    obtain ⟨n, hrun, rfl⟩ := (draws_opsForItems inner batch .lazy).run_zoom_iff.1 run
    obtain ⟨s', b, rfl, hlaid⟩ := opsForItems_laid hrun
    exact ⟨s', b, rfl, hlaid⟩

/-! ## Landing a commit -/

/-- The ops of a batch, with those of the byte budget. -/
def reckon (inner : Inner T) (build : Io (Ram T) (List Op)) (batch : List Pending) :
    Io (Ram T) (List Op × Budget) := do
  let ops ← build
  budgetOps inner ops (accounting batch).updates (accounting batch).removals
    (accounting batch).cleared ((accounting batch).updates.map Prod.fst)

/-- The ops write the batch, and shed what a commit of it sheds. -/
def LandsBatch (inner : Inner T) (m : Machine Tables (Ram T)) (batch : List Pending) (ops : List Op) :
    Prop :=
  ∃ built s' b, Laid inner m.dev m.mem.shared batch built s' b ∧
    dataOps ops = dataOps built ++
      (shedWrites inner m.dev (m.mem.shedsOf batch)).flatMap (KeyWrite.ops inner) ∧
    written ops .meta META_NEXT_VALUE_ID = written built .meta META_NEXT_VALUE_ID

theorem LandsBatch.valueStored {batch : List Pending} {ops : List Op} (lands : LandsBatch inner m batch ops)
    (inverts : inner.chain.Inverts) (apart : Apart m.dev (idCursor m.dev m.mem.shared))
    (small : ∀ key payload, .put key payload ∈ batch → payload.length ≤ MAX_DECODED_BYTES)
    (key : Bytes) : inner.valueStored (m.dev.commit ops) key =
      if key ∈ m.mem.shedsOf batch then .ok none
      else match stagedView batch key with
        | some write => inner.valueOfWrite write
        | none => inner.valueStored m.dev key := by
  obtain ⟨built, s', b, laid, data, counter⟩ := lands
  exact laid.valueStored small (fun v hv => not_touched_of_sheds hv) inverts apart sheds_nodup data
    counter key

theorem reckon_run {x : List Op × Budget} (builds : Builds inner m commit build) (clean : Clean m.mem)
    (run : Run Served (reckon inner build commit.batch) m (.ok x) m') :
    LandsBatch inner m commit.batch x.1 ∧ Unmoved m m' ∧
      (commit.reads = true → ∀ e ∈ (collapsed commit.batch).toList, inner.Opens m.dev e.1) ∧
      ∀ v ∈ m.mem.shedsOf commit.batch, inner.Opens m.dev v := by
  obtain ⟨ops, m₁, hbuild, hbudget⟩ := run_bind_ok.1 run
  have hopens := builds.opens ops m₁ hbuild
  obtain ⟨s', b, rfl, laid⟩ := builds.laid ops m₁ hbuild
  obtain ⟨more, budget⟩ := x
  have clean' : Clean ((sharedPart T).set s' m.mem) := clean
  obtain ⟨-, hshed, hdata, hcounter⟩ := budgetOps_sheds (m := ⟨m.dev, (sharedPart T).set s' m.mem⟩)
    clean' hbudget
  have hunmoved : Unmoved m ⟨m.dev, (sharedPart T).set s' m.mem⟩ := ⟨s', _, rfl⟩
  exact ⟨⟨ops, s', b, laid, hdata, hcounter⟩, hunmoved.trans (budgetOps_unmoved clean' hbudget), hopens,
    hshed⟩

theorem Affords.congr {batch : List Pending} (h : Affords inner m batch) (dev : m'.dev = m.dev)
    (shared : m'.mem.shared = m.mem.shared) (lru : m'.mem.res.lru = m.mem.res.lru) :
    Affords inner m' batch where
  storable := h.storable
  small := h.small
  ids := by
    rw [dev, shared]
    exact h.ids
  clock hsome := by
    rw [lru] at hsome
    exact clockRuns_congr (by rw [shared]) (by rw [dev]) (h.clock hsome)
  fuel := by
    rw [dev]
    exact h.fuel

theorem shedsOf_congr {ram ram' : Ram T} (lru : ram'.res.lru = ram.res.lru) (batch : List Pending) :
    ram'.shedsOf batch = ram.shedsOf batch := by
  unfold Ram.shedsOf Ram.sheds
  rw [lru]

theorem LandsBatch.congr {batch : List Pending} {ops : List Op} (h : LandsBatch inner m batch ops)
    (dev : m'.dev = m.dev) (shared : m'.mem.shared = m.mem.shared)
    (lru : m'.mem.res.lru = m.mem.res.lru) : LandsBatch inner m' batch ops := by
  unfold LandsBatch
  rw [dev, shared, shedsOf_congr lru]
  exact h

/-- The locker is open, over that store, with those writes staged. -/
def Ended (db : Tables) (staged : List Pending) (m : Machine Tables (Ram T)) : Prop :=
  m.dev = db ∧ m.mem.res.staged = staged ∧ m.mem.closed = false

/-- The change of memory is none that a commit looks at. -/
def Touches (f : Ram T → Ram T) : Prop :=
  ∀ ram, (f ram).res.core = ram.res.core ∧ (f ram).shared = ram.shared ∧ (f ram).closed = ram.closed

theorem Touches.comp {f g : Ram T → Ram T} (hg : Touches g) (hf : Touches f) :
    Touches fun ram => g (f ram) := by
  intro ram
  obtain ⟨hcore, hshared, hclosed⟩ := hf ram
  obtain ⟨hcore', hshared', hclosed'⟩ := hg (f ram)
  exact ⟨hcore'.trans hcore, hshared'.trans hshared, hclosed'.trans hclosed⟩

theorem Touches.ended {f : Ram T → Ram T} (hf : Touches f) {db : Tables} {staged : List Pending}
    (h : Ended db staged m) : Ended db staged ⟨m.dev, f m.mem⟩ := by
  obtain ⟨hdev, hstaged, hclosed⟩ := h
  obtain ⟨hcore, -, hsame⟩ := hf m.mem
  have hkeep : (f m.mem).res.staged = m.mem.res.staged := (Prod.mk.inj (Prod.mk.inj hcore).2).2
  exact ⟨hdev, hkeep.trans hstaged, hsame.trans hclosed⟩

theorem ended_applyBudget {budget : Budget} {db : Tables} {staged : List Pending}
    (h : Ended db staged m) : Ended db staged ⟨m.dev, applyBudget budget m.mem⟩ := by
  obtain ⟨hdev, hstaged, hclosed⟩ := h
  refine ⟨hdev, ?_, hclosed⟩
  unfold applyBudget
  dsimp only
  have hcore := foldl_noteInline_core budget.plan.victims (Resident.touchIndex
    (fun index => budget.plan.victims.foldl (fun i victim => i.erase victim) index)
    { m.mem.res with lru := (m.mem.res.lru.map (LruState.apply budget.updates budget.removals
        budget.cleared budget.plan)).map (LruState.clearPending budget.pending) })
  exact ((Prod.mk.inj (Prod.mk.inj hcore).2).2).trans hstaged

theorem ended_of_unmoved {ops : List Op} (h : Unmoved m m')
    (open_ : m.mem.closed = false) :
    Ended (m.dev.commit ops) m.mem.res.staged ⟨m'.dev.commit ops, m'.mem⟩ := by
  obtain ⟨s, d, rfl⟩ := h
  exact ⟨rfl, rfl, open_⟩

section
variable (builds : Builds inner m commit build) (clean : Clean m.mem) (open_ : m.mem.closed = false)
  (affords : Affords inner m commit.batch)
  (opens : commit.reads = true → ∀ e ∈ (collapsed commit.batch).toList, inner.Opens m.dev e.1)
  (shed : ∀ v ∈ m.mem.shedsOf commit.batch, inner.Opens m.dev v)
include builds clean open_ affords opens shed

end

/-- What a call leaves: its writes staged, or committed with what was staged before. -/
def WriteCall.Done (inner : Inner T) (m : Machine Tables (Ram T)) (c : WriteCall T)
    (m' : Machine Tables (Ram T)) : Prop :=
  match c.commits inner m with
  | none => Ended m.dev (m.mem.res.staged ++ c.own.map Staged.pending) m'
  | some commit => ∃ ops, LandsBatch inner m commit.batch ops ∧ Ended (m.dev.commit ops) [] m'

theorem WriteCall.done_none {c : WriteCall T} (h : c.commits inner m = none) :
    c.Done inner m m' ↔ Ended m.dev (m.mem.res.staged ++ c.own.map Staged.pending) m' := by
  unfold WriteCall.Done
  rw [h]

theorem WriteCall.done_some {c : WriteCall T} (h : c.commits inner m = some commit) :
    c.Done inner m m' ↔ ∃ ops, LandsBatch inner m commit.batch ops ∧ Ended (m.dev.commit ops) [] m' := by
  unfold WriteCall.Done
  rw [h]

/-- What a put, a delete or a clear leaves. -/
def Singles.Done (inner : Inner T) (m : Machine Tables (Ram T)) (entry : Pending) (prior : Prior)
    (m' : Machine Tables (Ram T)) : Prop :=
  match WriteCall.single inner m entry prior with
  | none => Ended m.dev (m.mem.res.staged ++ [entry]) m'
  | some commit => ∃ ops, LandsBatch inner m commit.batch ops ∧ Ended (m.dev.commit ops) [] m'

section
variable {entry : Pending} {prior : Prior} {f g k : Ram T → Ram T} (hf : Touches f) (hg : Touches g)
  (hk : Touches k)
include hf hg hk

end

theorem touches_touchIndex (f : KeySet → KeySet) :
    Touches (Ram.mapRes (T := T) (·.touchIndex f)) := fun _ => ⟨rfl, rfl, rfl⟩

theorem touches_noteInline (key : Bytes) (inline : Bool) :
    Touches (Ram.mapRes (T := T) (·.noteInline key inline)) := fun _ => ⟨rfl, rfl, rfl⟩

theorem touches_forgetInline : Touches (Ram.mapRes (T := T) Resident.forgetInline) :=
  fun _ => ⟨rfl, rfl, rfl⟩

theorem touches_announce (event : Notice) : Touches (Ram.announce (T := T) event) :=
  fun _ => ⟨rfl, rfl, rfl⟩

section
variable {entry : Pending} {prior : Prior} {f g k : Ram T → Ram T} (hf : Touches f) (hg : Touches g)
  (hk : Touches k)
include hf hg hk

end

/-- A batch that a call commits is what was staged, and then what the call writes itself. -/
theorem WriteCall.batch_eq {c : WriteCall T} (idle : isDeferred inner = false → m.mem.res.staged = [])
    (hcommit : c.commits inner m = some commit) :
    commit.batch = m.mem.res.staged ++ c.own.map Staged.pending := by
  have hsingle (entry : Pending) (prior : Prior)
      (h : single inner m entry prior = some commit) :
      commit.batch = m.mem.res.staged ++ [entry] := by
    unfold single at h
    split at h
    · next hnone =>
      obtain rfl := Option.some.inj h
      rw [idle (by rw [isDeferred, hnone]; rfl), List.nil_append]
    · split at h
      · obtain rfl := Option.some.inj h
        rfl
      · cases h
  cases c with
  | put k payload value => exact hsingle _ _ hcommit
  | delete k => exact hsingle _ _ hcommit
  | clear => exact hsingle _ _ hcommit
  | transact body own =>
    dsimp only [commits] at hcommit
    split at hcommit
    · cases hcommit
    · obtain rfl := Option.some.inj hcommit
      rfl
  | flush =>
    dsimp only [commits] at hcommit
    split at hcommit
    · cases hcommit
    · obtain rfl := Option.some.inj hcommit
      exact (List.append_nil _).symm

theorem WriteCall.stagedView_batch {c : WriteCall T}
    (idle : isDeferred inner = false → m.mem.res.staged = [])
    (hcommit : c.commits inner m = some commit) (key : Bytes) :
    stagedView commit.batch key =
      (stagedView (c.own.map Staged.pending) key).or (stagedView m.mem.res.staged key) := by
  rw [batch_eq idle hcommit, stagedView_append]

theorem WriteCall.Done.seen {c : WriteCall T} (done : c.Done inner m m')
    (inverts : inner.chain.Inverts) (apart : Apart m.dev (idCursor m.dev m.mem.shared))
    (idle : isDeferred inner = false → m.mem.res.staged = [])
    (small : ∀ commit, c.commits inner m = some commit → ∀ key payload,
      .put key payload ∈ commit.batch → payload.length ≤ MAX_DECODED_BYTES)
    (key : Bytes) : m'.mem.closed = false ∧ inner.seen m' key =
      if key ∈ c.shed inner m then .ok none
      else match stagedView (c.own.map Staged.pending) key with
        | some write => inner.valueOfWrite write
        | none => inner.seen m key := by
  cases hcommit : c.commits inner m with
  | none =>
    obtain ⟨hdev, hstaged, hclosed⟩ := (WriteCall.done_none hcommit).1 done
    refine ⟨hclosed, ?_⟩
    have hshed : c.shed inner m = [] := by
      unfold WriteCall.shed
      rw [hcommit]
    rw [hshed, if_neg List.not_mem_nil]
    unfold Inner.seen
    rw [hstaged, stagedView_append, hdev]
    cases stagedView (c.own.map Staged.pending) key with
    | some write => rfl
    | none => rfl
  | some commit =>
    obtain ⟨ops, hlands, hdev, hstaged, hclosed⟩ := (WriteCall.done_some hcommit).1 done
    refine ⟨hclosed, ?_⟩
    have hshed : c.shed inner m = m.mem.shedsOf commit.batch := by
      unfold WriteCall.shed
      rw [hcommit]
    have hseen : inner.seen m' key = inner.valueStored (m.dev.commit ops) key := by
      unfold Inner.seen
      rw [hstaged, hdev]
      rfl
    rw [hseen, hshed, hlands.valueStored inverts apart (small commit hcommit) key]
    by_cases hmem : key ∈ m.mem.shedsOf commit.batch
    · rw [if_pos hmem, if_pos hmem]
    · rw [if_neg hmem, if_neg hmem, WriteCall.stagedView_batch idle hcommit key]
      unfold Inner.seen
      cases stagedView (c.own.map Staged.pending) key with
      | some write => rfl
      | none => rfl

end

/-! ## A truncated pointer -/

end Crossbank
