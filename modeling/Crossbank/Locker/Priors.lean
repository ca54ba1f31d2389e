import Crossbank.Coherence.Lazy
import Crossbank.Locker.Batch
import Crossbank.Locker.Ledger

/-!
# The read that a write skips

Before a write a locker reads the record that it replaces, for the chunks to collect, unless its index
or its marks of inline records prove that there are none.

* `Charted` : the index is what is stored, and a record that is marked inline is no pointer;
* `SameKeys` : what a call that writes no record leaves;
* `Settles` : what a call leaves whose commit has landed;
* `LazyCall.charted` : a call of an immediate locker keeps its charts;
* `LazyLocker.Alone` : the runs of an open locker that nobody else writes;
* `skips_alike` : a write that skips the read builds what one that reads builds.
-/

namespace Crossbank
open Async

section
variable {T : Type} (inner : Inner T)

/-- The index is the keys of the stored records, and a record that is marked inline is no pointer. -/
structure Charted (m : Machine Tables (Ram T)) : Prop where
  index : ∃ index : KeySet, m.mem.res.index = some index ∧
    ∀ key, key ∈ index ↔ (m.dev.lookup .records (inner.encodeKey key)).isSome = true
  inline : ∀ known, m.mem.res.knownInline = some known → ∀ key ∈ known, ∀ raw,
    m.dev.lookup .records (inner.encodeKey key) = some raw → isPointer raw = false

/-- No record of the locker is written, and nothing else is listed or marked. -/
structure SameKeys (m m' : Machine Tables (Ram T)) : Prop where
  record : ∀ key, m'.dev.lookup .records (inner.encodeKey key) =
    m.dev.lookup .records (inner.encodeKey key)
  index : m'.mem.res.index = m.mem.res.index
  known : m'.mem.res.knownInline = m.mem.res.knownInline

/-- What the commit `c` does to the index. -/
def LazyCommit.lists (c : LazyCommit T) (keys : KeySet) : KeySet :=
  c.budget.plan.victims.foldl (fun i victim => i.erase victim)
    (c.write.own.foldl Pending.applyToKeys keys)

/-- What it does to the marks of inline records. -/
def LazyCommit.marks (c : LazyCommit T) (known : KeySet) : KeySet :=
  c.budget.plan.victims.foldl (fun i victim => i.erase victim) (match c.write with
    | .put key _ inline => if inline then known.insert key else known.erase key
    | .delete key => known.erase key
    | .clear | .transact _ => ∅
    | .flush | .evict | .stream => known
    | .finish key => known.erase key)

/-- A commit has landed and is settled. What it marks inline it stores inline. -/
structure Settles (m m' : Machine Tables (Ram T)) (c : LazyCommit T) (ops : List Op) : Prop where
  builds : c.Builds inner ops
  before : c.before = []
  dev : m'.dev = m.dev.commit ops
  index : m'.mem.res.index = m.mem.res.index.map c.lists
  known : m'.mem.res.knownInline = m.mem.res.knownInline.map c.marks
  inline : ∀ key payload, c.write = .put key payload true → ∀ raw,
    written ops .records (inner.encodeKey key) = some (some raw) → isPointer raw = false

end

section
variable {T : Type} {inner : Inner T} {m m₁ m' : Machine Tables (Ram T)} {c : LazyCommit T}
  {ops : List Op}

/-! ## What is marked inline -/

theorem known_applyBudget (budget : Budget) (ram : Ram T) :
    (applyBudget budget ram).res.knownInline = ram.res.knownInline.map fun keys =>
      budget.plan.victims.foldl (fun i victim => i.erase victim) keys := by
  have hinline (r : Resident) (victims : List Bytes) :
      (victims.foldl (fun r victim => r.noteInline victim false) r).knownInline =
        r.knownInline.map fun keys => victims.foldl (fun i victim => i.erase victim) keys := by
    induction victims generalizing r with
    | nil => simp
    | cons victim rest ih =>
      rw [List.foldl_cons, ih, Resident.noteInline, Option.map_map]
      rfl
  unfold applyBudget
  dsimp only
  rw [hinline, Resident.touchIndex]

theorem known_settleLazy (c : LazyCommit T) (ram : Ram T)
    (shed : c.write.locks = false → c.budget.plan.victims = []) :
    (settleLazy c ram).res.knownInline = ram.res.knownInline.map c.marks := by
  have hbudget (f : KeySet → KeySet) {ram' : Ram T}
      (h : ram'.res.knownInline = ram.res.knownInline.map f) :
      (applyBudget c.budget ram').res.knownInline = ram.res.knownInline.map fun keys =>
        c.budget.plan.victims.foldl (fun i victim => i.erase victim) (f keys) := by
    rw [known_applyBudget, h, Option.map_map]
    rfl
  obtain ⟨write, before, budget⟩ := c
  unfold settleLazy LazyCommit.marks
  cases write with
  | put key payload inline =>
    exact hbudget (fun known => if inline then known.insert key else known.erase key) rfl
  | delete key => exact hbudget (·.erase key) rfl
  | clear => exact hbudget (fun _ => ∅) rfl
  | transact entries => exact hbudget (fun _ => ∅) rfl
  | flush => exact known_applyBudget budget ram
  | evict => exact known_applyBudget budget ram
  | stream =>
    dsimp only at shed ⊢
    rw [shed rfl]
    exact Option.map_id'.symm
  | finish key =>
    dsimp only at shed ⊢
    rw [shed rfl]
    rfl

/-- What a commit leaves marked it has stored inline, or it has not touched. -/
theorem mem_marks {known : KeySet} {key : Bytes} (h : key ∈ c.marks known) :
    key ∉ c.budget.plan.victims ∧ ((∃ payload, c.write = .put key payload true) ∨
      key ∈ known ∧ stagedView c.write.own key = none) := by
  obtain ⟨write, before, budget⟩ := c
  obtain ⟨spared, h⟩ := (mem_eraseAll _ _ key).1 h
  refine ⟨spared, ?_⟩
  have erased (k : Bytes) {entry : Pending} (hk : k ≠ key → entry.effect key = none)
      (h : key ∈ known.erase k) : key ∈ known ∧ stagedView [entry] key = none := by
    obtain ⟨hne, hmem⟩ := Std.ExtTreeSet.mem_erase.1 h
    refine ⟨hmem, ?_⟩
    rw [stagedView_one, hk (by simpa using hne)]
  cases write with
  | put k payload inline =>
    have other : k ≠ key → (Pending.put k payload).effect key = none := fun hne => if_neg hne
    cases inline with
    | true =>
      rcases Std.ExtTreeSet.mem_insert.1 h with heq | hmem
      · obtain rfl : k = key := by simpa using heq
        exact .inl ⟨payload, rfl⟩
      · by_cases hk : k = key
        · exact .inl ⟨payload, by rw [hk]⟩
        · exact .inr ⟨hmem, by rw [LazyWrite.own, stagedView_one, other hk]⟩
    | false => exact .inr (erased k other h)
  | delete k => exact .inr (erased k (fun hne => if_neg hne) h)
  | clear => exact absurd h Std.ExtTreeSet.not_mem_empty
  | transact entries => exact absurd h Std.ExtTreeSet.not_mem_empty
  | flush => exact .inr ⟨h, rfl⟩
  | evict => exact .inr ⟨h, rfl⟩
  | stream => exact .inr ⟨h, rfl⟩
  | finish k =>
    have other : k ≠ key → (Pending.put k []).effect key = none := fun hne => if_neg hne
    exact .inr (erased k other h)

/-! ## The charts -/

theorem SameKeys.refl (m : Machine Tables (Ram T)) : SameKeys inner m m := ⟨fun _ => rfl, rfl, rfl⟩

theorem SameKeys.trans (first : SameKeys inner m m₁) (second : SameKeys inner m₁ m') :
    SameKeys inner m m' where
  record key := (second.record key).trans (first.record key)
  index := second.index.trans first.index
  known := second.known.trans first.known

theorem Unmoved.sameKeys (h : Unmoved m m') : SameKeys inner m m' := by
  obtain ⟨s, d, rfl⟩ := h
  exact ⟨fun _ => rfl, rfl, rfl⟩

theorem Charted.same (charted : Charted inner m) (same : SameKeys inner m m') : Charted inner m' := by
  obtain ⟨⟨index, hindex, stored⟩, inline⟩ := charted
  refine ⟨⟨index, same.index.trans hindex, fun key => ?_⟩, fun known hknown key hkey raw hraw => ?_⟩
  · rw [same.record]
    exact stored key
  · exact inline known (same.known ▸ hknown) key hkey raw (same.record key ▸ hraw)

theorem Settles.of_settled (ram : Ram T) (builds : c.Builds inner ops) (before : c.before = [])
    (index : ram.res.index = m.mem.res.index) (known : ram.res.knownInline = m.mem.res.knownInline)
    (dev : m'.dev = m.dev.commit ops) (res : m'.mem.res = (settleLazy c ram).res)
    (inline : ∀ key payload, c.write = .put key payload true → ∀ raw,
      written ops .records (inner.encodeKey key) = some (some raw) → isPointer raw = false) :
    Settles inner m m' c ops where
  builds := builds
  before := before
  dev := dev
  index := by
    rw [res, index_settleLazy c ram builds.unbudgeted, index]
    rfl
  known := by rw [res, known_settleLazy c ram builds.unbudgeted, known]
  inline := inline

theorem Charted.settle (charted : Charted inner m) (settles : Settles inner m m' c ops) :
    Charted inner m' := by
  obtain ⟨⟨index, hindex, stored⟩, inline⟩ := charted
  have builds := settles.builds
  have isSome (key : Bytes) : (m'.dev.lookup .records (inner.encodeKey key)).isSome =
      if key ∈ c.budget.plan.victims then false
      else ((stagedView c.write.own key).map Option.isSome).getD
        (m.dev.lookup .records (inner.encodeKey key)).isSome := by
    have hrecord := builds.record key
    rw [LazyCommit.leaves, settles.before, stagedView_nil, Option.or_none] at hrecord
    rw [settles.dev, Tables.lookup_commit]
    cases hw : written ops .records (inner.encodeKey key) with
    | none =>
      rw [hw, Option.map_none] at hrecord
      split at hrecord
      · cases hrecord
      · next hv =>
        rw [if_neg hv, ← hrecord]
        rfl
    | some record =>
      rw [hw, Option.map_some] at hrecord
      split at hrecord
      · next hv =>
        rw [if_pos hv]
        exact Option.some.inj hrecord
      · next hv =>
        rw [if_neg hv, ← hrecord]
        rfl
  refine ⟨⟨c.lists index, settles.index.trans (by rw [hindex]; rfl), fun key => ?_⟩,
    fun known hknown key hkey raw hraw => ?_⟩
  · rw [isSome, LazyCommit.lists, mem_eraseAll, mem_applyToKeys, stored]
    by_cases hv : key ∈ c.budget.plan.victims
    · simp [hv]
    · rw [if_neg hv]
      cases (stagedView c.write.own key).map Option.isSome with
      | none => simp [hv]
      | some put => simp [hv]
  · rw [settles.known] at hknown
    obtain ⟨before, hbefore, rfl⟩ := Option.map_eq_some_iff.1 hknown
    obtain ⟨spared, hmark⟩ := mem_marks hkey
    have hrecord := builds.record key
    rw [if_neg spared, LazyCommit.leaves, settles.before, stagedView_nil, Option.or_none] at hrecord
    rw [settles.dev, Tables.lookup_commit] at hraw
    rcases hmark with ⟨payload, hput⟩ | ⟨hbefore', untouched⟩
    · -- The put stores its key, and stores it inline.
      cases hw : written ops .records (inner.encodeKey key) with
      | none =>
        rw [hw, hput, LazyWrite.own, stagedView_one] at hrecord
        simp [Pending.effect] at hrecord
      | some record =>
        rw [hw] at hraw
        exact settles.inline key payload hput raw (hw.trans (congrArg some hraw))
    · rw [untouched, Option.map_none, Option.map_eq_none_iff] at hrecord
      rw [hrecord] at hraw
      exact inline before hbefore key hbefore' raw hraw

/-! ## Calls that write no record -/

/-- The call commits no record, and leaves the index and the marks alone. -/
def SparesKeys {α : Type} (p : Io (Ram T) α) : Prop :=
  p.Only (fun q => ∀ ops options, q = .commit ops options → SparesRecords ops) fun s s' =>
    s'.res.index = s.res.index ∧ s'.res.knownInline = s.res.knownInline

section
variable {α β : Type} {p : Io (Ram T) α}

theorem SparesKeys.bind {f : α → Io (Ram T) β} (hp : SparesKeys p) (hf : ∀ a, SparesKeys (f a)) :
    SparesKeys (p >>= f) := Prog.Only.bind hp hf

theorem Reads.sparesKeys (hp : Reads p) : SparesKeys p := by
  refine Prog.Only.mono hp (fun q hq ops options heq => ?_) fun _ _ h => h.elim
  subst heq
  exact hq.elim

theorem Draws.sparesKeys {p : Io Shared α} (hp : Draws p) : SparesKeys (p.zoom (sharedPart T)) := by
  refine Prog.Only.mono (Prog.Only.zoom hp) (fun q hq ops options heq => ?_) ?_
  · subst heq
    exact hq.elim
  · rintro ram _ ⟨s, -, rfl⟩
    exact ⟨rfl, rfl⟩

theorem sparesKeys_read {f : Ram T → α} : SparesKeys (Prog.read f) :=
  Prog.only_read.2 fun _ => ⟨rfl, rfl⟩

theorem sparesKeys_commit {ops : List Op} (spares : SparesRecords ops) :
    SparesKeys (inner.commit ops : Io (Ram T) Unit) := by
  refine Backend.only_commitWith.2 fun ops' options heq => ?_
  obtain ⟨rfl, -⟩ := Req.commit.inj heq
  exact spares

theorem sparesKeys_ensureOpen : SparesKeys (Ram.ensureOpen : Io (Ram T) Unit) :=
  Prog.only_sync.2 fun _ => ⟨rfl, rfl⟩

theorem sparesKeys_noteRead {key : Bytes} : SparesKeys (noteRead key : Io (Ram T) Unit) := by
  unfold noteRead
  apply sparesKeys_read.bind
  intro isNone
  split
  · exact reads_pure.sparesKeys
  · exact draws_allocateTick.sparesKeys.bind fun tick => Prog.only_update.2 fun _ => ⟨rfl, rfl⟩

theorem sparesKeys_getBy {key : Bytes} : SparesKeys (LazyLocker.getBy inner key) := by
  unfold LazyLocker.getBy
  apply sparesKeys_ensureOpen.bind
  intro _
  apply sparesKeys_read.bind
  intro staged
  split
  · exact reads_pure.sparesKeys
  · exact reads_ofExcept.sparesKeys
  · refine SparesKeys.bind ?_ fun found => ?_
    · unfold LazyLocker.loadAndNote
      apply SparesKeys.bind (Prog.Only.attempt (reads_loadValue inner key).sparesKeys)
      intro x
      cases x with
      | ok found => exact reads_pure.sparesKeys
      | error e =>
        dsimp only
        split
        · exact SparesKeys.bind (Prog.only_update.2 fun _ => ⟨rfl, rfl⟩) fun _ => reads_fail.sparesKeys
        · exact reads_pure.sparesKeys.bind fun _ => reads_fail.sparesKeys
    · dsimp only
      split
      · exact sparesKeys_noteRead.bind fun _ => reads_pure.sparesKeys
      · exact reads_pure.sparesKeys.bind fun _ => reads_pure.sparesKeys

theorem sparesKeys_collect {start stop : Bound Bytes} {reverse : Bool} {limit : Option Nat} :
    SparesKeys (LazyLocker.collect inner start stop reverse limit) := by
  unfold LazyLocker.collect
  apply sparesKeys_read.bind
  intro staged
  apply (reads_walk inner _ _ _ _ _ _).sparesKeys.bind
  intro stored
  split
  · exact (reads_decodeEntries _).sparesKeys
  · exact (reads_decodeEntries _).sparesKeys

theorem sparesKeys_flushBackend : SparesKeys (inner.flushBackend : Io (Ram T) Unit) := by
  unfold Inner.flushBackend
  split
  · exact Backend.only_flush.2 fun _ _ heq => by cases heq
  · exact reads_pure.sparesKeys

theorem sparesKeys_flushPiece {w : Writer} {piece : Bytes} :
    SparesKeys (w.flushPiece inner piece) :=
  reads_ofExcept.sparesKeys.bind fun sealed => sparesKeys_commit fun key => by
    simp [written_cons, Op.written]

theorem sparesKeys_abort {w : Writer} : SparesKeys (w.abort inner) :=
  sparesKeys_commit (sparesRecords_gcOps _)

theorem sparesKeys_writeChunk {w : Writer} {bytes : Bytes} : SparesKeys (w.writeChunk inner bytes) := by
  have full (fuel : Nat) (w : Writer) : SparesKeys (w.flushFull inner fuel) := by
    induction fuel generalizing w with
    | zero => exact reads_stuck.sparesKeys
    | succ fuel ih =>
      unfold Writer.flushFull
      split
      · apply SparesKeys.bind (Prog.Only.attempt sparesKeys_flushPiece)
        intro x
        cases x with
        | ok => exact ih _
        | error e => exact reads_pure.sparesKeys
      · exact reads_pure.sparesKeys
  exact full _ _

theorem SparesKeys.same (hp : SparesKeys p) {r : Except Error α} (h : Run Served p m r m') :
    SameKeys inner m m' := by
  refine Prog.Only.run (I := SameKeys inner m) hp h (.refl m) (fun m₁ s same hs => ?_) ?_
  · exact same.trans ⟨fun _ => rfl, hs.1, hs.2⟩
  · intro m₁ q x m₂ same hq hs
    cases q with
    | get | getMany | scan => exact hs.1 ▸ same
    | commit ops options =>
      rcases hs with ⟨-, rfl⟩ | ⟨_, -, rfl⟩
      · refine same.trans ⟨fun key => ?_, rfl, rfl⟩
        show (m₁.dev.commit ops).lookup _ _ = _
        rw [Tables.lookup_commit, hq ops options rfl]
        rfl
      · exact same
    | flush | idle =>
      obtain rfl := hs
      exact same
    | lock =>
      obtain ⟨s, hs, rfl⟩ := hs
      simp only [WriteLock.acquire] at hs
      split at hs
      · cases hs
      · obtain rfl := Option.some.inj hs
        exact same.trans ⟨fun _ => rfl, rfl, rfl⟩

theorem sameKeys_writer {key : String} {r : Except Error Writer}
    (h : Run Served (LazyLocker.writer inner key) m r m') : SameKeys inner m m' := by
  refine Run.of_bind (SameKeys inner) SameKeys.trans h (fun _ _ => sparesKeys_ensureOpen.same) ?_
  intro _ m₁ _ hlocked
  obtain ⟨-, m₂, hstart, rfl⟩ := run_withWriteLock.1 hlocked
  suffices started : SameKeys inner ⟨m₁.dev, m₁.mem.lock⟩ m₂ from
    ⟨started.record, started.index, started.known⟩
  refine Run.of_bind (SameKeys inner) SameKeys.trans hstart
    (fun _ _ => draws_allocateValueId.sparesKeys.same) ?_
  intro valueId m₃ _ hrest
  rw [run_read_bind] at hrest
  cases hop : ValueIds.counterOp m₃.mem.shared with
  | none =>
    rw [hop] at hrest
    exact reads_pure.sparesKeys.same hrest
  | some op =>
    rw [hop] at hrest
    obtain ⟨next, -, rfl⟩ := Option.map_eq_some_iff.1 hop
    have counter : SparesRecords [counterOpFor next] := fun key => by
      simp [written_cons, counterOpFor, Op.written]
    exact ((sparesKeys_commit counter).bind fun _ => reads_pure.sparesKeys).same hrest

end

/-! ## Calls whose commit lands -/

/-- A put that is stored inline is stored as a record that is no pointer. -/
theorem LandsBatch.inline {batch : List Pending} {key payload raw : Bytes}
    (lands : LandsBatch inner m batch ops) (hput : stagedView batch key = some (some payload))
    (inline : inner.storesInline payload.length FLAG_POSTCARD = true)
    (h : Crossbank.written ops .records (inner.encodeKey key) = some (some raw)) :
    isPointer raw = false := by
  have spared : key ∉ m.mem.shedsOf batch := by
    intro hv
    have hnone := lands.written key
    rw [if_pos hv, h] at hnone
    cases hnone
  obtain ⟨built, s', b, laid, data, -⟩ := lands
  have hshed : ((shedWrites inner m.dev (m.mem.shedsOf batch)).map KeyWrite.key).Nodup := by
    rw [shedWrites, List.map_map]
    exact (List.map_id _).symm ▸ sheds_nodup
  rw [← written_dataOps ops (by decide), data, written_append, written_writes_record hshed,
    find?_shedWrites, if_neg spared, Option.none_or, laid.built.data,
    written_batch_record laid.nodup] at h
  have hall := laid.all key
  cases hf : b.find key with
  | none =>
    rw [hf] at h
    dsimp only at h
    split at h
    · cases h
    · cases h
  | some w =>
    rw [hf] at h
    obtain ⟨hw, rfl⟩ := mem_writes_of_find hf
    obtain ⟨action, haction, does⟩ := laid.does w hw
    rw [stagedView_eq_collapsed, haction] at hput
    have hrecord : w.body.record = some raw := Option.some.inj h
    cases action with
    | delete => cases hput
    | put payload' =>
      obtain rfl : payload' = payload := Option.some.inj (Option.some.inj hput)
      cases hbody : w.body with
      | gone =>
        rw [hbody] at does
        exact does.elim
      | inline sealed =>
        rw [hbody] at does hrecord
        obtain rfl := Option.some.inj hrecord
        exact sealed_not_pointer does
      | chunked p sealed =>
        rw [hbody] at does
        obtain ⟨-, -, -, -, -, chunked⟩ := does
        rw [inline] at chunked
        cases chunked

theorem putBy_settles {key : Bytes} {value : T} (immediate : isDeferred inner = false)
    (clean : Clean m.mem) (h : Run Served (LazyLocker.putBy inner key value) m (.ok ()) m') :
    ∃ c ops, Settles inner m m' c ops := by
  obtain ⟨_, m₀, hopen, h₀⟩ := run_bind_ok.1 h
  obtain ⟨-, rfl⟩ := run_ensureOpen.1 hopen
  obtain ⟨-, m₁, hbody, rfl⟩ := run_withWriteLock.1 h₀
  obtain ⟨payload, m₂, hpayload, h₁⟩ := run_bind_ok.1 hbody
  obtain ⟨-, rfl⟩ := run_ofExcept.1 hpayload
  rw [immediate, if_neg Bool.false_ne_true, run_read_bind] at h₁
  obtain ⟨built, m₃, hbuild, h₂⟩ := run_bind_ok.1 h₁
  obtain ⟨⟨ops, budget⟩, m₄, hbudget, h₃⟩ := run_bind_ok.1 h₂
  have clean' : Clean m₀.mem.lock := clean
  have reckoned : Run Served (reckon inner ((inner.putPayloadOps key payload FLAG_POSTCARD
      (m₀.mem.lock.prior key)).zoom (sharedPart T)) [.put key payload]) ⟨m₀.dev, m₀.mem.lock⟩
      (.ok (ops, budget)) m₄ := run_bind.2 (.inl ⟨built, m₃, hbuild, hbudget⟩)
  have build : Builds inner ⟨m₀.dev, m₀.mem.lock⟩ _ _ := builds_put key payload
    (m₀.mem.lock.prior key)
  obtain ⟨lands, ⟨s, d, rfl⟩, -⟩ := reckon_run build clean' reckoned
  obtain ⟨_, m₅, hcommit, h₄⟩ := run_bind_ok.1 h₃
  rcases run_innerCommit.1 hcommit with ⟨-, rfl⟩ | ⟨e, he, -⟩
  · simp only [run_update_bind, run_update] at h₄
    obtain ⟨-, rfl⟩ := h₄
    refine ⟨⟨.put key payload (inner.storesInline payload.length FLAG_POSTCARD), [], budget⟩, ops,
      .of_settled { m₀.mem.lock with
        shared := s, res := { m₀.mem.res with drained := d } }
      (builds_of_reckon rfl build clean' reckoned) rfl rfl rfl rfl rfl ?_⟩
    intro key' payload' hwrite raw hraw
    obtain ⟨rfl, rfl, hinline⟩ := LazyWrite.put.inj hwrite
    exact lands.inline (by rw [stagedView_one]; simp [Pending.effect]) hinline hraw
  · cases he

theorem deleteBy_settles {key : Bytes} (immediate : isDeferred inner = false) (clean : Clean m.mem)
    (h : Run Served (LazyLocker.deleteBy inner key) m (.ok ()) m') :
    ∃ c ops, Settles inner m m' c ops := by
  obtain ⟨_, m₀, hopen, h₀⟩ := run_bind_ok.1 h
  obtain ⟨-, rfl⟩ := run_ensureOpen.1 hopen
  obtain ⟨-, m₁, h₁, rfl⟩ := run_withWriteLock.1 h₀
  rw [immediate, if_neg Bool.false_ne_true, run_read_bind] at h₁
  obtain ⟨built, m₃, hbuild, h₂⟩ := run_bind_ok.1 h₁
  obtain ⟨⟨ops, budget⟩, m₄, hbudget, h₃⟩ := run_bind_ok.1 h₂
  have clean' : Clean m₀.mem.lock := clean
  have reckoned : Run Served (reckon inner (inner.deleteValueOps key (m₀.mem.lock.prior key))
      [.delete key]) ⟨m₀.dev, m₀.mem.lock⟩ (.ok (ops, budget)) m₄ :=
    run_bind.2 (.inl ⟨built, m₃, hbuild, hbudget⟩)
  have build : Builds inner ⟨m₀.dev, m₀.mem.lock⟩ _ _ := builds_delete key
    (m₀.mem.lock.prior key)
  obtain ⟨-, ⟨s, d, rfl⟩, -⟩ := reckon_run build clean' reckoned
  obtain ⟨_, m₅, hcommit, h₄⟩ := run_bind_ok.1 h₃
  rcases run_innerCommit.1 hcommit with ⟨-, rfl⟩ | ⟨e, he, -⟩
  · simp only [run_update_bind, run_update] at h₄
    obtain ⟨-, rfl⟩ := h₄
    exact ⟨⟨.delete key, [], budget⟩, ops,
      .of_settled { m₀.mem.lock with
        shared := s, res := { m₀.mem.res with drained := d } }
      (builds_of_reckon rfl build clean' reckoned) rfl rfl rfl rfl rfl fun _ _ h => by cases h⟩
  · cases he

theorem clear_settles (immediate : isDeferred inner = false) (clean : Clean m.mem)
    (h : Run Served (LazyLocker.clear inner) m (.ok ()) m') : ∃ c ops, Settles inner m m' c ops := by
  obtain ⟨_, m₀, hopen, h₀⟩ := run_bind_ok.1 h
  obtain ⟨-, rfl⟩ := run_ensureOpen.1 hopen
  obtain ⟨-, m₁, h₁, rfl⟩ := run_withWriteLock.1 h₀
  rw [immediate, if_neg Bool.false_ne_true] at h₁
  obtain ⟨built, m₃, hbuild, h₂⟩ := run_bind_ok.1 h₁
  obtain ⟨⟨ops, budget⟩, m₄, hbudget, h₃⟩ := run_bind_ok.1 h₂
  have clean' : Clean m₀.mem.lock := clean
  have reckoned : Run Served (reckon inner inner.clearValueOps [.clear]) ⟨m₀.dev, m₀.mem.lock⟩
      (.ok (ops, budget)) m₄ := run_bind.2 (.inl ⟨built, m₃, hbuild, hbudget⟩)
  have build : Builds inner ⟨m₀.dev, m₀.mem.lock⟩ _ _ := builds_clear
  obtain ⟨-, ⟨s, d, rfl⟩, -⟩ := reckon_run build clean' reckoned
  obtain ⟨_, m₅, hcommit, h₄⟩ := run_bind_ok.1 h₃
  rcases run_innerCommit.1 hcommit with ⟨-, rfl⟩ | ⟨e, he, -⟩
  · simp only [run_update_bind, run_update] at h₄
    obtain ⟨-, rfl⟩ := h₄
    exact ⟨⟨.clear, [], budget⟩, ops,
      .of_settled { m₀.mem.lock with
        shared := s, res := { m₀.mem.res with drained := d } }
      (builds_of_reckon rfl build clean' reckoned) rfl rfl rfl rfl rfl fun _ _ h => by cases h⟩
  · cases he

theorem transact_settles {body : TxBody T} (idle : Idle m.mem) (clean : Clean m.mem)
    (h : Run Served (LazyLocker.transact inner body) m (.ok ()) m') :
    SameKeys inner m m' ∨ ∃ c ops, Settles inner m m' c ops := by
  obtain ⟨_, m₀, hopen, h₀⟩ := run_bind_ok.1 h
  obtain ⟨-, rfl⟩ := run_ensureOpen.1 hopen
  obtain ⟨-, m₁, h₁, rfl⟩ := run_withWriteLock.1 h₀
  obtain ⟨entries, m₂, hbody, h₂⟩ := run_bind_ok.1 h₁
  obtain rfl := (reads_txBody inner body []).run hbody
  split at h₂
  · obtain ⟨-, rfl⟩ := run_pure.1 h₂
    exact .inl ⟨fun _ => rfl, rfl, rfl⟩
  · obtain ⟨before, m₃, htake, h₃⟩ := run_bind_ok.1 h₂
    obtain ⟨hbefore, rfl⟩ := run_takeStaged.1 htake
    obtain rfl := Except.ok.inj hbefore
    obtain ⟨m₄, hguarded, rfl⟩ := run_guarded.1 h₃
    obtain ⟨⟨ops, budget⟩, m₅, hbuild, hafter⟩ := batch_ok hguarded
    have hnil : m₀.mem.lock.res.staged = [] := idle
    rw [hnil, mergeBatches, List.nil_append] at hbuild
    have clean' : Clean (m₀.mem.lock.mapRes .drain) := clean
    have reckoned : Run Served (reckon inner ((opsForPending inner (entries.map Staged.pending)
        .lazy).zoom (sharedPart T)) (entries.map Staged.pending))
        ⟨m₀.dev, m₀.mem.lock.mapRes .drain⟩ (.ok (ops, budget)) m₅ := hbuild
    have build : Builds inner ⟨m₀.dev, m₀.mem.lock.mapRes .drain⟩ _ _ := builds_batch
      (entries.map Staged.pending)
    obtain ⟨-, ⟨s, d, rfl⟩, -⟩ := reckon_run build clean' reckoned
    simp only [run_update_bind, run_update] at hafter
    obtain ⟨-, rfl⟩ := hafter
    exact .inr ⟨⟨.transact entries, [], budget⟩, ops,
      .of_settled { m₀.mem.lock with
        shared := s, res := { m₀.mem.res with staged := [], drained := d } }
      (builds_of_reckon rfl build clean' reckoned) rfl rfl rfl rfl rfl fun _ _ h => by cases h⟩

theorem evictTo_settles {bytes count : Nat}
    (h : Run Served (LazyLocker.evictTo inner bytes) m (.ok count) m') :
    SameKeys inner m m' ∨ ∃ c ops, Settles inner m m' c ops := by
  obtain ⟨_, m₀, hopen, h₀⟩ := run_bind_ok.1 h
  obtain ⟨-, rfl⟩ := run_ensureOpen.1 hopen
  rw [Resident.evictTo, run_read_bind] at h₀
  split at h₀
  · obtain ⟨-, rfl⟩ := run_pure.1 h₀
    exact .inl (.refl _)
  obtain ⟨-, m₁, h₁, rfl⟩ := run_withWriteLock.1 h₀
  rw [run_read_bind] at h₁
  split at h₁
  · obtain ⟨-, rfl⟩ := run_pure.1 h₁
    exact .inl ⟨fun _ => rfl, rfl, rfl⟩
  dsimp only at h₁
  split at h₁
  · obtain ⟨-, rfl⟩ := run_pure.1 h₁
    exact .inl ⟨fun _ => rfl, rfl, rfl⟩
  next state _ _ =>
  obtain ⟨ops, m₂, hbuild, h₂⟩ := run_bind_ok.1 h₁
  obtain rfl := (reads_victimOps inner _).run hbuild
  obtain ⟨_, m₃, hcommit, h₃⟩ := run_bind_ok.1 h₂
  rcases run_innerCommit.1 hcommit with ⟨-, rfl⟩ | ⟨e, he, -⟩
  · rw [run_update_bind] at h₃
    obtain ⟨-, rfl⟩ := run_pure.1 h₃
    exact .inr ⟨_, ops, .of_settled m₀.mem.lock (builds_evict hbuild) rfl rfl rfl rfl rfl
      fun _ _ h => by cases h⟩
  · cases he

/-- A writer publishes its value as the last thing it does. -/
theorem finish_settles {w : Writer} {r : Except Error Unit} (h : Run Served (w.finish inner) m r m') :
    ∃ m₁, SameKeys inner m m₁ ∧ (m' = m₁ ∨ ∃ c ops, Settles inner m₁ m' c ops) := by
  have publish {w : Writer} {m₁ : Machine Tables (Ram T)} (h : Run Served (do
      let existing ← inner.fetch (asBytes w.key)
      let gc ← Prog.ofExcept (Inner.gcExisting existing)
      let pointer : ChunkPointer := ⟨w.valueId, w.seq, w.totalLen, FLAG_RAW⟩
      inner.commit (gc ++ [.put .records (inner.encodeKey (asBytes w.key)) pointer.encode])
      Prog.update (Ram.mapRes (·.touchIndex (·.insert (asBytes w.key))))
      Prog.update (Ram.mapRes (·.noteInline (asBytes w.key) false))
      Prog.update (Ram.announce (.put (asBytes w.key))) : Io (Ram T) Unit) m₁ r m') :
      m' = m₁ ∨ ∃ c ops, Settles inner m₁ m' c ops := by
    rcases run_bind.1 h with ⟨existing, m₂, hfetch, h₁⟩ | ⟨e, hfetch, -⟩
    · obtain rfl := reads_get.run hfetch
      rcases run_bind.1 h₁ with ⟨gc, m₃, hgc, h₂⟩ | ⟨e, hgc, -⟩
      · obtain ⟨hexisting, rfl⟩ := run_ofExcept.1 hgc
        have chunks : ∀ op ∈ gc, op.table = .chunks := by
          rw [gcExisting_eq_ok hexisting.symm]
          intro op hop
          obtain ⟨p, -, rfl⟩ := List.mem_map.1 hop
          rfl
        rcases run_bind.1 h₂ with ⟨_, m₄, hcommit, h₃⟩ | ⟨e, hcommit, -⟩
        · rcases run_innerCommit.1 hcommit with ⟨-, rfl⟩ | ⟨e, he, -⟩
          · simp only [run_update_bind, run_update] at h₃
            obtain ⟨-, rfl⟩ := h₃
            exact .inr ⟨⟨.finish (asBytes w.key), [], {}⟩, _, .of_settled m₃.mem
              (builds_finish (asBytes w.key) _ chunks) rfl rfl rfl rfl rfl fun _ _ h => by cases h⟩
          · cases he
        · rcases run_innerCommit.1 hcommit with ⟨he, -⟩ | ⟨e, -, rfl⟩
          · cases he
          · exact .inl rfl
      · exact .inl (run_ofExcept.1 hgc).2
    · exact .inl (reads_get.run hfetch)
  unfold Writer.finish at h
  dsimp only at h
  split at h
  · obtain ⟨w, m₁, hpure, h₁⟩ | ⟨e, hpure, -⟩ := run_bind.1 h
    · exact ⟨m₁, reads_pure.sparesKeys.same hpure, publish h₁⟩
    · exact ⟨_, reads_pure.sparesKeys.same hpure, .inl rfl⟩
  · obtain ⟨w', m₁, hpiece, h₁⟩ | ⟨e, hpiece, -⟩ := run_bind.1 h
    · exact ⟨m₁, sparesKeys_flushPiece.same hpiece, publish h₁⟩
    · exact ⟨m', sparesKeys_flushPiece.same hpiece, .inl rfl⟩

/-! ## The runs of a locker -/

theorem sameKeys_flush {r : Except Error Unit} (idle : Idle m.mem)
    (h : Run Served (LazyLocker.flush inner) m r m') : SameKeys inner m m' := by
  obtain ⟨a, m₁, hflush, hrest⟩ := run_attempt_bind.1 h
  have flushed : SameKeys inner m m₁ := by
    have hnil : m.mem.res.staged = [] := idle
    rw [Resident.flush, run_read_bind, hnil, List.length_nil, if_pos rfl] at hflush
    exact reads_pure.sparesKeys.same hflush
  refine flushed.trans (SparesKeys.same ?_ hrest)
  exact SparesKeys.bind (Prog.Only.attempt sparesKeys_flushBackend) fun b =>
    reads_ofExcept.sparesKeys.bind fun _ => reads_ofExcept.sparesKeys

theorem LazyCall.charted (call : LazyCall T) (hc : call ≠ .close) (immediate : isDeferred inner = false)
    (clean : Clean m.mem) (idle : Idle m.mem) (charted : Charted inner m) {r : Except Error Unit}
    (h : Run Served (call.prog inner) m r m') : Charted inner m' := by
  have settled (h : SameKeys inner m m' ∨ ∃ c ops, Settles inner m m' c ops) : Charted inner m' := by
    rcases h with same | ⟨c, ops, settles⟩
    · exact charted.same same
    · exact charted.settle settles
  have transacted {body : TxBody T} (h : Run Served (LazyLocker.transact inner body) m r m') :
      Charted inner m' := by
    cases r with
    | ok u => exact settled (transact_settles idle clean h)
    | error e => exact charted.same (lazyTransact_error clean h).sameKeys
  cases call with
  | get key =>
    obtain ⟨r', h, -⟩ := run_map.1 h
    exact charted.same (sparesKeys_getBy.same h)
  | list start stop reverse limit =>
    obtain ⟨r', h, -⟩ := run_map.1 h
    exact charted.same (sparesKeys_collect.same h)
  | put key value =>
    cases r with
    | ok u => exact settled (.inr (putBy_settles immediate clean h))
    | error e => exact charted.same (putBy_error immediate clean h).sameKeys
  | delete key =>
    cases r with
    | ok u => exact settled (.inr (deleteBy_settles immediate clean h))
    | error e => exact charted.same (deleteBy_error immediate clean h).sameKeys
  | clear =>
    cases r with
    | ok u => exact settled (.inr (clear_settles immediate clean h))
    | error e => exact charted.same (clear_error immediate clean h).sameKeys
  | transact body => exact transacted h
  | putAll entries =>
    simp only [LazyCall.prog, LazyLocker.putAll] at h
    split at h
    · exact charted.same (reads_pure.sparesKeys.same h)
    · exact transacted h
  | deleteAll keys =>
    simp only [LazyCall.prog, LazyLocker.deleteAll] at h
    split at h
    · exact charted.same (reads_pure.sparesKeys.same h)
    · exact transacted h
  | flush => exact charted.same (sameKeys_flush idle h)
  | evictTo bytes =>
    obtain ⟨r', h, -⟩ := run_map.1 h
    cases r' with
    | ok count => exact settled (evictTo_settles h)
    | error e => exact charted.same (evictTo_error h).sameKeys
  | writer key =>
    obtain ⟨r', h, -⟩ := run_map.1 h
    exact charted.same (sameKeys_writer h)
  | writeChunk w bytes =>
    obtain ⟨r', h, -⟩ := run_map.1 h
    exact charted.same (sparesKeys_writeChunk.same h)
  | finish w =>
    obtain ⟨m₁, same, rfl | ⟨c, ops, settles⟩⟩ := finish_settles h
    · exact charted.same same
    · exact (charted.same same).settle settles
  | abort w => exact charted.same (sparesKeys_abort.same h)
  | close => exact absurd rfl hc

theorem charted_opened {m m' : Machine Tables Shared} {res : Resident}
    {values : Std.ExtTreeMap Bytes T compare}
    (run : Run Served (LazyLocker.openLocker inner) m (.ok res) m') :
    Charted inner ⟨m'.dev, .opened m'.mem res values⟩ := by
  obtain ⟨index, m₁, hwalk, hrest⟩ := run_bind_ok.1 run
  obtain ⟨lru, m₂, hlru, hpure⟩ := run_bind_ok.1 hrest
  obtain ⟨hres, rfl⟩ := run_pure.1 hpure
  obtain rfl := Except.ok.inj hres
  obtain rfl := (reads_walk inner _ _ _ _ _ _).run hwalk
  have hdev : m'.dev = m₁.dev := by
    unfold openLru at hlru
    split at hlru
    · rw [(run_pure.1 hlru).2]
    · obtain ⟨loaded, m₂, hload, hret⟩ := run_bind_ok.1 hlru
      obtain ⟨-, -, hdev, -⟩ := loadLru_run hload
      rw [(run_pure.1 hret).2, hdev]
  refine ⟨⟨index, rfl, fun key => ?_⟩, fun known hknown key hkey => ?_⟩
  · have visited := Inner.contains_of_visited inner (Inner.walk_run inner hwalk) key
    rw [← Std.ExtTreeSet.contains_iff_mem, visited, Std.ExtTreeSet.contains_empty, Bool.false_or]
    show _ ↔ (m'.dev.lookup _ _).isSome = true
    rw [hdev]
  · obtain rfl := Option.some.inj hknown
    exact absurd hkey Std.ExtTreeSet.not_mem_empty

end

section
variable {T : Type} (inner : Inner T)

/-- The states of an open lazy locker that nobody else writes: others commit, but no record of it. -/
inductive LazyLocker.Alone : Machine Tables (Ram T) → Prop
  | opened {m m' : Machine Tables Shared} {res : Resident}
      (run : Run Served (LazyLocker.openLocker inner) m (.ok res) m') :
      Alone ⟨m'.dev, .opened m'.mem res ∅⟩
  | called {m m' : Machine Tables (Ram T)} {r : Except Error Unit} (before : Alone m)
      (c : LazyCall T) (open_ : c ≠ .close) (run : Run Served (c.prog inner) m r m') : Alone m'
  | elsewhere {m m' : Machine Tables (Ram T)} (before : Alone m)
      (change : EagerLocker.Elsewhere inner m m') : Alone m'

end

section
variable {T : Type} {inner : Inner T} {m : Machine Tables (Ram T)}

theorem LazyLocker.Alone.reached (alone : LazyLocker.Alone inner m) : LazyLocker.Reached inner m := by
  induction alone with
  | opened run => exact .opened run
  | called _ c _ run ih => exact .called ih c run
  | elsewhere _ change ih =>
    obtain ⟨db, shared, nameShared, -, hshared, rfl⟩ := change
    exact .outside ih ⟨db, shared, nameShared, hshared, rfl⟩

theorem LazyLocker.Alone.charted (alone : LazyLocker.Alone inner m)
    (immediate : isDeferred inner = false) : Charted inner m := by
  induction alone with
  | opened run => exact charted_opened run
  | called before c open_ run ih =>
    exact c.charted open_ immediate before.reached.clean (before.reached.idle immediate) ih run
  | elsewhere _ change ih =>
    obtain ⟨db, shared, nameShared, hrecords, -, rfl⟩ := change
    exact ih.same ⟨hrecords, rfl, rfl⟩

/-- The index and the marks prove what they say: a key that they prove absent has no record, and
one that they prove inline has no chunks. -/
theorem Charted.prior (charted : Charted inner m) (key : Bytes) :
    (m.mem.prior key).needsRead = false →
      Inner.gcExisting (m.dev.lookup .records (inner.encodeKey key)) = .ok [] := by
  obtain ⟨⟨index, hindex, stored⟩, inline⟩ := charted
  intro hread
  unfold Ram.prior at hread
  rw [hindex] at hread
  split at hread
  · cases hread
  split at hread
  · cases hread
  dsimp only at hread
  split at hread
  · next habsent =>
    have unlisted : key ∉ index := by
      intro hmem
      rw [Std.ExtTreeSet.contains_iff_mem.2 hmem] at habsent
      cases habsent
    have none : m.dev.lookup .records (inner.encodeKey key) = none := by
      simpa using (stored key).not.1 unlisted
    rw [none]
    rfl
  · cases hknown : m.mem.res.knownInline with
    | none =>
      rw [hknown] at hread
      cases hread
    | some known =>
      rw [hknown] at hread
      dsimp only at hread
      split at hread
      · next hmark =>
        cases hraw : m.dev.lookup .records (inner.encodeKey key) with
        | none => rfl
        | some raw =>
          have plain := inline known hknown key (Std.ExtTreeSet.contains_iff_mem.1 hmark) raw hraw
          simp [Inner.gcExisting, plain]
      · cases hread

/-- A read that is skipped would have found nothing to collect. -/
theorem Charted.gcPrior {ρ : Type} [WriteLock ρ] {m₁ m' : Machine Tables ρ}
    (charted : Charted inner m) (same : m₁.dev = m.dev) (key : Bytes) {r : Except Error (List Op)} :
    Run Answered (inner.gcPrior key (m.mem.prior key)) m₁ r m' ↔
      Run Answered (inner.gcPrior key .unknown) m₁ r m' := by
  have reading : inner.gcPrior key .unknown = (do
      let existing ← inner.fetch key
      Prog.ofExcept (Inner.gcExisting existing) : Io ρ (List Op)) := by
    rw [Inner.gcPrior, if_pos (by rfl)]
  cases hread : (m.mem.prior key).needsRead with
  | true => rw [reading, Inner.gcPrior, if_pos hread]
  | false =>
    have nothing := charted.prior key hread
    rw [← same] at nothing
    rw [reading, Inner.gcPrior, if_neg (by simp [hread]), run_pure, run_bind]
    simp only [Inner.fetch, answered_get, run_ofExcept]
    constructor
    · rintro ⟨rfl, rfl⟩
      exact .inl ⟨_, _, ⟨rfl, rfl⟩, nothing.symm, rfl⟩
    · rintro (⟨existing, m₂, ⟨hex, rfl⟩, hr, rfl⟩ | ⟨e, ⟨he, -⟩, -⟩)
      · obtain rfl := Except.ok.inj hex
        exact ⟨hr.trans nothing, rfl⟩
      · cases he

/-- A write that skips the read of what it replaces builds what one that reads builds: in every
state that an immediate lazy locker reaches, a put and a delete collect the same chunks and store the
same records whether they trust the index and the marks or read the record. -/
theorem skips_alike (alone : LazyLocker.Alone inner m) (immediate : isDeferred inner = false)
    (key : Bytes) :
    (∀ payload flags r m', Run Answered (inner.putPayloadOps key payload flags (m.mem.prior key))
        ⟨m.dev, m.mem.shared⟩ r m' ↔
      Run Answered (inner.putPayloadOps key payload flags .unknown) ⟨m.dev, m.mem.shared⟩ r m') ∧
    ∀ r m', Run Answered (inner.deleteValueOps key (m.mem.prior key)) m r m' ↔
      Run Answered (inner.deleteValueOps key .unknown) m r m' := by
  have charted := alone.charted immediate
  constructor
  · intro payload flags r m'
    have alike {r m'} : Run Answered (inner.gcPrior key (m.mem.prior key)) ⟨m.dev, m.mem.shared⟩ r m' ↔
        Run Answered (inner.gcPrior key .unknown) ⟨m.dev, m.mem.shared⟩ r m' := charted.gcPrior (by rfl) key
    unfold Inner.putPayloadOps
    rw [run_bind, run_bind]
    simp only [alike]
  · intro r m'
    have alike {r m'} : Run Answered (inner.gcPrior key (m.mem.prior key)) m r m' ↔
        Run Answered (inner.gcPrior key .unknown) m r m' := charted.gcPrior rfl key
    unfold Inner.deleteValueOps
    rw [run_bind, run_bind]
    simp only [alike]

end

/-- A key that was just put is marked, and its next put skips the read. -/
theorem skips_alike_marked : ∃ m : Machine Tables (Ram Bytes), m.mem.prior (ascii "k") = .inline ∧
    ∀ r m', Run Answered (Inner.plain.deleteValueOps (ascii "k") (m.mem.prior (ascii "k"))) m r m' ↔
      Run Answered (Inner.plain.deleteValueOps (ascii "k") .unknown) m r m' := by
  have h : ((LazyLocker.putBy Inner.plain (ascii "k") [1]).eval (serve 0) openedEmpty).map
      (fun x => x.2.mem.prior (ascii "k")) = some .inline := by decide
  obtain ⟨⟨r, m⟩, heval, hprior⟩ := Option.map_eq_some_iff.1 h
  have opening : (LazyLocker.openLocker Inner.plain).eval (serve 0) ⟨.empty, .fresh⟩ =
      some (.ok (.new .lazy (some ∅) none), ⟨.empty, .fresh⟩) := by rfl
  have alone : LazyLocker.Alone Inner.plain openedEmpty :=
    .opened (Prog.eval_run (serve_sound 0) opening)
  have put : LazyLocker.Alone Inner.plain m :=
    .called alone (.put (ascii "k") [1]) (by simp) (Prog.eval_run (serve_sound 0) heval)
  exact ⟨m, hprior, (skips_alike put rfl (ascii "k")).2⟩

end Crossbank
