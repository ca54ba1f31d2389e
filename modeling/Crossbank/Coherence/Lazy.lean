import Crossbank.Coherence.Budget
import Crossbank.Coherence.Tabs
import Crossbank.Locker.Closing
import Crossbank.Locker.Damage

/-!
# A lazy locker open in several tabs

* `LazySink.apply` : another tab's news, applied to the index and the byte budget;
* `LazyWrite`, `LazyCommit` : the commits of a lazy locker's calls;
* `lazyCalls` : what the locker does with them;
* `Listed` : a key that is stored, and that the tab itself wrote last, is in its index;
* `Spares` : the acts that take no key from an index that its tab has put since;
* `listed_of_reaches` : in a run of such acts no index misses a key of its own tab.
-/

namespace Crossbank
open Async

/-! ## News -/

namespace LazySink
variable {T : Type} (inner : Inner T)

/-- The size of a value, where it can be had without awaiting: an inlined one is opened here, and a
chunked one announced its length. -/
def size (change : Change) : Option Nat :=
  match change.value, change.bytes with
  | some sealed, _ => (inner.chain.openStored sealed).toOption.map List.length
  | none, announced => announced.map UInt64.toNat

/-- Fold another tab's news into the byte budget. -/
def remoteBudget (key : Bytes) (bytes : Option Nat) (deleted : Bool) (r : Resident) : Resident :=
  { r with lru := r.lru.map fun s => if deleted then s.remoteDelete key else s.remotePut key bytes }

def remoteBudgetClear (r : Resident) : Resident := { r with lru := r.lru.map LruState.remoteClear }

/-- One change. This tab's marker of an inline record is stale either way. -/
def applyChange (ram : Ram T) (change : Change) : Ram T :=
  let ram := ram.mapRes (·.touchIndex fun index =>
    if change.deleted then index.erase change.key else index.insert change.key)
  let ram := ram.mapRes (·.noteInline change.key false)
  let ram := ram.mapRes (remoteBudget change.key (size inner change) change.deleted)
  ram.announce (if change.deleted then .deleted change.key else .put change.key)

def apply (a : Announcement) (tab : Tab T) : Tab T :=
  if tab.ram.closed then tab
  else
    let tab :=
      if a.cleared then
        { tab with
          ram := (((tab.ram.mapRes (·.touchIndex fun _ => ∅)).mapRes Resident.forgetInline).mapRes
            remoteBudgetClear).announce .cleared
          epochs := tab.epochs.forgetLocal }
      else tab
    { tab with ram := a.changes.foldl (applyChange inner) tab.ram }

end LazySink

/-! ## Commits -/

/-- The write of a call. A writer streams pieces, or drops them, and its `finish` publishes them. -/
inductive LazyWrite (T : Type) where
  | put (key payload : Bytes) (inline : Bool)
  | delete (key : Bytes)
  | clear
  | transact (entries : List (Staged T))
  | flush
  | evict
  | stream
  | finish (key : Bytes)

/-- A commit: the call's write, the staged batch that rides along, and the byte budget. -/
structure LazyCommit (T : Type) where
  write : LazyWrite T
  before : List Pending
  budget : Budget

namespace LazyWrite
variable {T : Type}

/-- The writes of the call itself, whatever a writer has streamed. -/
def own : LazyWrite T → List Pending
  | put key payload _ => [.put key payload]
  | delete key => [.delete key]
  | clear => [.clear]
  | transact entries => entries.map Staged.pending
  | flush | evict | stream => []
  | finish key => [.put key []]

/-- Every call but a writer's holds the write lock. -/
def locks : LazyWrite T → Bool
  | stream | finish _ => false
  | _ => true

def drains : LazyWrite T → Bool
  | transact _ | flush => true
  | _ => false

/-- The call commits at once, where a deferred locker stages. -/
def immediate : LazyWrite T → Bool
  | put .. | delete _ | clear => true
  | _ => false

end LazyWrite

section
variable {T : Type} (inner : Inner T)

/-- What memory becomes when a commit has landed. -/
def settleLazy (c : LazyCommit T) (ram : Ram T) : Ram T :=
  match c.write with
  | .put key _ inline =>
    let ram := (ram.mapRes (·.touchIndex (·.insert key))).mapRes (·.noteInline key inline)
    (applyBudget c.budget ram).announce (.put key)
  | .delete key =>
    let ram := (ram.mapRes (·.touchIndex (·.erase key))).mapRes (·.noteInline key false)
    (applyBudget c.budget ram).announce (.deleted key)
  | .clear =>
    let ram := (ram.mapRes (·.touchIndex fun _ => ∅)).mapRes Resident.forgetInline
    (applyBudget c.budget ram).announce .cleared
  | .transact entries =>
    let ram := (ram.mapRes (·.touchIndex (LazyLocker.indexAfter entries))).mapRes
      Resident.forgetInline
    let ram := applyBudget c.budget ram
    dropDrained { ram with events := ram.events ++ entries.map LazyLocker.noticeOf }
  | .flush => dropDrained (applyBudget c.budget ram)
  | .evict => applyBudget c.budget ram
  | .stream => ram
  | .finish key =>
    ((ram.mapRes (·.touchIndex (·.insert key))).mapRes (·.noteInline key false)).announce (.put key)

/-- A deferred write is staged, and shows at once. -/
def stageLazy (entry : Pending) (ram : Ram T) : Ram T :=
  let ram := ram.mapRes fun r => { r with staged := r.staged ++ [entry] }
  match entry with
  | .put key _ =>
    ((ram.mapRes (·.touchIndex (·.insert key))).mapRes (·.noteInline key false)).announce (.put key)
  | .delete key =>
    ((ram.mapRes (·.touchIndex (·.erase key))).mapRes (·.noteInline key false)).announce
      (.deleted key)
  | .clear =>
    ((ram.mapRes (·.touchIndex fun _ => ∅)).mapRes Resident.forgetInline).announce .cleared

/-- What the commit leaves under a key: whether it puts or removes what is there. -/
def LazyCommit.leaves (c : LazyCommit T) (key : Bytes) : Option Bool :=
  ((stagedView c.write.own key).or (stagedView c.before key)).map Option.isSome

/-- The mutations of a commit drop the records that it sheds, and write those of its batch. It sheds
nothing that it writes, and a writer sheds nothing. -/
structure LazyCommit.Builds (c : LazyCommit T) (ops : List Op) : Prop where
  unbudgeted : c.write.locks = false → c.budget.plan.victims = []
  spared : ∀ key ∈ c.budget.plan.victims, c.leaves key = none
  record : ∀ key, (written ops .records (inner.encodeKey key)).map Option.isSome =
    if key ∈ c.budget.plan.victims then some false else c.leaves key

/-- A lazy locker. A call that holds the write lock waits for the others that do. -/
def lazyCalls : LockerCalls T (LazyCommit T) where
  inner := inner
  alone ram under ram' := (∃ key tick, ram' = ram.mapRes fun r =>
      { r with lru := r.lru.map (·.touch key tick) }) ∨
    (isDeferred inner = true ∧ (∀ c, under c → c.write.locks = false) ∧
      ∃ entry, ram' = stageLazy entry ram)
  may ram under c ops := (c.write.locks = true → ∀ c', under c' → c'.write.locks = false) ∧
    (c.write.immediate = true → isDeferred inner = false) ∧
    c.before = (if c.write.drains then ram.res.staged else []) ∧ c.Builds inner ops
  send c ram := if c.write.drains then ram.mapRes .drain else ram
  fail c ram := if c.write.drains then ram.mapRes (.putBack c.before) else ram
  settle c ram := settleLazy c ram
  sink := LazySink.apply inner
  opens db ram := ram.closed = false ∧ ram.res.staged = [] ∧
    ∃ index : KeySet, ram.res.index = some index ∧ Holds inner.id db index

end

/-! ## What becomes of the index -/

def Pending.applyToKeys (keys : KeySet) : Pending → KeySet
  | .put key _ => keys.insert key
  | .delete key => keys.erase key
  | .clear => ∅

theorem mem_applyToKeys (batch : List Pending) (keys : KeySet) (key : Bytes) :
    key ∈ batch.foldl Pending.applyToKeys keys ↔ match (stagedView batch key).map Option.isSome with
      | some put => put = true
      | none => key ∈ keys := by
  induction batch using List.reverseRecOn with
  | nil => rfl
  | append_singleton batch entry ih =>
    rw [List.foldl_append, List.foldl_cons, List.foldl_nil, stagedView_concat]
    cases entry with
    | put k payload =>
      by_cases hk : k = key
      · simp [Pending.applyToKeys, Pending.effect, hk]
      · simpa [Pending.applyToKeys, Pending.effect, hk] using ih
    | delete k =>
      by_cases hk : k = key
      · simp [Pending.applyToKeys, Pending.effect, hk]
      · simpa [Pending.applyToKeys, Pending.effect, hk] using ih
    | clear => simp [Pending.applyToKeys, Pending.effect]

theorem mem_eraseAll (victims : List Bytes) (keys : KeySet) (key : Bytes) :
    key ∈ victims.foldl (fun i victim => i.erase victim) keys ↔ key ∉ victims ∧ key ∈ keys := by
  induction victims generalizing keys with
  | nil => simp
  | cons victim rest ih =>
    rw [List.foldl_cons, ih, Std.ExtTreeSet.mem_erase]
    by_cases hk : victim = key
    · simp [hk]
    · simp [hk, Ne.symm hk]

section
variable {T : Type} {inner : Inner T} {ram : Ram T}

theorem index_applyBudget (budget : Budget) (ram : Ram T) :
    (applyBudget budget ram).res.index = ram.res.index.map fun keys =>
      budget.plan.victims.foldl (fun i victim => i.erase victim) keys := by
  have hinline (r : Resident) (victims : List Bytes) :
      (victims.foldl (fun r victim => r.noteInline victim false) r).index = r.index := by
    induction victims generalizing r with
    | nil => rfl
    | cons victim rest ih => rw [List.foldl_cons, ih, Resident.noteInline]
  unfold applyBudget
  dsimp only
  rw [hinline, Resident.touchIndex]

theorem indexAfter_eq (entries : List (Staged T)) (keys : KeySet) :
    LazyLocker.indexAfter entries keys =
      (entries.map Staged.pending).foldl Pending.applyToKeys keys := by
  induction entries generalizing keys with
  | nil => rfl
  | cons entry rest ih =>
    rw [LazyLocker.indexAfter, List.foldl_cons, ← LazyLocker.indexAfter, ih, List.map_cons,
      List.foldl_cons]
    cases entry <;> rfl

theorem index_settleLazy (c : LazyCommit T) (ram : Ram T) (shed : c.write.locks = false →
    c.budget.plan.victims = []) : (settleLazy c ram).res.index = ram.res.index.map fun keys =>
      c.budget.plan.victims.foldl (fun i victim => i.erase victim)
        (c.write.own.foldl Pending.applyToKeys keys) := by
  have hbudget (f : KeySet → KeySet) {ram' : Ram T} (h : ram'.res.index = ram.res.index.map f) :
      (applyBudget c.budget ram').res.index = ram.res.index.map fun keys =>
        c.budget.plan.victims.foldl (fun i victim => i.erase victim) (f keys) := by
    rw [index_applyBudget, h, Option.map_map]
    rfl
  obtain ⟨write, before, budget⟩ := c
  unfold settleLazy
  cases write with
  | put key payload inline => exact hbudget (·.insert key) rfl
  | delete key => exact hbudget (·.erase key) rfl
  | clear => exact hbudget (fun _ => ∅) rfl
  | transact entries =>
    have hafter : (applyBudget budget ((ram.mapRes (·.touchIndex (LazyLocker.indexAfter
        entries))).mapRes Resident.forgetInline)).res.index = _ :=
      hbudget (LazyLocker.indexAfter entries) rfl
    simp only [indexAfter_eq] at hafter
    exact hafter
  | flush => exact index_applyBudget budget ram
  | evict => exact index_applyBudget budget ram
  | stream =>
    dsimp only at shed ⊢
    rw [shed rfl]
    exact Option.map_id'.symm
  | finish key =>
    dsimp only at shed ⊢
    rw [shed rfl]
    rfl

theorem index_stageLazy (entry : Pending) (ram : Ram T) :
    (stageLazy entry ram).res.index = ram.res.index.map fun keys => entry.applyToKeys keys := by
  cases entry <;> rfl

theorem staged_stageLazy (entry : Pending) (ram : Ram T) :
    (stageLazy entry ram).res.staged = ram.res.staged ++ [entry] := by
  cases entry <;> rfl

theorem staged_settleLazy (c : LazyCommit T) (ram : Ram T) :
    (settleLazy c ram).res.staged = ram.res.staged := by
  have hbudget (ram : Ram T) : (applyBudget c.budget ram).res.staged = ram.res.staged := by
    have hinline (r : Resident) (victims : List Bytes) :
        (victims.foldl (fun r victim => r.noteInline victim false) r).staged = r.staged := by
      induction victims generalizing r with
      | nil => rfl
      | cons victim rest ih => rw [List.foldl_cons, ih, Resident.noteInline]
    unfold applyBudget
    dsimp only
    rw [hinline, Resident.touchIndex]
  unfold settleLazy
  cases c.write with
  | stream => rfl
  | finish key => rfl
  | put key payload inline => exact hbudget _
  | delete key => exact hbudget _
  | clear => exact hbudget _
  | transact entries => exact hbudget _
  | flush => exact hbudget _
  | evict => exact hbudget _

theorem closed_settleLazy (c : LazyCommit T) (ram : Ram T) :
    (settleLazy c ram).closed = ram.closed := by
  unfold settleLazy
  cases c.write <;> rfl

theorem fail_lazyCalls (inner : Inner T) (c : LazyCommit T) (ram : Ram T)
    (before : c.write.drains = false → c.before = []) :
    ((lazyCalls inner).fail c ram).closed = ram.closed ∧
      ((lazyCalls inner).fail c ram).res.index = ram.res.index ∧
      ((lazyCalls inner).fail c ram).res.staged = c.before ++ ram.res.staged := by
  unfold lazyCalls
  dsimp only
  split
  · exact ⟨rfl, rfl, rfl⟩
  · next hd =>
    rw [before (by simpa using hd)]
    exact ⟨rfl, rfl, rfl⟩

theorem applyChange_frame (inner : Inner T) (changes : List Change) (ram : Ram T) :
    (changes.foldl (LazySink.applyChange inner) ram).res.staged = ram.res.staged ∧
      (changes.foldl (LazySink.applyChange inner) ram).closed = ram.closed ∧
      (changes.foldl (LazySink.applyChange inner) ram).res.index =
        ram.res.index.map fun keys => changes.foldl Change.applyTo keys := by
  induction changes generalizing ram with
  | nil => exact ⟨rfl, rfl, by simp⟩
  | cons change rest ih =>
    obtain ⟨hstaged, hclosed, hindex⟩ := ih (LazySink.applyChange inner ram change)
    rw [List.foldl_cons]
    refine ⟨hstaged, hclosed, hindex.trans ?_⟩
    change (ram.res.index.map fun keys => change.applyTo keys).map _ = _
    rw [Option.map_map]
    rfl

theorem apply_lazySink (inner : Inner T) (a : Announcement) (tab : Tab T) (isOpen : tab.ram.closed = false) :
    (LazySink.apply inner a tab).ram.res.staged = tab.ram.res.staged ∧
      (LazySink.apply inner a tab).ram.closed = false ∧
      (LazySink.apply inner a tab).ram.res.index = tab.ram.res.index.map fun keys => a.applyTo keys := by
  unfold LazySink.apply
  rw [if_neg (by simp [isOpen])]
  dsimp only
  cases hc : a.cleared with
  | true =>
    obtain ⟨hstaged, hclosed, hindex⟩ := applyChange_frame inner a.changes
      ((((tab.ram.mapRes (·.touchIndex fun _ => ∅)).mapRes Resident.forgetInline).mapRes
        LazySink.remoteBudgetClear).announce .cleared)
    refine ⟨hstaged, hclosed.trans isOpen, hindex.trans ?_⟩
    change (tab.ram.res.index.map fun _ => ∅).map _ = _
    rw [Option.map_map]
    congr 1
    funext keys
    rw [Announcement.applyTo, News.applyTo, hc]
    rfl
  | false =>
    obtain ⟨hstaged, hclosed, hindex⟩ := applyChange_frame inner a.changes tab.ram
    refine ⟨hstaged, hclosed.trans isOpen, hindex.trans ?_⟩
    congr 1
    funext keys
    rw [Announcement.applyTo, News.applyTo, hc]
    rfl

end

/-! ## What is listed -/

/-- The news takes the key away: it deletes it, or clears and does not put it back. -/
def Announcement.removes (a : Announcement) (key : Bytes) : Bool :=
  match (⟨a.cleared, a.changes⟩ : News).last key with
  | some change => change.deleted
  | none => a.cleared

theorem Announcement.mem_applyTo_of_kept {a : Announcement} {keys : KeySet} {key : Bytes}
    (kept : a.removes key = false) (h : key ∈ keys) : key ∈ a.applyTo keys := by
  unfold Announcement.removes at kept
  refine (News.mem_applyTo key).2 ?_
  cases hlast : (⟨a.cleared, a.changes⟩ : News).last key with
  | some change =>
    rw [hlast] at kept
    exact kept
  | none =>
    rw [hlast] at kept
    exact ⟨kept, h⟩

theorem Announcement.tells_of_removes {a : Announcement} {key : Bytes} (h : a.removes key = true) :
    a.tells key = true := by
  unfold Announcement.removes at h
  unfold Announcement.tells
  split at h
  · next change hlast =>
    rw [hlast, Option.isSome_some, Bool.or_true]
  · rw [h, Bool.true_or]

section
variable {T : Type} {inner : Inner T}

theorem LazyCommit.Builds.written_isSome {c : LazyCommit T} {ops : List Op} {key : Bytes}
    (builds : c.Builds inner ops) (h : c.leaves key ≠ none ∨ key ∈ c.budget.plan.victims) :
    (written ops .records (inner.encodeKey key)).isSome = true := by
  have hwritten := builds.record key
  cases hw : written ops .records (inner.encodeKey key) with
  | some record => rfl
  | none =>
    rw [hw, Option.map_none] at hwritten
    split at hwritten
    · cases hwritten
    · next hv => exact absurd hwritten.symm (h.resolve_right hv)

end

/-! ## What the calls commit -/

section
variable {T : Type} {inner : Inner T} {m m' : Machine Tables (Ram T)} {c : LazyCommit T}
  {ops : List Op} {key : Bytes}

theorem find?_shedWrites {db : Tables} (victims : List Bytes) (key : Bytes) :
    ((shedWrites inner db victims).find? fun w => w.key = key).map (fun w => w.body.record) =
      if key ∈ victims then some none else none := by
  induction victims with
  | nil => rfl
  | cons victim rest ih =>
    by_cases hk : victim = key
    · simp [shedWrites, hk, Body.record]
    · have hcons : (shedWrites inner db (victim :: rest)).find? (fun w => w.key = key) =
          (shedWrites inner db rest).find? fun w => w.key = key :=
        List.find?_cons_of_neg (by simpa using hk)
      rw [hcons, ih]
      simp [Ne.symm hk]

theorem record_isSome_of_does {body : Body} {action : Action} (h : body.Does inner action) :
    body.record.isSome = action.leaves.isSome := by
  cases action with
  | delete =>
    obtain rfl : body = .gone := h
    rfl
  | put payload =>
    cases body with
    | gone => exact absurd h (by simp [Body.Does, Body.Seals])
    | inline | chunked => rfl

theorem LandsBatch.written {batch : List Pending} (lands : LandsBatch inner m batch ops)
    (key : Bytes) : (written ops .records (inner.encodeKey key)).map Option.isSome =
      if key ∈ m.mem.shedsOf batch then some false
      else (stagedView batch key).map Option.isSome := by
  obtain ⟨built, s', b, laid, data, -⟩ := lands
  have hshed : ((shedWrites inner m.dev (m.mem.shedsOf batch)).map KeyWrite.key).Nodup := by
    rw [shedWrites, List.map_map]
    exact (List.map_id _).symm ▸ sheds_nodup
  rw [← written_dataOps ops (by decide), data, written_append, written_writes_record hshed,
    find?_shedWrites, laid.built.data, written_batch_record laid.nodup]
  by_cases hv : key ∈ m.mem.shedsOf batch
  · rw [if_pos hv, if_pos hv, Option.some_or]
    rfl
  · rw [if_neg hv, if_neg hv, Option.none_or, stagedView_eq_collapsed]
    have hall := laid.all key
    cases hf : b.find key with
    | some w =>
      obtain ⟨hw, rfl⟩ := mem_writes_of_find hf
      obtain ⟨action, haction, hdoes⟩ := laid.does w hw
      rw [haction]
      exact congrArg some (record_isSome_of_does hdoes)
    | none =>
      rw [hf, Option.isSome_none] at hall
      have hnone : (collapsed batch)[key]? = none := Option.not_isSome_iff_eq_none.1 (by rw [← hall]; simp)
      rw [hnone, laid.cleared, clearedBy]
      by_cases hclear : Pending.clear ∈ batch
      · rw [if_pos hclear, if_pos hclear]
        rfl
      · rw [if_neg hclear, if_neg hclear]
        rfl

/-- A call that builds the ops of its batch and reckons the byte budget: a put, a delete, a
clear, a transaction or a flush. -/
theorem builds_of_reckon {build : Io (Ram T) (List Op)} {reads : Bool} (locks : c.write.locks = true)
    (builds : Builds inner m ⟨c.before ++ c.write.own, reads⟩ build) (clean : Clean m.mem)
    (run : Run Served (reckon inner build (c.before ++ c.write.own)) m (.ok (ops, c.budget)) m') :
    c.Builds inner ops := by
  have hlands : LandsBatch inner m (c.before ++ c.write.own) ops := (reckon_run builds clean run).1
  have hvictims : c.budget.plan.victims = m.mem.shedsOf (c.before ++ c.write.own) := by
    obtain ⟨built, m₁, hbuild, hbudget⟩ := run_bind_ok.1 run
    obtain ⟨s', b, rfl, -⟩ := builds.laid built m₁ hbuild
    have clean' : Clean ((sharedPart T).set s' m.mem) := clean
    exact (budgetOps_sheds (m := ⟨m.dev, (sharedPart T).set s' m.mem⟩) clean' hbudget).1
  have hleaves (key : Bytes) : c.leaves key =
      (stagedView (c.before ++ c.write.own) key).map Option.isSome := by
    rw [LazyCommit.leaves, stagedView_append]
  refine ⟨fun h => ?_, fun key hkey => ?_, fun key => ?_⟩
  · rw [locks] at h
    cases h
  · rw [hvictims] at hkey
    rw [hleaves, not_touched_of_sheds hkey]
    rfl
  · rw [hvictims, hleaves]
    exact hlands.written key

theorem builds_evict {plan : Plan} (run : Run Served (victimOps inner plan.victims) m (.ok ops) m') :
    (⟨.evict, [], { plan := plan }⟩ : LazyCommit T).Builds inner ops := by
  refine ⟨fun h => (by cases h), fun _ _ => rfl, fun key => ?_⟩
  rw [written_victimOps run key]
  split <;> rfl

/-- A writer's pieces, stored or dropped, and the pointer that publishes them. -/
theorem builds_stream (pieces : ∀ op ∈ ops, op.table = .chunks) :
    (⟨.stream, [], {}⟩ : LazyCommit T).Builds inner ops := by
  refine ⟨fun _ => rfl, fun _ h => (by cases h), fun key => ?_⟩
  rw [written_of_table fun op hop => by simp [pieces op hop]]
  rfl

/-- A call that writes one key, and sheds nothing. -/
theorem builds_alone {write : LazyWrite T} {entry : Pending} (own : write.own = [entry])
    (record : ∀ key, (Crossbank.written ops .records (inner.encodeKey key)).map Option.isSome =
      (entry.effect key).map Option.isSome) : (⟨write, [], {}⟩ : LazyCommit T).Builds inner ops := by
  refine ⟨fun _ => rfl, fun _ h => (by cases h), fun key => ?_⟩
  rw [record, LazyCommit.leaves, own, stagedView_one, stagedView_nil, Option.or_none]
  rfl

theorem builds_finish (key pointer : Bytes) (gc : ∀ op ∈ ops, op.table = .chunks) :
    (⟨.finish key, [], {}⟩ : LazyCommit T).Builds inner
      (ops ++ [.put .records (inner.encodeKey key) pointer]) := by
  refine builds_alone rfl fun other => ?_
  have hgc : written ops .records (inner.encodeKey other) = none :=
    written_of_table fun op hop => by simp [gc op hop]
  rw [written_append, hgc, Option.or_none]
  by_cases hk : key = other
  · simp [written_cons, Op.written, hk, Pending.effect]
  · simp [written_cons, Op.written, encodeKey_inj, hk, Pending.effect]

end

abbrev LazyWorld (ι T : Type) :=
  World ι Bytes Tables (Tab T) (TabCommit (LazyCommit T)) Announcement

namespace LazyTabs

/-- Settling the commit takes the key out of the index: the call removes it, or sheds it. -/
def Unlists {T : Type} (c : LazyCommit T) (key : Bytes) : Prop :=
  stagedView c.write.own key = some none ∨ key ∈ c.budget.plan.victims

section
variable {ι T : Type} (inner : Inner T) (w : LazyWorld ι T) (i : ι)

/-- The tab has returned from what it landed at `t`. -/
def Returned (t : Nat) : Prop := ∀ n flight, w.flights i n = some flight → flight.landed ≠ some t

/-- A removal of the key is staged, or is under way and has not landed. -/
def Removing (key : Bytes) : Prop :=
  stagedView (w.tabs i).ram.res.staged key = some none ∨
    ∃ n flight, w.flights i n = some flight ∧ flight.landed = none ∧
      stagedView flight.commit.call.before key = some none

/-- A record is stored under the key, the last commit on it is the tab's own, landed at `t`, and the
tab has returned from it and is not removing the key again. -/
structure Owns (key : Bytes) (t : Nat) : Prop where
  last : w.lastWrite key = some (i, t)
  stored : (w.store.lookup .records (inner.encodeKey key)).isSome = true
  returned : Returned w i t
  kept : ¬ Removing w i key

/-- Every key that is stored and that a tab wrote last is in that tab's index, and an overwrite
does not take it to be absent. -/
def Listed : Prop :=
  ∀ i key t, Owns inner w i key t → LazyLocker.containsKeyBy key (w.tabs i).ram = true ∧
    (w.tabs i).ram.prior key ≠ .absent

/-- The tab has put the key since `t`, and lists it for that: the put is staged, or rides along with
a commit under way, or has landed later. -/
def PutSince (key : Bytes) (t : Nat) : Prop :=
  (∃ payload, stagedView (w.tabs i).ram.res.staged key = some (some payload)) ∨
  (∃ n flight payload, w.flights i n = some flight ∧
    stagedView flight.commit.call.before key = some (some payload) ∧
    (flight.landed = none ∨ ∃ t', flight.landed = some t' ∧ t < t' ∧
      stagedView flight.commit.call.write.own key = none)) ∨
  ∃ t', t < t' ∧ Owns inner w i key t'

/-- The acts that take no key from an index that its tab has put since: news that is delivered
removes no key that the tab put after the commit of the news, and no commit that is settled takes out
a key that the same tab put after it. -/
def Spares : Act ι (Tab T) (TabCommit (LazyCommit T)) → Prop
  | .deliver a b => ∀ sent rest, w.mail a b = sent :: rest →
      ∀ key, sent.news.removes key = true → ¬ PutSince inner w b key sent.landed
  | .settle i n => ∀ commit t, w.flights i n = some ⟨commit, some t⟩ →
      ∀ key, Unlists commit.call key → ¬ PutSince inner w i key t
  | _ => True

structure JustOpened : Prop where
  flights : ∀ i n, w.flights i n = none
  mail : ∀ a b, w.mail a b = []
  unwritten : ∀ key, w.lastWrite key = none
  tabs : ∀ i, (w.tabs i).ram.closed = false ∧ (w.tabs i).ram.res.index.isSome = true ∧
    (w.tabs i).ram.res.staged = []

structure Inv [DecidableEq ι] : Prop where
  dated : w.Dated (lazyCalls inner).protocol Announcement.tells
  tabs : ∀ i, (w.tabs i).ram.closed = false ∧ (w.tabs i).ram.res.index.isSome = true
  builds : ∀ i n flight, w.flights i n = some flight →
    flight.commit.call.Builds inner flight.commit.ops ∧
      (flight.commit.call.write.drains = false → flight.commit.call.before = [])
  left : ∀ i n commit t key, w.flights i n = some ⟨commit, some t⟩ → w.lastWrite key = some (i, t) →
    written commit.ops .records (inner.encodeKey key) =
      some (w.store.lookup .records (inner.encodeKey key))
  listed : ∀ i key t, Owns inner w i key t → key ∈ LazyLocker.index (w.tabs i).ram
  staged : ∀ i key payload, stagedView (w.tabs i).ram.res.staged key = some (some payload) →
    key ∈ LazyLocker.index (w.tabs i).ram
  drained : ∀ i n flight key payload, w.flights i n = some flight →
    stagedView flight.commit.call.before key = some (some payload) →
    (flight.landed = none ∨ ∃ t, flight.landed = some t ∧ w.lastWrite key = some (i, t) ∧
      stagedView flight.commit.call.write.own key = none) →
    key ∈ LazyLocker.index (w.tabs i).ram

end

section
variable {ι T : Type} [DecidableEq ι] {inner : Inner T} {w : LazyWorld ι T} {i : ι}

omit [DecidableEq ι] in
theorem prior_ne_absent {ram : Ram T} {key : Bytes} (h : key ∈ LazyLocker.index ram) :
    ram.prior key ≠ .absent := by
  unfold Ram.prior
  split
  · simp
  · split
    · simp
    · split
      · simp
      · next index hindex =>
        rw [LazyLocker.index, hindex] at h
        rw [if_neg (by simpa using h)]
        split
        · split <;> simp
        · simp

theorem leaves_of_unlists {c : LazyCommit T} {key : Bytes} (h : Unlists c key) :
    c.leaves key ≠ none ∨ key ∈ c.budget.plan.victims := by
  rcases h with h | h
  · refine .inl ?_
    rw [LazyCommit.leaves, h]
    simp
  · exact .inr h

theorem mem_index_of_map {ram ram' : Ram T} {f : KeySet → KeySet} {key : Bytes}
    (some_ : ram.res.index.isSome = true) (h : ram'.res.index = ram.res.index.map f) :
    key ∈ LazyLocker.index ram' ↔ key ∈ f (LazyLocker.index ram) := by
  obtain ⟨keys, hkeys⟩ := Option.isSome_iff_exists.1 some_
  rw [LazyLocker.index, LazyLocker.index, h, hkeys]
  rfl

theorem mem_index_settleLazy {c : LazyCommit T} {ops : List Op} {ram : Ram T} {key : Bytes}
    (builds : c.Builds inner ops) (some_ : ram.res.index.isSome = true) :
    key ∈ LazyLocker.index (settleLazy c ram) ↔ key ∉ c.budget.plan.victims ∧
      match (stagedView c.write.own key).map Option.isSome with
      | some put => put = true
      | none => key ∈ LazyLocker.index ram := by
  rw [mem_index_of_map some_ (index_settleLazy c ram builds.unbudgeted), mem_eraseAll,
    mem_applyToKeys]

theorem mem_index_of_kept {c : LazyCommit T} {ops : List Op} {ram : Ram T} {key : Bytes}
    (builds : c.Builds inner ops) (some_ : ram.res.index.isSome = true) (kept : ¬ Unlists c key)
    (h : key ∈ LazyLocker.index ram) : key ∈ LazyLocker.index (settleLazy c ram) := by
  rw [mem_index_settleLazy builds some_]
  refine ⟨fun hv => kept (.inr hv), ?_⟩
  cases hown : stagedView c.write.own key with
  | none => exact h
  | some write =>
    cases write with
    | none => exact absurd (.inl hown) kept
    | some payload => rfl

/-! ## One act -/

/-- What is on its way matters to nothing but its dates, and what was noted to nothing. -/
theorem Inv.remail (h : Inv inner w) {mail : ι → ι → List (Sent Announcement)}
    {log : ι → List (LogEntry (TabCommit (LazyCommit T)) Announcement)}
    (dated : ({ w with mail := mail, log := log } : LazyWorld ι T).Dated (lazyCalls inner).protocol
      Announcement.tells) : Inv inner { w with mail := mail, log := log } :=
  ⟨dated, h.tabs, h.builds, h.left,
    fun i key t owns => h.listed i key t ⟨owns.last, owns.stored, owns.returned, owns.kept⟩,
    h.staged, h.drained⟩

theorem Inv.relist (h : Inv inner w) {tab : Tab T} (isOpen : tab.ram.closed = false)
    (some_ : tab.ram.res.index.isSome = true)
    (staged : tab.ram.res.staged = (w.tabs i).ram.res.staged)
    (owned : ∀ key t, Owns inner w i key t → key ∈ LazyLocker.index tab.ram)
    (put : ∀ key payload, stagedView (w.tabs i).ram.res.staged key = some (some payload) →
      key ∈ LazyLocker.index tab.ram)
    (drained : ∀ n flight key payload, w.flights i n = some flight →
      stagedView flight.commit.call.before key = some (some payload) →
      (flight.landed = none ∨ ∃ t, flight.landed = some t ∧ w.lastWrite key = some (i, t) ∧
        stagedView flight.commit.call.write.own key = none) →
      key ∈ LazyLocker.index tab.ram) : Inv inner (w.setTab i tab) := by
  have hself : (w.setTab i tab).tabs i = tab := if_pos rfl
  have hother {j : ι} (hj : j ≠ i) : (w.setTab i tab).tabs j = w.tabs j := if_neg hj
  have hstaged (j : ι) : ((w.setTab i tab).tabs j).ram.res.staged = (w.tabs j).ram.res.staged := by
    by_cases hj : j = i
    · rw [hj, hself, staged]
    · rw [hother hj]
  have howns {j : ι} {key : Bytes} {t : Nat} (owns : Owns inner (w.setTab i tab) j key t) :
      Owns inner w j key t := by
    refine ⟨owns.last, owns.stored, owns.returned, fun removing => owns.kept ?_⟩
    rcases removing with hr | hr
    · refine .inl ?_
      rw [hstaged]
      exact hr
    · exact .inr hr
  refine ⟨h.dated.setTab tab, fun j => ?_, h.builds, h.left, fun j key t owns => ?_,
    fun j key payload hview => ?_, fun j n flight key payload hf hview hland => ?_⟩
  · by_cases hj : j = i
    · rw [hj, hself]
      exact ⟨isOpen, some_⟩
    · rw [hother hj]
      exact h.tabs j
  · by_cases hj : j = i
    · subst hj
      rw [hself]
      exact owned key t (howns owns)
    · rw [hother hj]
      exact h.listed j key t (howns owns)
  · rw [hstaged] at hview
    by_cases hj : j = i
    · subst hj
      rw [hself]
      exact put key payload hview
    · rw [hother hj]
      exact h.staged j key payload hview
  · by_cases hj : j = i
    · subst hj
      rw [hself]
      exact drained n flight key payload hf hview hland
    · rw [hother hj]
      exact h.drained j n flight key payload hf hview hland

theorem Inv.calm (h : Inv inner w) {tab : Tab T} (closed : tab.ram.closed = (w.tabs i).ram.closed)
    (index : tab.ram.res.index = (w.tabs i).ram.res.index)
    (staged : tab.ram.res.staged = (w.tabs i).ram.res.staged) : Inv inner (w.setTab i tab) := by
  have hlist : LazyLocker.index tab.ram = LazyLocker.index (w.tabs i).ram := by
    rw [LazyLocker.index, LazyLocker.index, index]
  obtain ⟨hopen, hsome⟩ := h.tabs i
  refine h.relist (closed.trans hopen) (by rw [index]; exact hsome) staged (fun key t owns => ?_)
    (fun key payload hview => ?_) fun n flight key payload hf hview hland => ?_
  · rw [hlist]
    exact h.listed i key t owns
  · rw [hlist]
    exact h.staged i key payload hview
  · rw [hlist]
    exact h.drained i n flight key payload hf hview hland

theorem Inv.deliver (h : Inv inner w) {a b : ι} {sent : Sent Announcement}
    {rest : List (Sent Announcement)} (first : w.mail a b = sent :: rest)
    (spares : Spares inner w (.deliver a b)) :
    Inv inner (((w.setTab b ((lazyCalls inner).protocol.hear sent.news (w.tabs b))).setMail a b
      rest).note b (.heard sent)) := by
  obtain ⟨hopen, hsome⟩ := h.tabs b
  have hab : a ≠ b := by
    rintro rfl
    rw [h.dated.self a] at first
    cases first
  have hheard : Inv inner (w.setTab b ((lazyCalls inner).protocol.hear sent.news (w.tabs b))) := by
    change Inv inner (w.setTab b (if sent.news.instanceId = (w.tabs b).instanceId then w.tabs b
      else LazySink.apply inner sent.news (w.tabs b)))
    split
    · exact h.calm rfl rfl rfl
    · obtain ⟨hstaged, hclosed, hindex⟩ := apply_lazySink inner sent.news (w.tabs b) hopen
      have keep {key : Bytes} (needed : PutSince inner w b key sent.landed)
          (hkey : key ∈ LazyLocker.index (w.tabs b).ram) :
          key ∈ LazyLocker.index (LazySink.apply inner sent.news (w.tabs b)).ram := by
        rw [mem_index_of_map hsome hindex]
        refine Announcement.mem_applyTo_of_kept ?_ hkey
        rw [← Bool.not_eq_true]
        exact fun hr => spares sent rest first key hr needed
      have keepLater {key : Bytes} {t : Nat} (last : w.lastWrite key = some (b, t))
          (hkey : key ∈ LazyLocker.index (w.tabs b).ram)
          (needed : sent.landed < t → PutSince inner w b key sent.landed) :
          key ∈ LazyLocker.index (LazySink.apply inner sent.news (w.tabs b)).ram := by
        rw [mem_index_of_map hsome hindex]
        refine Announcement.mem_applyTo_of_kept ?_ hkey
        rw [← Bool.not_eq_true]
        intro hr
        have hsince := (h.dated.mail a b sent (by rw [first]; exact List.mem_cons_self)).2 key
          (Announcement.tells_of_removes hr)
        exact spares sent rest first key hr (needed (hsince.lt last hab))
      refine h.relist hclosed (by rw [hindex]; simpa using hsome) hstaged (fun key t owns => ?_)
        (fun key payload hview => ?_) fun n flight key payload hf hview hland => ?_
      · exact keepLater owns.last (h.listed b key t owns) fun hlt => .inr (.inr ⟨t, hlt, owns⟩)
      · exact keep (.inl ⟨payload, hview⟩) (h.staged b key payload hview)
      · have hkey := h.drained b n flight key payload hf hview hland
        rcases hland with hnone | ⟨t, ht, hlast, hown⟩
        · exact keep (.inr (.inl ⟨n, flight, payload, hf, hview, .inl hnone⟩)) hkey
        · exact keepLater hlast hkey fun hlt =>
            .inr (.inl ⟨n, flight, payload, hf, hview, .inr ⟨t, ht, hlt, hown⟩⟩)
  exact hheard.remail ((hheard.dated.setMail first).note _)

theorem Inv.stage (h : Inv inner w) (entry : Pending)
    (free : ∀ n flight, w.flights i n = some flight → flight.commit.call.write.locks = false) :
    Inv inner (w.setTab i { w.tabs i with ram := stageLazy entry (w.tabs i).ram }) := by
  obtain ⟨hopen, hsome⟩ := h.tabs i
  have hself : (w.setTab i { w.tabs i with ram := stageLazy entry (w.tabs i).ram }).tabs i =
      { w.tabs i with ram := stageLazy entry (w.tabs i).ram } := if_pos rfl
  have hother {j : ι} (hj : j ≠ i) : (w.setTab i { w.tabs i with
      ram := stageLazy entry (w.tabs i).ram }).tabs j = w.tabs j := if_neg hj
  have hmem (key : Bytes) : key ∈ LazyLocker.index (stageLazy entry (w.tabs i).ram) ↔
      match (entry.effect key).map Option.isSome with
      | some put => put = true
      | none => key ∈ LazyLocker.index (w.tabs i).ram := by
    rw [mem_index_of_map hsome (index_stageLazy entry _)]
    have hone := mem_applyToKeys [entry] (LazyLocker.index (w.tabs i).ram) key
    rw [stagedView_one] at hone
    exact hone
  have hview (key : Bytes) : stagedView (stageLazy entry (w.tabs i).ram).res.staged key =
      (entry.effect key).or (stagedView (w.tabs i).ram.res.staged key) := by
    rw [staged_stageLazy, stagedView_concat]
  have hbefore {n : Nat} {flight : Flight (TabCommit (LazyCommit T))}
      (hf : w.flights i n = some flight) : flight.commit.call.before = [] := by
    refine (h.builds i n flight hf).2 ?_
    have hlocks := free n flight hf
    cases hw : flight.commit.call.write with
    | stream | finish => rfl
    | put | delete | clear | transact | flush | evict =>
      rw [hw] at hlocks
      cases hlocks
  refine ⟨h.dated.setTab _, fun j => ?_, h.builds, h.left, fun j key t owns => ?_,
    fun j key payload hput => ?_, fun j n flight key payload hf hput hland => ?_⟩
  · by_cases hj : j = i
    · rw [hj, hself]
      refine ⟨?_, by rw [index_stageLazy]; simpa using hsome⟩
      cases entry <;> exact hopen
    · rw [hother hj]
      exact h.tabs j
  · by_cases hj : j = i
    · subst hj
      have hkept := owns.kept
      unfold Removing at hkept
      rw [hself] at hkept ⊢
      rw [not_or, hview] at hkept
      rw [hmem]
      cases he : entry.effect key with
      | some write =>
        cases write with
        | none =>
          rw [he, Option.some_or] at hkept
          exact absurd rfl hkept.1
        | some payload => rfl
      | none =>
        rw [he, Option.none_or] at hkept
        refine h.listed j key t ⟨owns.last, owns.stored, owns.returned, fun removing => ?_⟩
        rcases removing with hr | hr
        · exact hkept.1 hr
        · exact hkept.2 hr
    · rw [hother hj]
      refine h.listed j key t ⟨owns.last, owns.stored, owns.returned, fun removing => owns.kept ?_⟩
      unfold Removing
      rw [hother hj]
      exact removing
  · by_cases hj : j = i
    · subst hj
      rw [hself] at hput ⊢
      rw [hview] at hput
      rw [hmem]
      cases he : entry.effect key with
      | some write =>
        rw [he, Option.some_or] at hput
        obtain rfl := Option.some.inj hput
        rfl
      | none =>
        rw [he, Option.none_or] at hput
        exact h.staged j key payload hput
    · rw [hother hj] at hput ⊢
      exact h.staged j key payload hput
  · by_cases hj : j = i
    · subst hj
      rw [hbefore hf] at hput
      cases hput
    · rw [hother hj]
      exact h.drained j n flight key payload hf hput hland

section
variable {n : Nat} {commit : TabCommit (LazyCommit T)}

theorem flight_setFlight {tab : Tab T} {own : Option (Flight (TabCommit (LazyCommit T)))} {j : ι}
    {m : Nat} {flight : Flight (TabCommit (LazyCommit T))}
    (hf : ((w.setTab i tab).setFlight i n own).flights j m = some flight) :
    (j = i ∧ m = n ∧ own = some flight) ∨ (¬ (j = i ∧ m = n) ∧ w.flights j m = some flight) := by
  change (if j = i ∧ m = n then own else w.flights j m) = some flight at hf
  split at hf
  · next heq => exact .inl ⟨heq.1, heq.2, hf⟩
  · next hne => exact .inr ⟨hne, hf⟩

theorem Inv.send (h : Inv inner w) (fresh : w.flights i n = none)
    (may : (lazyCalls inner).protocol.may (w.tabs i) (w.flights i) commit) :
    Inv inner ((w.setTab i ((lazyCalls inner).protocol.send commit (w.tabs i))).setFlight i n
      (some ⟨commit, none⟩)) := by
  have hhonest (news : Announcement) (hnews : commit.news = some news) (key : Bytes)
      (htells : news.tells key = true) :
      (lazyCalls inner).protocol.writes commit key = true := honest_protocol may hnews key htells
  obtain ⟨⟨-, -, hbefore, hbuilds⟩, -, -⟩ := may
  obtain ⟨hopen, hsome⟩ := h.tabs i
  let tab := (lazyCalls inner).protocol.send commit (w.tabs i)
  let w' := (w.setTab i tab).setFlight i n (some ⟨commit, none⟩)
  change Inv inner w'
  have hself : w'.tabs i = tab := if_pos rfl
  have hother {j : ι} (hj : j ≠ i) : w'.tabs j = w.tabs j := if_neg hj
  have htab : tab.ram.closed = (w.tabs i).ram.closed ∧
      tab.ram.res.index = (w.tabs i).ram.res.index ∧
      tab.ram.res.staged = if commit.call.write.drains then [] else (w.tabs i).ram.res.staged := by
    change (if commit.call.write.drains then (w.tabs i).ram.mapRes .drain
      else (w.tabs i).ram).closed = _ ∧ (if commit.call.write.drains then (w.tabs i).ram.mapRes .drain
      else (w.tabs i).ram).res.index = _ ∧ (if commit.call.write.drains then
      (w.tabs i).ram.mapRes .drain else (w.tabs i).ram).res.staged = _
    split <;> exact ⟨rfl, rfl, rfl⟩
  have hlist : LazyLocker.index tab.ram = LazyLocker.index (w.tabs i).ram := by
    rw [LazyLocker.index, LazyLocker.index, htab.2.1]
  have hflight {j : ι} {m : Nat} {flight : Flight (TabCommit (LazyCommit T))}
      (hf : w'.flights j m = some flight) :
      (j = i ∧ m = n ∧ some (⟨commit, none⟩ : Flight (TabCommit (LazyCommit T))) = some flight) ∨
        (¬ (j = i ∧ m = n) ∧ w.flights j m = some flight) := flight_setFlight hf
  have hold {j : ι} {m : Nat} {flight : Flight (TabCommit (LazyCommit T))}
      (hf : w.flights j m = some flight) : w'.flights j m = some flight := by
    change (if j = i ∧ m = n then some _ else w.flights j m) = some flight
    rw [if_neg]
    · exact hf
    · rintro ⟨rfl, rfl⟩
      rw [fresh] at hf
      cases hf
  -- What was being removed still is: a drained removal rides along with the commit.
  have howns {j : ι} {key : Bytes} {t : Nat} (owns : Owns inner w' j key t) :
      Owns inner w j key t := by
    refine ⟨owns.last, owns.stored, fun m flight hf => owns.returned m flight (hold hf),
      fun removing => owns.kept ?_⟩
    rcases removing with hr | ⟨m, flight, hf, hland, hr⟩
    · by_cases hj : j = i
      · subst hj
        unfold Removing
        rw [hself, htab.2.2]
        by_cases hd : commit.call.write.drains = true
        · refine .inr ⟨n, ⟨commit, none⟩, if_pos ⟨rfl, rfl⟩, rfl, ?_⟩
          rw [hbefore, if_pos hd]
          exact hr
        · rw [if_neg hd]
          exact .inl hr
      · refine .inl ?_
        rw [hother hj]
        exact hr
    · exact .inr ⟨m, flight, hold hf, hland, hr⟩
  refine ⟨(h.dated.setTab tab).setFlight fun f hf => ?_, fun j => ?_, fun j m flight hf => ?_,
    fun j m c t key hf hlast => ?_, fun j key t owns => ?_, fun j key payload hput => ?_,
    fun j m flight key payload hf hput hland => ?_⟩
  · obtain rfl := Option.some.inj hf
    exact ⟨rfl, hhonest⟩
  · by_cases hj : j = i
    · rw [hj, hself, htab.1, htab.2.1]
      exact ⟨hopen, hsome⟩
    · rw [hother hj]
      exact h.tabs j
  · rcases hflight hf with ⟨-, -, heq⟩ | ⟨-, hf⟩
    · obtain rfl := Option.some.inj heq
      refine ⟨hbuilds, fun hd => ?_⟩
      dsimp only at hd ⊢
      rw [hbefore, hd]
      rfl
    · exact h.builds j m flight hf
  · rcases hflight hf with ⟨-, -, heq⟩ | ⟨-, hf⟩
    · cases (Flight.mk.inj (Option.some.inj heq)).2
    · exact h.left j m c t key hf hlast
  · have hkey := h.listed j key t (howns owns)
    by_cases hj : j = i
    · subst hj
      rw [hself, hlist]
      exact hkey
    · rw [hother hj]
      exact hkey
  · by_cases hj : j = i
    · subst hj
      rw [hself] at hput ⊢
      rw [htab.2.2] at hput
      rw [hlist]
      split at hput
      · cases hput
      · exact h.staged j key payload hput
    · rw [hother hj] at hput ⊢
      exact h.staged j key payload hput
  · have hkey : key ∈ LazyLocker.index (w.tabs j).ram := by
      rcases hflight hf with ⟨rfl, -, heq⟩ | ⟨-, hf⟩
      · obtain rfl := Option.some.inj heq
        dsimp only at hput
        rw [hbefore] at hput
        split at hput
        · exact h.staged j key payload hput
        · cases hput
      · exact h.drained j m flight key payload hf hput hland
    by_cases hj : j = i
    · subst hj
      rw [hself, hlist]
      exact hkey
    · rw [hother hj]
      exact hkey

omit [DecidableEq ι] in
theorem lastWrite_land {key : Bytes} {j : ι} {t : Nat}
    (last : (w.land (lazyCalls inner).protocol i commit).lastWrite key = some (j, t)) :
    ((lazyCalls inner).protocol.writes commit key = true ∧ j = i ∧ t = w.landings) ∨
      (written commit.ops .records (inner.encodeKey key) = none ∧ w.lastWrite key = some (j, t)) := by
  change (if (lazyCalls inner).protocol.writes commit key then some (i, w.landings)
    else w.lastWrite key) = some (j, t) at last
  split at last
  · next hw =>
    obtain ⟨rfl, rfl⟩ := Prod.mk.inj (Option.some.inj last)
    exact .inl ⟨hw, rfl, rfl⟩
  · next hw => exact .inr ⟨by simpa [LockerCalls.protocol, lazyCalls] using hw, last⟩

theorem Inv.land (h : Inv inner w) (sent : w.flights i n = some ⟨commit, none⟩) :
    Inv inner ((w.land (lazyCalls inner).protocol i commit).setFlight i n
      (some ⟨commit, some w.landings⟩)) := by
  let w' := (w.land (lazyCalls inner).protocol i commit).setFlight i n
    (some ⟨commit, some w.landings⟩)
  change Inv inner w'
  have hlookup (key : Bytes) : w'.store.lookup .records (inner.encodeKey key) =
      (written commit.ops .records (inner.encodeKey key)).getD
        (w.store.lookup .records (inner.encodeKey key)) := Tables.lookup_commit _ _ _ _
  have hlast {key : Bytes} {j : ι} {t : Nat} (last : w'.lastWrite key = some (j, t)) :
      ((lazyCalls inner).protocol.writes commit key = true ∧ j = i ∧ t = w.landings) ∨
        (written commit.ops .records (inner.encodeKey key) = none ∧
          w.lastWrite key = some (j, t)) := lastWrite_land last
  have hnew : w'.flights i n = some ⟨commit, some w.landings⟩ := if_pos ⟨rfl, rfl⟩
  have hflight {j : ι} {m : Nat} {flight : Flight (TabCommit (LazyCommit T))}
      (hf : w'.flights j m = some flight) : (j = i ∧ m = n ∧ ⟨commit, some w.landings⟩ = flight) ∨
        (¬ (j = i ∧ m = n) ∧ w.flights j m = some flight) := by
    change (if j = i ∧ m = n then some _ else w.flights j m) = some flight at hf
    split at hf
    · next heq => exact .inl ⟨heq.1, heq.2, Option.some.inj hf⟩
    · next hne => exact .inr ⟨hne, hf⟩
  obtain ⟨hbuilds, hbefore⟩ := h.builds i n _ sent
  refine ⟨h.dated.land sent, h.tabs, fun j m flight hf => ?_, fun j m c t key hf last => ?_,
    fun j key t owns => ?_, h.staged, fun j m flight key payload hf hput hland => ?_⟩
  · rcases hflight hf with ⟨-, -, rfl⟩ | ⟨-, hf⟩
    · exact ⟨hbuilds, hbefore⟩
    · exact h.builds j m flight hf
  · rcases hflight hf with ⟨rfl, rfl, heq⟩ | ⟨-, hf⟩
    · obtain ⟨rfl, ht⟩ := Flight.mk.inj heq
      obtain rfl := Option.some.inj ht
      rcases hlast last with ⟨hw, -, -⟩ | ⟨-, hold⟩
      · obtain ⟨record, hrecord⟩ := Option.isSome_iff_exists.1 hw
        have hrecord : written commit.ops .records (inner.encodeKey key) = some record := hrecord
        rw [hlookup, hrecord]
        rfl
      · exact absurd (h.dated.last key j _ hold) (Nat.lt_irrefl _)
    · have hlt := (h.dated.flights j m c t hf).1
      rcases hlast last with ⟨-, -, heq⟩ | ⟨hw, hold⟩
      · omega
      · rw [hlookup, hw]
        exact h.left j m c t key hf hold
  · rcases hlast owns.last with ⟨-, rfl, rfl⟩ | ⟨hw, hold⟩
    · exact absurd rfl (owns.returned n _ hnew)
    · refine h.listed j key t ⟨hold, ?_, fun m flight hf hland => ?_, fun removing => owns.kept ?_⟩
      · have hstored := owns.stored
        rw [hlookup, hw] at hstored
        exact hstored
      · refine owns.returned m flight ?_ hland
        refine (if_neg ?_).trans hf
        rintro ⟨rfl, rfl⟩
        rw [sent] at hf
        obtain rfl := Option.some.inj hf
        cases hland
      · -- A removal that rides along with the commit is written.
        rcases removing with hr | ⟨m, flight, hf, hland, hr⟩
        · exact .inl hr
        · refine .inr ⟨m, flight, (if_neg ?_).trans hf, hland, hr⟩
          rintro ⟨rfl, rfl⟩
          rw [sent] at hf
          obtain rfl := Option.some.inj hf
          have hleaves : commit.call.leaves key ≠ none := by
            rw [LazyCommit.leaves, hr]
            cases stagedView commit.call.write.own key <;> simp
          have hsome := hbuilds.written_isSome (.inl hleaves)
          rw [hw] at hsome
          cases hsome
  · rcases hflight hf with ⟨rfl, rfl, rfl⟩ | ⟨-, hf⟩
    · exact h.drained j m _ key payload sent hput (.inl rfl)
    · refine h.drained j m flight key payload hf hput ?_
      rcases hland with hnone | ⟨t, ht, last, hown⟩
      · exact .inl hnone
      · rcases hlast last with ⟨-, -, heq⟩ | ⟨-, hold⟩
        · obtain ⟨c, landed⟩ := flight
          obtain rfl : landed = some t := ht
          have hlt := (h.dated.flights j m c t hf).1
          omega
        · exact .inr ⟨t, ht, hold, hown⟩

theorem Inv.fail (h : Inv inner w) (sent : w.flights i n = some ⟨commit, none⟩) :
    Inv inner ((w.setTab i ((lazyCalls inner).protocol.fail commit (w.tabs i))).setFlight i n
      none) := by
  obtain ⟨hopen, hsome⟩ := h.tabs i
  let tab := (lazyCalls inner).protocol.fail commit (w.tabs i)
  let w' := (w.setTab i tab).setFlight i n none
  change Inv inner w'
  have hself : w'.tabs i = tab := if_pos rfl
  have hother {j : ι} (hj : j ≠ i) : w'.tabs j = w.tabs j := if_neg hj
  have htab : tab.ram.closed = (w.tabs i).ram.closed ∧
      tab.ram.res.index = (w.tabs i).ram.res.index ∧
      tab.ram.res.staged = commit.call.before ++ (w.tabs i).ram.res.staged :=
    fail_lazyCalls inner _ _ (h.builds i n _ sent).2
  have hlist : LazyLocker.index tab.ram = LazyLocker.index (w.tabs i).ram := by
    rw [LazyLocker.index, LazyLocker.index, htab.2.1]
  have hflight {j : ι} {m : Nat} {flight : Flight (TabCommit (LazyCommit T))}
      (hf : w'.flights j m = some flight) : w.flights j m = some flight := by
    rcases flight_setFlight hf with ⟨-, -, hnone⟩ | ⟨-, hf⟩
    · cases hnone
    · exact hf
  refine ⟨(h.dated.setTab tab).setFlight fun f hf => (by cases hf), fun j => ?_,
    fun j m flight hf => h.builds j m flight (hflight hf),
    fun j m c t key hf => h.left j m c t key (hflight hf), fun j key t owns => ?_,
    fun j key payload hput => ?_, fun j m flight key payload hf hput hland => ?_⟩
  · by_cases hj : j = i
    · rw [hj, hself, htab.1, htab.2.1]
      exact ⟨hopen, hsome⟩
    · rw [hother hj]
      exact h.tabs j
  · have hreturned : Returned w j t := by
      intro m flight hf hland
      refine owns.returned m flight ((if_neg ?_).trans hf) hland
      rintro ⟨rfl, rfl⟩
      rw [sent] at hf
      obtain rfl := Option.some.inj hf
      cases hland
    have hkept := owns.kept
    unfold Removing at hkept
    by_cases hj : j = i
    · subst hj
      rw [hself, htab.2.2, stagedView_append, not_or] at hkept
      rw [hself, hlist]
      -- A put that was staged since the commit drained stands.
      by_cases hput : ∃ payload, stagedView (w.tabs j).ram.res.staged key = some (some payload)
      · obtain ⟨payload, hput⟩ := hput
        exact h.staged j key payload hput
      · refine h.listed j key t ⟨owns.last, owns.stored, hreturned, fun removing => ?_⟩
        rcases removing with hr | ⟨m, flight, hf, hland, hr⟩
        · rw [hr, Option.some_or] at hkept
          exact hkept.1 rfl
        · by_cases hm : m = n
          · subst hm
            rw [sent] at hf
            obtain rfl := Option.some.inj hf
            dsimp only at hr
            cases hview : stagedView (w.tabs j).ram.res.staged key with
            | none =>
              rw [hview, hr, Option.none_or] at hkept
              exact hkept.1 rfl
            | some write =>
              cases write with
              | none =>
                rw [hview, Option.some_or] at hkept
                exact hkept.1 rfl
              | some payload => exact hput ⟨payload, hview⟩
          · exact hkept.2 ⟨m, flight, (if_neg fun heq => hm heq.2).trans hf, hland, hr⟩
    · rw [hother hj] at hkept ⊢
      refine h.listed j key t ⟨owns.last, owns.stored, hreturned, fun removing => hkept ?_⟩
      rcases removing with hr | ⟨m, flight, hf, hland, hr⟩
      · exact .inl hr
      · exact .inr ⟨m, flight, (if_neg fun heq => hj heq.1).trans hf, hland, hr⟩
  · by_cases hj : j = i
    · subst hj
      rw [hself] at hput ⊢
      rw [htab.2.2, stagedView_append] at hput
      rw [hlist]
      cases hview : stagedView (w.tabs j).ram.res.staged key with
      | none =>
        rw [hview, Option.none_or] at hput
        exact h.drained j n _ key payload sent hput (.inl rfl)
      | some write =>
        rw [hview, Option.some_or] at hput
        obtain rfl := Option.some.inj hput
        exact h.staged j key payload hview
    · rw [hother hj] at hput ⊢
      exact h.staged j key payload hput
  · have hkey := h.drained j m flight key payload (hflight hf) hput hland
    by_cases hj : j = i
    · subst hj
      rw [hself, hlist]
      exact hkey
    · rw [hother hj]
      exact hkey

/-- A commit is settled: its tab did not put again what it takes out. -/
theorem Inv.settle (h : Inv inner w) {t : Nat} (landed : w.flights i n = some ⟨commit, some t⟩)
    (spares : Spares inner w (.settle i n)) :
    Inv inner ((((w.setTab i ((lazyCalls inner).protocol.settle commit (w.tabs i))).setFlight i n
      none).post i (commit.news.map (⟨t, ·⟩))).note i (.made t commit)) := by
  obtain ⟨hopen, hsome⟩ := h.tabs i
  have hbuilds := (h.builds i n _ landed).1
  let tab := (lazyCalls inner).protocol.settle commit (w.tabs i)
  let w' := (w.setTab i tab).setFlight i n none
  have hself : w'.tabs i = tab := if_pos rfl
  have hother {j : ι} (hj : j ≠ i) : w'.tabs j = w.tabs j := if_neg hj
  have hclosed : tab.ram.closed = (w.tabs i).ram.closed := closed_settleLazy commit.call _
  have hstaged : tab.ram.res.staged = (w.tabs i).ram.res.staged := staged_settleLazy commit.call _
  have hindex : tab.ram.res.index.isSome = true := by
    have := index_settleLazy commit.call (w.tabs i).ram hbuilds.unbudgeted
    change (settleLazy commit.call (w.tabs i).ram).res.index.isSome = true
    rw [this, Option.isSome_map]
    exact hsome
  have hflight {j : ι} {m : Nat} {flight : Flight (TabCommit (LazyCommit T))}
      (hf : w'.flights j m = some flight) : ¬ (j = i ∧ m = n) ∧ w.flights j m = some flight := by
    rcases flight_setFlight hf with ⟨-, -, hnone⟩ | hf
    · cases hnone
    · exact hf
  have keep {key : Bytes} (put : Unlists commit.call key → PutSince inner w i key t)
      (hkey : key ∈ LazyLocker.index (w.tabs i).ram) : key ∈ LazyLocker.index tab.ram :=
    mem_index_of_kept hbuilds hsome (fun hun => spares commit t landed key hun (put hun)) hkey
  have later {key : Bytes} {t' : Nat} (hun : Unlists commit.call key)
      (last : w.lastWrite key = some (i, t')) : t ≤ t' := by
    obtain ⟨j, t₀, hlast, hle, -⟩ := (h.dated.flights i n commit t landed).2 key
      (hbuilds.written_isSome (leaves_of_unlists hun))
    rw [hlast] at last
    obtain ⟨-, rfl⟩ := Prod.mk.inj (Option.some.inj last)
    exact hle
  have hremoving {j : ι} {key : Bytes} (hr : Removing w j key) : Removing w' j key := by
    rcases hr with hr | ⟨m, flight, hf, hland, hr⟩
    · refine .inl ?_
      by_cases hj : j = i
      · subst hj
        rw [hself, hstaged]
        exact hr
      · rw [hother hj]
        exact hr
    · refine .inr ⟨m, flight, (if_neg ?_).trans hf, hland, hr⟩
      rintro ⟨rfl, rfl⟩
      rw [landed] at hf
      obtain rfl := Option.some.inj hf
      cases hland
  have hgone : Inv inner w' := by
    refine ⟨(h.dated.setTab tab).setFlight fun f hf => (by cases hf), fun j => ?_,
      fun j m flight hf => h.builds j m flight (hflight hf).2,
      fun j m c t key hf => h.left j m c t key (hflight hf).2, fun j key t₀ owns => ?_,
      fun j key payload hput => ?_, fun j m flight key payload hf hput hland => ?_⟩
    · by_cases hj : j = i
      · rw [hj, hself]
        exact ⟨hclosed.trans hopen, hindex⟩
      · rw [hother hj]
        exact h.tabs j
    · by_cases hj : j = i
      · subst hj
        rw [hself]
        by_cases ht : t₀ = t
        · -- The commit is the last on the key: settling lists what it left.
          subst ht
          have hleft := h.left j n commit t₀ key landed owns.last
          have hrecord := hbuilds.record key
          rw [hleft, Option.map_some, show (w.store.lookup .records (inner.encodeKey key)).isSome = true
            from owns.stored] at hrecord
          split at hrecord
          · cases hrecord
          · next hv =>
            change key ∈ LazyLocker.index (settleLazy commit.call (w.tabs j).ram)
            rw [mem_index_settleLazy hbuilds hsome]
            refine ⟨hv, ?_⟩
            rw [LazyCommit.leaves] at hrecord
            cases hown : stagedView commit.call.write.own key with
            | some write =>
              rw [hown, Option.some_or, Option.map_some] at hrecord
              exact (Option.some.inj hrecord).symm
            | none =>
              rw [hown, Option.none_or] at hrecord
              obtain ⟨write, hbefore, hput⟩ := Option.map_eq_some_iff.1 hrecord.symm
              obtain ⟨payload, rfl⟩ := Option.isSome_iff_exists.1 hput
              exact h.drained j n _ key payload landed hbefore (.inr ⟨t₀, rfl, owns.last, hown⟩)
        · have hold : Owns inner w j key t₀ := by
            refine ⟨owns.last, owns.stored, fun m flight hf hland => ?_,
              fun hr => owns.kept (hremoving hr)⟩
            by_cases hm : m = n
            · subst hm
              rw [landed] at hf
              obtain rfl := Option.some.inj hf
              exact ht (Option.some.inj hland).symm
            · exact owns.returned m flight ((if_neg fun heq => hm heq.2).trans hf) hland
          refine keep (fun hun => .inr (.inr ⟨t₀, ?_, hold⟩)) (h.listed j key t₀ hold)
          have := later hun owns.last
          omega
      · rw [hother hj]
        refine h.listed j key t₀ ⟨owns.last, owns.stored, fun m flight hf => ?_,
          fun hr => owns.kept (hremoving hr)⟩
        exact owns.returned m flight ((if_neg fun heq => hj heq.1).trans hf)
    · by_cases hj : j = i
      · subst hj
        rw [hself] at hput ⊢
        rw [hstaged] at hput
        exact keep (fun _ => .inl ⟨payload, hput⟩) (h.staged j key payload hput)
      · rw [hother hj] at hput ⊢
        exact h.staged j key payload hput
    · obtain ⟨hne, hold⟩ := hflight hf
      have hkey := h.drained j m flight key payload hold hput hland
      by_cases hj : j = i
      · subst hj
        rw [hself]
        refine keep (fun hun => .inr (.inl ⟨m, flight, payload, hold, hput, ?_⟩)) hkey
        rcases hland with hnone | ⟨t', ht', last, hown⟩
        · exact .inl hnone
        · refine .inr ⟨t', ht', ?_, hown⟩
          rcases Nat.lt_or_eq_of_le (later hun last) with hlt | heq
          · exact hlt
          · obtain ⟨c, at_⟩ := flight
            obtain rfl : at_ = some t' := ht'
            subst heq
            exact absurd ⟨rfl, (h.dated.apart j m j n t c commit hold landed).2⟩ hne
      · rw [hother hj]
        exact hkey
  have next : (lazyCalls inner).protocol.Step w (.settle i n)
      ((w'.post i (commit.news.map (⟨t, ·⟩))).note i (.made t commit)) := ⟨commit, t, landed, rfl⟩
  exact hgone.remail (h.dated.step (fun _ _ _ may _ => honest_protocol may) next)

end

/-- A tab that starts over lists what is stored. -/
theorem Inv.restart (h : Inv inner w) {tab : Tab T}
    (opens : (lazyCalls inner).protocol.opens w.store tab) : Inv inner (w.restart i tab) := by
  obtain ⟨⟨hopen, hnone, index, hindex, hholds⟩, -, -⟩ := opens
  have hself : (w.restart i tab).tabs i = tab := if_pos rfl
  have hother {j : ι} (hj : j ≠ i) : (w.restart i tab).tabs j = w.tabs j := if_neg hj
  have hflight {j : ι} {m : Nat} {flight : Flight (TabCommit (LazyCommit T))}
      (hf : (w.restart i tab).flights j m = some flight) : j ≠ i ∧ w.flights j m = some flight := by
    change (if j = i then none else w.flights j m) = some flight at hf
    split at hf
    · cases hf
    · next hne => exact ⟨hne, hf⟩
  refine ⟨h.dated.restart tab, fun j => ?_, fun j m flight hf => h.builds j m flight (hflight hf).2,
    fun j m c t key hf => h.left j m c t key (hflight hf).2, fun j key t owns => ?_,
    fun j key payload hput => ?_, fun j m flight key payload hf hput hland => ?_⟩
  · by_cases hj : j = i
    · rw [hj, hself, hindex]
      exact ⟨hopen, rfl⟩
    · rw [hother hj]
      exact h.tabs j
  · by_cases hj : j = i
    · subst hj
      rw [hself, LazyLocker.index, hindex]
      exact (hholds key).2 owns.stored
    · rw [hother hj]
      have hold {m : Nat} {flight : Flight (TabCommit (LazyCommit T))}
          (hf : w.flights j m = some flight) : (w.restart i tab).flights j m = some flight :=
        (if_neg hj).trans hf
      refine h.listed j key t ⟨owns.last, owns.stored,
        fun m flight hf => owns.returned m flight (hold hf), fun hr => owns.kept ?_⟩
      rcases hr with hr | ⟨m, flight, hf, hr⟩
      · refine .inl ?_
        rw [hother hj]
        exact hr
      · exact .inr ⟨m, flight, hold hf, hr⟩
  · by_cases hj : j = i
    · subst hj
      rw [hself, hnone] at hput
      cases hput
    · rw [hother hj] at hput ⊢
      exact h.staged j key payload hput
  · obtain ⟨hj, hf⟩ := hflight hf
    rw [hother hj]
    exact h.drained j m flight key payload hf hput hland

theorem Inv.step {act : Act ι (Tab T) (TabCommit (LazyCommit T))} {w' : LazyWorld ι T}
    (h : Inv inner w) (spares : Spares inner w act)
    (next : (lazyCalls inner).protocol.Step w act w') : Inv inner w' := by
  cases act with
  | alone i memory =>
    obtain ⟨halone, rfl⟩ := next
    rcases halone with rfl | ⟨ram, ⟨key, tick, rfl⟩ | ⟨-, free, entry, rfl⟩, rfl⟩
    · exact h.calm rfl rfl rfl
    · exact h.calm rfl rfl rfl
    · exact h.stage entry fun n flight hf => free _ ⟨n, flight, hf, rfl⟩
  | send i n commit =>
    obtain ⟨fresh, may, rfl⟩ := next
    exact h.send fresh may
  | land i n =>
    obtain ⟨commit, sent, rfl⟩ := next
    exact h.land sent
  | fail i n =>
    obtain ⟨commit, sent, rfl⟩ := next
    exact h.fail sent
  | settle i n =>
    obtain ⟨commit, t, landed, rfl⟩ := next
    exact h.settle landed spares
  | deliver a b =>
    obtain ⟨sent, rest, first, rfl⟩ := next
    exact h.deliver first spares
  | reload i memory =>
    obtain ⟨opens, rfl⟩ := next
    exact h.restart opens

theorem JustOpened.inv (h : JustOpened w) : Inv inner w := by
  have hview (j : ι) (key payload : Bytes) :
      stagedView (w.tabs j).ram.res.staged key ≠ some (some payload) := by
    rw [(h.tabs j).2.2]
    simp
  refine ⟨⟨fun a => h.mail a a, fun a b sent hs => ?_, fun i n c t hf => ?_,
    fun i n j m t c c' hf => ?_, fun i n flight hf => ?_, fun key j t hlast => ?_⟩,
    fun i => ⟨(h.tabs i).1, (h.tabs i).2.1⟩, fun i n flight hf => ?_, fun i n c t key hf => ?_,
    fun i key t owns => ?_, fun i key payload hput => absurd hput (hview i key payload),
    fun i n flight key payload hf => ?_⟩
  · rw [h.mail] at hs
    cases hs
  · rw [h.flights] at hf
    cases hf
  · rw [h.flights] at hf
    cases hf
  · rw [h.flights] at hf
    cases hf
  · rw [h.unwritten] at hlast
    cases hlast
  · rw [h.flights] at hf
    cases hf
  · rw [h.flights] at hf
    cases hf
  · have hlast := owns.last
    rw [h.unwritten] at hlast
    cases hlast
  · rw [h.flights] at hf
    cases hf

end

/-- No index misses a key of its own tab: from tabs that have just been opened, in every run
whose acts take no key from an index that its tab has put since, a key that is stored and that a tab
wrote last is in that tab's index. -/
theorem listed_of_reaches {ι T : Type} [DecidableEq ι] {inner : Inner T} {w₀ w : LazyWorld ι T}
    (opened : JustOpened w₀) (run : Reaches (lazyCalls inner).protocol (Spares inner) w₀ w) :
    Listed inner w := by
  have keep (v : LazyWorld ι T) (act : Act ι (Tab T) (TabCommit (LazyCommit T)))
      (v' : LazyWorld ι T) (hv : Inv inner v) (spares : Spares inner v act)
      (next : (lazyCalls inner).protocol.Step v act v') : Inv inner v' := hv.step spares next
  have hinv : Inv inner w := run.invariant opened.inv keep
  intro i key t owns
  have hkey := hinv.listed i key t owns
  exact ⟨hkey, prior_ne_absent hkey⟩

/-- Two tabs, in which the locker has just been opened over an empty store. -/
def twoTabs : LazyWorld Bool Bytes where
  store := .empty
  landings := 0
  lastWrite _ := none
  tabs i := ⟨openedEmpty.mem, .fresh, if i then 1 else 2, 0⟩
  flights _ _ := none
  mail _ _ := []
  log _ := []

theorem justOpened_twoTabs : JustOpened twoTabs :=
  ⟨fun _ _ => rfl, fun _ _ => rfl, fun _ => rfl, fun _ => ⟨rfl, rfl, rfl⟩⟩

/-- The put of the key `k`, and its removal, as a tab commits them. -/
def putK (tab : Tab Bytes) : TabCommit (LazyCommit Bytes) :=
  let ops := [.put .records (Inner.plain.encodeKey [107]) [67, 66, 78, 75, 1, 0, 1, 1]]
  ⟨⟨.put [107] [1, 1] true, [], {}⟩, ops, (tab.prepare Inner.plain.id ops).1⟩

def deleteK (tab : Tab Bytes) : TabCommit (LazyCommit Bytes) :=
  let ops := [Inner.plain.deleteOp [107]]
  ⟨⟨.delete [107], [], {}⟩, ops, (tab.prepare Inner.plain.id ops).1⟩

section
variable {w : LazyWorld Bool Bytes} {i : Bool}

theorem may_putK (free : ∀ n, w.flights i n = none) :
    (lazyCalls Inner.plain).protocol.may (w.tabs i) (w.flights i) (putK (w.tabs i)) := by
  refine ⟨⟨fun _ c' ⟨n, flight, hf, _⟩ => ?_, fun _ => rfl, rfl, builds_alone rfl fun key => ?_⟩,
    fun op hop => ?_, rfl⟩
  · rw [free] at hf
    cases hf
  · by_cases hk : ([107] : Bytes) = key
    · simp [putK, written_cons, Op.written, hk, Pending.effect]
    · simp [putK, written_cons, Op.written, encodeKey_inj, hk, Pending.effect]
  · obtain rfl := List.mem_singleton.1 hop
    trivial

theorem may_deleteK (free : ∀ n, w.flights i n = none) :
    (lazyCalls Inner.plain).protocol.may (w.tabs i) (w.flights i) (deleteK (w.tabs i)) := by
  refine ⟨⟨fun _ c' ⟨n, flight, hf, _⟩ => ?_, fun _ => rfl, rfl, builds_alone rfl fun key => ?_⟩,
    fun op hop => ?_, rfl⟩
  · rw [free] at hf
    cases hf
  · by_cases hk : ([107] : Bytes) = key
    · simp [deleteK, written_cons, Inner.deleteOp, Op.written, hk, Pending.effect]
    · simp [deleteK, written_cons, Inner.deleteOp, Op.written, encodeKey_inj, hk, Pending.effect]
  · obtain rfl := List.mem_singleton.1 hop
    trivial

end

def removed : LazyWorld Bool Bytes :=
  twoTabs.made (lazyCalls Inner.plain).protocol false (deleteK (twoTabs.tabs false))

theorem free_removed : removed.flights = fun _ _ => none := World.flights_made rfl

/-- The other hears of it, and puts the key. -/
def toldFirst : LazyWorld Bool Bytes := removed.told (lazyCalls Inner.plain).protocol false true

def putLast : LazyWorld Bool Bytes :=
  toldFirst.made (lazyCalls Inner.plain).protocol true (putK (toldFirst.tabs true))

/-- The other puts the key, and then hears of it. -/
def putFirst : LazyWorld Bool Bytes :=
  removed.made (lazyCalls Inner.plain).protocol true (putK (removed.tabs true))

def toldLast : LazyWorld Bool Bytes := putFirst.told (lazyCalls Inner.plain).protocol false true

theorem free_putFirst : putFirst.flights = fun _ _ => none :=
  (World.flights_made (congrFun (congrFun free_removed true) 0)).trans free_removed

theorem reaches_removed {ok : LazyWorld Bool Bytes → Act Bool (Tab Bytes) (TabCommit (LazyCommit Bytes))
    → Prop} (send : ∀ w i n c, ok w (.send i n c)) (land : ∀ w i n, ok w (.land i n))
    (settle : ok (twoTabs.landing (lazyCalls Inner.plain).protocol false (deleteK (twoTabs.tabs false)))
      (.settle false 0)) : Reaches (lazyCalls Inner.plain).protocol ok twoTabs removed :=
  Reaches.start.made rfl (may_deleteK fun _ => rfl) (send _ _ _ _) (land _ _ _) settle

theorem not_putSince {ι T : Type} {inner : Inner T} {w : LazyWorld ι T} {i : ι} {key : Bytes} {t : Nat}
    (staged : (w.tabs i).ram.res.staged = [])
    (flights : ∀ n flight, w.flights i n = some flight → flight.commit.call.before = [])
    (last : ∀ t', w.lastWrite key = some (i, t') → t' ≤ t) : ¬ PutSince inner w i key t := by
  rintro (⟨payload, hput⟩ | ⟨n, flight, payload, hf, hput, -⟩ | ⟨t', hlt, owns⟩)
  · rw [staged] at hput
    cases hput
  · rw [flights n flight hf] at hput
    cases hput
  · have := last t' owns.last
    omega

theorem listed_putLast : Listed Inner.plain putLast := by
  have hlast {key : Bytes} {i : Bool} {t : Nat} (h : removed.lastWrite key = some (i, t)) :
      i = false ∧ t = 0 := by
    change (if _ then some (false, 0) else none) = some (i, t) at h
    split at h
    · obtain ⟨rfl, rfl⟩ := Prod.mk.inj (Option.some.inj h)
      exact ⟨rfl, rfl⟩
    · cases h
  have hremoved : Reaches (lazyCalls Inner.plain).protocol (Spares Inner.plain) twoTabs removed := by
    refine reaches_removed (fun _ _ _ _ => trivial) (fun _ _ _ => trivial) ?_
    intro commit t hf key _
    rw [World.flights_landing] at hf
    obtain ⟨rfl, ht⟩ := Flight.mk.inj (Option.some.inj hf)
    obtain rfl := Option.some.inj ht
    refine not_putSince rfl (fun n flight hf => ?_) fun t' h => (hlast h).2.le
    rcases World.mem_flights_landing hf with heq | hf
    · rw [heq]
      rfl
    · cases hf
  have htold : Reaches (lazyCalls Inner.plain).protocol (Spares Inner.plain) twoTabs toldFirst := by
    refine hremoved.told fun sent rest _ key _ => ?_
    refine not_putSince rfl (fun n flight hf => ?_) fun t' h => absurd (hlast h).1 (by decide)
    rw [free_removed] at hf
    cases hf
  have hfree : toldFirst.flights = fun _ _ => none := (World.flights_told _ _ _).trans free_removed
  refine listed_of_reaches justOpened_twoTabs (htold.made (congrFun (congrFun hfree true) 0)
    (may_putK fun n => congrFun (congrFun hfree true) n) trivial trivial ?_)
  intro commit t hf key hun
  rw [World.flights_landing] at hf
  obtain ⟨rfl, -⟩ := Flight.mk.inj (Option.some.inj hf)
  rcases hun with hun | hun
  · change stagedView [.put [107] [1, 1]] key = some none at hun
    rw [stagedView_one, Pending.effect] at hun
    split at hun <;> cases hun
  · cases hun

theorem not_listed_toldLast : JustOpened twoTabs ∧
    Reaches (lazyCalls Inner.plain).protocol (fun _ _ => True) twoTabs toldLast ∧
    ¬ Listed Inner.plain toldLast := by
  have hfree : toldLast.flights = fun _ _ => none := (World.flights_told _ _ _).trans free_putFirst
  refine ⟨justOpened_twoTabs, ?_, fun hlisted => ?_⟩
  · have hremoved : Reaches (lazyCalls Inner.plain).protocol (fun _ _ => True) twoTabs removed :=
      reaches_removed (fun _ _ _ _ => trivial) (fun _ _ _ => trivial) trivial
    have hput : Reaches (lazyCalls Inner.plain).protocol (fun _ _ => True) twoTabs putFirst :=
      hremoved.made (congrFun (congrFun free_removed true) 0)
        (may_putK fun n => congrFun (congrFun free_removed true) n) trivial trivial trivial
    exact hput.told trivial
  · have howns : Owns Inner.plain toldLast true [107] 1 := by
      refine ⟨by decide, by decide, fun n flight hf => ?_, ?_⟩
      · rw [hfree] at hf
        cases hf
      · rintro (hr | ⟨n, flight, hf, -⟩)
        · exact absurd hr (by decide)
        · rw [hfree] at hf
          cases hf
    exact absurd (hlisted true [107] 1 howns).1 (by decide)

end LazyTabs
end Crossbank
