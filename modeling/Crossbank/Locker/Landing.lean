import Crossbank.Locker.Collapse
import Crossbank.Locker.Failure

/-!
# A staged batch that lands

A call that drains the staged batch either puts it back and has moved nothing, or lands it whole.

* `flushLocked_run`, `flush_run` : what a flush can do;
* `eagerTransact_run` : what a transaction of an eager locker can do;
* `RecordsAfter` : what a batch leaves in the records of an eager locker (`recordsAfter_commit`).
-/

namespace Crossbank
open Async

section
variable {T : Type} {inner : Inner T} {m m' : Machine Tables (Ram T)}

/-! ## Draining -/

theorem batch_ok {before : List Pending} {α : Type} {build : Io (Ram T) α} {ops : α → List Op}
    {after : α → Io (Ram T) Unit}
    (h : Run Served (do
      let built ← restagingOnError before build
      restagingOnError before (inner.commit (ops built))
      after built) m (.ok ()) m') :
    ∃ built m₁, Run Served build m (.ok built) m₁ ∧
      Run Served (after built) ⟨m₁.dev.commit (ops built), m₁.mem⟩ (.ok ()) m' := by
  obtain ⟨built, m₁, hbuild, h₁⟩ := run_bind_ok.1 h
  obtain ⟨u, m₂, hcommit, h₂⟩ := run_bind_ok.1 h₁
  rcases run_innerCommit.1 (run_restagingOnError_ok.1 hcommit) with ⟨-, rfl⟩ | ⟨e, he, -⟩
  · exact ⟨built, m₁, run_restagingOnError_ok.1 hbuild, h₂⟩
  · cases he

/-- What a flush under the lock can do: move nothing, or land what is staged. -/
theorem flushLocked_run (clean : Clean m.mem) {r : Except Error Unit}
    (h : Run Served (flushLocked inner) m r m') :
    (Unmoved m m' ∧ (r = .ok () → m.mem.res.staged = [])) ∨
    ∃ ops budget m₁, r = .ok () ∧
      Run Served (batchOps inner m.mem.res.staged m.mem.res.mode) ⟨m.dev, m.mem.mapRes .drain⟩
        (.ok (ops, budget)) m₁ ∧
      m' = ⟨m₁.dev.commit ops, dropDrained (applyBudget budget m₁.mem)⟩ := by
  have drained : Clean (m.mem.mapRes .drain) := clean
  cases r with
  | error e =>
    refine .inl ⟨?_, by simp⟩
    refine unmoved_of_drained h fun m₂ hb => ?_
    split at hb
    · cases (run_pure.1 hb).1
    · rw [run_read_bind] at hb
      refine batch_error hb (fun _ _ => batchOps_unmoved (m := ⟨m.dev, m.mem.mapRes .drain⟩) drained)
        fun built m₁ m₃ e he => ?_
      simp at he
  | ok u =>
    obtain ⟨entries, m₁, htake, h₁⟩ := run_bind_ok.1 h
    obtain ⟨he, rfl⟩ := run_takeStaged.1 htake
    obtain rfl := Except.ok.inj he
    obtain ⟨m₂, hb, rfl⟩ := run_guarded.1 h₁
    split at hb
    · next hempty =>
      obtain ⟨-, rfl⟩ := run_pure.1 hb
      have hnil : m.mem.res.staged = [] := List.isEmpty_iff.1 hempty
      refine .inl ⟨⟨m.mem.shared, [], ?_⟩, fun _ => hnil⟩
      simp [Ram.mapRes, dropDrained, Resident.drain, Resident.letGo, hnil]
    · rw [run_read_bind] at hb
      obtain ⟨⟨ops, budget⟩, m₃, hbuild, hafter⟩ := batch_ok hb
      obtain ⟨-, rfl⟩ := run_update.1 hafter
      exact .inr ⟨ops, budget, m₃, rfl, hbuild, rfl⟩

/-- What a flush can do. -/
theorem flush_run (clean : Clean m.mem) {r : Except Error Unit}
    (h : Run Served (Resident.flush inner) m r m') :
    (Unmoved m m' ∧ (r = .ok () → m.mem.res.staged = [])) ∨
    ∃ ops budget m₁, r = .ok () ∧ m.mem.writeLock = false ∧
      Run Served (batchOps inner m.mem.res.staged m.mem.res.mode)
        ⟨m.dev, m.mem.lock.mapRes .drain⟩ (.ok (ops, budget)) m₁ ∧
      m' = ⟨m₁.dev.commit ops, (dropDrained (applyBudget budget m₁.mem)).unlock⟩ := by
  rw [Resident.flush, run_read_bind] at h
  split at h
  · next hnil =>
    obtain ⟨-, rfl⟩ := run_pure.1 h
    exact .inl ⟨.refl _, fun _ => List.length_eq_zero_iff.1 hnil⟩
  · obtain ⟨hl, m₁, hb, rfl⟩ := run_withWriteLock.1 h
    have locked : Clean m.mem.lock := clean
    rcases flushLocked_run (m := ⟨m.dev, m.mem.lock⟩) locked hb with ⟨hu, hnil⟩ | ⟨ops, budget, m₂, rfl, hbuild, rfl⟩
    · exact .inl ⟨hu.unlock hl, hnil⟩
    · exact .inr ⟨ops, budget, m₂, rfl, hl, hbuild, rfl⟩

/-- What a transaction on an eager locker can do: move nothing, or land the staged batch with
its own writes. -/
theorem eagerTransact_run {body : TxBody T} {r : Except Error Unit}
    (h : Run Served (EagerLocker.transact inner body) m r m') :
    Unmoved m m' ∨
    ∃ entries ops m₁, r = .ok () ∧
      Run Served (body.run inner []) ⟨m.dev, m.mem.lock⟩ (.ok entries) ⟨m.dev, m.mem.lock⟩ ∧
      Run Served ((opsForPending inner (mergeBatches m.mem.res.staged entries) .eager).zoom
        (sharedPart T)) ⟨m.dev, m.mem.lock.mapRes .drain⟩ (.ok ops) m₁ ∧
      m' = ⟨m₁.dev.commit ops, (dropDrained (
        let (ram, news) := entries.foldl EagerLocker.mirrorEntry (m₁.mem, [])
        { ram with events := ram.events ++ news })).unlock⟩ := by
  cases r with
  | error e => exact .inl (eagerTransact_error h)
  | ok u =>
    obtain ⟨u, m₁, hopen, h₁⟩ := run_bind_ok.1 h
    obtain ⟨-, rfl⟩ := run_ensureOpen.1 hopen
    obtain ⟨hl, m₂, hb, rfl⟩ := run_withWriteLock.1 h₁
    obtain ⟨entries, m₃, hbody, hrest⟩ := run_bind_ok.1 hb
    obtain rfl := (reads_txBody inner body []).run hbody
    split at hrest
    · obtain ⟨-, rfl⟩ := run_pure.1 hrest
      exact .inl (Unmoved.unlock hl (.refl _))
    · obtain ⟨before, m₄, htake, h₂⟩ := run_bind_ok.1 hrest
      obtain ⟨he, rfl⟩ := run_takeStaged.1 htake
      obtain rfl := Except.ok.inj he
      obtain ⟨m₅, hguarded, rfl⟩ := run_guarded.1 h₂
      obtain ⟨ops, m₆, hbuild, hafter⟩ := batch_ok hguarded
      obtain ⟨-, rfl⟩ := run_update.1 hafter
      exact .inr ⟨entries, ops, m₆, rfl, hbody, hbuild, rfl⟩

end

/-! ## Landing on an eager locker -/

section
variable {T : Type} {inner : Inner T} {db : Tables} {s s' : Shared} {ops : List Op}
  {staged : List Pending}

/-- What landing a batch leaves in the records of an eager locker: each put sealed inline. -/
def RecordsAfter (inner : Inner T) (db db' : Tables) (staged : List Pending) : Prop :=
  ∀ key, match stagedView staged key with
    | none => db'.lookup .records (inner.encodeKey key) = db.lookup .records (inner.encodeKey key)
    | some none => db'.lookup .records (inner.encodeKey key) = none
    | some (some payload) => ∃ sealed, inner.chain.sealSlice payload = .ok sealed ∧
      db'.lookup .records (inner.encodeKey key) = some sealed

theorem reads_eagerOps (staged : List Pending) :
    Reads (opsForItems inner staged .eager : Io Shared (List Op)) := by
  have reads_actions (actions : List (Bytes × Action)) : Reads (actionsOps inner .eager actions) := by
    induction actions with
    | nil => exact reads_pure
    | cons entry rest ih =>
      obtain ⟨key, action⟩ := entry
      refine Reads.bind ?_ fun ops => ih.bind fun more => reads_pure
      cases action with
      | put payload => exact reads_eagerPutOps inner key payload
      | delete => exact reads_deleteValueOps inner key .unknown
  unfold opsForItems
  refine Reads.bind ?_ fun ops => (reads_actions _).bind fun more => reads_pure
  split
  · exact reads_clearValueOps inner
  · exact reads_pure

/-- An eager locker stores its puts inline, one record for each key of the batch. -/
theorem recordsAfter_commit {m' : Machine Tables Shared}
    (h : Run Served (opsForItems inner staged .eager) ⟨db, s⟩ (.ok ops) m') :
    RecordsAfter inner db (db.commit ops) staged := by
  have hm := (reads_eagerOps staged).run h
  obtain ⟨s', writes, rfl, c⟩ := opsForItems_collapsed h
  obtain rfl : s' = s := congrArg Machine.mem hm
  have noId (w : KeyWrite) (hw : w ∈ writes) : w.body.newId = none := by
    -- No value id lies between a cursor and itself.
    cases hid : w.body.newId with
    | none => rfl
    | some id =>
      have hfresh := c.built.fresh id (List.mem_filterMap.2 ⟨w, hw, hid⟩)
      omega
  have nodup : (writes.map KeyWrite.key).Nodup := by
    rw [keys_of_does c.does]
    exact nodup_keys_toList _
  intro key
  have hwritten : written ((⟨clearedBy inner db staged, writes⟩ : Batch).ops inner) .records
      (inner.encodeKey key) = _ := written_batch_record nodup key
  rw [← c.built.data, written_dataOps ops (by decide)] at hwritten
  have hfind := c.find_isSome key
  rw [Tables.lookup_commit, hwritten, stagedView_eq_collapsed]
  cases hf : (⟨clearedBy inner db staged, writes⟩ : Batch).find key with
  | some w =>
    obtain ⟨hw, rfl⟩ := mem_writes_of_find hf
    obtain ⟨action, ha, hdoes⟩ := c.action_of_mem hw
    rw [ha]
    cases action with
    | delete =>
      have hgone : w.body = .gone := hdoes.body
      simp [Action.leaves, hgone, Body.record]
    | put payload =>
      have hseals : w.body.Seals inner FLAG_POSTCARD payload := hdoes.body
      cases hb : w.body with
      | gone => rw [hb] at hseals; exact hseals.elim
      | inline sealed =>
        rw [hb] at hseals
        exact ⟨sealed, hseals, by simp [hb, Body.record]⟩
      | chunked p sealed =>
        have hno := noId w hw
        rw [hb] at hno
        cases hno
  | none =>
    rw [hf] at hfind
    rw [Option.isNone_iff_eq_none.1 (Option.isSome_eq_false_iff.1 hfind.symm)]
    by_cases hclear : .clear ∈ staged
    · simp [clearedBy, hclear]
    · simp [clearedBy, hclear]

end
end Crossbank
