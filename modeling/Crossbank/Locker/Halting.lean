import Crossbank.Locker.Chunking
import Crossbank.Locker.Streaming
import Crossbank.Locker.Paging

/-!
# Writes that end

What a write runs before its commit is built of reads, and each of its loops moves on: a walk by its
pages, the pieces of a value by the chunk size.

* `Walkable` : a store that a walk gets to the end of;
* `halts_putPayloadOps`, `halts_batchOps`, ... : one lemma for each builder;
* `halts_flushLocked`, `halts_putBy`, `halts_transact` : the calls that put;
* `Writer.halts_flushFull`, `Writer.halts_finish` : the calls of a writer.
-/

namespace Crossbank
open Async

/-- The pages that are followed are more than the locker has records, and than it has rows in its
accounting. -/
structure Walkable {T : Type} (inner : Inner T) (db : Tables) : Prop where
  records : (inner.entries db .unbounded .unbounded).length < inner.backend.walkFuel
  rows : (Tree.inOrder false (db.get .meta) (.ofPrefix (lockerPrefix inner.id))).length <
    inner.backend.walkFuel

section
variable {ρ : Type} [WriteLock ρ] {m : Machine Tables ρ}

@[simp] theorem halts_get {table : Table} {key : Bytes} :
    (Backend.get table key : Io ρ _).Halts Served m :=
  Prog.halts_bind.2 ⟨Prog.halts_ask, fun _ _ _ => Prog.halts_ofExcept⟩

@[simp] theorem halts_scan {request : ScanRequest} :
    (Backend.scan request : Io ρ _).Halts Served m :=
  Prog.halts_bind.2 ⟨Prog.halts_ask, fun _ _ _ => Prog.halts_ofExcept⟩

@[simp] theorem halts_commitWith {ops : List Op} {options : CommitOptions} :
    (Backend.commitWith ops options : Io ρ _).Halts Served m :=
  Prog.halts_bind.2 ⟨Prog.halts_ask, fun _ _ _ => Prog.halts_ofExcept⟩

end

theorem Draws.halts_zoom {σ α : Type} [WriteLock σ] {l : Part σ Shared} {p : Io Shared α}
    (draws : Draws p) {m : Machine Tables σ} :
    (p.zoom l).Halts Served m ↔ p.Halts Served ⟨m.dev, l.get m.mem⟩ :=
  Prog.halts_zoom (fun _ _ _ _ hq => served_zoom l (isRead_ne_lock hq)) draws

/-! ## Reading -/

section
variable {T ρ σ : Type} [WriteLock ρ] {inner : Inner T} {m : Machine Tables ρ}

theorem halts_fetch (key : Bytes) : (inner.fetch key : Io ρ _).Halts Served m := halts_get

theorem halts_innerCommit (ops : List Op) : (inner.commit ops : Io ρ Unit).Halts Served m :=
  halts_commitWith

theorem halts_loadPayload (stored : Bytes) : (inner.loadPayload stored : Io ρ Bytes).Halts Served m := by
  unfold Inner.loadPayload
  split
  · exact Prog.halts_bind.2 ⟨Prog.halts_ofExcept, fun p m₁ _ => (readChunks_total p).halts⟩
  · exact Prog.halts_ofExcept

theorem halts_decodeRecord (stored : Bytes) : (inner.decodeRecord stored : Io ρ T).Halts Served m := by
  unfold Inner.decodeRecord
  refine Prog.halts_bind.2 ⟨halts_loadPayload stored, fun payload m₁ _ => ?_⟩
  exact Prog.halts_bind.2 ⟨Prog.halts_ofExcept, fun raw m₂ _ => Prog.halts_ofExcept⟩

theorem halts_loadValue (key : Bytes) : (inner.loadValue key : Io ρ (Option T)).Halts Served m := by
  unfold Inner.loadValue
  refine Prog.halts_bind.2 ⟨halts_fetch key, fun found m₁ _ => ?_⟩
  cases found with
  | none => exact Prog.halts_pure
  | some raw =>
    exact Prog.halts_bind.2 ⟨halts_decodeRecord raw, fun v m₂ _ => Prog.halts_pure⟩

theorem halts_walk (walkable : Walkable inner m.dev) {reverse wantValues : Bool}
    {visit : σ → Bytes → Option Bytes → Except Error σ} {acc : σ} :
    (inner.walk .unbounded .unbounded reverse wantValues visit acc : Io ρ σ).Halts Served m := by
  have follows (tree : Tree) (request : ScanRequest) (page : ScanPage) (some : 0 < request.limit)
      (h : page = scanTree tree request) : Pages tree request page := h ▸ scanTree_pages tree some
  have pages : (inner.walk .unbounded .unbounded reverse wantValues visit acc : Io ρ σ).Total
      (PagedBy (fun tree request page => page = scanTree tree request) fun _ => True) Scannable m _ :=
    (Inner.walk_total inner follows .unbounded .unbounded acc walkable.records).1
  refine (pages.of_sem fun q m₁ x m₂ scans served => ?_).halts
  obtain ⟨request, rfl, -, -⟩ := scans
  refine ⟨served.1, ?_⟩
  cases x with
  | ok page => exact served.2 page rfl
  | error e => trivial

theorem halts_txBody (body : TxBody T) (staged : List (Staged T)) :
    (body.run inner staged : Io ρ (List (Staged T))).Halts Served m := by
  induction body generalizing staged m with
  | done result =>
    cases result with
    | ok u => exact Prog.halts_pure
    | error e => exact Prog.halts_fail
  | put key value next ih =>
    rw [TxBody.run]
    split
    · exact ih _ _
    · exact ih _ _
  | delete key next ih => exact ih _
  | clear next ih => exact ih _
  | get key next ih =>
    have found : (txGet inner staged key : Io ρ (Option T)).Halts Served m := by
      unfold txGet
      split
      · exact Prog.halts_pure
      · exact Prog.halts_ofExcept
      · exact halts_loadValue key
    exact Prog.halts_attempt_bind.2 ⟨found, fun x m₁ _ => ih x _⟩

/-! ## Building -/

theorem halts_gcPrior (key : Bytes) (prior : Prior) :
    (inner.gcPrior key prior : Io ρ (List Op)).Halts Served m := by
  unfold Inner.gcPrior
  split
  · exact Prog.halts_bind.2 ⟨halts_fetch key, fun existing m₁ _ => Prog.halts_ofExcept⟩
  · exact Prog.halts_pure

theorem halts_deleteValueOps (key : Bytes) (prior : Prior) :
    (inner.deleteValueOps key prior : Io ρ (List Op)).Halts Served m :=
  Prog.halts_bind.2 ⟨halts_gcPrior key prior, fun _ _ _ => Prog.halts_pure⟩

theorem halts_victimOps (victims : List Bytes) :
    (victimOps inner victims : Io ρ (List Op)).Halts Served m := by
  induction victims generalizing m with
  | nil => exact Prog.halts_pure
  | cons victim rest ih =>
    refine Prog.halts_bind.2 ⟨halts_deleteValueOps victim .unknown, fun ops m₁ _ => ?_⟩
    exact Prog.halts_bind.2 ⟨ih, fun more m₂ _ => Prog.halts_pure⟩

theorem halts_clearValueOps (walkable : Walkable inner m.dev) :
    (inner.clearValueOps : Io ρ (List Op)).Halts Served m :=
  Prog.halts_bind.2 ⟨halts_walk walkable, fun _ _ _ => Prog.halts_pure⟩

theorem halts_eagerPutOps (key payload : Bytes) :
    (eagerPutOps inner key payload : Io ρ (List Op)).Halts Served m := by
  unfold eagerPutOps
  refine Prog.halts_bind.2 ⟨Prog.halts_ofExcept, fun sealed m₁ _ => ?_⟩
  split
  · exact Prog.halts_fail
  · exact Prog.halts_bind.2 ⟨halts_fetch key, fun existing m₂ _ => Prog.halts_pure⟩

end

section
variable {T : Type} {inner : Inner T} {m : Machine Tables Shared}

theorem halts_seedFloor : (ValueIds.seedFloor : Io Shared UInt64).Halts Served m := by
  unfold ValueIds.seedFloor
  refine Prog.halts_bind.2 ⟨halts_get, fun raw m₁ _ => ?_⟩
  refine Prog.halts_bind.2 ⟨Prog.halts_ofExcept, fun stored m₂ _ => ?_⟩
  refine Prog.halts_bind.2 ⟨?_, fun highest m₃ _ => ?_⟩
  · refine Prog.halts_bind.2 ⟨halts_scan, fun page m₃ _ => ?_⟩
    cases page.items.head? with
    | none => exact Prog.halts_pure
    | some item =>
      dsimp only
      split
      · exact Prog.halts_fail
      · exact Prog.halts_pure
  · cases highest with
    | none => exact Prog.halts_pure
    | some id => exact Prog.halts_bind.2 ⟨Prog.halts_ofExcept, fun past m₄ _ => Prog.halts_pure⟩

theorem halts_allocateValueId : ValueIds.allocate.Halts Served m := by
  refine Prog.halts_bind.2 ⟨Prog.halts_sync, fun id m₁ _ => ?_⟩
  cases id with
  | none => exact Prog.halts_bind.2 ⟨halts_seedFloor, fun floor m₂ _ => Prog.halts_sync⟩
  | some id => exact Prog.halts_pure

theorem halts_allocateTick : Ticks.allocate.Halts Served m := by
  refine Prog.halts_bind.2 ⟨Prog.halts_sync, fun tick m₁ _ => ?_⟩
  cases tick with
  | none =>
    refine Prog.halts_bind.2 ⟨halts_get, fun raw m₂ _ => ?_⟩
    exact Prog.halts_bind.2 ⟨Prog.halts_ofExcept, fun stored m₃ _ => Prog.halts_sync⟩
  | some tick => exact Prog.halts_pure

/-- A payload is cut into pieces that are not empty. -/
theorem halts_putPayloadOps (pos : 0 < inner.config.chunkSize) (key payload : Bytes) (flags : UInt8)
    (prior : Prior) : (inner.putPayloadOps key payload flags prior).Halts Served m := by
  unfold Inner.putPayloadOps
  refine Prog.halts_bind.2 ⟨halts_gcPrior key prior, fun gc m₁ _ => ?_⟩
  split
  · exact Prog.halts_bind.2 ⟨Prog.halts_ofExcept, fun sealed m₂ _ => Prog.halts_pure⟩
  · refine Prog.halts_bind.2 ⟨halts_allocateValueId, fun id m₂ _ => ?_⟩
    rw [if_neg (by omega)]
    refine Prog.halts_bind.2 ⟨Prog.halts_ofExcept, fun cut m₃ _ => ?_⟩
    exact Prog.halts_read_bind.2 Prog.halts_pure

theorem halts_actionsOps (pos : 0 < inner.config.chunkSize) (mode : TxMode)
    (actions : List (Bytes × Action)) : (actionsOps inner mode actions).Halts Served m := by
  induction actions generalizing m with
  | nil => exact Prog.halts_pure
  | cons entry rest ih =>
    obtain ⟨key, action⟩ := entry
    have first : (actionOps inner mode key action).Halts Served m := by
      cases action with
      | delete => exact halts_deleteValueOps key .unknown
      | put payload =>
        cases mode with
        | lazy => exact halts_putPayloadOps pos key payload _ _
        | eager => exact halts_eagerPutOps key payload
    refine Prog.halts_bind.2 ⟨first, fun ops m₁ _ => ?_⟩
    exact Prog.halts_bind.2 ⟨ih, fun more m₂ _ => Prog.halts_pure⟩

theorem halts_opsForItems (pos : 0 < inner.config.chunkSize) (walkable : Walkable inner m.dev)
    (staged : List Pending) (mode : TxMode) : (opsForItems inner staged mode).Halts Served m := by
  have cleared : (if .clear ∈ staged then inner.clearValueOps else pure [] : Io Shared _).Halts
      Served m := by
    split
    · exact halts_clearValueOps walkable
    · exact Prog.halts_pure
  refine Prog.halts_bind.2 ⟨cleared, fun ops m₁ _ => ?_⟩
  exact Prog.halts_bind.2 ⟨halts_actionsOps pos mode _, fun more m₂ _ => Prog.halts_pure⟩

/-- The pages of the accounting end: every page that is not the last leaves fewer rows. -/
theorem halts_loadPages (p : Bytes) {fuel : Nat} {range : KeyRange} {acc : LruState × Option UInt64}
    (enough : (Tree.inOrder false (m.dev.get .meta) range).length < fuel) :
    (loadPages p fuel range acc).Halts Served m := by
  induction fuel generalizing range acc m with
  | zero => omega
  | succ fuel ih =>
    refine Prog.halts_bind.2 ⟨halts_scan, fun page m₁ run => ?_⟩
    obtain ⟨rfl, hpage⟩ := run_scan.1 run
    obtain rfl := hpage page rfl
    dsimp only
    split
    · next last hresume =>
      obtain ⟨hall, hne⟩ := scanTree_next hresume
      have fewer := congrArg List.length hall
      rw [List.length_map, List.length_append, List.length_map] at fewer
      have some := List.length_pos_iff.2 hne
      refine ih ?_
      show (Tree.inOrder false (m₁.dev.get .meta) (range.after false last)).length < fuel
      dsimp only at fewer some
      omega
    · exact Prog.halts_pure

theorem halts_loadLru (walkable : Walkable inner m.dev) (maxBytes : Nat) :
    (loadLru inner.backend inner.id maxBytes).Halts Served m := by
  refine Prog.halts_bind.2 ⟨halts_loadPages _ walkable.rows, fun loaded m₁ _ => ?_⟩
  obtain ⟨state, maxTick⟩ := loaded
  cases maxTick with
  | none => exact Prog.halts_pure
  | some tick => exact Prog.halts_bind.2 ⟨Prog.halts_sync, fun u m₂ _ => Prog.halts_pure⟩

end

/-! ## Committing -/

section
variable {T α : Type} {inner : Inner T} {m : Machine Tables (Ram T)}

theorem halts_budgetOps (walkable : Walkable inner m.dev) (ops : List Op)
    (updates : List (Bytes × Nat)) (removals : List Bytes) (cleared : Bool) (keep : List Bytes) :
    (budgetOps inner ops updates removals cleared keep).Halts Served m := by
  rw [budgetOps, Prog.halts_read_bind]
  split
  · exact Prog.halts_pure
  have reloaded : (reloadLruIfDirty inner).Halts Served m := by
    rw [reloadLruIfDirty, Prog.halts_read_bind]
    split
    · exact Prog.halts_pure
    · split
      · exact Prog.halts_pure
      · refine Prog.halts_bind.2 ⟨?_, fun loaded m₁ _ => Prog.halts_update⟩
        exact (draws_loadLru inner.backend inner.id _).halts_zoom.2 (halts_loadLru walkable _)
  refine Prog.halts_bind.2 ⟨reloaded, fun _ m₁ _ => ?_⟩
  refine Prog.halts_bind.2 ⟨draws_allocateTick.halts_zoom.2 halts_allocateTick, fun tick m₂ _ => ?_⟩
  rw [Prog.halts_read_bind]
  split
  · exact Prog.halts_pure
  · refine Prog.halts_bind.2 ⟨halts_victimOps _, fun shed m₃ _ => ?_⟩
    exact Prog.halts_read_bind.2 Prog.halts_pure

theorem halts_batchOps (pos : 0 < inner.config.chunkSize) (walkable : Walkable inner m.dev)
    (merged : List Pending) (mode : TxMode) : (batchOps inner merged mode).Halts Served m := by
  have built : ((opsForPending inner merged mode).zoom (sharedPart T)).Halts Served m :=
    (draws_opsForItems inner merged mode).halts_zoom.2 (halts_opsForItems pos walkable merged mode)
  refine Prog.halts_bind.2 ⟨built, fun ops m₁ run => ?_⟩
  obtain ⟨s, rfl⟩ := (draws_opsForItems inner merged mode).run_zoom run
  exact halts_budgetOps (m := ⟨m.dev, (sharedPart T).set s m.mem⟩) walkable _ _ _ _ _

theorem halts_restagingOnError {entries : List Pending} {p : Io (Ram T) α} :
    (restagingOnError entries p).Halts Served m ↔ p.Halts Served m := by
  rw [restagingOnError, Prog.halts_attempt_bind]
  refine and_iff_left fun x m₁ _ => ?_
  cases x with
  | ok a => exact Prog.halts_pure
  | error e => exact Prog.halts_update_bind.2 Prog.halts_fail

/-- A call that holds the lock halts as its body does. One that waits for the lock is not stuck. -/
theorem halts_withWriteLock {body : Io (Ram T) α} : (withWriteLock body).Halts Served m ↔
    (m.mem.writeLock = false → body.Halts Served ⟨m.dev, m.mem.lock⟩) := by
  rw [withWriteLock, Prog.halts_bind]
  simp only [Prog.halts_ask, true_and, Prog.halts_guarded, run_ask]
  constructor
  · intro h free
    refine h () _ ⟨(), ⟨m.mem.lock, ?_, rfl⟩, trivial⟩
    simp [WriteLock.acquire, free]
  · rintro h u m₁ ⟨x, ⟨s, hs, rfl⟩, -⟩
    simp only [WriteLock.acquire] at hs
    split at hs
    · cases hs
    · next free =>
      rw [← Option.some.inj hs]
      exact h (Bool.eq_false_iff.2 free)

theorem halts_ensureOpen_bind {p : Io (Ram T) α} (h : p.Halts Served m) :
    (Ram.ensureOpen >>= fun _ => p).Halts Served m := by
  refine Prog.halts_bind.2 ⟨Prog.halts_sync, fun _ m₁ run => ?_⟩
  rwa [(run_ensureOpen.1 run).2]

/-- A batch that is built, committed and taken note of. -/
theorem halts_drained {before : List Pending} {build : Io (Ram T) (List Op × Budget)}
    (after : Budget → Io (Ram T) α) (built : build.Halts Served m)
    (noted : ∀ budget m₁, (after budget).Halts Served m₁) : (do
      let (ops, budget) ← restagingOnError before build
      restagingOnError before (inner.commit ops)
      after budget : Io (Ram T) α).Halts Served m := by
  refine Prog.halts_bind.2 ⟨halts_restagingOnError.2 built, fun x m₁ _ => ?_⟩
  exact Prog.halts_bind.2 ⟨halts_restagingOnError.2 (halts_innerCommit x.1), fun _ m₂ _ =>
    noted x.2 m₂⟩

theorem halts_flushLocked (pos : 0 < inner.config.chunkSize) (walkable : Walkable inner m.dev) :
    (flushLocked inner).Halts Served m := by
  refine Prog.halts_bind.2 ⟨Prog.halts_sync, fun entries m₁ run => ?_⟩
  obtain ⟨-, rfl⟩ := run_takeStaged.1 run
  rw [Prog.halts_guarded]
  split
  · exact Prog.halts_pure
  · rw [Prog.halts_read_bind]
    refine halts_drained (fun budget => Prog.update (applyBudget budget)) ?_ fun budget m₂ =>
      Prog.halts_update
    exact halts_batchOps (m := ⟨m.dev, m.mem.mapRes .drain⟩) pos walkable _ _

/-! ## The calls -/

namespace LazyLocker

theorem halts_putBy (pos : 0 < inner.config.chunkSize) (walkable : Walkable inner m.dev) (key : Bytes)
    (value : T) : (putBy inner key value).Halts Served m := by
  refine halts_ensureOpen_bind (halts_withWriteLock.2 fun _ => ?_)
  refine Prog.halts_bind.2 ⟨Prog.halts_ofExcept, fun payload m₁ run => ?_⟩
  obtain ⟨-, rfl⟩ := run_ofExcept.1 run
  split
  · refine Prog.halts_bind.2 ⟨Prog.halts_sync, fun full m₂ staged => ?_⟩
    obtain ⟨-, rfl⟩ := run_sync.1 staged
    rw [Prog.halts_update_bind, Prog.halts_update_bind, Prog.halts_update_bind]
    split
    · exact halts_flushLocked pos walkable
    · exact Prog.halts_pure
  · rw [Prog.halts_read_bind]
    have draws := draws_putPayloadOps inner key payload FLAG_POSTCARD
    refine Prog.halts_bind.2 ⟨(draws _).halts_zoom.2 (halts_putPayloadOps pos _ _ _ _), ?_⟩
    intro ops m₂ built
    obtain ⟨s, rfl⟩ := (draws _).run_zoom built
    have budgeted := halts_budgetOps (m := ⟨m.dev, (sharedPart T).set s m.mem.lock⟩) walkable ops
      [(key, payload.length)] [] false [key]
    refine Prog.halts_bind.2 ⟨budgeted, fun x m₃ _ => ?_⟩
    refine Prog.halts_bind.2 ⟨halts_innerCommit _, fun _ m₄ _ => ?_⟩
    rw [Prog.halts_update_bind, Prog.halts_update_bind, Prog.halts_update_bind]
    exact Prog.halts_update

theorem halts_transact (pos : 0 < inner.config.chunkSize) (walkable : Walkable inner m.dev)
    (body : TxBody T) : (transact inner body).Halts Served m := by
  refine halts_ensureOpen_bind (halts_withWriteLock.2 fun _ => ?_)
  refine Prog.halts_bind.2 ⟨halts_txBody body [], fun entries m₁ run => ?_⟩
  obtain rfl := (reads_txBody inner body []).run run
  split
  · exact Prog.halts_pure
  · refine Prog.halts_bind.2 ⟨Prog.halts_sync, fun before m₂ taken => ?_⟩
    obtain ⟨hbefore, rfl⟩ := run_takeStaged.1 taken
    obtain rfl := Except.ok.inj hbefore
    rw [Prog.halts_guarded]
    have batched := halts_batchOps (m := ⟨m.dev, m.mem.lock.mapRes .drain⟩) pos walkable
      (mergeBatches m.mem.res.staged entries) .lazy
    exact halts_drained (fun budget => do
      Prog.update (Ram.mapRes (·.touchIndex (indexAfter entries)))
      Prog.update (Ram.mapRes Resident.forgetInline)
      Prog.update (applyBudget budget)
      Prog.update fun ram => { ram with events := ram.events ++ entries.map noticeOf }) batched
      fun budget m₃ => Prog.halts_update_bind.2 (Prog.halts_update_bind.2
        (Prog.halts_update_bind.2 Prog.halts_update))

end LazyLocker

namespace Writer
variable {w : Writer}

theorem halts_flushPiece (piece : Bytes) : (flushPiece inner w piece).Halts Served m :=
  Prog.halts_bind.2 ⟨Prog.halts_ofExcept, fun _ _ _ => halts_innerCommit _⟩

/-- The loop of a writer ends where each round leaves less in the buffer. -/
theorem halts_flushFull (pos : 0 < inner.config.chunkSize) {fuel : Nat} (enough : w.buf.length < fuel) :
    (flushFull inner fuel w).Halts Served m := by
  induction fuel generalizing w m with
  | zero => omega
  | succ fuel ih =>
    rw [flushFull]
    split
    · next full =>
      refine Prog.halts_attempt_bind.2 ⟨halts_flushPiece _, fun x m₁ _ => ?_⟩
      cases x with
      | ok u =>
        refine ih ?_
        show (w.buf.drop inner.config.chunkSize).length < fuel
        rw [List.length_drop]
        omega
      | error e => exact Prog.halts_pure
    · exact Prog.halts_pure

theorem halts_writeChunk (pos : 0 < inner.config.chunkSize) (bytes : Bytes) :
    (writeChunk inner w bytes).Halts Served m := halts_flushFull pos (Nat.lt_succ_self _)

theorem halts_finish : (finish inner w).Halts Served m := by
  rw [finish_eq]
  refine Prog.halts_bind.2 ⟨?_, fun w₁ m₁ _ => ?_⟩
  · unfold leftover
    split
    · exact Prog.halts_pure
    · exact Prog.halts_bind.2 ⟨halts_flushPiece _, fun _ _ _ => Prog.halts_pure⟩
  · refine Prog.halts_bind.2 ⟨halts_fetch _, fun existing m₂ _ => ?_⟩
    refine Prog.halts_bind.2 ⟨Prog.halts_ofExcept, fun gc m₃ _ => ?_⟩
    refine Prog.halts_bind.2 ⟨halts_innerCommit _, fun _ m₄ _ => ?_⟩
    rw [Prog.halts_update_bind, Prog.halts_update_bind]
    exact Prog.halts_update

end Writer

end
end Crossbank
