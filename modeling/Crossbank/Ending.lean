import Crossbank.Locker.Beside
import Crossbank.Locker.Halting
import Crossbank.Locker.Legible
import Crossbank.Retry

/-!
# Writes of every configuration

A locker may be opened with a chunk size of zero, which the builder of its configuration never makes.
Then a value that is cut is cut into nothing: a put of it panics, and a writer goes round for ever.

* `done_putBy`, `done_transact` : a put or a transaction that succeeds has done what it is for;
* `WritesEnd` : every write ends;
* `ReadsBack` : what is accepted reads back, and when it does not;
* `writes_end_iff` : both hold exactly where the chunk size is not zero.
-/

namespace Crossbank
open Async

/-! ## What a write that succeeds leaves -/

section
variable {T : Type} {inner : Inner T} {m m' : Machine Tables (Ram T)} {commit : CallCommit}
  {build : Io (Ram T) (List Op)}

theorem touches_unlock : Touches (Ram.unlock (T := T)) := fun _ => ⟨rfl, rfl, rfl⟩

theorem touches_dropDrained : Touches (dropDrained (T := T)) := fun _ => ⟨rfl, rfl, rfl⟩

theorem done_flushLocked {batch : List Pending} {ram : Ram T} {u : Unit} (clean : Clean m.mem)
    (lazy : IsLazy m.mem) (shared : ram.shared = m.mem.shared)
    (core : ram.res.core = (m.mem.res.lru, m.mem.res.mode, batch)) (open_ : ram.closed = false)
    (some : batch ≠ []) (run : Run Served (flushLocked inner) ⟨m.dev, ram⟩ (.ok u) m') :
    ∃ ops, LandsBatch inner m batch ops ∧ Ended (m.dev.commit ops) [] m' := by
  obtain ⟨hlru, hrest⟩ := Prod.mk.inj core
  obtain ⟨hmode, rfl⟩ := Prod.mk.inj hrest
  have clean' : Clean ram := fun state hstate => clean state (hlru ▸ hstate)
  have drained : Clean (ram.mapRes .drain) := clean'
  rcases flushLocked_run (m := ⟨m.dev, ram⟩) clean' run with ⟨-, hnone⟩ | ⟨ops, budget, m₁, -, hbuild, rfl⟩
  · exact absurd (hnone rfl) some
  · have hlazy : ram.res.mode = .lazy := hmode.trans lazy
    dsimp only at hbuild
    rw [hlazy] at hbuild
    have hreckon : Run Served (reckon inner ((opsForPending inner ram.res.staged .lazy).zoom
        (sharedPart T)) ram.res.staged) ⟨m.dev, ram.mapRes .drain⟩ (.ok (ops, budget)) m₁ := hbuild
    obtain ⟨hlands, hunmoved, -⟩ := reckon_run (builds_batch ram.res.staged) drained hreckon
    have hended : Ended (m.dev.commit ops) [] ⟨m₁.dev.commit ops, m₁.mem⟩ :=
      ended_of_unmoved (m := ⟨m.dev, ram.mapRes .drain⟩) hunmoved open_
    exact ⟨ops, hlands.congr rfl shared.symm hlru.symm,
      touches_dropDrained.ended (ended_applyBudget hended)⟩

/-- A put that succeeds has staged its write, or committed it. -/
theorem done_putBy {key : Bytes} {value : T} {u : Unit} (reached : LazyLocker.Reached inner m)
    (run : Run Served (LazyLocker.putBy inner key value) m (.ok u) m') :
    ∃ payload, inner.value.payload value = .ok payload ∧
      (WriteCall.put key payload value).Done inner m m' := by
  have clean : Clean m.mem.lock := reached.clean
  have lazy : IsLazy m.mem.lock := reached.isLazy
  obtain ⟨u₀, m₀, hopen, h₀⟩ := run_bind_ok.1 run
  obtain ⟨hclosed, rfl⟩ := run_ensureOpen.1 hopen
  have open_ : m₀.mem.closed = false := by
    cases hc : m₀.mem.closed with
    | false => rfl
    | true => simp [hc] at hclosed
  obtain ⟨-, m₁, hbody, rfl⟩ := run_withWriteLock.1 h₀
  obtain ⟨payload, m₂, hpayload, h₁⟩ := run_bind_ok.1 hbody
  obtain ⟨hp, rfl⟩ := run_ofExcept.1 hpayload
  refine ⟨payload, hp.symm, ?_⟩
  split at h₁
  · next deferred =>
    obtain ⟨after, hafter⟩ := Option.isSome_iff_exists.1 deferred
    obtain ⟨full, m₃, hstage, h₂⟩ := run_bind_ok.1 h₁
    obtain ⟨hsync, rfl⟩ := run_sync.1 hstage
    have hfull : full = decide (after ≤ (m₀.mem.res.staged ++ [Pending.put key payload]).length) := by
      rw [Except.ok.inj hsync, hafter]
      rfl
    rw [run_update_bind, run_update_bind, run_update_bind] at h₂
    have hall : Touches fun ram : Ram T => ((ram.mapRes (·.touchIndex (·.insert key))).mapRes
        (·.noteInline key false)).announce (.put key) :=
      (touches_announce _).comp ((touches_noteInline _ _).comp (touches_touchIndex _))
    obtain ⟨hcore, hshared, -⟩ := hall (m₀.mem.lock.mapRes fun r => { r with
      staged := m₀.mem.res.staged ++ [.put key payload] })
    by_cases hle : after ≤ (m₀.mem.res.staged ++ [Pending.put key payload]).length
    · have hcommits : (WriteCall.put key payload value).commits inner m₀ =
          some ⟨m₀.mem.res.staged ++ [.put key payload], true⟩ := by
        show WriteCall.single inner m₀ _ _ = _
        rw [WriteCall.single, hafter]
        exact if_pos hle
      rw [hfull, if_pos (decide_eq_true hle)] at h₂
      obtain ⟨ops, hlands, hended⟩ := done_flushLocked (m := ⟨m₀.dev, m₀.mem.lock⟩) clean lazy hshared
        hcore open_ (List.append_ne_nil_of_right_ne_nil _ (List.cons_ne_nil _ _)) h₂
      exact (WriteCall.done_some hcommits).2 ⟨ops, hlands.congr rfl rfl rfl, touches_unlock.ended hended⟩
    · have hcommits : (WriteCall.put key payload value).commits inner m₀ = none := by
        show WriteCall.single inner m₀ _ _ = _
        rw [WriteCall.single, hafter]
        exact if_neg hle
      rw [hfull, if_neg fun h => hle (of_decide_eq_true h)] at h₂
      obtain ⟨-, rfl⟩ := run_pure.1 h₂
      have hstaged : Ended m₀.dev (m₀.mem.res.staged ++ [.put key payload]) ⟨m₀.dev,
          m₀.mem.lock.mapRes fun r => { r with staged := m₀.mem.res.staged ++ [.put key payload] }⟩ :=
        ⟨rfl, rfl, open_⟩
      exact (WriteCall.done_none hcommits).2 (touches_unlock.ended (hall.ended hstaged))
  · next immediate =>
    have hcommits : (WriteCall.put key payload value).commits inner m₀ =
        some ⟨[.put key payload], (m₀.mem.prior key).needsRead⟩ := by
      rw [isDeferred, Option.not_isSome_iff_eq_none] at immediate
      show WriteCall.single inner m₀ _ _ = _
      rw [WriteCall.single, immediate]
    have h₂ := run_read_bind.1 h₁
    dsimp only at h₂
    obtain ⟨ops, m₃, hbuild, h₃⟩ := run_bind_ok.1 h₂
    obtain ⟨x, m₄, hbudget, h₄⟩ := run_bind_ok.1 h₃
    have hreckon : Run Served (reckon inner ((inner.putPayloadOps key payload FLAG_POSTCARD
        (m₀.mem.prior key)).zoom (sharedPart T)) [.put key payload]) ⟨m₀.dev, m₀.mem.lock⟩ (.ok x) m₄ :=
      run_bind.2 (.inl ⟨ops, m₃, hbuild, hbudget⟩)
    obtain ⟨hlands, hunmoved, -⟩ := reckon_run (m := ⟨m₀.dev, m₀.mem.lock⟩)
      (builds_put key payload (m₀.mem.prior key)) clean hreckon
    obtain ⟨u₁, m₅, hcommit, h₅⟩ := run_bind_ok.1 h₄
    rcases run_innerCommit.1 hcommit with ⟨-, rfl⟩ | ⟨e, he, -⟩
    · rw [run_update_bind, run_update_bind, run_update_bind] at h₅
      obtain ⟨-, rfl⟩ := run_update.1 h₅
      have hended : Ended (m₀.dev.commit x.1) m₀.mem.res.staged ⟨m₄.dev.commit x.1, m₄.mem⟩ :=
        ended_of_unmoved (m := ⟨m₀.dev, m₀.mem.lock⟩) hunmoved open_
      have idle : m₀.mem.res.staged = [] := reached.idle (by simpa using immediate)
      rw [idle] at hended
      exact (WriteCall.done_some hcommits).2 ⟨x.1, hlands.congr rfl rfl rfl, touches_unlock.ended
        ((touches_announce _).ended (ended_applyBudget ((touches_noteInline _ _).ended
          ((touches_touchIndex _).ended hended))))⟩
    · cases he

/-- A transaction that succeeds has committed what its closure left. -/
theorem done_transact {body : TxBody T} {u : Unit} (reached : LazyLocker.Reached inner m)
    (run : Run Served (LazyLocker.transact inner body) m (.ok u) m') : ∃ own,
    Run Served (body.run inner []) ⟨m.dev, m.mem.lock⟩ (.ok own) ⟨m.dev, m.mem.lock⟩ ∧
      (WriteCall.transact body own).Done inner m m' := by
  have clean : Clean (m.mem.lock.mapRes .drain) := reached.clean
  obtain ⟨u₀, m₀, hopen, h₀⟩ := run_bind_ok.1 run
  obtain ⟨hclosed, rfl⟩ := run_ensureOpen.1 hopen
  have open_ : m₀.mem.closed = false := by
    cases hc : m₀.mem.closed with
    | false => rfl
    | true => simp [hc] at hclosed
  obtain ⟨-, m₁, h₁, rfl⟩ := run_withWriteLock.1 h₀
  obtain ⟨own, m₂, hbody, h₂⟩ := run_bind_ok.1 h₁
  obtain rfl := (reads_txBody inner body []).run hbody
  refine ⟨own, hbody, ?_⟩
  split at h₂
  · next hempty =>
    have hcommits : (WriteCall.transact body own).commits inner m₀ = none := if_pos hempty
    obtain ⟨-, rfl⟩ := run_pure.1 h₂
    refine (WriteCall.done_none hcommits).2 ⟨rfl, ?_, open_⟩
    rw [WriteCall.own, List.isEmpty_iff.1 hempty]
    exact (List.append_nil _).symm
  · next hsome =>
    have hcommits : (WriteCall.transact body own).commits inner m₀ =
        some ⟨mergeBatches m₀.mem.res.staged own, true⟩ := if_neg hsome
    obtain ⟨before, m₃, htake, h₃⟩ := run_bind_ok.1 h₂
    obtain ⟨hbefore, rfl⟩ := run_takeStaged.1 htake
    obtain rfl := Except.ok.inj hbefore
    obtain ⟨m₄, hguarded, rfl⟩ := run_guarded.1 h₃
    obtain ⟨x, m₅, hbuild, hafter⟩ := batch_ok hguarded
    have hreckon : Run Served (reckon inner ((opsForPending inner (mergeBatches m₀.mem.res.staged own)
        .lazy).zoom (sharedPart T)) (mergeBatches m₀.mem.res.staged own))
        ⟨m₀.dev, m₀.mem.lock.mapRes .drain⟩ (.ok x) m₅ := hbuild
    obtain ⟨hlands, hunmoved, -⟩ := reckon_run (m := ⟨m₀.dev, m₀.mem.lock.mapRes .drain⟩)
      (builds_batch (mergeBatches m₀.mem.res.staged own)) clean hreckon
    have hended : Ended (m₀.dev.commit x.1) [] ⟨m₅.dev.commit x.1, m₅.mem⟩ :=
      ended_of_unmoved (m := ⟨m₀.dev, m₀.mem.lock.mapRes .drain⟩) hunmoved open_
    rw [run_update_bind, run_update_bind, run_update_bind] at hafter
    obtain ⟨-, rfl⟩ := run_update.1 hafter
    exact (WriteCall.done_some hcommits).2 ⟨x.1, hlands.congr rfl rfl rfl,
      touches_unlock.ended (touches_dropDrained.ended (ended_applyBudget
        (touches_forgetInline.ended ((touches_touchIndex _).ended hended))))⟩

theorem run_putAllBody {entries : List (Bytes × T)} {staged own : List (Staged T)}
    (run : Run Served ((putAllBody entries).run inner staged) m (.ok own) m') :
    ∃ payloads, List.Forall₂ (fun e payload => inner.value.payload e.2 = .ok payload) entries payloads ∧
      own = staged ++ (entries.zip payloads).map fun e => .put e.1.1 e.2 e.1.2 := by
  induction entries generalizing staged with
  | nil =>
    refine ⟨[], .nil, ?_⟩
    simpa using Except.ok.inj (run_pure.1 run).1
  | cons e entries ih =>
    rw [putAllBody, TxBody.run] at run
    split at run
    · next payload hpayload =>
      obtain ⟨payloads, hall, rfl⟩ := ih run
      exact ⟨payload :: payloads, .cons hpayload hall, by simp⟩
    · cases (run_fail.1 run).1

/-- The last entry of a `put_all` for a key is the last write to it. -/
theorem lastPut_putAll {before after : List (Bytes × T)} {payloads : List Bytes} {key : Bytes} {v : T}
    (hall : List.Forall₂ (fun e payload => inner.value.payload e.2 = .ok payload)
      (before ++ (key, v) :: after) payloads) (last : key ∉ after.map Prod.fst) :
    ∃ payload, inner.value.payload v = .ok payload ∧
      LastPut (((before ++ (key, v) :: after).zip payloads).map fun e => .put e.1.1 e.2 e.1.2)
        key payload v := by
  induction before generalizing payloads with
  | nil =>
    rw [List.nil_append] at hall
    obtain ⟨payload, payloads, serialised, -, rfl⟩ := List.forall₂_cons_left_iff.1 hall
    refine ⟨payload, serialised, [], _, rfl, ?_⟩
    rw [stagedView_eq_findSome?, List.findSome?_eq_none_iff]
    intro entry hentry
    obtain ⟨write, hwrite, rfl⟩ := List.mem_map.1 (List.mem_reverse.1 hentry)
    obtain ⟨⟨e, payload'⟩, he, rfl⟩ := List.mem_map.1 hwrite
    have other : e.1 ≠ key := fun h => last (List.mem_map.2 ⟨e, (List.of_mem_zip he).1, h⟩)
    simp [Staged.pending, Pending.effect, other]
  | cons e before ih =>
    rw [List.cons_append] at hall
    obtain ⟨payload, payloads, -, hrest, rfl⟩ := List.forall₂_cons_left_iff.1 hall
    obtain ⟨payload', serialised, before', after', hsplit, untouched⟩ := ih hrest
    refine ⟨payload', serialised, .put e.1 payload e.2 :: before', after', ?_, untouched⟩
    rw [List.cons_append, List.zip_cons_cons, List.map_cons, hsplit]
    rfl

end

/-! ## What is not cut -/

section
variable {T : Type} {inner : Inner T} {m : Machine Tables (Ram T)} {key payload : Bytes} {v : T}

theorem not_halts_putPayloadOps (zero : inner.config.chunkSize = 0) (some : payload ≠ [])
    {prior : Prior} {db : Tables} {s s' : Shared} {id : UInt64} {gc : List Op}
    (collects : Run Served (inner.gcPrior key prior) ⟨db, s⟩ (.ok gc) ⟨db, s⟩)
    (allocates : Run Served ValueIds.allocate ⟨db, s⟩ (.ok id) ⟨db, s'⟩) :
    ¬ (inner.putPayloadOps key payload FLAG_POSTCARD prior).Halts Served ⟨db, s⟩ := by
  intro halts
  unfold Inner.putPayloadOps at halts
  have cut := (Prog.halts_bind.1 halts).2 gc _ collects
  have long : ¬ inner.storesInline payload.length FLAG_POSTCARD = true := by
    have := List.length_pos_iff.2 some
    simp only [Inner.storesInline, zero, Bool.and_eq_true, decide_eq_true_eq]
    omega
  rw [if_neg long] at cut
  have taken := (Prog.halts_bind.1 cut).2 id _ allocates
  rw [if_pos zero] at taken
  exact Prog.not_halts_stuck taken

theorem not_halts_putAll (zero : inner.config.chunkSize = 0) (some : payload ≠ [])
    (serialised : inner.value.payload v = .ok payload) (open_ : m.mem.closed = false)
    (free : m.mem.writeLock = false) (idle : m.mem.res.staged = [])
    (absent : m.dev.lookup .records (inner.encodeKey key) = none) {id : UInt64} {s : Shared}
    (allocates : Run Served ValueIds.allocate ⟨m.dev, m.mem.shared⟩ (.ok id) ⟨m.dev, s⟩) :
    ¬ (LazyLocker.putAll inner [(key, v)]).Halts Served m := by
  intro halts
  have opened : Run Served Ram.ensureOpen m (.ok ()) m := run_ensureOpen.2 ⟨by simp [open_], rfl⟩
  have locked := halts_withWriteLock.1 ((Prog.halts_bind.1 halts).2 () m opened) free
  have closure : Run Served ((putAllBody [(key, v)]).run inner []) ⟨m.dev, m.mem.lock⟩
      (.ok [.put key payload v]) ⟨m.dev, m.mem.lock⟩ := by
    rw [putAllBody, TxBody.run, serialised]
    exact run_pure.2 ⟨rfl, rfl⟩
  have drained := (Prog.halts_bind.1 locked).2 _ _ closure
  rw [if_neg (by simp)] at drained
  have taken := (Prog.halts_bind.1 drained).2 _ _ (run_takeStaged.2 ⟨rfl, rfl⟩)
  rw [Prog.halts_guarded] at taken
  have batched := halts_restagingOnError.1 (Prog.halts_bind.1 taken).1
  have merged : mergeBatches m.mem.lock.res.staged [(.put key payload v : Staged T)] =
      [.put key payload] := by
    rw [show m.mem.lock.res.staged = [] from idle]
    rfl
  have built := (Prog.halts_bind.1 batched).1
  dsimp only at built
  rw [merged, opsForPending, (draws_opsForItems inner _ .lazy).halts_zoom] at built
  -- The batch collapses to the one put, of which the pieces are asked for first.
  have noClear : Run Served (if .clear ∈ [Pending.put key payload] then inner.clearValueOps
      else pure [] : Io Shared (List Op)) ⟨m.dev, m.mem.shared⟩ (.ok []) ⟨m.dev, m.mem.shared⟩ := by
    rw [if_neg (by simp)]
    exact run_pure.2 ⟨rfl, rfl⟩
  have acted := (Prog.halts_bind.1 ((Prog.halts_bind.1 built).2 [] _ noClear)).1
  have one : (actionsOf (afterLastClear [.put key payload])).toList = [(key, .put payload)] := by
    show (collapsed [.put key payload]).toList = _
    rw [collapsed_singleton_put]
    rfl
  rw [one] at acted
  have collects : Run Served (inner.gcPrior key .unknown : Io Shared _) ⟨m.dev, m.mem.shared⟩
      (.ok []) ⟨m.dev, m.mem.shared⟩ := by
    refine run_bind.2 (.inl ⟨none, _, run_get.2 ⟨rfl, ?_⟩, run_ofExcept.2 ⟨rfl, rfl⟩⟩)
    intro found hfound
    rw [← Except.ok.inj hfound, absent]
  exact not_halts_putPayloadOps zero some collects allocates (Prog.halts_bind.1 acted).1

/-- A writer goes round for ever, as long as the empty piece can be sealed. -/
theorem Writer.not_halts_flushFull (zero : inner.config.chunkSize = 0) {sealed : Bytes}
    (seals : inner.chain.sealSlice [] = .ok sealed) (fuel : Nat) (w : Writer) :
    ¬ (flushFull inner fuel w).Halts Served m := by
  induction fuel generalizing w m with
  | zero => exact Prog.not_halts_stuck
  | succ fuel ih =>
    intro halts
    rw [flushFull, if_pos (by omega)] at halts
    have piece : w.buf.take inner.config.chunkSize = [] := by rw [zero, List.take_zero]
    have flushed := answered_flushPiece (w := { w with
      buf := w.buf.drop inner.config.chunkSize }) (m := m) seals
    rw [← piece] at flushed
    exact ih _ ((Prog.halts_attempt_bind.1 halts).2 _ _ (Answered.served flushed))

/-! ## Every configuration -/

def LazyCall.Stores {T : Type} : LazyCall T → Prop
  | .put .. | .putAll _ | .transact _ | .writeChunk .. | .finish _ => True
  | _ => False

/-- Every call that stores a value ends, whatever it is answered, and does not panic. -/
def WritesEnd (inner : Inner T) : Prop :=
  ∀ (c : LazyCall T) (m : Machine Tables (Ram T)), c.Stores → LazyLocker.Reached inner m →
    Walkable inner m.dev → (c.prog inner).Halts Served m

/-- A state of an open locker, in which value ids are not handed out twice. -/
structure Ready (inner : Inner T) (m : Machine Tables (Ram T)) : Prop where
  reached : LazyLocker.Reached inner m
  apart : Apart m.dev (idCursor m.dev m.mem.shared)

/-- The locker can note that the key is read. -/
def NotesReads (m : Machine Tables (Ram T)) : Prop :=
  m.mem.res.lru.isSome = true → ClockRuns m

/-- What a call reports stored reads back, or it does not. What is put does where it is legible, or only
staged. A stream does where it is not too long, unless something is staged for its key in the end. -/
structure ReadsBack (inner : Inner T) : Prop where
  put : ∀ m m' key v, Ready inner m → Run Served (LazyLocker.putBy inner key v) m (.ok ()) m' →
    ∃ payload, inner.value.payload v = .ok payload ∧ (payload.length < 2 ^ 64 →
      (Answers inner m' key (.ok (some v)) ↔
        (WriteCall.put key payload v).commits inner m = none ∨
          inner.Legible payload v ∧ NotesReads m'))
  transact : ∀ m m' body, Ready inner m →
    Run Served (LazyLocker.transact inner body) m (.ok ()) m' →
    ∃ own, Run Served (body.run inner []) ⟨m.dev, m.mem.lock⟩ (.ok own) ⟨m.dev, m.mem.lock⟩ ∧
      ∀ key payload v, LastPut own key payload v → inner.value.payload v = .ok payload ∧
        (payload.length < 2 ^ 64 → (Answers inner m' key (.ok (some v)) ↔
          inner.Legible payload v ∧ NotesReads m'))
  putAll : ∀ m m' before key v after, Ready inner m → key ∉ after.map Prod.fst →
    Run Served (LazyLocker.putAll inner (before ++ (key, v) :: after)) m (.ok ()) m' →
    ∃ payload, inner.value.payload v = .ok payload ∧ (payload.length < 2 ^ 64 →
      (Answers inner m' key (.ok (some v)) ↔ inner.Legible payload v ∧ NotesReads m'))
  stream : ∀ m₀ m m' name w bufs v, Ready inner m₀ → Writer.Beside inner name m₀ w bufs m →
    Run Served (Writer.finish inner w) m (.ok ()) m' → m.mem.closed = false →
    bufs.flatten.length < 2 ^ 64 → inner.valueOf true bufs.flatten = .ok v →
    (Answers inner m' (asBytes name) (.ok (some v)) ↔
      (∃ payload, stagedView m.mem.res.staged (asBytes name) = some (some payload) ∧
        inner.value.ofPayload payload = .ok v) ∨
      stagedView m.mem.res.staged (asBytes name) = none ∧
        bufs.flatten.length ≤ MAX_DECODED_BYTES ∧ NotesReads m')

theorem writesEnd_of_pos (pos : 0 < inner.config.chunkSize) : WritesEnd inner := by
  intro c m stores _ walkable
  cases c with
  | put key value => exact LazyLocker.halts_putBy pos walkable key value
  | transact body => exact LazyLocker.halts_transact pos walkable body
  | putAll entries =>
    show (LazyLocker.putAll inner entries).Halts Served m
    unfold LazyLocker.putAll
    split
    · exact Prog.halts_pure
    · exact LazyLocker.halts_transact pos walkable _
  | writeChunk w bytes => exact Prog.halts_map.2 (Writer.halts_writeChunk pos bytes)
  | finish w => exact Writer.halts_finish
  | get | list | delete | clear | deleteAll | flush | evictTo | writer | abort | close =>
    exact stores.elim

/-- A batch of writes that succeeds has committed them, so that they have to be legible. -/
theorem readsBack_transact {body : TxBody T} {own : List (Staged T)} {key payload : Bytes}
    (ready : Ready inner m) (chain : inner.chain.Inverts) (value : inner.value.Inverts)
    (done : (WriteCall.transact body own).Done inner m m') (last : LastPut own key payload v)
    (serialised : inner.value.payload v = .ok payload) (size : payload.length < 2 ^ 64) :
    Answers inner m' key (.ok (some v)) ↔ inner.Legible payload v ∧ NotesReads m' := by
  have committed : (WriteCall.transact body own).commits inner m ≠ none := by
    obtain ⟨before, after, rfl, -⟩ := last
    show (if (before ++ Staged.put key payload v :: after).isEmpty then none else _) ≠ none
    simp
  rw [done.answers_iff ready.reached.idle chain value ready.apart serialised last size]
  simp only [committed, false_or]
  rfl

theorem readsBack_of_pos (pos : 0 < inner.config.chunkSize) (chain : inner.chain.Inverts)
    (value : inner.value.Inverts) : ReadsBack inner where
  put m m' key v ready run := by
    obtain ⟨payload, serialised, done⟩ := done_putBy ready.reached run
    have last : LastPut (WriteCall.put key payload v).own key payload v := ⟨[], [], rfl, rfl⟩
    exact ⟨payload, serialised, fun size =>
      done.answers_iff ready.reached.idle chain value ready.apart serialised last size⟩
  transact m m' body ready run := by
    obtain ⟨own, hbody, done⟩ := done_transact ready.reached run
    refine ⟨own, hbody, fun key payload v last => ?_⟩
    have all := EagerLocker.serialised_of_run hbody fun entry he => absurd he List.not_mem_nil
    have serialised : inner.value.payload v = .ok payload := by
      obtain ⟨before, after, rfl, -⟩ := last
      exact all (.put key payload v) (by simp)
    exact ⟨serialised, readsBack_transact ready chain value done last serialised⟩
  putAll m m' before key v after ready last run := by
    unfold LazyLocker.putAll at run
    rw [if_neg (by simp)] at run
    obtain ⟨own, hbody, done⟩ := done_transact ready.reached run
    obtain ⟨payloads, hall, rfl⟩ := run_putAllBody hbody
    obtain ⟨payload, serialised, hlast⟩ := lastPut_putAll hall last
    exact ⟨payload, serialised, readsBack_transact ready chain value done hlast serialised⟩
  stream m₀ m m' name w bufs v ready beside run open_ small hvalue :=
    beside.answers_iff pos ready.reached ready.apart.below chain run open_ small hvalue

theorem exists_opened (pages : 0 < inner.backend.walkFuel) : ∃ m, LazyLocker.Reached inner m ∧
    m.dev = .empty ∧ m.mem.closed = false ∧ m.mem.writeLock = false ∧ m.mem.res.staged = [] ∧
    m.mem.shared = .fresh := by
  have noEntries : inner.entries .empty .unbounded .unbounded = [] := Bank.entries_eq_nil inner fun _ => rfl
  have accounts : ∃ lru, Run Answered (openLru inner ∅) ⟨.empty, .fresh⟩ (.ok lru) ⟨.empty, .fresh⟩ := by
    unfold openLru
    split
    · exact ⟨none, run_pure.2 ⟨rfl, rfl⟩⟩
    · exact ⟨_, run_bind.2 (.inl ⟨_, _, Bank.loadLru_empty pages fun _ => rfl, run_pure.2 ⟨rfl, rfl⟩⟩)⟩
  obtain ⟨lru, accounts⟩ := accounts
  have walks : Run Answered (inner.walk .unbounded .unbounded false false
      (fun (index : KeySet) key _ => .ok (index.insert key)) ∅ : Io Shared KeySet) ⟨.empty, .fresh⟩
      _ _ := Inner.walk_eval inner (by rw [noEntries]; exact pages)
  have none : inner.entriesInOrder false .empty .unbounded .unbounded = [] := noEntries
  rw [none] at walks
  have opens : Run Served (LazyLocker.openLocker inner) ⟨.empty, .fresh⟩
      (.ok (Resident.new .lazy (some ∅) lru)) ⟨.empty, .fresh⟩ :=
    Answered.served (run_bind.2 (.inl ⟨∅, _, walks,
      run_bind.2 (.inl ⟨lru, _, accounts, run_pure.2 ⟨rfl, rfl⟩⟩)⟩))
  exact ⟨_, .opened opens, rfl, rfl, rfl, rfl, rfl⟩

theorem walkable_empty (pages : 0 < inner.backend.walkFuel) : Walkable inner .empty where
  records := by
    rw [Bank.entries_eq_nil inner fun _ => rfl]
    exact pages
  rows := by
    rw [Bank.inOrder_eq_nil fun _ _ => rfl]
    exact pages

theorem allocates_fresh : ∃ id s, Run Served ValueIds.allocate ⟨.empty, .fresh⟩ (.ok id) ⟨.empty, s⟩ :=
  ⟨_, _, Prog.eval_run (serve_sound 0) rfl⟩

/-- Writes end, and what they accept reads back, exactly where the chunk size is not zero. -/
theorem writes_end_iff (pages : 0 < inner.backend.walkFuel)
    (some : ∃ v payload, inner.value.payload v = .ok payload ∧ payload ≠ [])
    (chain : inner.chain.Inverts) (value : inner.value.Inverts) :
    (WritesEnd inner ∧ ReadsBack inner) ↔ 0 < inner.config.chunkSize := by
  constructor
  · rintro ⟨ends, -⟩
    by_contra zero
    obtain ⟨v, payload, serialised, some⟩ := some
    obtain ⟨m, reached, hdev, open_, free, idle, hshared⟩ := exists_opened pages
    have halts := ends (.putAll [([], v)]) m trivial reached (hdev ▸ walkable_empty pages)
    obtain ⟨id, s, allocates⟩ := allocates_fresh
    rw [← hdev, ← hshared] at allocates
    refine not_halts_putAll (Nat.eq_zero_of_not_pos zero) some serialised open_ free idle ?_ allocates
      halts
    rw [hdev]
    rfl
  · intro pos
    exact ⟨writesEnd_of_pos pos, readsBack_of_pos pos chain value⟩

end

/-! ## A chunk size of two, and of zero -/

theorem writes_end_two : WritesEnd Inner.small ∧ ReadsBack Inner.small :=
  (writes_end_iff (show 0 < Inner.small.backend.walkFuel by decide) ⟨[7], _, rfl, by decide⟩
    inverts_raw Postcard.vecU8_inverts).2 (by decide)

/-- A lazy locker of byte vectors that are cut into pieces of no bytes. -/
def Inner.uncut : Inner Bytes := { Inner.plain with config := { chunkSize := 0 } }

/-- A put panics, and so does the first call of a writer: it goes round for ever. -/
theorem writes_not_end : LazyLocker.Reached Inner.uncut openedEmpty ∧
    Walkable Inner.uncut openedEmpty.dev ∧
    ¬ (LazyLocker.putAll Inner.uncut [(ascii "k", [7])]).Halts Served openedEmpty ∧
    ¬ (Writer.writeChunk Inner.uncut ⟨"k", 0, 0, 0, []⟩ [7]).Halts Served openedEmpty := by
  have opens : (LazyLocker.openLocker Inner.uncut).eval (serve 0) ⟨.empty, .fresh⟩ =
      some (.ok (.new .lazy (some ∅) none), ⟨.empty, .fresh⟩) := by rfl
  have pages : 0 < Inner.uncut.backend.walkFuel := by decide
  have filled : ([1, 7] : Bytes) ≠ [] := by decide
  obtain ⟨id, s, allocates⟩ := allocates_fresh
  refine ⟨.opened (Prog.eval_run (serve_sound 0) opens), walkable_empty pages, ?_, ?_⟩
  · exact not_halts_putAll rfl filled rfl rfl rfl rfl rfl allocates
  · exact Writer.not_halts_flushFull rfl rfl _ _

end Crossbank
