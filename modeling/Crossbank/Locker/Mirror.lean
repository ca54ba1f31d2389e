import Crossbank.Locker.Landing

/-!
# What an eager locker holds

An eager locker answers from memory. Between two calls it holds of every key what is staged for it,
or, where nothing is, what is stored inline.

* `EagerLocker.Reached` : the states that calls, one after the other, reach from an open;
* `Mirrored` : what memory holds of one key; `Mirrored.stage`, `Mirrored.land` : what keeps it;
* `Mirrors` : memory mirrors every key, while the locker is open;
* `EagerLocker.Reached.mirrors` : and it does so in every state that is reached.
-/

namespace Crossbank
open Async

/-! ## One key -/

section
variable {T : Type} {inner : Inner T} {db db' : Tables} {staged : List Pending} {key : Bytes}
  {held held' : Option T}

/-- What memory holds of a key, next to what is staged and stored. Of a record that does not decode
it may hold nothing, or a value too large to be read back. -/
def Mirrored (inner : Inner T) (db : Tables) (staged : List Pending) (key : Bytes)
    (held : Option T) : Prop :=
  match stagedView staged key with
  | some none => held = none
  | some (some payload) => ∃ v, held = some v ∧ inner.value.payload v = .ok payload
  | none =>
    match db.lookup .records (inner.encodeKey key) with
    | none => held = none
    | some raw => (isPointer raw = true → held = none) ∧
      (∀ v, inner.value.decode inner.chain raw = .ok v → held = some v) ∧
      ∀ e, inner.value.decode inner.chain raw = .error e → ∀ v, held = some v →
        ∃ payload, inner.value.payload v = .ok payload ∧ inner.chain.sealSlice payload = .ok raw

theorem ofPayload_of_payload (inverts : inner.value.Inverts) {v : T} {payload : Bytes}
    (h : inner.value.payload v = .ok payload) : inner.value.ofPayload payload = .ok v := by
  unfold Postcard.payload at h
  split at h
  · next bytes hbytes =>
    obtain rfl := Except.ok.inj h
    unfold Postcard.ofPayload
    rw [inverts v bytes hbytes]
  · cases h

theorem Mirrored.stage (h : Mirrored inner db staged key held) {entry : Pending}
    (follows : match entry.effect key with
      | none => held' = held
      | some none => held' = none
      | some (some payload) => ∃ v, held' = some v ∧ inner.value.payload v = .ok payload) :
    Mirrored inner db (staged ++ [entry]) key held' := by
  unfold Mirrored at h ⊢
  rw [stagedView_concat]
  cases he : entry.effect key with
  | none =>
    rw [he] at follows
    obtain rfl := follows
    exact h
  | some effect =>
    rw [he] at follows
    cases effect with
    | none => exact follows
    | some payload => exact follows

/-- A value is held whose payload is stored, sealed. -/
theorem mirrored_of_sealed {v : T} {payload sealed : Bytes}
    (hseal : inner.chain.sealSlice payload = .ok sealed)
    (hrecord : db.lookup .records (inner.encodeKey key) = some sealed)
    (hpayload : inner.value.payload v = .ok payload) (faithful : inner.chain.Faithful)
    (inverts : inner.value.Inverts) : Mirrored inner db [] key (some v) := by
  unfold Mirrored
  rw [stagedView_nil]
  dsimp only
  rw [hrecord]
  refine ⟨fun hp => ?_, fun w hw => ?_, fun e _ w hw => ?_⟩
  · rw [sealed_not_pointer hseal] at hp
    cases hp
  · obtain ⟨opened, hopen, hvalue⟩ := bind_eq_ok.1 hw
    obtain rfl := faithful _ _ _ hseal hopen
    rw [ofPayload_of_payload inverts hpayload] at hvalue
    exact congrArg some (Except.ok.inj hvalue)
  · obtain rfl := Option.some.inj hw
    exact ⟨payload, hpayload, hseal⟩

theorem Mirrored.land (h : Mirrored inner db staged key held) (after : RecordsAfter inner db db' staged)
    (faithful : inner.chain.Faithful) (inverts : inner.value.Inverts) :
    Mirrored inner db' [] key held := by
  have hafter := after key
  unfold Mirrored at h ⊢
  rw [stagedView_nil]
  cases hview : stagedView staged key with
  | none =>
    rw [hview] at h hafter
    dsimp only at h hafter ⊢
    rw [hafter]
    exact h
  | some view =>
    cases view with
    | none =>
      rw [hview] at h hafter
      dsimp only at h hafter ⊢
      rw [hafter]
      exact h
    | some payload =>
      rw [hview] at h hafter
      obtain ⟨v, rfl, hpayload⟩ := h
      obtain ⟨sealed, hseal, hrecord⟩ := hafter
      exact mirrored_of_sealed hseal hrecord hpayload faithful inverts

theorem decode_pointer {raw : Bytes} (h : isPointer raw = true) (v : T) :
    inner.value.decode inner.chain raw ≠ .ok v := by
  intro hv
  obtain ⟨opened, hopen, -⟩ := bind_eq_ok.1 hv
  have hm : MAGIC = [67, 66, 78, 75] := by decide
  have hp : raw.take 4 = POINTER_MAGIC := by
    simp only [isPointer, Bool.and_eq_true, beq_iff_eq] at h
    exact h.2
  unfold FilterChain.openStored at hopen
  rw [hp, hm, pointer_magic_eq] at hopen
  split at hopen
  · cases hopen
  · simp at hopen

/-- What a record decodes to, or nothing where it does not, is held. -/
theorem mirrored_of_decoded (h : held = (db.lookup .records (inner.encodeKey key)).bind fun raw =>
    (inner.value.decode inner.chain raw).toOption) : Mirrored inner db [] key held := by
  subst h
  unfold Mirrored
  rw [stagedView_nil]
  cases hraw : db.lookup .records (inner.encodeKey key) with
  | none => rfl
  | some raw =>
    dsimp only [Option.bind_some]
    cases hd : inner.value.decode inner.chain raw with
    | ok value =>
      refine ⟨fun hp => absurd hd (decode_pointer hp value), fun v hv => ?_, fun e he => ?_⟩
      · rw [← Except.ok.inj hv]
        rfl
      · cases he
    | error er =>
      refine ⟨fun _ => rfl, fun v hv => ?_, fun e _ v hv => ?_⟩
      · cases hv
      · cases hv

end

/-! ## The whole memory -/

/-- A put of a write-set carries the payload of its value. -/
def Staged.Serialised {T : Type} (inner : Inner T) : Staged T → Prop
  | .put _ payload value => inner.value.payload value = .ok payload
  | .delete _ | .clear => True

def Follows {T : Type} (inner : Inner T) (entry : Pending)
    (values values' : Std.ExtTreeMap Bytes T compare) : Prop :=
  ∀ key, match entry.effect key with
    | none => values'[key]? = values[key]?
    | some none => values'[key]? = none
    | some (some payload) => ∃ v, values'[key]? = some v ∧ inner.value.payload v = .ok payload

namespace EagerLocker
section
variable {T : Type} {inner : Inner T} {m m' : Machine Tables (Ram T)}
  {db db' : Tables}

/-- What holds of an eager locker between two calls. -/
structure Mirrors (inner : Inner T) (m : Machine Tables (Ram T)) : Prop where
  lru : m.mem.res.lru = none
  mode : m.mem.res.mode = .eager
  immediate : m.mem.closed = false → isDeferred inner = false → m.mem.res.staged = []
  mirrored : m.mem.closed = false → ∀ key,
    Mirrored inner m.dev m.mem.res.staged key m.mem.values[key]?

theorem Mirrors.clean (h : Mirrors inner m) : Clean m.mem := by
  intro state hs
  rw [h.lru] at hs
  cases hs

theorem Mirrors.unmoved (h : Mirrors inner m) (u : Unmoved m m') : Mirrors inner m' := by
  obtain ⟨s, d, rfl⟩ := u
  exact ⟨h.lru, h.mode, h.immediate, h.mirrored⟩

theorem Mirrors.stage (h : Mirrors inner m) (deferred : isDeferred inner = true) {entry : Pending}
    {ram : Ram T} (hclosed : ram.closed = m.mem.closed) (hlru : ram.res.lru = m.mem.res.lru)
    (hmode : ram.res.mode = m.mem.res.mode) (hstaged : ram.res.staged = m.mem.res.staged ++ [entry])
    (follows : Follows inner entry m.mem.values ram.values) : Mirrors inner ⟨m.dev, ram⟩ := by
  refine ⟨hlru.trans h.lru, hmode.trans h.mode, ?_, ?_⟩
  · intro _ himm
    rw [himm] at deferred
    cases deferred
  · intro hopen key
    show Mirrored inner m.dev ram.res.staged key ram.values[key]?
    rw [hstaged]
    exact (h.mirrored (hclosed.symm.trans hopen) key).stage (follows key)

theorem Mirrors.land (faithful : inner.chain.Faithful) (inverts : inner.value.Inverts)
    {staged : List Pending} {ram : Ram T} (after : RecordsAfter inner db db' staged)
    (hlru : ram.res.lru = none) (hmode : ram.res.mode = .eager) (hstaged : ram.res.staged = [])
    (mirrored : ram.closed = false → ∀ key, Mirrored inner db staged key ram.values[key]?) :
    Mirrors inner ⟨db', ram⟩ := by
  refine ⟨hlru, hmode, fun _ _ => hstaged, fun hopen key => ?_⟩
  show Mirrored inner db' ram.res.staged key ram.values[key]?
  rw [hstaged]
  exact (mirrored hopen key).land after faithful inverts

/-! ## Flushes -/

/-- Without a budget, a batch is only its ops. -/
theorem batchOps_unbudgeted {merged : List Pending} {mode : TxMode} {ops : List Op} {budget : Budget}
    (h : Run Served (batchOps inner merged mode) m (.ok (ops, budget)) m')
    (lru : m.mem.res.lru = none) :
    budget = {} ∧
      Run Served ((opsForPending inner merged mode).zoom (sharedPart T)) m (.ok ops) m' := by
  obtain ⟨built, m₁, hbuilt, h₁⟩ := run_bind_ok.1 h
  have hlru : m₁.mem.res.lru = none := by
    obtain ⟨s, rfl⟩ := (draws_opsForItems inner merged mode).run_zoom hbuilt
    exact lru
  dsimp only at h₁
  rw [budgetOps, run_read_bind, hlru] at h₁
  obtain ⟨hpair, rfl⟩ := run_pure.1 h₁
  obtain ⟨rfl, rfl⟩ := Prod.mk.inj (Except.ok.inj hpair)
  exact ⟨rfl, hbuilt⟩

/-- The ops of an eager locker, from inside its memory. -/
theorem recordsAfter_zoom {staged : List Pending} {ops : List Op}
    (h : Run Served ((opsForPending inner staged .eager).zoom (sharedPart T)) m (.ok ops) m') :
    RecordsAfter inner m.dev (m'.dev.commit ops) staged ∧ ∃ s, m' = ⟨m.dev, { m.mem with shared := s }⟩ := by
  obtain ⟨m₁, h₁, rfl⟩ := (draws_opsForItems inner staged .eager).run_zoom_iff.1 h
  have hdev : m₁.dev = m.dev := Prog.Only.run_dev (draws_opsForItems inner staged .eager) h₁
  refine ⟨?_, m₁.mem, by rw [hdev]; rfl⟩
  show RecordsAfter inner m.dev (m₁.dev.commit ops) staged
  rw [hdev]
  exact recordsAfter_commit h₁

section
variable (faithful : inner.chain.Faithful) (inverts : inner.value.Inverts)
include faithful inverts

theorem Mirrors.flushLocked (h : Mirrors inner m) {r : Except Error Unit}
    (run : Run Served (withWriteLock (flushLocked inner)) m r m') : Mirrors inner m' := by
  obtain ⟨hl, m₁, hb, rfl⟩ := run_withWriteLock.1 run
  rcases flushLocked_run (m := ⟨m.dev, m.mem.lock⟩) h.clean hb with
    ⟨hu, -⟩ | ⟨ops, budget, m₂, -, hbuild, rfl⟩
  · exact h.unmoved (hu.unlock hl)
  · have hmode : (Ram.lock m.mem).res.mode = .eager := h.mode
    rw [hmode] at hbuild
    obtain ⟨rfl, hops⟩ := batchOps_unbudgeted hbuild h.lru
    obtain ⟨after, s, rfl⟩ := recordsAfter_zoom hops
    refine Mirrors.land faithful inverts after ?_ h.mode rfl h.mirrored
    show (Option.map _ (Option.map _ m.mem.res.lru)) = none
    rw [h.lru]
    rfl

theorem Mirrors.flush (h : Mirrors inner m) {r : Except Error Unit}
    (run : Run Served (Resident.flush inner) m r m') : Mirrors inner m' := by
  rw [Resident.flush, run_read_bind] at run
  split at run
  · exact (run_pure.1 run).2 ▸ h
  · exact h.flushLocked faithful inverts run

theorem Mirrors.whenFull (h : Mirrors inner m) {full : Bool} {r : Except Error Unit}
    (run : Run Served (if full = true then withWriteLock (Crossbank.flushLocked inner) else pure ())
      m r m') : Mirrors inner m' := by
  split at run
  · exact h.flushLocked faithful inverts run
  · exact (run_pure.1 run).2 ▸ h

end

/-! ## Calls -/

/-- Staging answers whether the batch is full, and cannot fail. -/
theorem run_stage_bind {α : Type} {entry : Pending} {k : Bool → Io (Ram T) α} {r : Except Error α}
    (h : Run Served (Crossbank.stage inner entry >>= k) m r m') :
    ∃ full, Run Served (k full) ⟨m.dev, m.mem.mapRes fun r => { r with staged := r.staged ++ [entry] }⟩
      r m' := ⟨_, h⟩

theorem run_mirrorPut_bind {α : Type} {key : Bytes} {value : T} {k : Unit → Io (Ram T) α}
    {r : Except Error α} :
    Run Served (mirrorPut key value >>= k) m r m' ↔
      Run Served (k ()) ⟨m.dev, (({ m.mem with values := m.mem.values.insert key value } : Ram T).mapRes
        (Resident.forgetDropped key)).announce (.put key)⟩ r m' := Iff.rfl

theorem run_mirrorClear_bind {α : Type} {k : Unit → Io (Ram T) α} {r : Except Error α} :
    Run Served (mirrorClear >>= k) m r m' ↔
      Run Served (k ()) ⟨m.dev, (({ m.mem with values := ∅ } : Ram T).mapRes
        Resident.forgetAllDropped).announce .cleared⟩ r m' := Iff.rfl

/-- A removal is mirrored, and announced where it took something away. -/
theorem run_mirrorDelete_bind {α : Type} {key : Bytes} {held : Bool} {k : Unit → Io (Ram T) α}
    {r : Except Error α} (h : Run Served (mirrorDelete key held >>= k) m r m') :
    ∃ events, Run Served (k ()) ⟨m.dev, { ({ m.mem with values := m.mem.values.erase key } : Ram T).mapRes
      (Resident.forgetDropped key) with events := events }⟩ r m' := by
  cases held with
  | true => exact ⟨_, h⟩
  | false => exact ⟨_, h⟩

theorem follows_put {key payload : Bytes} {value : T} (hp : inner.value.payload value = .ok payload)
    (values : Std.ExtTreeMap Bytes T compare) :
    Follows inner (.put key payload) values (values.insert key value) := by
  intro k
  unfold Pending.effect
  rw [Std.ExtTreeMap.getElem?_insert]
  by_cases hk : key = k
  · subst hk
    simp [hp]
  · simp [hk]

theorem follows_delete (key : Bytes) (values : Std.ExtTreeMap Bytes T compare) :
    Follows inner (.delete key) values (values.erase key) := by
  intro k
  unfold Pending.effect
  rw [Std.ExtTreeMap.getElem?_erase]
  by_cases hk : key = k
  · subst hk
    simp
  · simp [hk]

theorem follows_clear (values : Std.ExtTreeMap Bytes T compare) : Follows inner .clear values ∅ :=
  fun _ => Std.ExtTreeMap.getElem?_empty

theorem recordsAfter_op {db : Tables} {op : Op} {entry : Pending}
    (h : ∀ key, match entry.effect key with
      | none => op.written .records (inner.encodeKey key) = none
      | some none => op.written .records (inner.encodeKey key) = some none
      | some (some payload) => ∃ sealed, inner.chain.sealSlice payload = .ok sealed ∧
        op.written .records (inner.encodeKey key) = some (some sealed)) :
    RecordsAfter inner db (db.commit [op]) [entry] := by
  intro key
  have hk := h key
  have hview : stagedView [entry] key = entry.effect key := by
    rw [← List.nil_append [entry], stagedView_concat]
    simp
  rw [hview, Tables.lookup_commit, written_cons, written_nil, Option.none_or]
  cases he : entry.effect key with
  | none =>
    rw [he] at hk
    dsimp only at hk ⊢
    rw [hk]
    rfl
  | some effect =>
    cases effect with
    | none =>
      rw [he] at hk
      dsimp only at hk ⊢
      rw [hk]
      rfl
    | some payload =>
      rw [he] at hk
      obtain ⟨sealed, hseal, hw⟩ := hk
      exact ⟨sealed, hseal, by rw [hw]; rfl⟩

theorem recordsAfter_put {db : Tables} {key payload sealed : Bytes}
    (h : inner.chain.sealSlice payload = .ok sealed) :
    RecordsAfter inner db (db.commit [.put .records (inner.encodeKey key) sealed])
      [.put key payload] := by
  refine recordsAfter_op fun k => ?_
  by_cases hk : key = k
  · subst hk
    simp [Pending.effect, Op.written, h]
  · simp [Pending.effect, Op.written, encodeKey_inj, hk]

theorem recordsAfter_delete {db : Tables} (key : Bytes) :
    RecordsAfter inner db (db.commit [inner.deleteOp key]) [.delete key] := by
  refine recordsAfter_op fun k => ?_
  by_cases hk : key = k
  · subst hk
    simp [Pending.effect, Inner.deleteOp, Op.written]
  · simp [Pending.effect, Inner.deleteOp, Op.written, encodeKey_inj, hk]

theorem recordsAfter_clear {db : Tables} :
    RecordsAfter inner db (db.commit [inner.clearOp]) [.clear] := by
  refine recordsAfter_op fun k => ?_
  have hw : written [inner.clearOp] .records (inner.encodeKey k) = some none := written_clearOp k
  rw [written_cons, written_nil, Option.none_or] at hw
  exact hw

theorem open_of_run {u : Unit} {closed : Bool}
    (h : Except.ok u = if closed then Except.error Error.closed else .ok ()) : closed = false := by
  cases closed with
  | true => cases h
  | false => rfl

/-- Mirroring a write-set changes the values, and forgets what was dropped. -/
theorem mirrorEntry_frame (entries : List (Staged T)) (ram : Ram T) (news : List Notice) :
    ∃ values dropped, (entries.foldl mirrorEntry (ram, news)).1 =
      { ram with values := values, res := { ram.res with dropped := dropped } } := by
  induction entries generalizing ram news with
  | nil => exact ⟨ram.values, ram.res.dropped, rfl⟩
  | cons entry entries ih =>
    have hstep : ∃ values dropped, (mirrorEntry (ram, news) entry).1 =
        { ram with values := values, res := { ram.res with dropped := dropped } } := by
      cases entry with
      | put key payload value => exact ⟨_, _, rfl⟩
      | delete key => exact ⟨_, _, rfl⟩
      | clear => exact ⟨_, _, rfl⟩
    obtain ⟨values, dropped, hram⟩ := hstep
    obtain ⟨values', dropped', hrest⟩ := ih (mirrorEntry (ram, news) entry).1
      (mirrorEntry (ram, news) entry).2
    rw [hram] at hrest
    refine ⟨values', dropped', Eq.trans ?_ hrest⟩
    rw [← hram]
    rfl

theorem mirrored_foldl {staged : List Pending} (entries : List (Staged T)) {r : Ram T}
    {news : List Notice} (serialised : ∀ entry ∈ entries, entry.Serialised inner)
    (h : ∀ key, Mirrored inner db staged key r.values[key]?) (key : Bytes) :
    Mirrored inner db (mergeBatches staged entries) key
      (entries.foldl mirrorEntry (r, news)).1.values[key]? := by
  induction entries generalizing staged r news with
  | nil =>
    rw [mergeBatches, List.map_nil, List.append_nil]
    exact h key
  | cons entry entries ih =>
    have hrest (e : Staged T) (he : e ∈ entries) := serialised e (List.mem_cons_of_mem _ he)
    have hentry := serialised entry List.mem_cons_self
    have hmerge : mergeBatches staged (entry :: entries) =
        mergeBatches (staged ++ [entry.pending]) entries := by
      simp [mergeBatches]
    rw [hmerge, List.foldl_cons]
    cases entry with
    | put k payload value => exact ih hrest fun key => (h key).stage (follows_put hentry _ key)
    | delete k => exact ih hrest fun key => (h key).stage (follows_delete k _ key)
    | clear =>
      have follows : Follows inner .clear r.values ∅ := follows_clear _
      exact ih hrest fun key => (h key).stage (follows key)

/-- What a transaction stages carries the payloads of its values. -/
theorem serialised_of_run {body : TxBody T} {staged entries : List (Staged T)}
    (run : Run Served (body.run inner staged) m (.ok entries) m')
    (serialised : ∀ entry ∈ staged, entry.Serialised inner) :
    ∀ entry ∈ entries, entry.Serialised inner := by
  have concat {staged : List (Staged T)} {last : Staged T}
      (h : ∀ entry ∈ staged, entry.Serialised inner) (hlast : last.Serialised inner) :
      ∀ entry ∈ staged ++ [last], entry.Serialised inner := by
    intro entry he
    rcases List.mem_append.1 he with he | he
    · exact h entry he
    · obtain rfl := List.mem_singleton.1 he
      exact hlast
  induction body generalizing staged m with
  | done result =>
    cases result with
    | ok u =>
      obtain ⟨he, -⟩ := run_pure.1 run
      obtain rfl := Except.ok.inj he
      exact serialised
    | error e => cases (run_fail.1 run).1
  | put key value next ih =>
    rw [TxBody.run] at run
    split at run
    · next payload hp => exact ih _ run (concat serialised hp)
    · exact ih _ run serialised
  | delete key next ih => exact ih run (concat serialised trivial)
  | clear next ih => exact ih run (concat serialised trivial)
  | get key next ih =>
    obtain ⟨found, m₁, -, hrest⟩ := run_bind_ok.1 run
    exact ih _ hrest serialised

theorem run_flushBackend {r : Except Error Unit} (h : Run Served inner.flushBackend m r m') :
    m' = m := by
  unfold Inner.flushBackend at h
  split at h
  · exact run_flush.1 h
  · exact (run_pure.1 h).2

/-- A closed locker mirrors nothing. -/
theorem Mirrors.of_closed (hlru : m.mem.res.lru = none) (hmode : m.mem.res.mode = .eager)
    (hclosed : m.mem.closed = true) : Mirrors inner m := by
  refine ⟨hlru, hmode, fun hopen => ?_, fun hopen => ?_⟩
  · rw [hclosed] at hopen
    cases hopen
  · rw [hclosed] at hopen
    cases hopen

section
variable (faithful : inner.chain.Faithful) (inverts : inner.value.Inverts)
include faithful inverts

theorem Mirrors.committed (h : Mirrors inner m) (immediate : isDeferred inner = false)
    {op : Op} {entry : Pending} {ram : Ram T}
    (after : RecordsAfter inner m.dev (m.dev.commit [op]) [entry]) (hlru : ram.res.lru = m.mem.res.lru)
    (hmode : ram.res.mode = m.mem.res.mode) (hstaged : ram.res.staged = m.mem.res.staged)
    (hopen : m.mem.closed = false) (follows : Follows inner entry m.mem.values ram.values) :
    Mirrors inner ⟨m.dev.commit [op], ram⟩ := by
  have hnil := h.immediate hopen immediate
  refine Mirrors.land faithful inverts after (hlru.trans h.lru) (hmode.trans h.mode)
    (hstaged.trans hnil) fun _ key => ?_
  have hkey := h.mirrored hopen key
  rw [hnil] at hkey
  exact hkey.stage (follows key)

theorem Mirrors.putBy (h : Mirrors inner m) {key : Bytes} {value : T} {r : Except Error T}
    (run : Run Served (EagerLocker.putBy inner key value) m r m') : Mirrors inner m' := by
  rcases run_bind.1 run with ⟨u, m₁, hopen, h₁⟩ | ⟨e, hopen, -⟩
  · obtain ⟨hclosed, rfl⟩ := run_ensureOpen.1 hopen
    rcases run_bind.1 h₁ with ⟨sealed, m₂, hsealed, h₂⟩ | ⟨e, hsealed, -⟩
    · obtain ⟨hs, rfl⟩ := run_ofExcept.1 hsealed
      obtain ⟨payload, hpayload, hseal⟩ := bind_eq_ok.1 hs.symm
      split at h₂
      · exact (run_fail.1 h₂).2 ▸ h
      split at h₂
      · next hdeferred =>
        rw [hpayload] at h₂
        obtain ⟨full, h₃⟩ := run_stage_bind h₂
        rw [run_mirrorPut_bind] at h₃
        dsimp only at h₃
        split at h₃
        · rcases run_bind.1 h₃ with ⟨u, m₃, hflush, h₄⟩ | ⟨e, hflush, -⟩
          · obtain ⟨-, rfl⟩ := run_pure.1 h₄
            refine Mirrors.flushLocked faithful inverts ?_ hflush
            exact h.stage hdeferred rfl rfl rfl rfl (follows_put hpayload _)
          · refine Mirrors.flushLocked faithful inverts ?_ hflush
            exact h.stage hdeferred rfl rfl rfl rfl (follows_put hpayload _)
        · obtain ⟨-, rfl⟩ := run_pure.1 h₃
          exact h.stage hdeferred rfl rfl rfl rfl (follows_put hpayload _)
      · next himm =>
        rcases run_bind.1 h₂ with ⟨u, m₃, hcommit, h₃⟩ | ⟨e, hcommit, -⟩
        · rcases run_innerCommit.1 hcommit with ⟨-, rfl⟩ | ⟨e, he, -⟩
          · rw [run_mirrorPut_bind] at h₃
            obtain ⟨-, rfl⟩ := run_pure.1 h₃
            exact h.committed faithful inverts (by simpa using himm) (recordsAfter_put hseal) rfl rfl
              rfl (open_of_run hclosed) (follows_put hpayload _)
          · cases he
        · rcases run_innerCommit.1 hcommit with ⟨he, -⟩ | ⟨e, -, rfl⟩
          · cases he
          · exact h
    · exact (run_ofExcept.1 hsealed).2 ▸ h
  · exact (run_ensureOpen.1 hopen).2 ▸ h

theorem Mirrors.deleteBy (h : Mirrors inner m) {key : Bytes} {r : Except Error Unit}
    (run : Run Served (EagerLocker.deleteBy inner key) m r m') : Mirrors inner m' := by
  rcases run_bind.1 run with ⟨u, m₁, hopen, h₁⟩ | ⟨e, hopen, -⟩
  · obtain ⟨hclosed, rfl⟩ := run_ensureOpen.1 hopen
    rw [run_read_bind, run_read_bind] at h₁
    split at h₁
    · exact (run_pure.1 h₁).2 ▸ h
    split at h₁
    · next hdeferred =>
      obtain ⟨full, h₂⟩ := run_stage_bind h₁
      obtain ⟨events, h₃⟩ := run_mirrorDelete_bind h₂
      refine Mirrors.whenFull faithful inverts ?_ h₃
      exact h.stage hdeferred rfl rfl rfl rfl (follows_delete key _)
    · next himm =>
      rcases run_bind.1 h₁ with ⟨u, m₂, hcommit, h₂⟩ | ⟨e, hcommit, -⟩
      · rcases run_innerCommit.1 hcommit with ⟨-, rfl⟩ | ⟨e, he, -⟩
        · rw [← Prog.bind_ret (mirrorDelete _ _)] at h₂
          obtain ⟨events, h₃⟩ := run_mirrorDelete_bind h₂
          obtain ⟨-, rfl⟩ := run_pure.1 h₃
          exact h.committed faithful inverts (by simpa using himm) (recordsAfter_delete key) rfl rfl
            rfl (open_of_run hclosed) (follows_delete key _)
        · cases he
      · rcases run_innerCommit.1 hcommit with ⟨he, -⟩ | ⟨e, -, rfl⟩
        · cases he
        · exact h
  · exact (run_ensureOpen.1 hopen).2 ▸ h

theorem Mirrors.clear (h : Mirrors inner m) {r : Except Error Unit}
    (run : Run Served (EagerLocker.clear inner) m r m') : Mirrors inner m' := by
  rcases run_bind.1 run with ⟨u, m₁, hopen, h₁⟩ | ⟨e, hopen, -⟩
  · obtain ⟨hclosed, rfl⟩ := run_ensureOpen.1 hopen
    split at h₁
    · next hdeferred =>
      obtain ⟨full, h₂⟩ := run_stage_bind h₁
      rw [run_mirrorClear_bind] at h₂
      refine Mirrors.whenFull faithful inverts ?_ h₂
      exact h.stage hdeferred rfl rfl rfl rfl (follows_clear _)
    · next himm =>
      rcases run_bind.1 h₁ with ⟨u, m₂, hcommit, h₂⟩ | ⟨e, hcommit, -⟩
      · rcases run_innerCommit.1 hcommit with ⟨-, rfl⟩ | ⟨e, he, -⟩
        · rw [← Prog.bind_ret mirrorClear] at h₂
          have h₃ := run_mirrorClear_bind.1 h₂
          obtain ⟨-, rfl⟩ := run_pure.1 h₃
          exact h.committed faithful inverts (by simpa using himm) recordsAfter_clear rfl rfl
            rfl (open_of_run hclosed) (follows_clear _)
        · cases he
      · rcases run_innerCommit.1 hcommit with ⟨he, -⟩ | ⟨e, -, rfl⟩
        · cases he
        · exact h
  · exact (run_ensureOpen.1 hopen).2 ▸ h

theorem Mirrors.landEntries {before : List Pending} {entries : List (Staged T)} {ram : Ram T}
    (after : RecordsAfter inner db db' (mergeBatches before entries))
    (serialised : ∀ entry ∈ entries, entry.Serialised inner) (hlru : ram.res.lru = none)
    (hmode : ram.res.mode = .eager) (hstaged : ram.res.staged = [])
    (mirrored : ram.closed = false → ∀ key, Mirrored inner db before key ram.values[key]?) :
    Mirrors inner ⟨db', (dropDrained (
      let (ram, news) := entries.foldl mirrorEntry (ram, [])
      { ram with events := ram.events ++ news })).unlock⟩ := by
  obtain ⟨values, dropped, hframe⟩ := mirrorEntry_frame entries ram []
  have hmirrored (hopen : ram.closed = false) (key : Bytes) :
      Mirrored inner db (mergeBatches before entries) key
        (entries.foldl mirrorEntry (ram, [])).1.values[key]? :=
    mirrored_foldl entries serialised (mirrored hopen) key
  cases hfold : entries.foldl mirrorEntry (ram, []) with
  | mk ram' news =>
    rw [hfold] at hframe hmirrored
    dsimp only at hframe hmirrored ⊢
    subst hframe
    exact Mirrors.land faithful inverts after hlru hmode hstaged hmirrored

theorem Mirrors.transact (h : Mirrors inner m) {body : TxBody T} {r : Except Error Unit}
    (run : Run Served (EagerLocker.transact inner body) m r m') : Mirrors inner m' := by
  rcases eagerTransact_run run with hu | ⟨entries, ops, m₁, -, hbody, hops, rfl⟩
  · exact h.unmoved hu
  · obtain ⟨after, s, rfl⟩ := recordsAfter_zoom hops
    exact Mirrors.landEntries faithful inverts after (serialised_of_run hbody (by simp)) h.lru
      h.mode rfl h.mirrored

theorem Mirrors.close (h : Mirrors inner m) {r : Except Error Unit}
    (run : Run Served (EagerLocker.close inner) m r m') : Mirrors inner m' := by
  obtain ⟨flushed, m₁, hflush, h₁⟩ := run_attempt_bind.1 run
  have kept := h.flush faithful inverts hflush
  dsimp only at h₁
  split at h₁
  · rw [discardStaged, run_update_bind] at h₁
    obtain ⟨forced, m₂, hforced, h₂⟩ := run_attempt_bind.1 h₁
    obtain rfl := run_flushBackend hforced
    rw [run_update_bind, run_update_bind] at h₂
    obtain rfl := (reads_ofExcept.bind fun _ => reads_ofExcept).run h₂
    exact Mirrors.of_closed kept.lru kept.mode rfl
  · obtain ⟨forced, m₂, hforced, h₂⟩ := run_attempt_bind.1 h₁
    obtain rfl := run_flushBackend hforced
    rw [run_update_bind, run_update_bind] at h₂
    obtain rfl := (reads_ofExcept.bind fun _ => reads_ofExcept).run h₂
    exact Mirrors.of_closed kept.lru kept.mode rfl

theorem Mirrors.call (h : Mirrors inner m) (c : EagerCall T) {r : Except Error Unit}
    (run : Run Served (c.prog inner) m r m') : Mirrors inner m' := by
  cases c with
  | put key value =>
    obtain ⟨x, hx, -⟩ := run_map.1 run
    exact h.putBy faithful inverts hx
  | delete key => exact h.deleteBy faithful inverts run
  | clear => exact h.clear faithful inverts run
  | transact body => exact h.transact faithful inverts run
  | putAll entries =>
    simp only [EagerCall.prog, EagerLocker.putAll] at run
    split at run
    · exact (run_pure.1 run).2 ▸ h
    · exact h.transact faithful inverts run
  | deleteAll keys =>
    simp only [EagerCall.prog, EagerLocker.deleteAll] at run
    split at run
    · exact (run_pure.1 run).2 ▸ h
    · exact h.transact faithful inverts run
  | flush =>
    obtain ⟨a, m₁, hflush, h₁⟩ := run_attempt_bind.1 run
    obtain ⟨b, m₂, hforced, h₂⟩ := run_attempt_bind.1 h₁
    obtain rfl := run_flushBackend hforced
    obtain rfl := (reads_ofExcept.bind fun _ => reads_ofExcept).run h₂
    exact h.flush faithful inverts hflush
  | close => exact h.close faithful inverts run

end
end

/-! ## Opening -/

section
variable {T : Type} {inner : Inner T}

/-- A visit keeps what was loaded, and an overflow stays one. -/
theorem loadVisit_eq_ok {acc acc' : Loading T} {key raw : Bytes}
    (h : loadVisit inner acc key (some raw) = .ok acc') (whole : acc'.overflow = false) :
    acc.overflow = false ∧ acc'.values = match inner.value.decode inner.chain raw with
      | .ok value => acc.values.insert key value
      | .error _ => acc.values := by
  unfold loadVisit at h
  dsimp only at h
  split at h
  · obtain rfl := Except.ok.inj h
    cases whole
  · cases hd : inner.value.decode inner.chain raw with
    | ok value =>
      rw [hd] at h
      obtain rfl := Except.ok.inj h
      exact ⟨whole, rfl⟩
    | error e =>
      rw [hd] at h
      dsimp only at h
      split at h
      · obtain rfl := Except.ok.inj h
        exact ⟨whole, rfl⟩
      · cases h

/-- What an open loads: of every record, the value it decodes to. -/
theorem load_values {entries : List (Bytes × Bytes)} {acc acc' : Loading T}
    (nodup : (entries.map Prod.fst).Nodup)
    (h : entries.foldlM (fun acc e => loadVisit inner acc e.1 (if true then some e.2 else none)) acc =
      .ok acc') (whole : acc'.overflow = false) (key : Bytes) :
    acc.overflow = false ∧ acc'.values[key]? = match entries.find? (·.1 = key) with
      | none => acc.values[key]?
      | some e => match inner.value.decode inner.chain e.2 with
        | .ok value => some value
        | .error _ => acc.values[key]? := by
  induction entries generalizing acc with
  | nil =>
    obtain rfl := pure_eq_ok.1 h
    exact ⟨whole, rfl⟩
  | cons e entries ih =>
    obtain ⟨k, raw⟩ := e
    rw [List.foldlM_cons, if_pos rfl] at h
    obtain ⟨acc₁, hvisit, hrest⟩ := bind_eq_ok.1 h
    rw [List.map_cons, List.nodup_cons] at nodup
    obtain ⟨hwhole, hvalues⟩ := ih nodup.2 hrest
    obtain ⟨hacc, hstep⟩ := loadVisit_eq_ok hvisit hwhole
    refine ⟨hacc, ?_⟩
    rw [hvalues, List.find?_cons]
    by_cases hk : k = key
    · -- The head is the only record of its key.
      have hnone : entries.find? (·.1 = key) = none := by
        rw [List.find?_eq_none]
        intro e he hek
        refine nodup.1 (List.mem_map.2 ⟨e, he, ?_⟩)
        rw [hk]
        simpa using hek
      simp only [hk, decide_true, hnone, hstep]
      cases inner.value.decode inner.chain raw with
      | ok value => simp
      | error e => rfl
    · have hkept : acc₁.values[key]? = acc.values[key]? := by
        rw [hstep]
        cases inner.value.decode inner.chain raw with
        | ok value => simp [Std.ExtTreeMap.getElem?_insert, hk]
        | error e => rfl
      simp only [hk, decide_false, hkept]

theorem corrupt_frame (corrupt : List Bytes) (r : Resident) :
    ∃ c, corrupt.foldl (fun r key => r.noteCorrupt key) r = { r with corrupt := c } := by
  induction corrupt generalizing r with
  | nil => exact ⟨r.corrupt, rfl⟩
  | cons key corrupt ih =>
    obtain ⟨c, hc⟩ := ih (r.noteCorrupt key)
    exact ⟨c, hc⟩

theorem find_entries {db : Tables} {key : Bytes} :
    ((inner.entries db .unbounded .unbounded).find? (·.1 = key)).map Prod.snd =
      db.lookup .records (inner.encodeKey key) := by
  cases hf : (inner.entries db .unbounded .unbounded).find? (·.1 = key) with
  | some e =>
    obtain ⟨k, raw⟩ := e
    obtain rfl : k = key := by simpa using List.find?_some hf
    exact (((Inner.mem_entries inner).1 (List.mem_of_find?_eq_some hf)).1).symm
  | none =>
    cases hl : db.lookup .records (inner.encodeKey key) with
    | none => rfl
    | some raw =>
      have hmem : (key, raw) ∈ inner.entries db .unbounded .unbounded :=
        (Inner.mem_entries inner).2 ⟨hl, rfl⟩
      exact absurd (List.find?_eq_none.1 hf _ hmem) (by simp)

/-- What an open holds of a key that it has visited the record of, and no other. -/
theorem loaded_value {entries : List (Bytes × Bytes)} {acc : Loading T} {key : Bytes}
    {record : Option Bytes} (nodup : (entries.map Prod.fst).Nodup)
    (h : entries.foldlM (fun acc e => loadVisit inner acc e.1 (if true then some e.2 else none))
      ⟨∅, [], 0, false⟩ = .ok acc) (whole : acc.overflow = false)
    (visited : (entries.find? (·.1 = key)).map Prod.snd = record) :
    acc.values[key]? = record.bind fun raw => (inner.value.decode inner.chain raw).toOption := by
  obtain ⟨-, hvalue⟩ := load_values nodup h whole key
  rw [hvalue, ← visited]
  cases hf : entries.find? (·.1 = key) with
  | none => exact Std.ExtTreeMap.getElem?_empty
  | some e =>
    dsimp only [Option.map_some, Option.bind_some]
    cases hd : inner.value.decode inner.chain e.2 with
    | ok value => rfl
    | error er => exact Std.ExtTreeMap.getElem?_empty

/-- The keys of records in their order are different. -/
theorem nodup_of_ascending {entries : List (Bytes × Bytes)}
    (ascending : entries.Pairwise fun a b => compare a.1 b.1 = .lt) :
    (entries.map Prod.fst).Nodup := by
  rw [List.Nodup, List.pairwise_map]
  refine ascending.imp ?_
  intro a b hlt heq
  have hself : compare b.1 b.1 = .eq := Std.ReflCmp.compare_self
  rw [heq, hself] at hlt
  cases hlt

/-- What an open of a whole locker holds: of every record, the value it decodes to. -/
theorem loaded_values {db : Tables} {acc : Loading T}
    (h : (inner.entriesInOrder false db .unbounded .unbounded).foldlM
      (fun acc e => loadVisit inner acc e.1 (if true then some e.2 else none)) ⟨∅, [], 0, false⟩ =
        .ok acc) (whole : acc.overflow = false) (key : Bytes) :
    acc.values[key]? = (db.lookup .records (inner.encodeKey key)).bind
      fun raw => (inner.value.decode inner.chain raw).toOption := by
  rw [Inner.entriesInOrder, if_neg (by simp)] at h
  have ascending := Inner.entries_ascending inner db .unbounded .unbounded
  exact loaded_value (nodup_of_ascending ascending) h whole find_entries

/-- A locker that has been opened mirrors the store. -/
theorem mirrors_opened {m m' : Machine Tables Shared} {values : Std.ExtTreeMap Bytes T compare}
    {res : Resident} (run : Run Served (openLocker inner) m (.ok (values, res)) m') :
    Mirrors inner ⟨m'.dev, .opened m'.mem res values⟩ := by
  unfold openLocker at run
  split at run
  · cases (run_fail.1 run).1
  · obtain ⟨acc, m₁, hwalk, h₁⟩ := run_bind_ok.1 run
    have hload := Inner.walk_run inner hwalk
    obtain rfl := (reads_walk inner _ _ _ _ _ _).run hwalk
    split at h₁
    · cases (run_fail.1 h₁).1
    · next hwhole =>
      obtain ⟨hpair, rfl⟩ := run_pure.1 h₁
      obtain ⟨rfl, rfl⟩ := Prod.mk.inj (Except.ok.inj hpair)
      obtain ⟨c, hc⟩ := corrupt_frame acc.corrupt (Resident.new .eager none none)
      rw [hc]
      refine ⟨rfl, rfl, fun _ _ => rfl, fun _ key => ?_⟩
      exact mirrored_of_decoded (loaded_values hload (by simpa using hwhole) key)

/-- What other lockers of the bank and other handles do to a machine between two calls: the cursors
change, and the store but for the records of this locker. -/
def Elsewhere (inner : Inner T) (m m' : Machine Tables (Ram T)) : Prop :=
  ∃ db shared nameShared,
    (∀ key, db.lookup .records (inner.encodeKey key) = m.dev.lookup .records (inner.encodeKey key)) ∧
    (m.mem.nameShared = true → nameShared = true) ∧
    m' = ⟨db, { m.mem with shared := shared, nameShared := nameShared }⟩

inductive Reached (inner : Inner T) : Machine Tables (Ram T) → Prop
  | opened {m m' : Machine Tables Shared} {values : Std.ExtTreeMap Bytes T compare} {res : Resident}
      (run : Run Served (openLocker inner) m (.ok (values, res)) m') :
      Reached inner ⟨m'.dev, .opened m'.mem res values⟩
  | called {m m' : Machine Tables (Ram T)} {r : Except Error Unit} (before : Reached inner m)
      (c : EagerCall T) (run : Run Served (c.prog inner) m r m') : Reached inner m'
  | elsewhere {m m' : Machine Tables (Ram T)} (before : Reached inner m)
      (change : Elsewhere inner m m') : Reached inner m'

/-- Memory mirrors what is staged and stored, in every state that is reached. -/
theorem Reached.mirrors {m : Machine Tables (Ram T)} (reached : Reached inner m)
    (faithful : inner.chain.Faithful) (inverts : inner.value.Inverts) : Mirrors inner m := by
  induction reached with
  | opened run => exact mirrors_opened run
  | called before c run ih => exact ih.call faithful inverts c run
  | elsewhere before change ih =>
    obtain ⟨db, shared, nameShared, hrecords, -, rfl⟩ := change
    refine ⟨ih.lru, ih.mode, ih.immediate, fun hopen key => ?_⟩
    have hkey := ih.mirrored hopen key
    unfold Mirrored at hkey ⊢
    rw [hrecords]
    exact hkey

end
end EagerLocker
end Crossbank
