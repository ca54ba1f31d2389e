import Crossbank.Async.Outline
import Crossbank.Locker.Landing

/-!
# Closing while others write

* `Lands inner mode budgeted db landed db'` : flushes of batches, one after the other and none
  disturbed, lead from `db` to `db'`, and store the writes `landed`;
* `Lands.shows` : what the store then holds under each key;
* `newly` : the writes that a step stages;
* `ClosingCall` : puts, deletes, and closes of a deferred locker;
* `closingRules` : what their steps keep (`ClosingCall.safe`);
* `close_keeps` : a close whose flush has left nothing staged loses no write, which others may
  (`close_loses`).
-/

namespace Crossbank
open Async

/-! ## Landing, one batch after the other -/

section
variable {T : Type}

/-- The stores that undisturbed flushes lead to from `db`, and the writes they have stored. -/
inductive Lands (inner : Inner T) (mode : TxMode) (budgeted : Bool) (db : Tables) :
    List Pending → Tables → Prop
  | start : Lands inner mode budgeted db [] db
  | flushed {landed batch : List Pending} {db' : Tables} {ops : List Op} {budget : Budget}
      {ram : Ram T} {m : Machine Tables (Ram T)} (before : Lands inner mode budgeted db landed db')
      (lru : ram.res.lru.isSome = budgeted)
      (run : Run Served (batchOps inner batch mode) ⟨db', ram⟩ (.ok (ops, budget)) m) :
      Lands inner mode budgeted db (landed ++ batch) (db'.commit ops)

/-- The record under a key is what the action leaves there: none, or one of the payload. -/
def Inner.Shows (inner : Inner T) (db : Tables) (key : Bytes) (action : Action) : Prop :=
  ∃ body : Body, body.Does inner action ∧
    db.lookup .records (inner.encodeKey key) = body.record

variable {inner : Inner T} {mode : TxMode} {budgeted : Bool} {db db' : Tables}
  {landed batch : List Pending} {ops : List Op} {key : Bytes} {m m' : Machine Tables (Ram T)}

theorem written_victimOps {victims : List Bytes}
    (h : Run Served (victimOps inner victims) m (.ok ops) m') (key : Bytes) :
    written ops .records (inner.encodeKey key) = if key ∈ victims then some none else none := by
  induction victims generalizing ops m with
  | nil =>
    obtain ⟨hops, rfl⟩ := run_pure.1 h
    obtain rfl := Except.ok.inj hops
    rfl
  | cons victim rest ih =>
    unfold victimOps at h
    obtain ⟨first, m₁, hfirst, h₁⟩ := run_bind_ok.1 h
    obtain ⟨more, m₂, hmore, h₂⟩ := run_bind_ok.1 h₁
    obtain ⟨hops, rfl⟩ := run_pure.1 h₂
    obtain rfl := Except.ok.inj hops
    obtain ⟨rfl, rfl⟩ := deleteValueOps_run hfirst
    have hdel : written [Lru.deleteOp inner.id victim] .records (inner.encodeKey key) = none := by
      simp [written_cons, Lru.deleteOp, Op.written]
    rw [written_append, written_append, ih hmore, hdel, written_keyWrite_record, Option.none_or]
    simp only [encodeKey_inj]
    by_cases hrest : key ∈ rest
    · simp [hrest]
    · by_cases hk : victim = key
      · subst hk
        simp [hrest, Body.record]
      · simp [hk, hrest, Ne.symm hk]

theorem table_of_mem_pendingOps {s : LruState} {id : LockerId} {skip : List Bytes} {op : Op}
    (h : op ∈ (s.pendingOps id skip).2) : op.table = .meta := by
  obtain ⟨e, -, he⟩ := List.mem_filterMap.1 h
  dsimp only at he
  split at he
  · cases he
  · obtain ⟨entry, -, rfl⟩ := Option.map_eq_some_iff.1 he
    rfl

theorem budgetOps_run {updates : List (Bytes × Nat)} {removals keep : List Bytes} {cleared : Bool}
    {ops' : List Op} {budget : Budget}
    (h : Run Served (budgetOps inner ops updates removals cleared keep) m (.ok (ops', budget)) m') :
    (ops' = ops ∧ budget = {}) ∨
    ∃ accounts shed counter m₁, m.mem.res.lru.isSome = true ∧
      (∀ op ∈ accounts, op.table = .meta) ∧ counter.table = .meta ∧
      (∀ key ∈ budget.plan.victims, key ∉ keep) ∧
      Run Served (victimOps inner budget.plan.victims) m₁ (.ok shed) m' ∧
      ops' = ops ++ accounts ++ shed ++ [counter] := by
  rw [budgetOps, run_read_bind] at h
  split at h
  · obtain ⟨hpair, rfl⟩ := run_pure.1 h
    obtain ⟨rfl, rfl⟩ := Prod.mk.inj (Except.ok.inj hpair)
    exact .inl ⟨rfl, rfl⟩
  · next hsome =>
    obtain ⟨u, m₁, -, h₁⟩ := run_bind_ok.1 h
    obtain ⟨tick, m₂, -, h₂⟩ := run_bind_ok.1 h₁
    rw [run_read_bind] at h₂
    split at h₂
    · obtain ⟨hpair, rfl⟩ := run_pure.1 h₂
      obtain ⟨rfl, rfl⟩ := Prod.mk.inj (Except.ok.inj hpair)
      exact .inl ⟨rfl, rfl⟩
    · next state hstate =>
      obtain ⟨shed, m₃, hshed, h₃⟩ := run_bind_ok.1 h₂
      rw [run_read_bind] at h₃
      obtain ⟨hpair, rfl⟩ := run_pure.1 h₃
      obtain ⟨rfl, rfl⟩ := Prod.mk.inj (Except.ok.inj hpair)
      refine .inr ⟨_, shed, _, m₂, by simpa [Option.isSome_iff_ne_none] using hsome, ?_, rfl,
        fun key => LruState.not_mem_keep_of_victim, hshed, rfl⟩
      intro op hop
      simp only [List.mem_append, List.mem_map] at hop
      rcases hop with ((hop | ⟨u, -, rfl⟩) | hop) | ⟨k, -, rfl⟩
      · split at hop
        · obtain rfl := List.mem_singleton.1 hop
          rfl
        · cases hop
      · rfl
      · cases cleared with
        | true => cases hop
        | false => exact table_of_mem_pendingOps hop
      · rfl

/-- It drops records, of keys that need not be kept. -/
theorem written_budgetOps {updates : List (Bytes × Nat)} {removals keep : List Bytes}
    {cleared : Bool} {ops' : List Op} {budget : Budget}
    (h : Run Served (budgetOps inner ops updates removals cleared keep) m (.ok (ops', budget)) m')
    (key : Bytes) :
    written ops' .records (inner.encodeKey key) = written ops .records (inner.encodeKey key) ∨
      (m.mem.res.lru.isSome = true ∧ key ∉ keep ∧
        written ops' .records (inner.encodeKey key) = some none) := by
  rcases budgetOps_run h with ⟨rfl, -⟩ | ⟨accounts, shed, counter, m₁, hsome, haccounts, hcounter, hkeep, hshed, rfl⟩
  · exact .inl rfl
  · have hlast : written [counter] .records (inner.encodeKey key) = none :=
      written_of_table fun op hop => by simp [List.mem_singleton.1 hop, hcounter]
    have hfront : written accounts .records (inner.encodeKey key) = none :=
      written_of_table fun op hop => by simp [haccounts op hop]
    rw [written_append, written_append, written_append, hlast, Option.none_or,
      written_victimOps hshed key, hfront, Option.none_or]
    split
    · next hvictim => exact .inr ⟨hsome, hkeep key hvictim, rfl⟩
    · exact .inl rfl

theorem written_opsForItems {s : Shared} {m' : Machine Tables Shared}
    (h : Run Served (opsForItems inner batch mode) ⟨db, s⟩ (.ok ops) m') (key : Bytes) :
    match stagedView batch key with
    | none => written ops .records (inner.encodeKey key) = none
    | some v => ∃ body : Body, body.Does inner (.of v) ∧
        written ops .records (inner.encodeKey key) = some body.record := by
  obtain ⟨s', writes, rfl, c⟩ := opsForItems_collapsed h
  have nodup : (writes.map KeyWrite.key).Nodup := by
    rw [keys_of_does c.does]
    exact nodup_keys_toList _
  have hwritten : written ((⟨clearedBy inner db batch, writes⟩ : Batch).ops inner) .records
      (inner.encodeKey key) = _ := written_batch_record nodup key
  rw [← c.built.data, written_dataOps ops (by decide)] at hwritten
  have hfind := c.find_isSome key
  rw [hwritten, stagedView_eq_collapsed]
  cases hf : (⟨clearedBy inner db batch, writes⟩ : Batch).find key with
  | some w =>
    obtain ⟨hw, rfl⟩ := mem_writes_of_find hf
    obtain ⟨action, ha, hdoes⟩ := c.action_of_mem hw
    rw [ha]
    exact ⟨w.body, by simpa using hdoes.body, rfl⟩
  | none =>
    rw [hf] at hfind
    rw [Option.isNone_iff_eq_none.1 (Option.isSome_eq_false_iff.1 hfind.symm)]
    by_cases hclear : .clear ∈ batch
    · simp only [clearedBy, hclear, if_true, Option.map_none, Option.none_or, Option.isSome_some]
      exact ⟨.gone, rfl, rfl⟩
    · simp [clearedBy, hclear]

/-- Every put of a batch that lasts is one of its updates. -/
theorem mem_updates_of_stagedView {payload : Bytes} (h : stagedView batch key = some (some payload)) :
    key ∈ (accounting batch).updates.map Prod.fst := by
  induction batch using List.reverseRecOn with
  | nil => cases h
  | append_singleton batch entry ih =>
    rw [stagedView_concat] at h
    have step (k : Bytes) (hk : k ≠ key) (hb : stagedView batch key = some (some payload)) :
        key ∈ ((accounting batch).updates.filter fun u => u.1 ≠ k).map Prod.fst := by
      obtain ⟨u, hu, rfl⟩ := List.mem_map.1 (ih hb)
      exact List.mem_map.2 ⟨u, List.mem_filter.2 ⟨hu, by simpa using Ne.symm hk⟩, rfl⟩
    rw [accounting, List.foldl_append, List.foldl_cons, List.foldl_nil, ← accounting]
    cases entry with
    | put k p =>
      by_cases hk : k = key
      · simp [hk]
      · rw [Pending.effect, if_neg hk, Option.none_or] at h
        rw [List.map_append]
        exact List.mem_append_left _ (step k hk h)
    | delete k =>
      by_cases hk : k = key
      · simp [Pending.effect, hk] at h
      · rw [Pending.effect, if_neg hk, Option.none_or] at h
        exact step k hk h
    | clear => simp [Pending.effect] at h

/-- What landed is stored: under each key the outcome of the last write to it, unless the byte
budget has shed the key. -/
theorem Lands.shows (h : Lands inner mode budgeted db landed db') {v : Option Bytes}
    (hv : stagedView landed key = some v) :
    inner.Shows db' key (.of v) ∨
      (budgeted = true ∧ db'.lookup .records (inner.encodeKey key) = none) := by
  induction h generalizing v with
  | start => cases hv
  | @flushed landed batch db' ops budget ram m before lru run ih =>
    obtain ⟨items, m₁, hitems, hbudget⟩ := run_bind_ok.1 run
    obtain ⟨m₂, hbuild, rfl⟩ := (draws_opsForItems inner batch mode).run_zoom_iff.1 hitems
    have hbatch := written_opsForItems hbuild key
    have hops := written_budgetOps hbudget key
    rw [stagedView_append] at hv
    rw [Inner.Shows, Tables.lookup_commit]
    cases hk : stagedView batch key with
    | none =>
      rw [hk, Option.none_or] at hv
      rw [hk] at hbatch
      rcases hops with hops | ⟨hsome, -, hops⟩
      · rw [hops, hbatch]
        exact ih hv
      · rw [hops]
        exact .inr ⟨lru ▸ hsome, rfl⟩
    | some w =>
      rw [hk, Option.some_or] at hv
      obtain rfl := Option.some.inj hv
      rw [hk] at hbatch
      obtain ⟨body, hdoes, hbody⟩ := hbatch
      rcases hops with hops | ⟨-, hkeep, hops⟩
      · rw [hops, hbody]
        exact .inl ⟨body, hdoes, rfl⟩
      · cases w with
        | none =>
          rw [hops]
          exact .inl ⟨.gone, rfl, rfl⟩
        | some payload => exact absurd (mem_updates_of_stagedView hk) hkeep

end

/-! ## The calls of a closing -/

/-- A put or a delete, or the close. -/
inductive ClosingCall (T : Type) where
  | put (key : Bytes) (value : T)
  | delete (key : Bytes)
  | close

section
variable {T : Type}

def ClosingCall.prog (inner : Inner T) : TxMode → ClosingCall T → Io (Ram T) Unit
  | .eager, .put key value => (EagerCall.put key value).prog inner
  | .eager, .delete key => (EagerCall.delete key).prog inner
  | .eager, .close => EagerCall.close.prog inner
  | .lazy, .put key value => (LazyCall.put key value).prog inner
  | .lazy, .delete key => (LazyCall.delete key).prog inner
  | .lazy, .close => LazyCall.close.prog inner

def newly (s s' : Ram T) : List Pending :=
  if s'.res.drained = s.res.drained then s'.res.staged.drop s.res.staged.length else []

/-- The record of all that has been staged, in order. -/
def noteStaged (_ : Nat) (_ : Event Req Resp (Ram T)) (m m' : Machine Tables (Ram T))
    (writes : List Pending) : List Pending :=
  writes ++ newly m.mem m'.mem

/-- The record of the call that holds the write lock. -/
def noteHolder (i : Nat) (_ : Event Req Resp (Ram T)) (m m' : Machine Tables (Ram T))
    (holder : Option Nat) : Option Nat :=
  if m'.mem.writeLock then (if m.mem.writeLock then holder else some i) else none

abbrev ClosingScene (T : Type) := Scene Tables (Ram T) (List Pending × Option Nat)

structure Appends (s s' : Ram T) : Prop where
  shared : s'.shared = s.shared
  writeLock : s'.writeLock = s.writeLock
  mode : s'.res.mode = s.res.mode
  lru : s'.res.lru = s.res.lru
  drained : s'.res.drained = s.res.drained
  more : ∃ es, s'.res.staged = s.res.staged ++ es

theorem Appends.keeps {s s' : Ram T} (shared : s'.shared = s.shared)
    (writeLock : s'.writeLock = s.writeLock) (mode : s'.res.mode = s.res.mode)
    (lru : s'.res.lru = s.res.lru) (drained : s'.res.drained = s.res.drained)
    (staged : s'.res.staged = s.res.staged) : Appends s s' :=
  ⟨shared, writeLock, mode, lru, drained, [], staged.trans (List.append_nil _).symm⟩

theorem Appends.refl (s : Ram T) : Appends s s := .keeps rfl rfl rfl rfl rfl rfl

theorem newly_append {s s' : Ram T} (drained : s'.res.drained = s.res.drained) {es : List Pending}
    (more : s'.res.staged = s.res.staged ++ es) : newly s s' = es := by
  rw [newly, if_pos drained, more, List.drop_left]

/-- Nothing is staged by a step that moves the batch out of or back to the list. -/
theorem newly_of_moved {s s' : Ram T} (moved : s'.res.drained ++ s'.res.staged =
    s.res.drained ++ s.res.staged) : newly s s' = [] := by
  unfold newly
  split
  · next hd =>
    rw [hd] at moved
    rw [List.append_cancel_left moved, List.drop_length]
  · rfl

theorem newly_of_res {s s' : Ram T} (same : s'.res = s.res) : newly s s' = [] :=
  newly_of_moved (by rw [same])

/-- What the steps of others leave to the call that holds the lock. -/
structure Beside (x y : ClosingScene T) : Prop where
  dev : y.machine.dev = x.machine.dev
  shared : y.machine.mem.shared = x.machine.mem.shared
  lru : y.machine.mem.res.lru = x.machine.mem.res.lru
  drained : y.machine.mem.res.drained = x.machine.mem.res.drained
  holder : y.record.2 = x.record.2
  more : ∃ es, y.machine.mem.res.staged = x.machine.mem.res.staged ++ es ∧
    y.record.1 = x.record.1 ++ es

theorem Beside.refl (x : ClosingScene T) : Beside x x :=
  ⟨rfl, rfl, rfl, rfl, rfl, [], by simp, by simp⟩

theorem Beside.trans {x y z : ClosingScene T} (first : Beside x y) (second : Beside y z) :
    Beside x z := by
  obtain ⟨es, hs, hw⟩ := first.more
  obtain ⟨es', hs', hw'⟩ := second.more
  exact ⟨second.dev.trans first.dev, second.shared.trans first.shared, second.lru.trans first.lru,
    second.drained.trans first.drained, second.holder.trans first.holder, es ++ es',
    by rw [hs', hs, List.append_assoc], by rw [hw', hw, List.append_assoc]⟩

variable (inner : Inner T) (mode : TxMode) (budgeted : Bool) (db : Tables)

/-- All that has been staged has landed, is held by the call that drained it, or is still staged,
in this order. (Once the batch of a call has landed, the call lets it go.) -/
structure Sound (x : ClosingScene T) : Prop where
  sameMode : x.machine.mem.res.mode = mode
  lru : x.machine.mem.res.lru.isSome = budgeted
  holder : x.machine.mem.writeLock = x.record.2.isSome
  free : x.machine.mem.writeLock = false → x.machine.mem.res.drained = []
  landed : ∃ landed, Lands inner mode budgeted db landed x.machine.dev ∧
    (x.record.1 = landed ++ x.machine.mem.res.drained ++ x.machine.mem.res.staged ∨
      x.record.1 = landed ++ x.machine.mem.res.staged)

/-- What every step keeps, and the holder of the write lock can count on. -/
def closingRules : Rules Req Resp Tables (Ram T) (List Pending × Option Nat) where
  sem := Served
  next i e m m' g := (noteStaged i e m m' g.1, noteHolder i e m m' g.2)
  inv := Sound inner mode budgeted db
  rely i x y := x.record.2 = some i → Beside x y
  guar i x y := ∀ j, j ≠ i → x.record.2 = some j → Beside x y
  rely_refl _ x _ := Beside.refl x
  rely_trans _ _ _ _ first second h :=
    (first h).trans (second ((first h).holder.trans h))

/-- The call holds the lock and the batch it has drained. -/
def Holding (i : Nat) (batch : List Pending) (x : ClosingScene T) : Prop :=
  x.record.2 = some i ∧ x.machine.mem.res.drained = batch ∧
    ∃ landed, Lands inner mode budgeted db landed x.machine.dev ∧
      x.record.1 = landed ++ batch ++ x.machine.mem.res.staged

/-- The call holds the lock, and its batch has landed. -/
def Settling (i : Nat) (x : ClosingScene T) : Prop :=
  x.record.2 = some i ∧ ∃ landed, Lands inner mode budgeted db landed x.machine.dev ∧
    x.record.1 = landed ++ x.machine.mem.res.staged

variable {inner mode budgeted db} {i : Nat} {x y : ClosingScene T} {batch : List Pending}
  {m : Machine Tables (Ram T)} {e : Event Req Resp (Ram T)}

theorem Holding.beside (hx : Holding inner mode budgeted db i batch x) (hxy : Beside x y) :
    Holding inner mode budgeted db i batch y := by
  obtain ⟨hi, hd, landed, hl, hw⟩ := hx
  obtain ⟨es, hs, hw'⟩ := hxy.more
  refine ⟨hxy.holder.trans hi, hxy.drained.trans hd, landed, hxy.dev ▸ hl, ?_⟩
  rw [hw', hw, hs, List.append_assoc _ _ es]

theorem Settling.beside (hx : Settling inner mode budgeted db i x) (hxy : Beside x y) :
    Settling inner mode budgeted db i y := by
  obtain ⟨hi, landed, hl, hw⟩ := hx
  obtain ⟨es, hs, hw'⟩ := hxy.more
  refine ⟨hxy.holder.trans hi, landed, hxy.dev ▸ hl, ?_⟩
  rw [hw', hw, hs, List.append_assoc _ _ es]

theorem Holding.settling (hx : Holding inner mode budgeted db i [] x) :
    Settling inner mode budgeted db i x := by
  obtain ⟨hi, -, landed, hl, hw⟩ := hx
  exact ⟨hi, landed, hl, by simpa using hw⟩

/-! ## Steps -/

/-- Staging disturbs nobody, whoever holds the lock. -/
theorem Sound.appends (hy : Sound inner mode budgeted db y) {s : Ram T}
    (h : Appends y.machine.mem s) :
    (closingRules inner mode budgeted db).Allows i e y { y.machine with mem := s } ∧
      Beside y ((closingRules inner mode budgeted db).move i e y { y.machine with mem := s }) := by
  obtain ⟨es, more⟩ := h.more
  have hnew : newly y.machine.mem s = es := newly_append h.drained more
  have hholder : noteHolder i e y.machine { y.machine with mem := s } y.record.2 = y.record.2 := by
    have hy2 := hy.holder
    unfold noteHolder
    dsimp only
    rw [h.writeLock]
    cases hl : y.machine.mem.writeLock with
    | true => simp
    | false =>
      rw [hl] at hy2
      simpa using (Option.isNone_iff_eq_none.1 (Option.isSome_eq_false_iff.1 hy2.symm)).symm
  have beside : Beside y ((closingRules inner mode budgeted db).move i e y { y.machine with mem := s }) :=
    ⟨rfl, h.shared, h.lru, h.drained, hholder, es, more, by
      show y.record.1 ++ newly y.machine.mem s = _
      rw [hnew]⟩
  refine ⟨⟨⟨h.mode.trans hy.sameMode, h.lru ▸ hy.lru, ?_, ?_, ?_⟩, fun j _ _ => beside⟩, beside⟩
  · exact (h.writeLock.trans hy.holder).trans (congrArg Option.isSome hholder.symm)
  · exact fun hl => h.drained.trans (hy.free (h.writeLock ▸ hl))
  · obtain ⟨landed, hl, hw⟩ := hy.landed
    refine ⟨landed, hl, ?_⟩
    show y.record.1 ++ newly y.machine.mem s = landed ++ s.res.drained ++ s.res.staged ∨
      y.record.1 ++ newly y.machine.mem s = landed ++ s.res.staged
    rw [hnew, h.drained, more]
    rcases hw with hw | hw
    · rw [hw]
      simp
    · rw [hw]
      simp

/-- A step of the call that holds the lock, as long as it accounts for its batch. -/
theorem Sound.holds (hy : Sound inner mode budgeted db y) (holder : y.record.2 = some i)
    (lock : m.mem.writeLock = true) (hmode : m.mem.res.mode = y.machine.mem.res.mode)
    (hlru : m.mem.res.lru.isSome = y.machine.mem.res.lru.isSome)
    (hnew : newly y.machine.mem m.mem = [])
    (landed : ∃ landed, Lands inner mode budgeted db landed m.dev ∧
      (y.record.1 = landed ++ m.mem.res.drained ++ m.mem.res.staged ∨
        y.record.1 = landed ++ m.mem.res.staged)) :
    (closingRules inner mode budgeted db).Allows i e y m ∧
      ((closingRules inner mode budgeted db).move i e y m).record = y.record := by
  have hlock : y.machine.mem.writeLock = true := by rw [hy.holder, holder]; rfl
  have hrecord : ((closingRules inner mode budgeted db).move i e y m).record = y.record := by
    refine Prod.ext ?_ ?_
    · show y.record.1 ++ newly y.machine.mem m.mem = y.record.1
      rw [hnew, List.append_nil]
    · show noteHolder i e y.machine m y.record.2 = y.record.2
      simp [noteHolder, lock, hlock]
  refine ⟨⟨⟨hmode.trans hy.sameMode, hlru.trans hy.lru, ?_, ?_, ?_⟩, ?_⟩, hrecord⟩
  · rw [hrecord, holder]
    exact lock
  · intro hl
    rw [show ((closingRules inner mode budgeted db).move i e y m).machine = m from rfl, lock] at hl
    cases hl
  · rw [hrecord]
    exact landed
  · intro j hj hholds
    exact absurd (Option.some.inj (holder.symm.trans hholds)) (Ne.symm hj)

/-! ## The scopes of a flush -/

variable {α : Type} 
  {may : List (Event Req Resp (Ram T)) → Event Req Resp (Ram T) → ClosingScene T →
    Machine Tables (Ram T) → Prop}
  {h : List (Event Req Resp (Ram T))}

theorem Holding.locked (hx : Holding inner mode budgeted db i batch x)
    (hs : Sound inner mode budgeted db x) : x.machine.mem.writeLock = true := by
  rw [hs.holder, hx.1]
  rfl

theorem Settling.locked (hx : Settling inner mode budgeted db i x)
    (hs : Sound inner mode budgeted db x) : x.machine.mem.writeLock = true := by
  rw [hs.holder, hx.1]
  rfl

theorem safe_takeStaged (hx : Holding inner mode budgeted db i [] x) :
    (takeStaged : Io (Ram T) (List Pending)).Safe (closingRules inner mode budgeted db) i may
      (fun _ r y => ∃ batch, r = .ok batch ∧ Holding inner mode budgeted db i batch y) h x := by
  refine Prog.Safe.sync fun y hxy hy _ => ?_
  have hold := hx.beside (hxy hx.1)
  have hlock := hold.locked hy
  obtain ⟨hi, hd, landed, hl, hw⟩ := hold
  rw [List.append_nil] at hw
  obtain ⟨allowed, hrecord⟩ := hy.holds
    (e := .ram y.machine.mem (y.machine.mem.mapRes .drain))
    (m := ⟨y.machine.dev, y.machine.mem.mapRes .drain⟩) hi
    hlock rfl rfl (newly_of_moved (by simp [Ram.mapRes, Resident.drain, hd]))
    ⟨landed, hl, .inl (by simpa [Ram.mapRes, Resident.drain] using hw)⟩
  refine ⟨allowed, fun z hyz hz => ⟨y.machine.mem.res.staged, rfl, ?_⟩⟩
  have moved : Holding inner mode budgeted db i y.machine.mem.res.staged
      ((closingRules inner mode budgeted db).move i
        (.ram y.machine.mem (y.machine.mem.mapRes .drain)) y
        ⟨y.machine.dev, y.machine.mem.mapRes .drain⟩) := by
    refine ⟨by rw [hrecord, hi], rfl, landed, hl, ?_⟩
    rw [hrecord, hw]
    exact (List.append_nil _).symm
  exact moved.beside (hyz moved.1)

theorem Settling.letGo (hx : Settling inner mode budgeted db i x)
    (hs : Sound inner mode budgeted db x) :
    (closingRules inner mode budgeted db).Allows i e x ⟨x.machine.dev, dropDrained x.machine.mem⟩ ∧
      Holding inner mode budgeted db i [] ((closingRules inner mode budgeted db).move i e x
        ⟨x.machine.dev, dropDrained x.machine.mem⟩) := by
  have hlock := hx.locked hs
  obtain ⟨hi, landed, hl, hw⟩ := hx
  have hnew : newly x.machine.mem (dropDrained x.machine.mem) = [] := by
    unfold newly
    split
    · exact List.drop_length
    · rfl
  obtain ⟨allowed, hrecord⟩ := hs.holds (m := ⟨x.machine.dev, dropDrained x.machine.mem⟩) hi hlock
    rfl rfl hnew ⟨landed, hl, .inr hw⟩
  refine ⟨allowed, by rw [hrecord, hi], rfl, landed, hl, ?_⟩
  rw [hrecord, hw, List.append_nil]
  rfl

theorem Holding.putBack (hx : Holding inner mode budgeted db i batch x)
    (hs : Sound inner mode budgeted db x) :
    (closingRules inner mode budgeted db).Allows i e x
        ⟨x.machine.dev, x.machine.mem.mapRes (.putBack batch)⟩ ∧
      Holding inner mode budgeted db i [] ((closingRules inner mode budgeted db).move i e x
        ⟨x.machine.dev, x.machine.mem.mapRes (.putBack batch)⟩) := by
  have hlock := hx.locked hs
  obtain ⟨hi, hd, landed, hl, hw⟩ := hx
  rw [List.append_assoc] at hw
  obtain ⟨allowed, hrecord⟩ := hs.holds
    (m := ⟨x.machine.dev, x.machine.mem.mapRes (.putBack batch)⟩) hi hlock rfl rfl
    (newly_of_moved (by simp [Ram.mapRes, Resident.putBack, hd])) ⟨landed, hl, .inr hw⟩
  refine ⟨allowed, by rw [hrecord, hi], rfl, landed, hl, ?_⟩
  rw [hrecord, hw, List.append_nil]
  rfl

/-- A part that, when it fails, still holds the batch. -/
theorem safe_restagingOnError (good : α → ClosingScene T → Prop) {p : Io (Ram T) α}
    (stable : ∀ a y z, good a y → (closingRules inner mode budgeted db).rely i y z → good a z)
    (hp : p.Safe (closingRules inner mode budgeted db) i may
      (fun _ => outcome good (Holding inner mode budgeted db i batch)) h x) :
    (restagingOnError batch p).Safe (closingRules inner mode budgeted db) i may
      (fun _ => outcome good (Holding inner mode budgeted db i [])) h x := by
  unfold restagingOnError
  refine Prog.Safe.bind (fun _ r y => ∃ x, r = .ok x ∧
    outcome good (Holding inner mode budgeted db i batch) x y) ?_ ?_ ?_
  · exact Prog.Safe.attempt (hp.mono fun _ r y _ hr => ⟨r, rfl, hr⟩)
  · intro h r y hy hpost
    obtain ⟨r', hr', hr⟩ := hpost
    obtain rfl := Except.ok.inj hr'
    cases r with
    | ok a => exact fun z hyz _ => stable a y z hr hyz
    | error e =>
      refine Prog.Safe.bind (fun _ _ y => Holding inner mode budgeted db i [] y) ?_ ?_ ?_
      · refine Prog.Safe.update fun z hyz hz _ => ?_
        obtain ⟨allowed, back⟩ := Holding.putBack (hr.beside (hyz hr.1)) hz
        exact ⟨allowed, fun w hzw _ => back.beside (hzw back.1)⟩
      · intro h a z _ hz w hzw _
        exact hz.beside (hzw hz.1)
      · exact fun _ _ _ _ hz => hz
  · rintro h e y _ ⟨r, hr, -⟩
    cases hr

/-- What a call that holds the lock does to memory while it reckons a commit. -/
structure Drafts (s s' : Ram T) : Prop where
  writeLock : s'.writeLock = s.writeLock
  mode : s'.res.mode = s.res.mode
  lru : s'.res.lru.isSome = s.res.lru.isSome
  drained : s'.res.drained = s.res.drained
  staged : s'.res.staged = s.res.staged

theorem Drafts.refl (s : Ram T) : Drafts s s := ⟨rfl, rfl, rfl, rfl, rfl⟩

/-- The bank's cursors and the byte budget are the same. -/
def SameBudget (s s' : Ram T) : Prop := s.shared = s'.shared ∧ s.res.lru = s'.res.lru

theorem drafts_zoom {β : Type} {p : Io Shared β} (hp : Draws p) :
    (p.zoom (sharedPart T)).Only Req.isRead Drafts := by
  refine (Prog.Only.zoom hp).mono (fun _ hq => hq) ?_
  intro s s' hs
  obtain ⟨r, -, rfl⟩ := hs
  exact ⟨rfl, rfl, rfl, rfl, rfl⟩

theorem Reads.drafts {β : Type} {p : Io (Ram T) β} (hp : Reads p) : p.Only Req.isRead Drafts :=
  Prog.Only.mono hp (fun _ hq => hq) fun _ _ hs => hs.elim

theorem drafts_read {β : Type} {f : Ram T → β} :
    (Prog.read f : Io (Ram T) β).Only Req.isRead Drafts := Prog.only_read.2 .refl

theorem drafts_reloadLruIfDirty : (reloadLruIfDirty inner).Only Req.isRead Drafts := by
  unfold reloadLruIfDirty
  apply drafts_read.bind
  intro lru
  cases lru with
  | none => exact Prog.only_pure
  | some state =>
    dsimp only
    split
    · exact Prog.only_pure
    apply (drafts_zoom (draws_loadLru _ _ _)).bind
    intro loaded
    exact Prog.only_update.2 fun s => ⟨rfl, rfl, Option.isSome_map, rfl, rfl⟩

theorem drafts_batchOps (merged : List Pending) :
    (batchOps inner merged mode).Only Req.isRead Drafts := by
  unfold batchOps
  apply (drafts_zoom (draws_opsForItems inner merged mode)).bind
  intro ops
  unfold budgetOps
  apply drafts_read.bind
  intro isNone
  split
  · exact Prog.only_pure
  apply drafts_reloadLruIfDirty.bind
  intro _
  apply (drafts_zoom draws_allocateTick).bind
  intro tick
  apply drafts_read.bind
  intro lru
  cases lru with
  | none => exact Prog.only_pure
  | some state =>
    apply (reads_victimOps inner _).drafts.bind
    intro shed
    exact drafts_read.bind fun counter => Prog.only_pure

theorem Reads.blind {β : Type} {E : Ram T → Ram T → Prop} {p : Io (Ram T) β} (hp : Reads p) :
    p.Blind E := by
  induction p with
  | ret a => trivial
  | fail e => trivial
  | stuck => trivial
  | ram f k ih => exact fun s => (hp s).1.elim
  | await q d k ih => exact fun x => ih x (hp.2 x)

theorem blind_zoom {β : Type} {p : Io Shared β} : (p.zoom (sharedPart T)).Blind SameBudget :=
  Prog.blind_zoom (fun _ _ hs => hs.1) fun _ _ _ hs => ⟨rfl, hs.2⟩

theorem blind_reloadLruIfDirty : (reloadLruIfDirty inner).Blind SameBudget := by
  unfold reloadLruIfDirty
  apply (Prog.blind_read fun s s' hs => hs.2).bind
  intro lru
  cases lru with
  | none => exact Prog.blind_pure
  | some state =>
    dsimp only
    split
    · exact Prog.blind_pure
    apply blind_zoom.bind
    intro loaded
    exact Prog.blind_update fun s s' hs =>
      ⟨hs.1, congrArg (Option.map fun state => LruState.adoptLoaded state loaded) hs.2⟩

/-- What a commit consists of depends on the cursors and the byte budget alone. -/
theorem blind_batchOps (merged : List Pending) :
    (batchOps inner merged mode).Blind SameBudget := by
  unfold batchOps
  apply blind_zoom.bind
  intro ops
  unfold budgetOps
  apply (Prog.blind_read fun s s' hs => by rw [hs.2]).bind
  intro isNone
  split
  · exact Prog.blind_pure
  apply blind_reloadLruIfDirty.bind
  intro _
  apply blind_zoom.bind
  intro tick
  apply (Prog.blind_read fun s s' hs => hs.2).bind
  intro lru
  cases lru with
  | none => exact Prog.blind_pure
  | some state =>
    apply (reads_victimOps inner _).blind.bind
    intro shed
    exact (Prog.blind_read fun s s' hs => by rw [hs.1]).bind fun counter => Prog.blind_pure

variable (inner mode budgeted batch) in
/-- The ops are those of an undisturbed flush of the batch, on the store as it is. -/
def Reckoned (ops : List Op) (x : ClosingScene T) : Prop :=
  ∃ (budget : Budget) (ram : Ram T) (m : Machine Tables (Ram T)), ram.res.lru.isSome = budgeted ∧
    Run Served (batchOps inner batch mode) ⟨x.machine.dev, ram⟩ (.ok (ops, budget)) m

theorem Reckoned.beside {ops : List Op} (hx : Reckoned inner mode budgeted batch ops x)
    (hxy : Beside x y) : Reckoned inner mode budgeted batch ops y := by
  unfold Reckoned
  rw [hxy.dev]
  exact hx

/-- Under the lock a commit is reckoned as it would be alone. -/
theorem safe_batchOps (hx : Holding inner mode budgeted db i batch x)
    (hs : Sound inner mode budgeted db x) :
    (batchOps inner batch mode).Safe (closingRules inner mode budgeted db) i may (fun _ =>
      outcome (fun a y => Holding inner mode budgeted db i batch y ∧
        Reckoned inner mode budgeted batch a.1 y) (Holding inner mode budgeted db i batch)) h x := by
  refine Prog.Safe.mono (Prog.Safe.alone (R := closingRules inner mode budgeted db)
    (E := SameBudget) (K := Holding inner mode budgeted db i batch) (m := x.machine)
    (fun s s' hs => ⟨hs.1.symm, hs.2.symm⟩)
    (fun s s' s'' hs hs' => ⟨hs.1.trans hs'.1, hs.2.trans hs'.2⟩)
    (drafts_batchOps batch) (blind_batchOps batch)
    (fun y z hy hyz _ => ⟨hy.beside (hyz hy.1), (hyz hy.1).dev, (hyz hy.1).shared.symm,
      (hyz hy.1).lru.symm⟩) ?_ ?_ hx rfl ⟨rfl, rfl⟩) ?_
  rotate_left 2
  · intro _ r y _ hpost
    obtain ⟨hold, m', run, hdev, -⟩ := hpost
    cases r with
    | error e => exact hold
    | ok a =>
      have hsame : m'.dev = x.machine.dev := Prog.Only.run_dev (drafts_batchOps batch) run
      refine ⟨hold, a.2, x.machine.mem, m', hs.lru, ?_⟩
      rw [← hdev, hsame]
      exact run
  · intro y s hold hy hc
    have hlock := hold.locked hy
    obtain ⟨hi, hd, landed, hl, hw⟩ := hold
    have hnew : newly y.machine.mem s = [] :=
      newly_append hc.drained (by rw [hc.staged, List.append_nil])
    obtain ⟨allowed, hrecord⟩ := hy.holds (m := { y.machine with mem := s }) hi
      (hc.writeLock.trans hlock) hc.mode hc.lru hnew
      ⟨landed, hl, .inl (by rw [hc.drained, hc.staged, hd]; exact hw)⟩
    refine ⟨allowed, by rw [hrecord, hi], hc.drained.trans hd, landed, hl, ?_⟩
    rw [hrecord, hw]
    exact congrArg _ hc.staged.symm
  · intro y q a m hold hy hq ha
    obtain rfl := served_read hq ha
    refine ⟨⟨rfl, fun s => ?_⟩, ?_⟩
    · cases q with
      | get | getMany | scan => exact ⟨rfl, ha.2⟩
      | commit | flush | lock | idle => exact hq.elim
    · obtain ⟨allowed, beside⟩ := hy.appends (i := i) (.refl y.machine.mem)
      exact ⟨allowed, hold.beside beside⟩

theorem safe_commit {ops : List Op} (hx : Holding inner mode budgeted db i batch x)
    (hops : Reckoned inner mode budgeted batch ops x) :
    (inner.commit ops : Io (Ram T) Unit).Safe (closingRules inner mode budgeted db) i may
      (fun _ => outcome (fun _ => Settling inner mode budgeted db i)
        (Holding inner mode budgeted db i batch)) h x := by
  unfold Inner.commit Backend.commitWith
  refine Prog.Safe.bind (fun _ r y => ∃ x, r = .ok x ∧
    outcome (fun _ => Settling inner mode budgeted db i)
      (Holding inner mode budgeted db i batch) x y) ?_ ?_ ?_
  · refine Prog.Safe.ask fun y hxy hy a m ha _ => ?_
    have hold := hx.beside (hxy hx.1)
    have hlock := hold.locked hy
    obtain ⟨budget, ram, m₁, hlru, run⟩ := hops.beside (hxy hx.1)
    rcases ha with ⟨rfl, rfl⟩ | ⟨e, rfl, rfl⟩
    · obtain ⟨hi, hd, landed, hl, hw⟩ := hold
      have after : Lands inner mode budgeted db (landed ++ batch) (y.machine.dev.commit ops) :=
        .flushed hl hlru run
      obtain ⟨allowed, hrecord⟩ := hy.holds
        (e := .io (.commit ops ⟨inner.config.durability⟩) (.ok ())) (m := { y.machine with dev := y.machine.dev.commit ops }) hi hlock rfl rfl
        (newly_of_moved rfl) ⟨_, after, .inr hw⟩
      have settled : Settling inner mode budgeted db i ((closingRules inner mode budgeted db).move i
          (.io (.commit ops ⟨inner.config.durability⟩) (.ok ())) y { y.machine with dev := y.machine.dev.commit ops }) := by
        refine ⟨by rw [hrecord, hi], _, after, ?_⟩
        rw [hrecord]
        exact hw
      exact ⟨allowed, fun z hyz _ => ⟨_, rfl, settled.beside (hyz settled.1)⟩⟩
    · obtain ⟨allowed, beside⟩ := hy.appends (i := i)
        (e := .io (.commit ops ⟨inner.config.durability⟩) (.error e)) (.refl y.machine.mem)
      have kept := hold.beside beside
      exact ⟨allowed, fun z hyz _ => ⟨_, rfl, kept.beside (hyz kept.1)⟩⟩
  · intro h r y _ hpost
    obtain ⟨r', hr', hr⟩ := hpost
    obtain rfl := Except.ok.inj hr'
    refine Prog.Safe.ofExcept fun z hyz _ => ?_
    cases r with
    | ok u => exact hr.beside (hyz hr.1)
    | error e => exact hr.beside (hyz hr.1)
  · rintro h e y _ ⟨r, hr, -⟩
    cases hr

theorem drafts_applyBudget (budget : Budget) (s : Ram T) : Drafts s (applyBudget budget s) := by
  have fold (victims : List Bytes) (r : Resident) :
      (victims.foldl (fun r victim => r.noteInline victim false) r).mode = r.mode ∧
      (victims.foldl (fun r victim => r.noteInline victim false) r).lru = r.lru ∧
      (victims.foldl (fun r victim => r.noteInline victim false) r).drained = r.drained ∧
      (victims.foldl (fun r victim => r.noteInline victim false) r).staged = r.staged := by
    induction victims generalizing r with
    | nil => exact ⟨rfl, rfl, rfl, rfl⟩
    | cons victim rest ih => exact ih _
  obtain ⟨hmode, hlru, hdrained, hstaged⟩ := fold budget.plan.victims
    (({ s.res with lru := (s.res.lru.map (LruState.apply budget.updates budget.removals
      budget.cleared budget.plan)).map (LruState.clearPending budget.pending) } : Resident).touchIndex
      fun index => budget.plan.victims.foldl (fun i victim => i.erase victim) index)
  refine ⟨rfl, hmode, ?_, hdrained, hstaged⟩
  refine (congrArg Option.isSome hlru).trans ?_
  simp [Resident.touchIndex]

theorem safe_applyBudget {budget : Budget} (hx : Settling inner mode budgeted db i x) :
    (Prog.update (applyBudget budget) : Io (Ram T) Unit).Safe (closingRules inner mode budgeted db) i
      may (fun _ _ y => Settling inner mode budgeted db i y) h x := by
  refine Prog.Safe.update fun y hxy hy _ => ?_
  have settled := hx.beside (hxy hx.1)
  have hlock := settled.locked hy
  obtain ⟨hi, landed, hl, hw⟩ := settled
  have hd := drafts_applyBudget budget y.machine.mem
  obtain ⟨allowed, hrecord⟩ := hy.holds
    (e := .ram y.machine.mem (applyBudget budget y.machine.mem)) (m := { y.machine with mem := applyBudget budget y.machine.mem }) hi (hd.writeLock.trans hlock)
    hd.mode hd.lru (newly_append hd.drained (by rw [hd.staged, List.append_nil]))
    ⟨landed, hl, .inr (hd.staged ▸ hw)⟩
  have after : Settling inner mode budgeted db i ((closingRules inner mode budgeted db).move i
      (.ram y.machine.mem (applyBudget budget y.machine.mem)) y
      { y.machine with mem := applyBudget budget y.machine.mem }) := by
    refine ⟨by rw [hrecord, hi], landed, hl, ?_⟩
    rw [hrecord, hw]
    exact congrArg _ hd.staged.symm
  exact ⟨allowed, fun z hyz _ => after.beside (hyz after.1)⟩

/-- What is drained is dropped once it is settled. -/
theorem safe_dropDrained {p : Io (Ram T) Unit}
    (hp : p.Safe (closingRules inner mode budgeted db) i may
      (fun _ _ y => Settling inner mode budgeted db i y) h x) :
    (p.guarded dropDrained).Safe (closingRules inner mode budgeted db) i may
      (fun _ _ y => Holding inner mode budgeted db i [] y) h x := by
  refine Prog.Safe.guarded (hp.mono fun _ r z hz settled _ => ?_)
  obtain ⟨allowed, gone⟩ := settled.letGo hz
  exact ⟨allowed, fun w hzw _ => gone.beside (hzw gone.1)⟩

theorem safe_flushLocked (hx : Holding inner mode budgeted db i [] x) :
    (flushLocked inner).Safe (closingRules inner mode budgeted db) i may
      (fun _ _ y => Holding inner mode budgeted db i [] y) h x := by
  unfold flushLocked
  refine Prog.Safe.bind _ (safe_takeStaged hx) ?_ ?_
  · intro h entries y hy hpost
    obtain ⟨batch, hb, hold⟩ := hpost
    obtain rfl := Except.ok.inj hb
    refine safe_dropDrained ?_
    split
    · next hnil =>
      obtain rfl : entries = [] := List.isEmpty_iff.1 hnil
      exact fun z hyz _ => (hold.beside (hyz hold.1)).settling
    · refine Prog.Safe.bind (fun _ r z => r = .ok mode ∧
        Holding inner mode budgeted db i entries z) ?_ ?_ (fun _ e _ _ hz => by cases hz.1)
      · refine Prog.Safe.read fun z hyz hz _ => ?_
        obtain ⟨allowed, beside⟩ := hz.appends (i := i) (.refl z.machine.mem)
        have kept := (hold.beside (hyz hold.1)).beside beside
        exact ⟨allowed, fun w hzw _ => ⟨by rw [hz.sameMode], kept.beside (hzw kept.1)⟩⟩
      rintro h m z hz ⟨hm, held⟩
      obtain rfl := Except.ok.inj hm
      refine Prog.Safe.bind _ (safe_restagingOnError
        (fun (a : List Op × Budget) z => Holding inner m budgeted db i entries z ∧
          Reckoned inner m budgeted entries a.1 z)
        (fun a y z hy hyz => ⟨hy.1.beside (hyz hy.1.1), hy.2.beside (hyz hy.1.1)⟩)
        (safe_batchOps held hz)) ?_ fun _ e w _ back => back.settling
      rintro h ⟨ops, budget⟩ w hw ⟨held, reckoned⟩
      refine Prog.Safe.bind _ (safe_restagingOnError (fun _ => Settling inner m budgeted db i)
        (fun a y z hy hyz => hy.beside (hyz hy.1)) (safe_commit held reckoned)) ?_
        fun _ e w _ back => back.settling
      exact fun h _ w _ settled => safe_applyBudget settled
  · rintro h e y _ ⟨batch, hb, -⟩
    cases hb

/-! ## The calls keep the rules -/

theorem safe_appends {K : ClosingScene T → Prop} {p : Io (Ram T) α}
    (hp : p.Only (fun q => q = .flush) Appends)
    (stable : ∀ y z, K y → (closingRules inner mode budgeted db).rely i y z → K z)
    (beside : ∀ y z, K y → Beside y z → K z) (hx : K x) :
    p.Safe (closingRules inner mode budgeted db) i may (fun _ _ y => K y) h x := by
  refine Prog.Safe.of_only hp (fun y z hy hyz _ => stable y z hy hyz) ?_ ?_ hx
  · intro y s hK hy hc
    obtain ⟨allowed, hb⟩ := hy.appends (i := i) hc
    exact ⟨allowed, beside _ _ hK hb⟩
  · intro y q a m hK hy hq ha
    subst hq
    obtain rfl : m = y.machine := ha
    obtain ⟨allowed, hb⟩ := hy.appends (i := i) (.refl y.machine.mem)
    exact ⟨allowed, beside _ _ hK hb⟩

theorem safe_appends_bind {β : Type} {p : Io (Ram T) α} {f : α → Io (Ram T) β}
    (hp : p.Only (fun q => q = .flush) Appends)
    (hf : ∀ a h y, (f a).Safe (closingRules inner mode budgeted db) i may (fun _ _ _ => True) h y) :
    (p >>= f).Safe (closingRules inner mode budgeted db) i may (fun _ _ _ => True) h x :=
  Prog.Safe.bind (fun _ _ _ => True)
    (safe_appends hp (fun _ _ _ _ => trivial) (fun _ _ _ _ => trivial) trivial)
    (fun h a y _ _ => hf a h y) fun _ _ _ _ _ => trivial

theorem safe_holding_bind {β : Type} {p : Io (Ram T) α} {f : α → Io (Ram T) β}
    (hp : p.Only (fun q => q = .flush) Appends)
    (hf : ∀ a h y, Holding inner mode budgeted db i [] y →
      (f a).Safe (closingRules inner mode budgeted db) i may
        (fun _ _ y => Holding inner mode budgeted db i [] y) h y)
    (hx : Holding inner mode budgeted db i [] x) :
    (p >>= f).Safe (closingRules inner mode budgeted db) i may
      (fun _ _ y => Holding inner mode budgeted db i [] y) h x :=
  Prog.Safe.bind (fun _ _ y => Holding inner mode budgeted db i [] y)
    (safe_appends hp (fun _ _ hy hyz => hy.beside (hyz hy.1)) (fun _ _ hy hyz => hy.beside hyz) hx)
    (fun h a y _ hy => hf a h y hy) fun _ _ _ _ hy => hy

/-- The write lock: what runs under it starts with nothing drained, and leaves nothing drained. -/
theorem safe_withWriteLock {body : Io (Ram T) α}
    (hbody : ∀ h y, Holding inner mode budgeted db i [] y →
      body.Safe (closingRules inner mode budgeted db) i may
        (fun _ _ y => Holding inner mode budgeted db i [] y) h y) :
    (withWriteLock body).Safe (closingRules inner mode budgeted db) i may (fun _ _ _ => True) h x := by
  unfold withWriteLock
  refine Prog.Safe.bind (fun _ _ y => Holding inner mode budgeted db i [] y) ?_ ?_
    fun _ _ _ _ _ => trivial
  · refine Prog.Safe.ask fun y hxy hy a m ha _ => ?_
    obtain ⟨s, hs, rfl⟩ := ha
    have hfree : y.machine.mem.writeLock = false ∧ s = y.machine.mem.lock := by
      simp only [WriteLock.acquire] at hs
      split at hs
      · cases hs
      · next hl => exact ⟨by simpa using hl, (Option.some.inj hs).symm⟩
    obtain ⟨hl, rfl⟩ := hfree
    have hd := hy.free hl
    have hnone : y.record.2 = none := by
      have h2 := hy.holder
      rw [hl] at h2
      exact Option.isNone_iff_eq_none.1 (Option.isSome_eq_false_iff.1 h2.symm)
    have hrecord : ((closingRules inner mode budgeted db).move i (.io .lock a) y
        { y.machine with mem := y.machine.mem.lock }).record = (y.record.1, some i) := by
      refine Prod.ext ?_ ?_
      · show y.record.1 ++ newly y.machine.mem y.machine.mem.lock = y.record.1
        rw [show newly y.machine.mem y.machine.mem.lock = [] from newly_of_res rfl, List.append_nil]
      · show noteHolder i (.io .lock a) y.machine { y.machine with mem := y.machine.mem.lock } y.record.2 = some i
        simp [noteHolder, hl, Ram.lock]
    obtain ⟨landed, hlands, hw⟩ := hy.landed
    have hw' : y.record.1 = landed ++ y.machine.mem.res.staged := by
      rcases hw with hw | hw
      · simpa [hd] using hw
      · exact hw
    have held : Holding inner mode budgeted db i [] ((closingRules inner mode budgeted db).move i (.io .lock a) y
        { y.machine with mem := y.machine.mem.lock }) := by
      refine ⟨by rw [hrecord], hd, landed, hlands, ?_⟩
      rw [hrecord, List.append_nil]
      exact hw'
    have taken : (closingRules inner mode budgeted db).inv ((closingRules inner mode budgeted db).move
        i (.io .lock a) y { y.machine with mem := y.machine.mem.lock }) := by
      refine ⟨hy.sameMode, hy.lru, ?_, fun h => absurd h (by simp [Setting.move, Ram.lock]), landed,
        hlands, .inr ?_⟩
      · rw [hrecord]
        rfl
      · rw [hrecord]
        exact hw'
    refine ⟨⟨taken, fun j _ hj => ?_⟩, fun z hyz _ => held.beside (hyz held.1)⟩
    · rw [hnone] at hj
      cases hj
  · intro h u y hy held
    refine Prog.Safe.guarded ((hbody h y held).mono fun h r z hz held _ => ?_)
    obtain ⟨hi, hd, landed, hl, hw⟩ := held
    have hrecord : ((closingRules inner mode budgeted db).move i
        (.ram z.machine.mem z.machine.mem.unlock) z
        { z.machine with mem := z.machine.mem.unlock }).record = (z.record.1, none) := by
      refine Prod.ext ?_ rfl
      show z.record.1 ++ newly z.machine.mem z.machine.mem.unlock = z.record.1
      rw [show newly z.machine.mem z.machine.mem.unlock = [] from newly_of_res rfl, List.append_nil]
    have given : (closingRules inner mode budgeted db).inv ((closingRules inner mode budgeted db).move
        i (.ram z.machine.mem z.machine.mem.unlock) z { z.machine with mem := z.machine.mem.unlock }) := by
      refine ⟨hz.sameMode, hz.lru, ?_, fun _ => hd, landed, hl, .inr ?_⟩
      · rw [hrecord]
        rfl
      · rw [List.append_nil] at hw
        rw [hrecord]
        exact hw
    refine ⟨⟨given, fun j hj hholds => ?_⟩, fun w _ _ => trivial⟩
    exact absurd (Option.some.inj (hi.symm.trans hholds)) (Ne.symm hj)

theorem safe_whenFull {full : Bool} :
    (if full = true then withWriteLock (flushLocked inner) else pure () : Io (Ram T) Unit).Safe
      (closingRules inner mode budgeted db) i may (fun _ _ _ => True) h x := by
  split
  · exact safe_withWriteLock fun h y hy => safe_flushLocked hy
  · exact fun _ _ _ => trivial

theorem safe_flush : (Resident.flush inner).Safe (closingRules inner mode budgeted db) i may
    (fun _ _ _ => True) h x := by
  unfold Resident.flush
  refine safe_appends_bind (Prog.only_read.2 .refl) fun n h y => ?_
  split
  · exact fun _ _ _ => trivial
  · exact safe_withWriteLock fun h y hy => safe_flushLocked hy

theorem appends_stage (entry : Pending) :
    (stage inner entry).Only (fun q => q = .flush) Appends :=
  Prog.only_sync.2 fun _ => ⟨rfl, rfl, rfl, rfl, rfl, _, rfl⟩

theorem appends_update {f : Ram T → Ram T} (hf : ∀ s, Appends s (f s)) :
    (Prog.update f : Io (Ram T) Unit).Only (fun q => q = .flush) Appends := Prog.only_update.2 hf

theorem appends_mirrorPut (key : Bytes) (value : T) :
    (EagerLocker.mirrorPut key value).Only (fun q => q = .flush) Appends := by
  unfold EagerLocker.mirrorPut
  refine Prog.Only.bind (appends_update fun s => .keeps rfl rfl rfl rfl rfl rfl) fun _ => ?_
  refine Prog.Only.bind (appends_update fun s => .keeps rfl rfl rfl rfl rfl rfl) fun _ => ?_
  exact appends_update fun s => .keeps rfl rfl rfl rfl rfl rfl

theorem appends_mirrorDelete (key : Bytes) (held : Bool) :
    (EagerLocker.mirrorDelete key held : Io (Ram T) Unit).Only (fun q => q = .flush) Appends := by
  unfold EagerLocker.mirrorDelete
  refine Prog.Only.bind (appends_update fun s => .keeps rfl rfl rfl rfl rfl rfl) fun _ => ?_
  refine Prog.Only.bind (appends_update fun s => .keeps rfl rfl rfl rfl rfl rfl) fun _ => ?_
  split
  · exact appends_update fun s => .keeps rfl rfl rfl rfl rfl rfl
  · exact Prog.only_pure

theorem safe_eagerPut (deferred : isDeferred inner = true) (key : Bytes) (value : T) :
    (EagerLocker.putBy inner key value).Safe (closingRules inner mode budgeted db) i may
      (fun _ _ _ => True) h x := by
  unfold EagerLocker.putBy
  refine safe_appends_bind (Prog.only_sync.2 .refl) fun _ h y => ?_
  refine safe_appends_bind Prog.only_ofExcept fun sealed h y => ?_
  rw [if_pos deferred]
  split
  · exact fun _ _ _ => trivial
  refine safe_appends_bind Prog.only_ofExcept fun payload h y => ?_
  refine safe_appends_bind (appends_stage _) fun full h y => ?_
  refine safe_appends_bind (appends_mirrorPut key value) fun _ h y => ?_
  dsimp only
  split
  · refine Prog.Safe.bind (fun _ _ _ => True) (safe_withWriteLock fun h y hy => safe_flushLocked hy)
      (fun _ _ _ _ _ => ?_) fun _ _ _ _ _ => trivial
    exact fun _ _ _ => trivial
  · exact fun _ _ _ => trivial

theorem safe_eagerDelete (deferred : isDeferred inner = true) (key : Bytes) :
    (EagerLocker.deleteBy inner key).Safe (closingRules inner mode budgeted db) i may
      (fun _ _ _ => True) h x := by
  unfold EagerLocker.deleteBy
  refine safe_appends_bind (Prog.only_sync.2 .refl) fun _ h y => ?_
  refine safe_appends_bind (Prog.only_read.2 .refl) fun held h y => ?_
  refine safe_appends_bind (Prog.only_read.2 .refl) fun authoritative h y => ?_
  rw [if_pos deferred]
  split
  · exact fun _ _ _ => trivial
  refine safe_appends_bind (appends_stage _) fun full h y => ?_
  refine safe_appends_bind (appends_mirrorDelete key held) fun _ h y => ?_
  exact safe_whenFull

theorem safe_lazyPut (deferred : isDeferred inner = true) (key : Bytes) (value : T) :
    (LazyLocker.putBy inner key value).Safe (closingRules inner mode budgeted db) i may
      (fun _ _ _ => True) h x := by
  unfold LazyLocker.putBy
  refine safe_appends_bind (Prog.only_sync.2 .refl) fun _ h y => ?_
  refine safe_withWriteLock fun h y hy => ?_
  refine safe_holding_bind Prog.only_ofExcept (fun payload h y hy => ?_) hy
  rw [if_pos deferred]
  refine safe_holding_bind (appends_stage _) (fun full h y hy => ?_) hy
  refine safe_holding_bind (appends_update fun s => .keeps rfl rfl rfl rfl rfl rfl) (fun _ h y hy => ?_) hy
  refine safe_holding_bind (appends_update fun s => .keeps rfl rfl rfl rfl rfl rfl) (fun _ h y hy => ?_) hy
  refine safe_holding_bind (appends_update fun s => .keeps rfl rfl rfl rfl rfl rfl) (fun _ h y hy => ?_) hy
  split
  · exact safe_flushLocked hy
  · exact fun z hyz _ => hy.beside (hyz hy.1)

theorem safe_lazyDelete (deferred : isDeferred inner = true) (key : Bytes) :
    (LazyLocker.deleteBy inner key).Safe (closingRules inner mode budgeted db) i may
      (fun _ _ _ => True) h x := by
  unfold LazyLocker.deleteBy
  refine safe_appends_bind (Prog.only_sync.2 .refl) fun _ h y => ?_
  refine safe_withWriteLock fun h y hy => ?_
  rw [if_pos deferred]
  refine safe_holding_bind (appends_stage _) (fun full h y hy => ?_) hy
  refine safe_holding_bind (appends_update fun s => .keeps rfl rfl rfl rfl rfl rfl) (fun _ h y hy => ?_) hy
  refine safe_holding_bind (appends_update fun s => .keeps rfl rfl rfl rfl rfl rfl) (fun _ h y hy => ?_) hy
  refine safe_holding_bind (appends_update fun s => .keeps rfl rfl rfl rfl rfl rfl) (fun _ h y hy => ?_) hy
  split
  · exact safe_flushLocked hy
  · exact fun z hyz _ => hy.beside (hyz hy.1)

/-- The flush of a close has returned, and nothing it threw away. -/
def FlushOk (inner : Inner T) (h : List (Event Req Resp (Ram T))) : Prop :=
  ∃ h₁ h₂, h = h₁ ++ h₂ ∧ Ends (Resident.flush inner) h₁ (.ok ())

/-- Nothing is staged, and no call holds a drained batch. -/
def Empty (ram : Ram T) : Prop := ram.res.staged = [] ∧ ram.res.drained = []

/-- A close that goes on, once its flush has returned, only where nothing is staged. -/
theorem safe_close (hmay : ∀ h e y m, may h e y m → FlushOk inner h → Empty y.machine.mem)
    (tail : Except Error Unit → Io (Ram T) Unit)
    (htail : ∀ r, (tail r).Only (fun q => q = .flush) Appends) :
    (do
      let flushed ← (Resident.flush inner).attempt
      if flushed.isOk then discardStaged
      tail flushed : Io (Ram T) Unit).Safe (closingRules inner mode budgeted db) i may
      (fun _ _ _ => True) [] x := by
  have rest (r : Except Error Unit) (h : List (Event Req Resp (Ram T))) (y : ClosingScene T) :
      (tail r).Safe (closingRules inner mode budgeted db) i may (fun _ _ _ => True) h y :=
    safe_appends (htail r) (fun _ _ _ _ => trivial) (fun _ _ _ _ => trivial) trivial
  refine Prog.Safe.bind (fun h r _ => ∀ u, r = .ok (.ok u) → FlushOk inner h) ?_ ?_
    fun _ _ _ _ _ => trivial
  · refine Prog.Safe.attempt (Prog.Safe.ends (safe_flush.mono fun h r y _ _ h₁ hh he u hr => ?_))
    obtain rfl := Except.ok.inj hr
    exact ⟨h₁, [], by simpa using hh, he⟩
  · intro h flushed y _ hflush
    dsimp only
    split
    · next hok =>
      cases flushed with
      | error e => cases hok
      | ok u =>
        refine Prog.Safe.bind (fun _ _ _ => True) ?_ (fun h _ y _ _ => rest _ h y)
          fun _ _ _ _ _ => trivial
        refine Prog.Safe.update fun z hyz hz here => ⟨?_, fun _ _ _ => trivial⟩
        obtain ⟨hs, hd⟩ := hmay h _ z _ here (hflush u rfl)
        have none : Appends z.machine.mem (z.machine.mem.mapRes fun r => { r with staged := [] }) :=
          .keeps rfl rfl rfl rfl rfl hs.symm
        exact (hz.appends none).1
    · exact rest _ h y

/-- Every call keeps the rules, a close as long as nothing is staged once its flush has
returned. -/
theorem ClosingCall.safe (deferred : isDeferred inner = true) (c : ClosingCall T)
    (hmay : c.prog inner mode = ClosingCall.close.prog inner mode →
      ∀ h e y m, may h e y m → FlushOk inner h → Empty y.machine.mem) :
    (c.prog inner mode).Safe (closingRules inner mode budgeted db) i may (fun _ _ _ => True) [] x := by
  cases c with
  | put key value =>
    cases mode with
    | eager => exact Prog.Safe.map (safe_eagerPut deferred key value)
    | lazy => exact safe_lazyPut deferred key value
  | delete key =>
    cases mode with
    | eager => exact safe_eagerDelete deferred key
    | lazy => exact safe_lazyDelete deferred key
  | close =>
    have forces : (inner.flushBackend : Io (Ram T) Unit).attempt.Only (fun q => q = .flush) Appends := by
      unfold Inner.flushBackend
      split
      · exact Prog.Only.attempt (Backend.only_flush.2 (rfl : Req.flush = .flush))
      · exact Prog.only_pure.attempt
    cases mode with
    | eager =>
      refine safe_close (hmay rfl) (fun flushed => do
        let forced ← inner.flushBackend.attempt
        Prog.update fun ram => { ram with closed := true }
        Prog.update fun ram => { ram with values := ∅ }
        Prog.ofExcept flushed
        Prog.ofExcept forced) fun r => forces.bind fun forced => ?_
      refine Prog.Only.bind (appends_update fun s => .keeps rfl rfl rfl rfl rfl rfl) fun _ => ?_
      refine Prog.Only.bind (appends_update fun s => .keeps rfl rfl rfl rfl rfl rfl) fun _ => ?_
      exact Prog.only_ofExcept.bind fun _ => Prog.only_ofExcept
    | lazy =>
      refine safe_close (hmay rfl) (fun flushed => do
        let forced ← inner.flushBackend.attempt
        Prog.update fun ram => { ram with closed := true }
        Prog.update (Ram.mapRes (·.touchIndex fun _ => ∅))
        Prog.update (Ram.mapRes Resident.forgetInline)
        Prog.ofExcept flushed
        Prog.ofExcept forced) fun r => forces.bind fun forced => ?_
      refine Prog.Only.bind (appends_update fun s => .keeps rfl rfl rfl rfl rfl rfl) fun _ => ?_
      refine Prog.Only.bind (appends_update fun s => .keeps rfl rfl rfl rfl rfl rfl) fun _ => ?_
      refine Prog.Only.bind (appends_update fun s => .keeps rfl rfl rfl rfl rfl rfl) fun _ => ?_
      exact Prog.only_ofExcept.bind fun _ => Prog.only_ofExcept

end

/-! ## What a call that returned has staged -/

section
variable {T : Type} {inner : Inner T} {mode : TxMode} {h : List (Event Req Resp (Ram T))}

/-- One of the events staged the write, and nothing else. -/
def StagedIn (h : List (Event Req Resp (Ram T))) (entry : Pending) : Prop :=
  ∃ s s', .ram s s' ∈ h ∧ newly s s' = [entry]

theorem StagedIn.mono {h' : List (Event Req Resp (Ram T))} {entry : Pending}
    (hs : StagedIn h entry) (sub : ∀ e ∈ h, e ∈ h') : StagedIn h' entry := by
  obtain ⟨s, s', hmem, hnew⟩ := hs
  exact ⟨s, s', sub _ hmem, hnew⟩

theorem stagedIn_stage {entry : Pending} {r : Except Error Bool} (he : Ends (stage inner entry) h r) :
    StagedIn h entry := by
  obtain ⟨s, rfl, -⟩ := ends_sync.1 he
  refine ⟨s, _, List.mem_singleton_self _, newly_append ?_ ?_⟩
  · rfl
  · rfl

theorem ends_withWriteLock {α : Type} {body : Io (Ram T) α} {a : α}
    (he : Ends (withWriteLock body) h (.ok a)) :
    ∃ h', Ends body h' (.ok a) ∧ ∀ e ∈ h', e ∈ h := by
  obtain ⟨_, h₁, h₂, rfl, -, hbody⟩ := ends_bind_ok.1 he
  obtain ⟨h', s, rfl, hr⟩ := ends_guarded.1 hbody
  exact ⟨h', hr, fun e hmem => List.mem_append_right _ (List.mem_append_left _ hmem)⟩

/-- What is on record of a call that returned: its write; or the key that an eager locker did not
hold when it was to be deleted. -/
def ClosingCall.Recorded (inner : Inner T) (mode : TxMode) (h : List (Event Req Resp (Ram T)))
    (writes : List Pending) : ClosingCall T → Prop
  | .put key value => ∃ payload, inner.value.payload value = .ok payload ∧ .put key payload ∈ writes
  | .delete key => .delete key ∈ writes ∨
      (mode = .eager ∧ ∃ s, .ram s s ∈ h ∧ EagerLocker.holds key s = false)
  | .close => True

theorem recorded_of_ends (deferred : isDeferred inner = true) {writes : List Pending}
    (noted : ∀ entry, StagedIn h entry → entry ∈ writes) (c : ClosingCall T)
    (he : Ends (c.prog inner mode) h (.ok ())) : c.Recorded inner mode h writes := by
  cases c with
  | put key value =>
    cases mode with
    | eager =>
      obtain ⟨x, hx, hr⟩ := ends_map.1 he
      cases x with
      | error e => cases hr
      | ok v =>
        unfold EagerLocker.putBy at hx
        obtain ⟨_, _, h₁, rfl, -, hx⟩ := ends_bind_ok.1 hx
        obtain ⟨sealed, _, h₂, rfl, -, hx⟩ := ends_bind_ok.1 hx
        rw [if_pos deferred] at hx
        split at hx
        · cases (ends_fail.1 hx).2
        obtain ⟨payload, _, h₃, rfl, hp, hx⟩ := ends_bind_ok.1 hx
        obtain ⟨full, h₄, h₅, rfl, hstage, -⟩ := ends_bind_ok.1 hx
        refine ⟨payload, (ends_ofExcept.1 hp).2.symm, noted _ ((stagedIn_stage hstage).mono ?_)⟩
        simp +contextual
    | lazy =>
      unfold ClosingCall.prog LazyCall.prog LazyLocker.putBy at he
      obtain ⟨_, _, h₁, rfl, -, hx⟩ := ends_bind_ok.1 he
      obtain ⟨h₂, hx, sub⟩ := ends_withWriteLock hx
      obtain ⟨payload, _, h₃, rfl, hp, hx⟩ := ends_bind_ok.1 hx
      rw [if_pos deferred] at hx
      obtain ⟨full, h₄, h₅, rfl, hstage, -⟩ := ends_bind_ok.1 hx
      refine ⟨payload, (ends_ofExcept.1 hp).2.symm, noted _ ((stagedIn_stage hstage).mono ?_)⟩
      exact fun e hmem => List.mem_append_right _ (sub e (by simp [hmem]))
  | delete key =>
    cases mode with
    | eager =>
      unfold ClosingCall.prog EagerCall.prog EagerLocker.deleteBy at he
      obtain ⟨_, _, h₁, rfl, -, hx⟩ := ends_bind_ok.1 he
      obtain ⟨held, h₂, h₃, rfl, hheld, hx⟩ := ends_bind_ok.1 hx
      obtain ⟨authoritative, _, h₄, rfl, -, hx⟩ := ends_bind_ok.1 hx
      rw [if_pos deferred] at hx
      split at hx
      · next hnone =>
        obtain ⟨s, rfl, hs⟩ := ends_read.1 hheld
        obtain rfl := Except.ok.inj hs
        rw [Bool.and_eq_true, Bool.not_eq_true'] at hnone
        exact .inr ⟨rfl, s, by simp, hnone.1⟩
      · obtain ⟨full, h₅, h₆, rfl, hstage, -⟩ := ends_bind_ok.1 hx
        refine .inl (noted _ ((stagedIn_stage hstage).mono ?_))
        simp +contextual
    | lazy =>
      unfold ClosingCall.prog LazyCall.prog LazyLocker.deleteBy at he
      obtain ⟨_, _, h₁, rfl, -, hx⟩ := ends_bind_ok.1 he
      obtain ⟨h₂, hx, sub⟩ := ends_withWriteLock hx
      rw [if_pos deferred] at hx
      obtain ⟨full, h₄, h₅, rfl, hstage, -⟩ := ends_bind_ok.1 hx
      refine .inl (noted _ ((stagedIn_stage hstage).mono ?_))
      exact fun e hmem => List.mem_append_right _ (sub e (by simp [hmem]))
  | close => trivial

/-- A close that returned has had its flush return. -/
theorem flushOk_of_ends (he : Ends (ClosingCall.close.prog inner mode) h (.ok ())) :
    FlushOk inner h := by
  cases mode with
  | eager =>
    unfold ClosingCall.prog EagerCall.prog EagerLocker.close at he
    obtain ⟨flushed, h₁, h₂, rfl, hflush, hrest⟩ := ends_bind_ok.1 he
    obtain ⟨r, hflush, hr⟩ := ends_attempt.1 hflush
    obtain rfl := Except.ok.inj hr
    have tail : ∃ h₃, Ends (do
        let forced ← inner.flushBackend.attempt
        Prog.update fun ram => { ram with closed := true }
        Prog.update fun ram => { ram with values := ∅ }
        Prog.ofExcept flushed
        Prog.ofExcept forced : Io (Ram T) Unit) h₃ (.ok ()) := by
      dsimp only at hrest
      split at hrest
      · obtain ⟨_, _, h₃, -, -, hrest⟩ := ends_bind_ok.1 hrest
        exact ⟨h₃, hrest⟩
      · exact ⟨h₂, hrest⟩
    obtain ⟨h₃, tail⟩ := tail
    obtain ⟨_, _, _, -, -, tail⟩ := ends_bind_ok.1 tail
    obtain ⟨_, _, _, -, -, tail⟩ := ends_bind_ok.1 tail
    obtain ⟨_, _, _, -, -, tail⟩ := ends_bind_ok.1 tail
    obtain ⟨_, _, _, -, hok, -⟩ := ends_bind_ok.1 tail
    obtain rfl := (ends_ofExcept.1 hok).2
    exact ⟨h₁, h₂, rfl, hflush⟩
  | lazy =>
    unfold ClosingCall.prog LazyCall.prog LazyLocker.close at he
    obtain ⟨flushed, h₁, h₂, rfl, hflush, hrest⟩ := ends_bind_ok.1 he
    obtain ⟨r, hflush, hr⟩ := ends_attempt.1 hflush
    obtain rfl := Except.ok.inj hr
    have tail : ∃ h₃, Ends (do
        let forced ← inner.flushBackend.attempt
        Prog.update fun ram => { ram with closed := true }
        Prog.update (Ram.mapRes (·.touchIndex fun _ => ∅))
        Prog.update (Ram.mapRes Resident.forgetInline)
        Prog.ofExcept flushed
        Prog.ofExcept forced : Io (Ram T) Unit) h₃ (.ok ()) := by
      dsimp only at hrest
      split at hrest
      · obtain ⟨_, _, h₃, -, -, hrest⟩ := ends_bind_ok.1 hrest
        exact ⟨h₃, hrest⟩
      · exact ⟨h₂, hrest⟩
    obtain ⟨h₃, tail⟩ := tail
    obtain ⟨_, _, _, -, -, tail⟩ := ends_bind_ok.1 tail
    obtain ⟨_, _, _, -, -, tail⟩ := ends_bind_ok.1 tail
    obtain ⟨_, _, _, -, -, tail⟩ := ends_bind_ok.1 tail
    obtain ⟨_, _, _, -, -, tail⟩ := ends_bind_ok.1 tail
    obtain ⟨_, _, _, -, hok, -⟩ := ends_bind_ok.1 tail
    obtain rfl := (ends_ofExcept.1 hok).2
    exact ⟨h₁, h₂, rfl, hflush⟩

end

/-! ## Runs -/

section
variable {T : Type} {inner : Inner T} {mode : TxMode} {start : Machine Tables (Ram T)}

abbrev ClosingPool (T : Type) := Pool Req Resp Error (Ram T) Unit Tables

/-- The runs of puts, deletes and closes from `start` through states that `may` allows, and all
that has been staged by them and before, in order. -/
abbrev Closings (inner : Inner T) (mode : TxMode) (may : ClosingPool T → Prop)
    (start : Machine Tables (Ram T)) (P : ClosingPool T) (writes : List Pending) : Prop :=
  Pool.Noted Served noteStaged
    (fun P _ l _ => (∀ p, l = .start p → ∃ c, p = ClosingCall.prog inner mode c) ∧ may P)
    ⟨start, start.mem.res.staged⟩ P writes

/-- Once the flush of a close has returned, nothing is staged, and no call holds a batch. -/
def NothingLate (inner : Inner T) (mode : TxMode) (P : ClosingPool T) : Prop :=
  ∀ t ∈ P.tasks, t.call = ClosingCall.close.prog inner mode → FlushOk inner t.hist →
    Empty P.machine.mem

/-- Every write has been stored: the store is the one that flushes of the writes in order lead to,
it holds the outcome of each, and the writes are all those of the calls that returned. -/
structure AllStored (inner : Inner T) (mode : TxMode) (start : Machine Tables (Ram T))
    (P : ClosingPool T) (writes : List Pending) : Prop where
  landed : Lands inner mode start.mem.res.lru.isSome start.dev writes P.machine.dev
  shown : ∀ key v, stagedView writes key = some v → inner.Shows P.machine.dev key (.of v) ∨
    (start.mem.res.lru.isSome = true ∧ P.machine.dev.lookup .records (inner.encodeKey key) = none)
  recorded : ∀ t ∈ P.tasks, ∀ c, t.call = ClosingCall.prog inner mode c → t.rest = .ret () →
    c.Recorded inner mode t.hist writes

theorem Closings.staged {may : ClosingPool T → Prop} {P : ClosingPool T} {writes : List Pending}
    (run : Closings inner mode may start P writes) :
    ∀ t ∈ P.tasks, ∀ s s', .ram s s' ∈ t.hist → ∀ e ∈ newly s s', e ∈ writes := by
  induction run with
  | start => exact fun t ht => absurd ht List.not_mem_nil
  | @step P P' writes l run move allowed ih =>
    cases move with
    | start p =>
      intro t ht s s' hs e he
      rcases List.mem_append.1 ht with ht | ht
      · exact ih t ht s s' hs e he
      · obtain rfl := List.mem_singleton.1 ht
        cases hs
    | @ram i t f k at_i rest =>
      intro t' ht' s s' hs e he
      dsimp only [Move.mover]
      rw [(Pool.moved_set at_i _ _ _).noting]
      show e ∈ writes ++ newly P.machine.mem (f P.machine.mem)
      rcases List.mem_or_eq_of_mem_set ht' with ht' | rfl
      · exact List.mem_append_left _ (ih t' ht' s s' hs e he)
      · rcases List.mem_append.1 hs with hs | hs
        · exact List.mem_append_left _ (ih t (List.mem_of_getElem? at_i) s s' hs e he)
        · obtain ⟨rfl, rfl⟩ := Event.ram.inj (List.mem_singleton.1 hs)
          exact List.mem_append_right _ he
    | @io i t q d k a m at_i rest answer =>
      intro t' ht' s s' hs e he
      dsimp only [Move.mover]
      rw [(Pool.moved_set at_i _ _ _).noting]
      show e ∈ writes ++ newly P.machine.mem m.mem
      rcases List.mem_or_eq_of_mem_set ht' with ht' | rfl
      · exact List.mem_append_left _ (ih t' ht' s s' hs e he)
      · rcases List.mem_append.1 hs with hs | hs
        · exact List.mem_append_left _ (ih t (List.mem_of_getElem? at_i) s s' hs e he)
        · cases List.mem_singleton.1 hs

/-- A close loses no write that returned, in every run in which nothing is staged, and no batch
in flight, from the moment its flush has returned. -/
theorem close_keeps (deferred : isDeferred inner = true) (free : start.mem.writeLock = false)
    (idle : start.mem.res.drained = []) (hmode : start.mem.res.mode = mode) {P : ClosingPool T}
    {writes : List Pending} (run : Closings inner mode (NothingLate inner mode) start P writes)
    (nothingLate : NothingLate inner mode P) {t : Task Req Resp Error (Ram T) Unit}
    (ht : t ∈ P.tasks) (closing : t.call = ClosingCall.close.prog inner mode)
    (closed : t.rest = .ret ()) : AllStored inner mode start P writes := by
  have tidy : Pool.Tidy (fun p => ∃ c, p = ClosingCall.prog inner mode c) P :=
    run.tidy fun P g p P' hp => hp.1 p rfl
  obtain ⟨holder, noted⟩ := run.also noteHolder none
  have sound : Sound inner mode start.mem.res.lru.isSome start.dev ⟨P.machine, (writes, holder)⟩ := by
    refine (Pool.Noted.safe (closingRules inner mode start.mem.res.lru.isSome start.dev).toSetting
      (fun _ => (closingRules inner mode start.mem.res.lru.isSome start.dev).toTerms) (fun _ => True)
      (fun p _ h _ y _ => p = ClosingCall.close.prog inner mode → FlushOk inner h →
        Empty y.machine.mem)
      (fun _ _ _ _ _ => True) noted ?_ ?_ ?_ ?_).1
    · refine ⟨hmode, rfl, ?_, fun _ => idle, [], .start, .inr rfl⟩
      rw [free]
      rfl
    · rintro P g p P' ⟨starts, -⟩ i y -
      obtain ⟨c, rfl⟩ := starts p rfl
      exact c.safe deferred fun hc h e y m hmay hflush => hmay hc hflush
    · rintro P g l P' i t e rest ⟨-, late⟩ - - moved hc hflush
      exact late t (List.mem_of_getElem? moved.before) hc hflush
    · intro P g l P' i t e rest j t' _ _ _ _ hj _ _ _ guar
      exact guar j hj
  obtain ⟨landed, hl, hw⟩ := sound.landed
  have ends : Ends (ClosingCall.close.prog inner mode) t.hist (.ok ()) := by
    have after := (tidy t ht).2
    rw [closing, closed] at after
    exact after
  obtain ⟨hs, hd⟩ := nothingLate t ht closing (flushOk_of_ends ends)
  have all : writes = landed := by
    rcases hw with hw | hw
    · simpa [hs, hd] using hw
    · simpa [hs] using hw
  subst all
  refine ⟨hl, fun key v hv => hl.shows hv, fun t' ht' c hc hrest => ?_⟩
  have after := (tidy t' ht').2
  rw [hc, hrest] at after
  refine recorded_of_ends deferred (fun entry hstaged => ?_) c after
  obtain ⟨s, s', hmem, hnew⟩ := hstaged
  exact Closings.staged run t' ht' s s' hmem entry (by simp [hnew])

end

/-! ## Two closes -/

section
open Pool.Choice

abbrev PairingCall := Pool.Choice Req Resp Error (Ram Bytes) Unit

/-- One call of the locker, from its start. -/
def pairing (c : ClosingCall Bytes) : Io (Ram Bytes) Unit := c.prog Inner.pairing .eager

/-- A put, a close, and another put that is staged before the close drains the batch. Then the close
lands both, and the second put finds nothing to flush. -/
def closingBeside : List PairingCall :=
  start (pairing (.put [1] [7])) :: List.replicate 5 (run 0) ++
    start (pairing .close) :: run 1 ::
    start (pairing (.put [2] [8])) :: List.replicate 5 (run 2) ++
    [answer 1 0, run 1, run 1, answer 1 0, answer 1 0, run 1, answer 1 0, run 1, run 1, run 1,
      answer 2 0, run 2, run 2, run 2, run 1, run 1, run 1]

/-- A put, a close that waits for its commit, another put, and the rest of the close. -/
def closingLate : List PairingCall :=
  start (pairing (.put [1] [7])) :: List.replicate 5 (run 0) ++
    start (pairing .close) ::
    [run 1, answer 1 0, run 1, run 1, answer 1 0, run 1] ++
    start (pairing (.put [2] [8])) :: List.replicate 5 (run 2) ++
    answer 1 0 :: List.replicate 6 (run 1)

theorem mem_tasks_of_map {Pg : ClosingPool Bytes × List Pending} {i : Nat}
    {call rest : Io (Ram Bytes) Unit} (hcall : Pg.1.tasks[i]?.map Task.call = some call)
    (hrest : Pg.1.tasks[i]?.map Task.rest = some rest) :
    ∃ t ∈ Pg.1.tasks, t.call = call ∧ t.rest = rest := by
  obtain ⟨t, ht, rfl⟩ := Option.map_eq_some_iff.1 hcall
  rw [ht] at hrest
  exact ⟨t, List.mem_of_getElem? ht, rfl, Option.some.inj hrest⟩

/-- Whether a call, run alone on the new locker, closes it. -/
def closes (p : Io (Ram Bytes) Unit) : Option Bool :=
  (p.eval (serve 0) openedEager).map fun x => x.2.mem.closed

/-- A close that has found a batch has not let go of the lock again. -/
def flushing : List (Event Req Resp (Ram Bytes)) → Bool
  | .ram s _ :: rest => !s.res.staged.isEmpty && rest.all fun
    | .ram _ s' => s'.writeLock
    | _ => true
  | _ => true

theorem flushing_of_flushOk {inner : Inner Bytes} {h : List (Event Req Resp (Ram Bytes))}
    (ok : FlushOk inner h) : flushing h = false := by
  obtain ⟨h₁, h₂, rfl, ends⟩ := ok
  unfold Resident.flush at ends
  obtain ⟨n, h₃, h₄, rfl, hread, rest⟩ := ends_bind_ok.1 ends
  obtain ⟨s, rfl, hn⟩ := ends_read.1 hread
  obtain rfl := Except.ok.inj hn
  split at rest
  · next hempty =>
    have hnil := List.length_eq_zero_iff.1 hempty
    simp [flushing, hnil]
  · obtain ⟨_, h₅, h₆, rfl, -, scope⟩ := ends_bind_ok.1 rest
    obtain ⟨h₇, t, rfl, -⟩ := ends_guarded.1 scope
    simp [flushing, Ram.unlock]

/-- Nothing is staged and no batch is out, or no close has flushed yet. -/
def staysEmpty (P : ClosingPool Bytes) (_ : List Pending) (_ : ClosingPool Bytes) : Bool :=
  (P.machine.mem.res.staged.isEmpty && P.machine.mem.res.drained.isEmpty) ||
    P.tasks.all fun t => closes t.call != some true || flushing t.hist

theorem nothingLate_of_staysEmpty {P P' : ClosingPool Bytes} {writes : List Pending}
    (h : staysEmpty P writes P' = true) : NothingLate Inner.pairing .eager P := by
  intro t ht hclose ok
  rcases Bool.or_eq_true_iff.1 h with empty | all
  · simpa [Empty] using empty
  · have hcall := List.all_eq_true.1 all t ht
    rw [flushing_of_flushOk ok, Bool.or_false, hclose] at hcall
    exact absurd hcall (by decide)

/-- The locker after some choices, if each move passes the check. -/
def closingRun (check : ClosingPool Bytes → List Pending → ClosingPool Bytes → Bool)
    (choices : List PairingCall) : Option (ClosingPool Bytes × List Pending) :=
  Pool.execNoting serve noteStaged check choices (⟨openedEager, []⟩, [])

/-- A close beside a put that it also lands: both that were put are stored. -/
theorem close_keeps_beside : ∃ P, AllStored Inner.pairing .eager openedEager P
    [.put [1] [1, 7], .put [2] [1, 8]] := by
  obtain ⟨Pg, hPg⟩ : ∃ Pg, closingRun staysEmpty closingBeside = some Pg :=
    Option.isSome_iff_exists.1 (by decide)
  have hcall : (closingRun staysEmpty closingBeside).map (fun Qg => Qg.1.tasks[1]?.map Task.call) =
      some (some (pairing .close)) := by rfl
  have hrest : (closingRun staysEmpty closingBeside).map (fun Qg => Qg.1.tasks[1]?.map Task.rest) =
      some (some (.ret ())) := by rfl
  have hrecord : (closingRun staysEmpty closingBeside).map
      (fun Qg => (Qg.2, Qg.1.machine.mem.res.staged, Qg.1.machine.mem.res.drained)) =
      some ([.put [1] [1, 7], .put [2] [1, 8]], [], []) := by decide
  rw [hPg] at hcall hrest hrecord
  obtain ⟨t, ht, hclose, hdone⟩ := mem_tasks_of_map (Option.some.inj hcall) (Option.some.inj hrest)
  obtain ⟨hwrites, hempty⟩ := Prod.mk.inj (Option.some.inj hrecord)
  obtain ⟨hs, hd⟩ := Prod.mk.inj hempty
  have run : Closings Inner.pairing .eager (NothingLate Inner.pairing .eager) openedEager
      Pg.1 Pg.2 := by
    refine Pool.Noted.exec serve_sound .start (fun P g l P' _ hl hcheck =>
      ⟨fun p hp => ?_, nothingLate_of_staysEmpty hcheck⟩) hPg
    have hmem : p = pairing (.put [1] [7]) ∨ p = pairing .close ∨ p = pairing (.put [2] [8]) := by
      simpa [closingBeside] using hl p hp
    rcases hmem with rfl | rfl | rfl
    · exact ⟨_, rfl⟩
    · exact ⟨_, rfl⟩
    · exact ⟨_, rfl⟩
  have hmode : openedEager.mem.res.mode = .eager := rfl
  have stored : AllStored Inner.pairing .eager openedEager Pg.1 Pg.2 :=
    close_keeps rfl rfl rfl hmode run (fun _ _ _ _ => ⟨hs, hd⟩) ht hclose hdone
  exact ⟨Pg.1, hwrites ▸ stored⟩

/-- A close can return and have thrown away a put that had returned. -/
theorem close_loses : ¬ ∀ (P : ClosingPool Bytes) (writes : List Pending)
    (t : Task Req Resp Error (Ram Bytes) Unit),
    Closings Inner.pairing .eager (fun _ => True) openedEager P writes → t ∈ P.tasks →
      t.call = ClosingCall.close.prog Inner.pairing .eager → t.rest = .ret () →
      AllStored Inner.pairing .eager openedEager P writes := by
  intro h
  obtain ⟨Pg, hPg⟩ : ∃ Pg, closingRun (fun _ _ _ => true) closingLate = some Pg :=
    Option.isSome_iff_exists.1 (by decide)
  have hcall : (closingRun (fun _ _ _ => true) closingLate).map
      (fun Pg => Pg.1.tasks[1]?.map Task.call) = some (some (pairing .close)) := by rfl
  have hrest : (closingRun (fun _ _ _ => true) closingLate).map
      (fun Pg => Pg.1.tasks[1]?.map Task.rest) = some (some (.ret ())) := by rfl
  have hwrites : (closingRun (fun _ _ _ => true) closingLate).map (fun Pg => (Pg.2,
        Pg.1.machine.dev.lookup .records (Inner.pairing.encodeKey [2]))) =
      some ([.put [1] [1, 7], .put [2] [1, 8]], none) := by decide
  rw [hPg] at hcall hrest hwrites
  obtain ⟨t, ht, hclose, hdone⟩ := mem_tasks_of_map (Option.some.inj hcall) (Option.some.inj hrest)
  obtain ⟨hlog, hlookup⟩ := Prod.mk.inj (Option.some.inj hwrites)
  have run : Closings Inner.pairing .eager (fun _ => True) openedEager Pg.1 Pg.2 := by
    refine Pool.Noted.exec serve_sound .start (fun P g l P' _ hl _ =>
      ⟨fun p hp => ?_, trivial⟩) hPg
    have hmem := hl p hp
    have hcases : p = pairing (.put [1] [7]) ∨ p = pairing .close ∨ p = pairing (.put [2] [8]) := by
      simpa [closingLate] using hmem
    rcases hcases with rfl | rfl | rfl
    · exact ⟨_, rfl⟩
    · exact ⟨_, rfl⟩
    · exact ⟨_, rfl⟩
  rcases (h Pg.1 Pg.2 t run ht hclose hdone).shown [2] (some [1, 8]) (by rw [hlog]; decide) with
    ⟨body, hdoes, hrecord⟩ | ⟨hsome, -⟩
  · rw [hlookup] at hrecord
    cases body with
    | gone => exact hdoes
    | inline sealed => cases hrecord
    | chunked pointer sealed => cases hrecord
  · cases hsome

end
end Crossbank
