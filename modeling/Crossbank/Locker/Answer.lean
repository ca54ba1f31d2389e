import Crossbank.Async.Yields
import Crossbank.Locker.Collapse
import Crossbank.Locker.TxRead

/-!
# Builders of a backend that works

A builder that opens what is under a key fails where that is a pointer that does not parse. Otherwise,
while the chain seals what it is given and the bank has ids and ticks left, it succeeds.

* `Inner.Opens` : the record under a key is no pointer, or one that parses;
* `Inner.Storable`, `IdsLeft` : a payload the chain can seal, and the value ids that are left;
* `Ram.sheds` : the keys that a commit will shed;
* `answered_putPayloadOps`, `answered_opsForItems`, `answered_budgetOps` : builders that succeed;
* `opens_of_putPayloadOps`, `opens_of_opsForItems`, `budgetOps_sheds` : what they have opened.
-/

namespace Crossbank
open Async

section
variable {T : Type} (inner : Inner T)

/-- What the chunks of a record are can be told from it: it is no pointer, or one that parses. -/
def Inner.Opens (db : Tables) (key : Bytes) : Prop :=
  ∃ gc, Inner.gcExisting (db.lookup .records (inner.encodeKey key)) = .ok gc

/-- The chain seals the payload, whole or in pieces, of which there are not too many. -/
def Inner.Storable (payload : Bytes) (flags : UInt8) : Prop :=
  if inner.storesInline payload.length flags then
    ∃ sealed, inner.chain.sealSlice payload = .ok sealed
  else inner.config.chunkSize ≠ 0 ∧ (chunksOf inner.config.chunkSize payload).length < 2 ^ 32 ∧
    ∀ piece ∈ chunksOf inner.config.chunkSize payload, ∃ s, inner.chain.sealSlice piece = .ok s

/-- The bank can hand out that many value ids. -/
def IdsLeft (db : Tables) : Nat → Shared → Prop
  | 0, _ => True
  | n + 1, s => ∃ id s', Run Answered ValueIds.allocate ⟨db, s⟩ (.ok id) ⟨db, s'⟩ ∧ IdsLeft db n s'

/-- The keys that a commit will shed, when it keeps what it updates. -/
def Ram.sheds (ram : Ram T) (updates : List (Bytes × Nat)) (removals : List Bytes)
    (cleared : Bool) : List Bytes :=
  match ram.res.lru with
  | none => []
  | some state => (state.plan (updates.map fun u => (u.1, (⟨0, u.2⟩ : Entry))) removals cleared
      state.maxBytes (updates.map Prod.fst)).victims

end

theorem IdsLeft.of_succ {db : Tables} {n : Nat} {s : Shared} (h : IdsLeft db (n + 1) s) :
    IdsLeft db n s := by
  induction n generalizing s with
  | zero => trivial
  | succ n ih =>
    obtain ⟨id, s', halloc, hrest⟩ := h
    exact ⟨id, s', halloc, ih hrest⟩

theorem IdsLeft.mono {db : Tables} {n k : Nat} {s : Shared} (h : IdsLeft db n s) (le : k ≤ n) :
    IdsLeft db k s := by
  induction le with
  | refl => exact h
  | step _ ih => exact ih h.of_succ

section
variable {T ρ : Type} {inner : Inner T} {db : Tables} {s : Shared} {key : Bytes} {ops : List Op}

/-! ## One key -/

section
variable [WriteLock ρ] {m m' : Machine Tables ρ}

theorem answered_gcPrior {prior : Prior} (opens : prior.needsRead = true → inner.Opens m.dev key) :
    ∃ gc, Run Answered (inner.gcPrior key prior) m (.ok gc) m := by
  unfold Inner.gcPrior
  split
  · next hread =>
    obtain ⟨gc, hgc⟩ := opens hread
    exact ⟨gc, run_bind.2 (.inl ⟨_, m, answered_get.2 ⟨rfl, rfl⟩, run_ofExcept.2 ⟨hgc.symm, rfl⟩⟩)⟩
  · exact ⟨[], run_pure.2 ⟨rfl, rfl⟩⟩

theorem opens_of_gcPrior {prior : Prior} {gc : List Op}
    (h : Run Served (inner.gcPrior key prior) m (.ok gc) m') (hread : prior.needsRead = true) :
    inner.Opens m.dev key := by
  rw [Inner.gcPrior, if_pos hread] at h
  obtain ⟨existing, m₁, hget, hparse⟩ := run_bind_ok.1 h
  obtain ⟨rfl, hexisting⟩ := run_get.1 hget
  obtain rfl := hexisting existing rfl
  exact ⟨gc, (run_ofExcept.1 hparse).1.symm⟩

theorem answered_deleteValueOps {prior : Prior}
    (opens : prior.needsRead = true → inner.Opens m.dev key) :
    ∃ ops, Run Answered (inner.deleteValueOps key prior) m (.ok ops) m := by
  obtain ⟨gc, hgc⟩ := answered_gcPrior opens
  exact ⟨_, run_bind.2 (.inl ⟨gc, m, hgc, run_pure.2 ⟨rfl, rfl⟩⟩)⟩

theorem opens_of_deleteValueOps {prior : Prior}
    (h : Run Served (inner.deleteValueOps key prior) m (.ok ops) m')
    (hread : prior.needsRead = true) : inner.Opens m.dev key := by
  obtain ⟨gc, m₁, hgc, -⟩ := run_bind_ok.1 h
  exact opens_of_gcPrior hgc hread

end

theorem pieceOps_ok {valueId : UInt64} {seq : UInt32} {pieces : List Bytes}
    (room : seq.toNat + pieces.length < 2 ^ 32)
    (seals : ∀ piece ∈ pieces, ∃ sealed, inner.chain.sealSlice piece = .ok sealed) :
    ∃ out, inner.pieceOps valueId seq pieces = .ok out := by
  induction pieces generalizing seq with
  | nil => exact ⟨_, rfl⟩
  | cons piece pieces ih =>
    rw [List.length_cons] at room
    obtain ⟨sealed, hsealed⟩ := seals piece List.mem_cons_self
    have hseq : (seq + 1).toNat = seq.toNat + 1 := by
      rw [UInt32.toNat_add]
      exact Nat.mod_eq_of_lt (by simp; omega)
    obtain ⟨⟨rest, last⟩, hrest⟩ : ∃ out, inner.pieceOps valueId (seq + 1) pieces = .ok out :=
      ih (by omega) fun p hp => seals p (List.mem_cons_of_mem _ hp)
    rw [Inner.pieceOps, hsealed]
    simp only [bind, Except.bind]
    rw [if_neg (by omega), hrest]
    exact ⟨_, rfl⟩

theorem answered_putPayloadOps {payload : Bytes} {flags : UInt8} {prior : Prior} {n : Nat}
    (opens : prior.needsRead = true → inner.Opens db key) (storable : inner.Storable payload flags)
    (ids : IdsLeft db (n + 1) s) : ∃ ops s',
    Run Answered (inner.putPayloadOps key payload flags prior) ⟨db, s⟩ (.ok ops) ⟨db, s'⟩ ∧
      IdsLeft db n s' ∧ s'.ticks = s.ticks := by
  obtain ⟨gc, hgc⟩ : ∃ gc, Run Answered (inner.gcPrior key prior) ⟨db, s⟩ (.ok gc) ⟨db, s⟩ :=
    answered_gcPrior opens
  unfold Inner.putPayloadOps
  unfold Inner.Storable at storable
  split at storable
  · next hinline =>
    obtain ⟨sealed, hsealed⟩ := storable
    refine ⟨gc ++ [.put .records (inner.encodeKey key) sealed], s,
      run_bind.2 (.inl ⟨gc, _, hgc, ?_⟩), ids.of_succ, rfl⟩
    rw [if_pos hinline]
    exact run_bind.2 (.inl ⟨sealed, _, run_ofExcept.2 ⟨hsealed.symm, rfl⟩, run_pure.2 ⟨rfl, rfl⟩⟩)
  · next hinline =>
    obtain ⟨hsize, hcount, seals⟩ := storable
    obtain ⟨id, s', halloc, hrest⟩ := ids
    have hticks : s'.ticks = s.ticks := by
      obtain ⟨next, hm, -, -⟩ := allocate_run (Answered.served halloc)
      rw [(Machine.mk.inj hm).2]
    obtain ⟨⟨pieces, seq⟩, hpieces⟩ : ∃ out, inner.pieceOps id 0
        (chunksOf inner.config.chunkSize payload) = .ok out :=
      pieceOps_ok (by rw [show (0 : UInt32).toNat = 0 from rfl]; omega) seals
    refine ⟨gc ++ pieces ++ [.put .records (inner.encodeKey key)
      (ChunkPointer.encode ⟨id, seq, UInt64.ofNat payload.length, flags⟩)] ++
        (ValueIds.counterOp s').toList, s', run_bind.2 (.inl ⟨gc, _, hgc, ?_⟩), hrest, hticks⟩
    rw [if_neg hinline]
    refine run_bind.2 (.inl ⟨id, _, halloc, ?_⟩)
    rw [if_neg hsize]
    exact run_bind.2 (.inl ⟨(pieces, seq), _, run_ofExcept.2 ⟨hpieces.symm, rfl⟩,
      run_read_bind.2 (run_pure.2 ⟨rfl, rfl⟩)⟩)

theorem opens_of_putPayloadOps {payload : Bytes} {flags : UInt8} {prior : Prior}
    {m' : Machine Tables Shared}
    (h : Run Served (inner.putPayloadOps key payload flags prior) ⟨db, s⟩ (.ok ops) m')
    (hread : prior.needsRead = true) : inner.Opens db key := by
  obtain ⟨gc, m₁, hgc, -⟩ := run_bind_ok.1 h
  exact opens_of_gcPrior hgc hread

/-! ## A batch -/

theorem answered_actionsOps {actions : List (Bytes × Action)}
    (opens : ∀ e ∈ actions, inner.Opens db e.1)
    (storable : ∀ key payload, (key, .put payload) ∈ actions → inner.Storable payload FLAG_POSTCARD)
    (ids : IdsLeft db actions.length s) : ∃ ops s',
    Run Answered (actionsOps inner .lazy actions) ⟨db, s⟩ (.ok ops) ⟨db, s'⟩ ∧ s'.ticks = s.ticks := by
  induction actions generalizing s with
  | nil => exact ⟨[], s, run_pure.2 ⟨rfl, rfl⟩, rfl⟩
  | cons entry rest ih =>
    obtain ⟨key, action⟩ := entry
    have hopens : inner.Opens db key := opens _ List.mem_cons_self
    have hfirst : ∃ ops s', Run Answered (actionOps inner .lazy key action) ⟨db, s⟩ (.ok ops) ⟨db, s'⟩ ∧
        IdsLeft db rest.length s' ∧ s'.ticks = s.ticks := by
      cases action with
      | put payload =>
        exact answered_putPayloadOps (fun _ => hopens) (storable key payload List.mem_cons_self) ids
      | delete =>
        obtain ⟨ops, hops⟩ : ∃ ops, Run Answered (inner.deleteValueOps key .unknown) ⟨db, s⟩ (.ok ops)
            ⟨db, s⟩ := answered_deleteValueOps fun _ => hopens
        exact ⟨ops, s, hops, ids.of_succ, rfl⟩
    obtain ⟨ops, s', hops, hids, hticks⟩ := hfirst
    obtain ⟨more, s'', hmore, hticks'⟩ := ih (fun e he => opens e (List.mem_cons_of_mem _ he))
      (fun k p hp => storable k p (List.mem_cons_of_mem _ hp)) hids
    exact ⟨ops ++ more, s'', run_bind.2 (.inl ⟨ops, _, hops, run_bind.2 (.inl ⟨more, _, hmore,
      run_pure.2 ⟨rfl, rfl⟩⟩)⟩), hticks'.trans hticks⟩

theorem opens_of_actionsOps {actions : List (Bytes × Action)} {m m' : Machine Tables Shared}
    (h : Run Served (actionsOps inner .lazy actions) m (.ok ops) m') :
    ∀ e ∈ actions, inner.Opens m.dev e.1 := by
  induction actions generalizing m ops m' with
  | nil => exact fun e he => absurd he List.not_mem_nil
  | cons entry rest ih =>
    obtain ⟨key, action⟩ := entry
    obtain ⟨first, m₁, hfirst, hrest⟩ := run_bind_ok.1 h
    obtain ⟨more, m₂, hmore, -⟩ := run_bind_ok.1 hrest
    have hdev : m₁.dev = m.dev := Prog.Only.run_dev (draws_actionOps inner .lazy key action) hfirst
    intro e he
    rcases List.mem_cons.1 he with rfl | he
    · cases action with
      | put payload => exact opens_of_putPayloadOps hfirst rfl
      | delete => exact opens_of_deleteValueOps hfirst rfl
    · rw [← hdev]
      exact ih hmore e he

theorem answered_clearValueOps [WriteLock ρ] {m : Machine Tables ρ}
    (fuel : (inner.entries m.dev .unbounded .unbounded).length < inner.backend.walkFuel) :
    ∃ ops, Run Answered (inner.clearValueOps : Io ρ (List Op)) m (.ok ops) m := by
  have hwalk : Run Answered (inner.walk .unbounded .unbounded false true Inner.gcVisited []) m _ m :=
    Inner.walk_eval inner fuel
  rw [foldlM_gcVisited] at hwalk
  exact ⟨_, run_bind.2 (.inl ⟨_, m, hwalk, run_pure.2 ⟨rfl, rfl⟩⟩)⟩

section
variable {staged : List Pending}

theorem answered_opsForItems
    (opens : ∀ e ∈ (collapsed staged).toList, inner.Opens db e.1)
    (storable : ∀ key payload, .put key payload ∈ staged → inner.Storable payload FLAG_POSTCARD)
    (ids : IdsLeft db (collapsed staged).toList.length s)
    (fuel : (inner.entries db .unbounded .unbounded).length < inner.backend.walkFuel) : ∃ ops s',
    Run Answered (opsForItems inner staged .lazy) ⟨db, s⟩ (.ok ops) ⟨db, s'⟩ ∧
      s'.ticks = s.ticks := by
  obtain ⟨more, s', hmore, hticks⟩ := answered_actionsOps opens (fun key payload hmem => by
    have hget := Std.ExtTreeMap.mem_toList_iff_getElem?_eq_some.1 hmem
    exact storable key payload (leaves_collapsed hget rfl)) ids
  have hclear : ∃ front, Run Answered (if .clear ∈ staged then inner.clearValueOps else pure [])
      ⟨db, s⟩ (.ok front) ⟨db, s⟩ := by
    split
    · exact answered_clearValueOps fuel
    · exact ⟨[], run_pure.2 ⟨rfl, rfl⟩⟩
  obtain ⟨front, hfront⟩ := hclear
  exact ⟨front ++ more, s', run_bind.2 (.inl ⟨front, _, hfront, run_bind.2 (.inl ⟨more, _, hmore,
    run_pure.2 ⟨rfl, rfl⟩⟩)⟩), hticks⟩

theorem opens_of_opsForItems {m' : Machine Tables Shared}
    (h : Run Served (opsForItems inner staged .lazy) ⟨db, s⟩ (.ok ops) m') :
    ∀ e ∈ (collapsed staged).toList, inner.Opens db e.1 := by
  obtain ⟨front, m₁, hfront, h₁⟩ := run_bind_ok.1 h
  obtain ⟨more, m₂, hmore, -⟩ := run_bind_ok.1 h₁
  have hdev : m₁.dev = db := by
    have reads : Draws (if .clear ∈ staged then inner.clearValueOps else pure [] : Io Shared _) := by
      split
      · exact (reads_clearValueOps inner).draws
      · exact draws_pure
    exact Prog.Only.run_dev reads hfront
  rw [← hdev]
  exact opens_of_actionsOps hmore

end

/-! ## The byte budget -/

/-- The op is of the accounting: it leaves the data and the counter of value ids alone. -/
def AccountOp (op : Op) : Prop :=
  op.table = .meta ∧ op.written .meta META_NEXT_VALUE_ID = none

theorem accounts_leave (h : ∀ op ∈ ops, AccountOp op) :
    dataOps ops = [] ∧ written ops .meta META_NEXT_VALUE_ID = none :=
  ⟨dataOps_of_meta fun op hop => (h op hop).1, written_eq_none.2 fun op hop => (h op hop).2⟩

/-- The rows of the accounting begin with an `l`. -/
theorem entryKey_ne {k : Bytes} (h : k.head? ≠ some 108) (id : LockerId) (key : Bytes) :
    entryKey id key ≠ k := by
  rintro rfl
  have hprefix : LRU_PREFIX = [108, 114, 117, 58, 58] := by decide
  rw [entryKey, lockerPrefix, hprefix] at h
  simp at h

theorem entryKey_ne_counter (id : LockerId) (key : Bytes) : entryKey id key ≠ META_NEXT_VALUE_ID :=
  entryKey_ne (by decide) id key

theorem accountOp_putOp (id : LockerId) (key : Bytes) (entry : Entry) :
    AccountOp (Lru.putOp id key entry) :=
  ⟨rfl, by simp [Lru.putOp, Op.written, entryKey_ne_counter]⟩

theorem accountOp_deleteOp (id : LockerId) (key : Bytes) : AccountOp (Lru.deleteOp id key) :=
  ⟨rfl, by simp [Lru.deleteOp, Op.written, entryKey_ne_counter]⟩

theorem accountOp_clearOp (id : LockerId) : AccountOp (Lru.clearOp id) := by
  refine ⟨rfl, ?_⟩
  have hout : ¬ (KeyRange.ofPrefix (lockerPrefix id)).contains META_NEXT_VALUE_ID = true := by
    rw [KeyRange.contains_ofPrefix]
    rintro ⟨rest, hrest⟩
    exact entryKey_ne_counter id rest hrest
  simp [Lru.clearOp, Op.written, hout]

theorem accountOp_counterOp (s : Shared) : AccountOp (Ticks.counterOp s) := by
  have hne : META_NEXT_TICK ≠ META_NEXT_VALUE_ID := by decide
  exact ⟨rfl, by simp [Ticks.counterOp, Op.written, hne]⟩

theorem accountOp_pendingOps {state : LruState} {id : LockerId} {skip : List Bytes} {op : Op}
    (h : op ∈ (state.pendingOps id skip).2) : AccountOp op := by
  obtain ⟨⟨key, tick⟩, -, hop⟩ := List.mem_filterMap.1 h
  dsimp only at hop
  split at hop
  · cases hop
  · obtain ⟨entry, -, rfl⟩ := Option.map_eq_some_iff.1 hop
    exact accountOp_putOp _ _ _

theorem accountOp_of_mem {state : LruState} {id : LockerId} {updates : List (Bytes × Entry)}
    {removals skip : List Bytes} {cleared : Bool} :
    ∀ op ∈ (if cleared = true then [Lru.clearOp id] else []) ++
      updates.map (fun u => Lru.putOp id u.1 u.2) ++
      (if cleared = true then (([], []) : List Bytes × List Op) else state.pendingOps id skip).2 ++
      removals.map (Lru.deleteOp id), AccountOp op := by
  intro op hop
  rcases List.mem_append.1 hop with hop | hop
  · rcases List.mem_append.1 hop with hop | hop
    · rcases List.mem_append.1 hop with hop | hop
      · split at hop
        · rw [List.mem_singleton.1 hop]
          exact accountOp_clearOp id
        · cases hop
      · obtain ⟨u, -, rfl⟩ := List.mem_map.1 hop
        exact accountOp_putOp _ _ _
    · split at hop
      · cases hop
      · exact accountOp_pendingOps hop
  · obtain ⟨key, -, rfl⟩ := List.mem_map.1 hop
    exact accountOp_deleteOp _ _

section
variable [WriteLock ρ] {m m' : Machine Tables ρ} {victims : List Bytes}

/-- What shedding removes: each victim, with the chunks of what is stored under it. -/
theorem victimOps_run (h : Run Served (victimOps inner victims) m (.ok ops) m') :
    m' = m ∧ (∀ v ∈ victims, inner.Opens m.dev v) ∧
      dataOps ops = victims.flatMap (fun v => KeyWrite.ops inner
        ⟨v, pointerIn (m.dev.lookup .records (inner.encodeKey v)), .gone⟩) ∧
      written ops .meta META_NEXT_VALUE_ID = none := by
  induction victims generalizing m' ops with
  | nil =>
    obtain ⟨hops, rfl⟩ := run_pure.1 h
    obtain rfl := Except.ok.inj hops
    exact ⟨rfl, fun v hv => absurd hv List.not_mem_nil, rfl, rfl⟩
  | cons victim rest ih =>
    obtain ⟨first, m₁, hfirst, h₁⟩ := run_bind_ok.1 h
    have hopens := opens_of_deleteValueOps hfirst rfl
    obtain ⟨rfl, rfl⟩ := deleteValueOps_run hfirst
    obtain ⟨more, m₂, hmore, h₂⟩ := run_bind_ok.1 h₁
    obtain ⟨rfl, hrest, hdata, hcounter⟩ := ih hmore
    obtain ⟨hops, rfl⟩ := run_pure.1 h₂
    obtain rfl := Except.ok.inj hops
    refine ⟨rfl, fun v hv => ?_, ?_, ?_⟩
    · rcases List.mem_cons.1 hv with rfl | hv
      · exact hopens
      · exact hrest v hv
    · rw [dataOps_append, dataOps_append, dataOps_keyWrite, hdata, List.flatMap_cons]
      simp [dataOps, Lru.deleteOp, Op.table, collected, Prior.needsRead]
    · rw [written_append, written_append, hcounter, (accounts_leave (by
        simpa using accountOp_deleteOp inner.id victim)).2]
      exact written_of_table fun op hop => table_of_mem_ops hop

end

/-- The victims do not depend on the tick that the updates get, as none of these is shed. -/
theorem victims_congr {state : LruState} {updates : List (Bytes × Nat)} {removals : List Bytes}
    {cleared : Bool} {budget : Nat} (tick : UInt64) :
    (state.plan (updates.map fun u => (u.1, (⟨tick, u.2⟩ : Entry))) removals cleared budget
      (updates.map Prod.fst)).victims =
    (state.plan (updates.map fun u => (u.1, (⟨0, u.2⟩ : Entry))) removals cleared budget
      (updates.map Prod.fst)).victims := by
  have htotal : state.totalAfter (updates.map fun u => (u.1, (⟨tick, u.2⟩ : Entry))) removals cleared =
      state.totalAfter (updates.map fun u => (u.1, (⟨0, u.2⟩ : Entry))) removals cleared := by
    unfold LruState.totalAfter
    rw [List.foldl_map, List.foldl_map]
  have hnew (t : UInt64) : ((updates.map fun u => (u.1, (⟨t, u.2⟩ : Entry))).filterMap fun u =>
      if u.1 ∈ updates.map Prod.fst then none
      else some (⟨u.2.tick, u.1, u.2.bytes⟩ : Candidate)) = [] := by
    rw [List.filterMap_eq_nil_iff]
    intro u hu
    obtain ⟨w, hw, rfl⟩ := List.mem_map.1 hu
    exact if_pos (List.mem_map.2 ⟨w, hw, rfl⟩)
  have hcandidates : state.candidates (updates.map fun u => (u.1, (⟨tick, u.2⟩ : Entry))) removals
      cleared (updates.map Prod.fst) = state.candidates (updates.map fun u =>
        (u.1, (⟨0, u.2⟩ : Entry))) removals cleared (updates.map Prod.fst) := by
    unfold LruState.candidates
    rw [hnew tick, hnew 0]
    simp only [List.map_map, Function.comp_def]
  unfold LruState.plan
  rw [htotal, hcandidates]

def shedWrites (inner : Inner T) (db : Tables) (victims : List Bytes) : List KeyWrite :=
  victims.map fun v => ⟨v, pointerIn (db.lookup .records (inner.encodeKey v)), .gone⟩

section
variable {m m' : Machine Tables (Ram T)} {updates : List (Bytes × Nat)} {removals : List Bytes}
  {cleared : Bool}

/-- What the byte budget adds to a commit: its accounting, and the writes that shed. -/
theorem budgetOps_sheds {ops' : List Op} {budget : Budget} (clean : Clean m.mem)
    (h : Run Served (budgetOps inner ops updates removals cleared (updates.map Prod.fst)) m
      (.ok (ops', budget)) m') :
    budget.plan.victims = m.mem.sheds updates removals cleared ∧
      (∀ v ∈ m.mem.sheds updates removals cleared, inner.Opens m.dev v) ∧
      dataOps ops' = dataOps ops ++ (shedWrites inner m.dev
        (m.mem.sheds updates removals cleared)).flatMap (KeyWrite.ops inner) ∧
      written ops' .meta META_NEXT_VALUE_ID = written ops .meta META_NEXT_VALUE_ID := by
  rw [budgetOps, run_read_bind] at h
  unfold Ram.sheds
  cases hlru : m.mem.res.lru with
  | none =>
    rw [hlru] at h
    obtain ⟨hout, rfl⟩ := run_pure.1 h
    obtain ⟨rfl, rfl⟩ := Prod.mk.inj (Except.ok.inj hout)
    exact ⟨rfl, fun v hv => absurd hv List.not_mem_nil, by simp [shedWrites], rfl⟩
  | some state =>
    simp only [hlru, Option.isNone_some, Bool.false_eq_true, if_false] at h
    obtain ⟨u, m₁, hreload, h₁⟩ := run_bind_ok.1 h
    obtain ⟨s₁, d₁, rfl⟩ := reloadLruIfDirty_unmoved clean hreload
    obtain ⟨tick, m₂, htick, h₂⟩ := run_bind_ok.1 h₁
    obtain ⟨s₂, rfl⟩ := draws_allocateTick.run_zoom htick
    rw [run_read_bind] at h₂
    simp only [sharedPart, hlru] at h₂
    obtain ⟨shed, m₃, hshed, h₃⟩ := run_bind_ok.1 h₂
    obtain ⟨rfl, hopens, hdata, hcounter⟩ := victimOps_run hshed
    rw [run_read_bind] at h₃
    obtain ⟨hout, rfl⟩ := run_pure.1 h₃
    obtain ⟨rfl, rfl⟩ := Prod.mk.inj (Except.ok.inj hout)
    dsimp only at hopens hdata ⊢
    have haccounts : ∀ op ∈ (if cleared = true then [Lru.clearOp inner.id] else []) ++
        (updates.map fun u => (u.1, (⟨tick, u.2⟩ : Entry))).map (fun u => Lru.putOp inner.id u.1 u.2) ++
        (if cleared = true then (([], []) : List Bytes × List Op) else state.pendingOps inner.id
          ((updates.map fun u => (u.1, (⟨tick, u.2⟩ : Entry))).map Prod.fst)).2 ++
        removals.map (Lru.deleteOp inner.id), AccountOp op :=
      accountOp_of_mem
    obtain ⟨hnoData, hnoCounter⟩ := accounts_leave haccounts
    obtain ⟨hclockData, hclockCounter⟩ := accounts_leave (by
      simpa using accountOp_counterOp s₂ : ∀ op ∈ [Ticks.counterOp s₂], AccountOp op)
    rw [victims_congr] at hopens hdata
    refine ⟨victims_congr tick, hopens, ?_, ?_⟩
    · rw [dataOps_append, dataOps_append, dataOps_append, hnoData, hclockData, hdata, shedWrites,
        List.flatMap_map, List.append_nil, List.append_nil]
    · rw [written_append, written_append, written_append, hnoCounter, hclockCounter, hcounter]
      simp

end

end
end Crossbank
