import Crossbank.Async.Total
import Crossbank.Deletion

/-!
# Removing named records

* `Quarantined` : the store without the named records of a locker and the pieces they point at;
* `Bank.quarantineReads`, `Bank.quarantineLands` : a quarantine reads, and then commits once;
* `quarantined_commit` : what it commits removes exactly what was named;
* `Bank.quarantine_exact` : a quarantine does so, or fails and leaves the store as it was. A key that is
  named twice counts twice (`Bank.quarantine_counts_twice`).
-/

namespace Crossbank
open Async

/-- No two records have readable pointers to the same value id. -/
def UniqueIds (db : Tables) : Prop :=
  ∀ row row' p p', pointerIn (db.lookup .records row) = some p →
    pointerIn (db.lookup .records row') = some p' → p.valueId = p'.valueId → row = row'

/-- The named records of the locker are gone, with the pieces of those whose pointer is readable, and
everything else is as it was. -/
structure Quarantined (id : LockerId) (keys : List Bytes) (db db' : Tables) : Prop where
  gone : ∀ key ∈ keys, db'.lookup .records (encodeBytes id key) = none
  swept : ∀ key ∈ keys, ∀ p, pointerIn (db.lookup .records (encodeBytes id key)) = some p →
    ∀ rest, db'.lookup .chunks (u64be p.valueId ++ rest) = none
  records : ∀ row, (∀ key ∈ keys, row ≠ encodeBytes id key) →
    db'.lookup .records row = db.lookup .records row
  chunks : ∀ row, (∀ key ∈ keys, ∀ p, pointerIn (db.lookup .records (encodeBytes id key)) = some p →
    ∀ rest, row ≠ u64be p.valueId ++ rest) → db'.lookup .chunks row = db.lookup .chunks row
  pieces : ∀ row p, pointerIn (db.lookup .records row) = some p →
    (∀ key ∈ keys, row ≠ encodeBytes id key) →
    ∀ rest, db'.lookup .chunks (u64be p.valueId ++ rest) = db.lookup .chunks (u64be p.valueId ++ rest)
  «meta» : ∀ row, db'.lookup .meta row = db.lookup .meta row

def present (id : LockerId) (db : Tables) (key : Bytes) : Bool :=
  (db.lookup .records (encodeBytes id key)).isSome

def namedOps (id : LockerId) (db : Tables) (key : Bytes) : List Op :=
  match db.lookup .records (encodeBytes id key) with
  | none => []
  | some existing => gcParsed (some existing) ++ [.delete .records (encodeBytes id key)]

section
variable {id : LockerId} {db : Tables} {keys : List Bytes} {key : Bytes} {ops : List Op} {op : Op}
  {table : Table}

/-! ## What is removed -/

theorem mem_namedOps : op ∈ namedOps id db key ↔
    (present id db key = true ∧ op = .delete .records (encodeBytes id key)) ∨
      ∃ p, pointerIn (db.lookup .records (encodeBytes id key)) = some p ∧ op = gcOps p := by
  unfold namedOps present
  cases h : db.lookup .records (encodeBytes id key) with
  | none => simp [pointerIn]
  | some existing =>
    dsimp only
    rw [gcParsed_eq, List.mem_append, List.mem_map, List.mem_singleton]
    simp only [Option.mem_toList, Option.isSome_some, true_and, eq_comm, or_comm]

theorem lookup_commit_deletes (deletes : ∀ op ∈ ops, ∀ v, op.written table key ≠ some (some v))
    (hit : ∃ op ∈ ops, op.written table key = some none) :
    (db.commit ops).lookup table key = none := by
  have none_or : ∀ ops : List Op, (∀ op ∈ ops, ∀ v, op.written table key ≠ some (some v)) →
      written ops table key = none ∨ written ops table key = some none := by
    intro ops deletes
    induction ops with
    | nil => exact .inl rfl
    | cons op ops ih =>
      rw [written_cons]
      rcases ih fun o ho => deletes o (List.mem_cons_of_mem _ ho) with h | h
      · rw [h, Option.none_or]
        match hop : op.written table key with
        | none => exact .inl rfl
        | some none => exact .inr rfl
        | some (some v) => exact absurd hop (deletes op List.mem_cons_self v)
      · rw [h]
        exact .inr rfl
  rw [Tables.lookup_commit]
  rcases none_or ops deletes with h | h
  · obtain ⟨op, hop, hw⟩ := hit
    rw [written_eq_none.1 h op hop] at hw
    cases hw
  · rw [h]
    rfl

theorem written_namedOps (hop : op ∈ keys.flatMap (namedOps id db)) (row v : Bytes) :
    op.written table row ≠ some (some v) := by
  obtain ⟨key, -, hop⟩ := List.mem_flatMap.1 hop
  rcases mem_namedOps.1 hop with ⟨-, rfl⟩ | ⟨p, -, rfl⟩
  · rw [Op.written]
    split <;> simp
  · rw [gcOps, Op.written]
    split <;> simp

theorem lookup_namedOps_record (row : Bytes) (other : ∀ key ∈ keys, row ≠ encodeBytes id key) :
    (db.commit (keys.flatMap (namedOps id db))).lookup .records row = db.lookup .records row := by
  refine Tables.lookup_commit_of_not_written fun op hop => ?_
  obtain ⟨key, hkey, hop⟩ := List.mem_flatMap.1 hop
  rcases mem_namedOps.1 hop with ⟨-, rfl⟩ | ⟨p, -, rfl⟩
  · rw [Op.written, if_neg]
    exact fun h => other key hkey h.2.symm
  · exact Op.written_of_table (by simp [gcOps, Op.table])

theorem lookup_namedOps_chunk (row : Bytes)
    (other : ∀ key ∈ keys, ∀ p, pointerIn (db.lookup .records (encodeBytes id key)) = some p →
      ∀ rest, row ≠ u64be p.valueId ++ rest) :
    (db.commit (keys.flatMap (namedOps id db))).lookup .chunks row = db.lookup .chunks row := by
  refine Tables.lookup_commit_of_not_written fun op hop => ?_
  obtain ⟨key, hkey, hop⟩ := List.mem_flatMap.1 hop
  rcases mem_namedOps.1 hop with ⟨-, rfl⟩ | ⟨p, hp, rfl⟩
  · exact Op.written_of_table (by simp [Op.table])
  · rw [gcOps, Op.written, if_neg]
    rintro ⟨-, hin⟩
    obtain ⟨rest, hrow⟩ := (contains_chunkRange _ _).1 hin
    exact other key hkey p hp rest hrow

/-- What is committed removes exactly what was named. -/
theorem quarantined_commit (unique : UniqueIds db) :
    Quarantined id keys db (db.commit (keys.flatMap (namedOps id db))) where
  gone key hkey := by
    cases h : present id db key with
    | true =>
      refine lookup_commit_deletes (fun op hop v => written_namedOps hop _ v) ⟨_, List.mem_flatMap.2
        ⟨key, hkey, mem_namedOps.2 (.inl ⟨h, rfl⟩)⟩, ?_⟩
      simp [Op.written]
    | false =>
      -- A record that is not there is not deleted, and is not stored.
      have absent : db.lookup .records (encodeBytes id key) = none := by simpa [present] using h
      by_cases hit : ∃ op ∈ keys.flatMap (namedOps id db),
          op.written .records (encodeBytes id key) = some none
      · exact lookup_commit_deletes (fun op hop v => written_namedOps hop _ v) hit
      · rw [Tables.lookup_commit_of_not_written fun op hop => ?_, absent]
        cases hw : op.written .records (encodeBytes id key) with
        | none => rfl
        | some row =>
          cases row with
          | none => exact absurd ⟨op, hop, hw⟩ hit
          | some v => exact absurd hw (written_namedOps hop _ v)
  swept key hkey p hp rest := by
    refine lookup_commit_deletes (fun op hop v => written_namedOps hop _ v) ⟨_, List.mem_flatMap.2
      ⟨key, hkey, mem_namedOps.2 (.inr ⟨p, hp, rfl⟩)⟩, ?_⟩
    rw [gcOps, Op.written, if_pos ⟨rfl, (contains_chunkRange _ _).2 ⟨rest, rfl⟩⟩]
  records := lookup_namedOps_record
  chunks := lookup_namedOps_chunk
  pieces row p hp other rest := by
    refine lookup_namedOps_chunk _ fun key hkey p' hp' rest' heq => ?_
    have same := (u64be_append_inj.1 heq).1
    exact other key hkey (unique _ _ _ _ hp hp' same)
  «meta» row := by
    refine Tables.lookup_commit_of_not_written fun op hop => ?_
    obtain ⟨key, -, hop⟩ := List.mem_flatMap.1 hop
    rcases mem_namedOps.1 hop with ⟨-, rfl⟩ | ⟨p, -, rfl⟩
    · exact Op.written_of_table (by simp [Op.table])
    · exact Op.written_of_table (by simp [gcOps, Op.table])

end

namespace Bank
variable {V : Type} (env : BankEnv)

/-- What a quarantine reads, and what it is to commit. -/
def quarantineReads (name : String) (keys : List Bytes) : Io (Bank V) (List Op × Nat) := do
  if (← Prog.read (isLockerOpen name)) then
    .fail (.invalidConfig s!"locker {name.quote} is still open; close it before quarantining records")
  else if keys.isEmpty then pure ([], 0)
  else if !(← lockerExists name) then pure ([], 0)
  else do
    let id ← lockerId name
    let chain ← lockerChainOrBank env id
    quarantineOps (maintenanceInner env id name chain) keys

def quarantineLands : List Op × Nat → Io (Bank V) Nat
  | (ops, removed) => do
    if ops.isEmpty then pure ()
    else Backend.commit ops
    pure removed

section
variable {env : BankEnv} {name : String} {keys : List Bytes} {id : LockerId} {chain : FilterChain}
  {m m' : Machine Tables (Bank V)}

theorem quarantine_eq : (quarantine env name keys : Io (Bank V) Nat) =
    quarantineReads env name keys >>= quarantineLands := by
  unfold quarantine quarantineReads
  rw [bind_assoc]
  refine congrArg _ (funext fun opened => ?_)
  cases opened with
  | true => rfl
  | false =>
    rw [if_neg Bool.false_ne_true, if_neg Bool.false_ne_true]
    cases keys with
    | nil => rfl
    | cons key rest =>
      have some : ¬ (key :: rest).isEmpty = true := Bool.false_ne_true
      rw [if_neg some, if_neg some, bind_assoc]
      refine congrArg _ (funext fun known => ?_)
      cases known with
      | false => rfl
      | true =>
        have known : ¬ (!true) = true := Bool.false_ne_true
        rw [if_neg known, if_neg known, bind_assoc]
        refine congrArg _ (funext fun id => ?_)
        rw [bind_assoc]
        rfl

/-! ## What is read -/

theorem total_get {ρ : Type} [WriteLock ρ] {m : Machine Tables ρ} (table : Table) (key : Bytes) :
    (Backend.get table key : Io ρ _).Total Served Req.isRead m fun r m' =>
      m' = m ∧ ∀ v, r = .ok v → v = m.dev.lookup table key := by
  refine ⟨trivial, fun x m' hx => ?_⟩
  obtain ⟨rfl, hx⟩ := hx
  exact Prog.total_ofExcept.2 ⟨rfl, hx⟩

theorem total_getMany {ρ : Type} [WriteLock ρ] {m : Machine Tables ρ} (table : Table)
    (keys : List Bytes) : (Backend.getMany table keys : Io ρ _).Total Served Req.isRead m fun r m' =>
      m' = m ∧ ∀ vs, r = .ok vs → vs = keys.map (m.dev.lookup table) := by
  refine ⟨trivial, fun x m' hx => ?_⟩
  obtain ⟨rfl, hx⟩ := hx
  exact Prog.total_ofExcept.2 ⟨rfl, hx⟩

theorem lockerExists_total (knows : Knows m name id) : (lockerExists name : Io (Bank V) Bool).Total
    Served Req.isRead m fun r m' => m' = m ∧ ∀ b, r = .ok b → b = true := by
  unfold Knows at knows
  unfold lockerExists
  rw [Prog.total_read_bind]
  cases hc : cached name m.mem with
  | some known => exact ⟨rfl, fun b h => (Except.ok.inj h).symm⟩
  | none =>
    rw [hc] at knows
    obtain ⟨raw, hrow, -⟩ := knows
    refine (total_get _ _).bind (fun found m₁ h => ⟨h.1, fun b hb => ?_⟩) fun e m₁ h => ⟨h.1, fun _ h => by
      cases h⟩
    rw [← Except.ok.inj hb, h.2 found rfl, show m.dev.lookup .meta (lockerKey name) = some raw from hrow]
    rfl

theorem lockerId_total (knows : Knows m name id) : (lockerId name : Io (Bank V) LockerId).Total Served
    Req.isRead m fun r m' => m'.dev = m.dev ∧ ∀ id', r = .ok id' → id' = id := by
  unfold Knows at knows
  unfold lockerId
  rw [Prog.total_read_bind]
  cases hc : cached name m.mem with
  | some known =>
    rw [hc] at knows
    exact ⟨rfl, fun id' h => by rw [← Except.ok.inj h, knows]⟩
  | none =>
    rw [hc] at knows
    obtain ⟨raw, hrow, hid⟩ := knows
    refine (total_getMany _ _).bind (fun found m₁ h => ?_) fun e m₁ h => ⟨congrArg _ h.1, fun _ h => by
      cases h⟩
    obtain ⟨rfl, hfound⟩ := h
    obtain rfl := hfound found rfl
    have hraw : (List.map (m₁.dev.lookup .meta)
        [lockerKey name, META_NEXT_LOCKER_ID]).dropLast.getLast?.join = some raw := by
      rw [← hrow]
      rfl
    have hparse : u32From raw "locker id" = .ok id := by rw [u32From, hid]
    dsimp only
    rw [hraw]
    dsimp only
    rw [hparse]
    exact ⟨rfl, fun id' h => (Except.ok.inj h).symm⟩

theorem lockerChainOrBank_total : (lockerChainOrBank env id : Io (Bank V) FilterChain).Total Served
    Req.isRead m fun _ m' => m' = m := by
  refine (total_get _ _).bind (fun found m₁ h => ?_) fun _ _ h => h.1
  cases found with
  | none => exact h.1
  | some raw =>
    dsimp only
    have parsed : (Prog.ofExcept (chainIdFrom raw) : Io (Bank V) UInt8).Total Served Req.isRead m₁
        fun _ m' => m' = m := Prog.total_ofExcept.2 h.1
    refine parsed.bind (fun stored m₂ h => ?_) fun _ _ h => h
    split
    · exact h
    · exact h

theorem quarantineOps_total : (quarantineOps (maintenanceInner env id name chain) keys :
    Io (Bank V) (List Op × Nat)).Total Served Req.isRead m fun r m' => m' = m ∧
      ∀ ops removed, r = .ok (ops, removed) →
        ops = keys.flatMap (namedOps id m.dev) ∧ removed = keys.countP (present id m.dev) := by
  induction keys with
  | nil =>
    refine ⟨rfl, fun ops removed h => ?_⟩
    obtain ⟨rfl, rfl⟩ := Prod.mk.inj (Except.ok.inj h)
    exact ⟨rfl, rfl⟩
  | cons key rest ih =>
    refine (total_get _ _).bind (fun existing m₁ h => ?_) fun e m₁ h => ⟨h.1, fun _ _ h => by cases h⟩
    obtain ⟨rfl, hrow⟩ := h
    have hrow : existing = m₁.dev.lookup .records (encodeBytes id key) := hrow existing rfl
    rw [List.flatMap_cons, List.countP_cons]
    cases existing with
    | none =>
      refine ih.mono fun r m' h => ⟨h.1, fun ops removed hr => ?_⟩
      obtain ⟨hops, hremoved⟩ := h.2 ops removed hr
      rw [namedOps, present, ← hrow]
      exact ⟨hops, hremoved⟩
    | some existing =>
      refine ih.bind (fun found m₂ h => ?_) fun e m₂ h => ⟨h.1, fun _ _ h => by cases h⟩
      obtain ⟨rfl, h⟩ := h
      obtain ⟨hops, hremoved⟩ := h found.1 found.2 rfl
      refine ⟨rfl, fun ops removed hr => ?_⟩
      obtain ⟨rfl, rfl⟩ := Prod.mk.inj (Except.ok.inj hr)
      rw [namedOps, present, ← hrow, hops, hremoved]
      exact ⟨rfl, rfl⟩

/-- What a quarantine reads. It asks for nothing but reads. -/
theorem quarantineReads_total (env : BankEnv) (keys : List Bytes) (knows : Knows m name id) :
    (quarantineReads env name keys).Total Served Req.isRead m fun r m' => m'.dev = m.dev ∧
      ∀ ops removed, r = .ok (ops, removed) →
        ops = keys.flatMap (namedOps id m.dev) ∧ removed = keys.countP (present id m.dev) := by
  unfold quarantineReads
  rw [Prog.total_read_bind]
  split
  · exact ⟨rfl, fun _ _ h => by cases h⟩
  · split
    · next empty =>
      rw [List.isEmpty_iff.1 empty]
      refine ⟨rfl, fun ops removed h => ?_⟩
      obtain ⟨rfl, rfl⟩ := Prod.mk.inj (Except.ok.inj h)
      exact ⟨rfl, rfl⟩
    · refine (lockerExists_total knows).bind (fun known m₁ h => ?_) fun e m₁ h =>
        ⟨congrArg _ h.1, fun _ _ h => by cases h⟩
      obtain ⟨rfl, hknown⟩ := h
      rw [hknown known rfl]
      refine (lockerId_total knows).bind (fun found m₂ h => ?_) fun e m₂ h =>
        ⟨h.1, fun _ _ h => by cases h⟩
      obtain ⟨hdev, hid⟩ := h
      rw [hid found rfl, ← hdev]
      refine lockerChainOrBank_total.bind (fun chain m₃ h => ?_) fun e m₃ h =>
        ⟨congrArg _ h, fun _ _ h => by cases h⟩
      subst h
      exact quarantineOps_total.mono fun r m' h => ⟨congrArg _ h.1, h.2⟩

/-! ## A quarantine that is answered -/

theorem lockerExists_answers (knows : Knows m name id) :
    Run Answered (lockerExists name) m (.ok true) m := by
  unfold Knows at knows
  unfold lockerExists
  rw [run_read_bind]
  cases hc : cached name m.mem with
  | some known => exact run_pure.2 ⟨rfl, rfl⟩
  | none =>
    rw [hc] at knows
    obtain ⟨raw, hrow, -⟩ := knows
    have found : m.dev.lookup .meta (lockerKey name) = some raw := hrow
    exact run_bind.2 (.inl ⟨some raw, m, answered_get.2 ⟨by rw [found], rfl⟩, run_pure.2 ⟨rfl, rfl⟩⟩)

theorem lockerId_answers (knows : Knows m name id) :
    ∃ m', Run Answered (lockerId name) m (.ok id) m' ∧ m'.dev = m.dev := by
  unfold Knows at knows
  unfold lockerId
  simp only [run_read_bind]
  cases hc : cached name m.mem with
  | some known =>
    rw [hc] at knows
    exact ⟨m, run_pure.2 ⟨congrArg _ knows, rfl⟩, rfl⟩
  | none =>
    rw [hc] at knows
    obtain ⟨raw, hrow, hid⟩ := knows
    have hparse : u32From raw "locker id" = .ok id := by rw [u32From, hid]
    refine ⟨⟨m.dev, cache name id m.mem⟩, run_bind.2 (.inl ⟨_, m, answered_getMany.2 ⟨rfl, rfl⟩, ?_⟩), rfl⟩
    have hraw : (List.map (m.dev.lookup .meta)
        [lockerKey name, META_NEXT_LOCKER_ID]).dropLast.getLast?.join = some raw := by
      rw [← hrow]
      rfl
    rw [hraw]
    refine run_bind.2 (.inl ⟨id, m, run_ofExcept.2 ⟨hparse.symm, rfl⟩, ?_⟩)
    rw [run_update_bind]
    exact run_pure.2 ⟨rfl, rfl⟩

theorem lockerChainOrBank_answers (env : BankEnv)
    (chained : ∀ raw, m.dev.lookup .meta (chainKey id) = some raw → ∃ stored, raw = [stored]) :
    ∃ chain, Run Answered (lockerChainOrBank env id) m (.ok chain) m := by
  unfold lockerChainOrBank
  cases hrow : m.dev.lookup .meta (chainKey id) with
  | none => exact ⟨_, run_bind.2 (.inl ⟨none, m, answered_get.2 ⟨by rw [hrow], rfl⟩,
      run_pure.2 ⟨rfl, rfl⟩⟩)⟩
  | some raw =>
    obtain ⟨stored, rfl⟩ := chained raw hrow
    by_cases own : stored = env.chain.id
    · refine ⟨env.chain, run_bind.2 (.inl ⟨some [stored], m, answered_get.2 ⟨by rw [hrow], rfl⟩,
        run_bind.2 (.inl ⟨stored, m, run_ofExcept.2 ⟨rfl, rfl⟩, ?_⟩)⟩)⟩
      rw [if_pos own]
      exact run_pure.2 ⟨rfl, rfl⟩
    · refine ⟨(m.mem.chains stored).getD env.chain, run_bind.2 (.inl ⟨some [stored], m,
        answered_get.2 ⟨by rw [hrow], rfl⟩, run_bind.2 (.inl ⟨stored, m, run_ofExcept.2 ⟨rfl, rfl⟩,
        ?_⟩)⟩)⟩
      rw [if_neg own, run_read_bind]
      exact run_pure.2 ⟨rfl, rfl⟩

theorem quarantineOps_answers (inner : Inner Bytes) (keys : List Bytes) :
    ∃ found, Run Answered (quarantineOps inner keys) m (.ok found) m := by
  induction keys with
  | nil => exact ⟨_, run_pure.2 ⟨rfl, rfl⟩⟩
  | cons key rest ih =>
    obtain ⟨found, hrest⟩ := ih
    unfold quarantineOps
    cases hrow : m.dev.lookup .records (inner.encodeKey key) with
    | none => exact ⟨found, run_bind.2 (.inl ⟨none, m, answered_get.2 ⟨by rw [hrow], rfl⟩, hrest⟩)⟩
    | some existing =>
      exact ⟨_, run_bind.2 (.inl ⟨some existing, m, answered_get.2 ⟨by rw [hrow], rfl⟩,
        run_bind.2 (.inl ⟨found, m, hrest, run_pure.2 ⟨rfl, rfl⟩⟩)⟩)⟩

theorem quarantineLands_answers (found : List Op × Nat) :
    ∃ m', Run Answered (quarantineLands found) m (.ok found.2) m' := by
  unfold quarantineLands
  by_cases none : found.1.isEmpty
  · refine ⟨m, ?_⟩
    dsimp only
    rw [if_pos none]
    exact run_pure.2 ⟨rfl, rfl⟩
  · refine ⟨⟨m.dev.commit found.1, m.mem⟩, ?_⟩
    dsimp only
    rw [if_neg none]
    exact run_bind.2 (.inl ⟨(), _, answered_commitWith.2 ⟨rfl, rfl⟩, run_pure.2 ⟨rfl, rfl⟩⟩)

/-- Of a locker that is known and not open, and whose chain record can be read, the records are
removed where the backend answers. -/
theorem quarantine_answers (knows : Knows m name id) (unopened : isLockerOpen name m.mem = false)
    (chained : ∀ raw, m.dev.lookup .meta (chainKey id) = some raw → ∃ stored, raw = [stored]) :
    ∃ removed m', Run Answered (quarantine env name keys) m (.ok removed) m' := by
  have read : ∃ found m₁, Run Answered (quarantineReads env name keys) m (.ok found) m₁ := by
    unfold quarantineReads
    simp only [run_read_bind]
    rw [unopened]
    simp only [if_neg Bool.false_ne_true]
    by_cases none : keys.isEmpty
    · rw [if_pos none]
      exact ⟨_, m, run_pure.2 ⟨rfl, rfl⟩⟩
    · rw [if_neg none]
      obtain ⟨m₁, hid, hdev⟩ := lockerId_answers knows
      rw [← hdev] at chained
      obtain ⟨chain, hchain⟩ := lockerChainOrBank_answers env chained
      obtain ⟨found, hops⟩ := quarantineOps_answers (maintenanceInner env id name chain) keys (m := m₁)
      exact ⟨found, m₁, run_bind.2 (.inl ⟨true, m, lockerExists_answers knows,
        run_bind.2 (.inl ⟨id, m₁, hid, run_bind.2 (.inl ⟨chain, m₁, hchain, hops⟩)⟩)⟩)⟩
  obtain ⟨found, m₁, hread⟩ := read
  obtain ⟨m', hland⟩ := quarantineLands_answers found (m := m₁)
  rw [quarantine_eq]
  exact ⟨found.2, m', run_bind.2 (.inl ⟨found, m₁, hread, hland⟩)⟩

/-! ## What is left -/

/-- A quarantine removes exactly what was named: it reads, and what it has read it removes in one
commit; it returns how many of the listed keys are there, each as often as it is listed. One that fails
leaves the store as it was. -/
theorem quarantine_exact (env : BankEnv) (keys : List Bytes) (knows : Knows m name id)
    (unique : UniqueIds m.dev) :
    ((quarantine env name keys : Io (Bank V) Nat) = quarantineReads env name keys >>= quarantineLands ∧
      (quarantineReads env name keys).Total Served Req.isRead m fun _ m₁ => m₁.dev = m.dev) ∧
    (∀ r m', Run Served (quarantine env name keys) m r m' →
      (∀ e, r = .error e → m'.dev = m.dev) ∧
      ∀ removed, r = .ok removed → removed = keys.countP (present id m.dev) ∧
        Quarantined id keys m.dev m'.dev) ∧
    (isLockerOpen name m.mem = false →
      (∀ raw, m.dev.lookup .meta (chainKey id) = some raw → ∃ stored, raw = [stored]) →
      ∃ removed m', Run Answered (quarantine env name keys) m (.ok removed) m') := by
  have reads := quarantineReads_total env keys knows
  refine ⟨⟨quarantine_eq, reads.mono fun _ _ h => h.1⟩, fun r m' run => ?_,
    quarantine_answers knows⟩
  rw [quarantine_eq] at run
  rcases run_bind.1 run with ⟨⟨ops, removed⟩, m₁, hread, hland⟩ | ⟨e, hread, rfl⟩
  · obtain ⟨hdev, hfound⟩ := reads.run hread
    obtain ⟨rfl, rfl⟩ := hfound ops removed rfl
    have done : Quarantined id keys m.dev (m.dev.commit (keys.flatMap (namedOps id m.dev))) :=
      quarantined_commit unique
    unfold quarantineLands at hland
    dsimp only at hland
    split at hland
    · next empty =>
      rw [List.isEmpty_iff.1 empty] at done
      obtain ⟨rfl, rfl⟩ := run_pure.1 hland
      refine ⟨fun e h => (by cases h), fun n h => ?_⟩
      rw [hdev, ← Except.ok.inj h]
      exact ⟨rfl, done⟩
    · rcases run_bind.1 hland with ⟨u, m₂, hcommit, hpure⟩ | ⟨e, hcommit, rfl⟩
      · obtain ⟨rfl, rfl⟩ := run_pure.1 hpure
        rcases run_commitWith.1 hcommit with ⟨-, rfl⟩ | ⟨e, he, -⟩
        · refine ⟨fun e h => (by cases h), fun n h => ?_⟩
          rw [← Except.ok.inj h, hdev]
          exact ⟨rfl, done⟩
        · cases he
      · rcases run_commitWith.1 hcommit with ⟨he, -⟩ | ⟨e', -, rfl⟩
        · cases he
        · exact ⟨fun _ _ => hdev, fun n h => by cases h⟩
  · exact ⟨fun _ _ => (reads.run hread).1, fun n h => by cases h⟩

end

/-- The one record there is. -/
theorem uniqueIds_pieced : UniqueIds pieced := by
  have one (row : Bytes) (p : ChunkPointer) (h : pointerIn (pieced.lookup .records row) = some p) :
      row = encodeBytes 0 [1] := by
    by_contra other
    have absent : pieced.lookup .records row = none := by
      rw [pieced, Tables.lookup_commit]
      simp [written_cons, Op.written, Ne.symm other, Tables.lookup, Tables.get, Tables.empty]
    rw [absent] at h
    cases h
  intro row row' p p' hp hp' _
  rw [one row p hp, one row' p' hp']

theorem knows_pieced : Knows (V := Unit) ⟨pieced, .fresh Unit⟩ "notes" 0 :=
  ⟨u32be 0, by decide, by decide⟩

/-- A key that is there is listed with one that is not. -/
theorem quarantine_exact_pieced : ∃ m' : Machine Tables (Bank Unit),
    Run Served (quarantine BankEnv.plain "notes" [[1], [2]]) ⟨pieced, .fresh Unit⟩ (.ok 1) m' ∧
    Quarantined 0 [[1], [2]] pieced m'.dev ∧ UniqueIds pieced := by
  obtain ⟨-, exact, answers⟩ := quarantine_exact BankEnv.plain [[1], [2]] knows_pieced
    uniqueIds_pieced
  obtain ⟨removed, m', run⟩ := answers rfl fun raw h => by
    have none : pieced.lookup .meta (chainKey 0) = none := by decide
    rw [show Machine.dev (⟨pieced, .fresh Unit⟩ : Machine Tables (Bank Unit)) = pieced from rfl,
      none] at h
    cases h
  obtain ⟨count, quarantined⟩ := (exact _ _ (Answered.served run)).2 removed rfl
  have one : [[1], [2]].countP (present 0 pieced) = 1 := by decide
  rw [count, one] at run
  exact ⟨m', Answered.served run, quarantined, uniqueIds_pieced⟩

/-- A key that is listed twice counts twice. -/
theorem quarantine_counts_twice : ¬ ∀ (env : BankEnv) (name : String) (keys : List Bytes)
    (id : LockerId) (m m' : Machine Tables (Bank Unit)) (removed : Nat), Knows m name id →
    isLockerOpen name m.mem = false → UniqueIds m.dev →
    Run Served (quarantine env name keys) m (.ok removed) m' →
    removed = (keys.dedup.filter (present id m.dev)).length := by
  intro counts
  have heval : ((quarantine BankEnv.plain "notes" [[1], [1]] : Io (Bank Unit) Nat).eval (serve 0)
      ⟨pieced, .fresh Unit⟩).map (·.1) = some (.ok 2) := by decide
  obtain ⟨⟨r, m'⟩, heval, rfl⟩ := Option.map_eq_some_iff.1 heval
  have two := counts BankEnv.plain "notes" [[1], [1]] 0 _ m' 2 knows_pieced rfl uniqueIds_pieced
    (Prog.eval_run (serve_sound 0) heval)
  have one : ([[1], [1]].dedup.filter (present 0 pieced)).length = 1 := by decide
  rw [show Machine.dev (⟨pieced, .fresh Unit⟩ : Machine Tables (Bank Unit)) = pieced from rfl,
    one] at two
  cases two

end Bank
end Crossbank
