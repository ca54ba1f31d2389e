import Crossbank.Locker.Build
import Crossbank.Verify

/-!
# Deleting a locker

* `Belongs name id owns` : the keys of a locker, given the value ids that are its own;
* `Erased` : what a deletion is to leave: nothing of the locker, and everything else;
* `LeavesNothing` : a store in which the keys a deletion names are all that the locker has;
* `Bank.deleteLocker_erases` : a deletion erases exactly in such a store. The record of its chain
  is not among the keys it names (`Bank.deleteLocker_leaves_chain`).
-/

namespace Crossbank
open Async

/-- The keys of a locker: its records, the pieces of the values that are its own, and in `meta` its
registration, its schema, its chain and its accounting. -/
def Belongs (name : String) (id : LockerId) (owns : UInt64 → Prop) : Table → Bytes → Prop
  | .records, key => ∃ k, key = encodeBytes id k
  | .chunks, key => ∃ v rest, owns v ∧ key = u64be v ++ rest
  | .meta, key => key = lockerKey name ∨ key = schemaKey id ∨ key = chainKey id ∨
    ∃ k, key = entryKey id k

/-- Nothing of the locker is left, and everything else is as it was. -/
def Erased (name : String) (id : LockerId) (owns : UInt64 → Prop) (db db' : Tables) : Prop :=
  ∀ table key, (Belongs name id owns table key → db'.lookup table key = none) ∧
    (¬ Belongs name id owns table key → db'.lookup table key = db.lookup table key)

def PointsAt (db : Tables) (id : LockerId) (v : UInt64) : Prop :=
  ∃ k raw p, db.lookup .records (encodeBytes id k) = some raw ∧ ChunkPointer.parse raw = .ok p ∧
    p.valueId = v

/-- There is no more of the locker than a deletion names: no record of its chain, no accounting, no
pieces but those its records point at; and no pointer of its leads to pieces of another's. -/
structure LeavesNothing (id : LockerId) (owns : UInt64 → Prop) (db : Tables) : Prop where
  chain : db.lookup .meta (chainKey id) = none
  accounts : ∀ k, db.lookup .meta (entryKey id k) = none
  pieces : ∀ v rest, owns v → ¬ PointsAt db id v → db.lookup .chunks (u64be v ++ rest) = none
  apart : ∀ v rest, ¬ owns v → PointsAt db id v → db.lookup .chunks (u64be v ++ rest) = none

def deletionOps {T : Type} (inner : Inner T) (db : Tables) (name : String) (id : LockerId) : List Op :=
  (storedPointers inner db).map gcOps ++ [inner.clearOp] ++
    [.delete .meta (lockerKey name), .delete .meta (schemaKey id)]

section
variable {T : Type} {inner : Inner T} {db : Tables} {name : String}

theorem lookup_deletion_meta (key : Bytes) :
    (db.commit (deletionOps inner db name inner.id)).lookup .meta key =
      if lockerKey name = key ∨ schemaKey inner.id = key then none else db.lookup .meta key := by
  have hgc : written ((storedPointers inner db).map gcOps) .meta key = none := by
    refine written_of_table fun op hop => ?_
    obtain ⟨p, -, rfl⟩ := List.mem_map.1 hop
    simp [gcOps, Op.table]
  rw [Tables.lookup_commit, deletionOps, written_append, written_append, hgc]
  by_cases h1 : lockerKey name = key
  · by_cases h2 : schemaKey inner.id = key <;>
      simp [written_cons, Inner.clearOp, Op.written, h1, h2]
  · by_cases h2 : schemaKey inner.id = key <;>
      simp [written_cons, Inner.clearOp, Op.written, h1, h2]

theorem written_deletes {table : Table} (ht : table ≠ .meta) (key : Bytes) (id : LockerId) :
    written [.delete .meta (lockerKey name), .delete .meta (schemaKey id)] table key = none := by
  refine written_of_table fun op hop => ?_
  rcases List.mem_cons.1 hop with rfl | hop
  · exact ht.symm
  · obtain rfl := List.mem_singleton.1 hop
    exact ht.symm

theorem lookup_deletion_record (k : Bytes) :
    (db.commit (deletionOps inner db name inner.id)).lookup .records (encodeBytes inner.id k) =
      none := by
  have hw : written [inner.clearOp] .records (encodeBytes inner.id k) = some none :=
    written_clearOp k
  rw [Tables.lookup_commit, deletionOps, written_append, written_deletes (by decide),
    written_append, hw]
  rfl

theorem lookup_deletion_record_other {key : Bytes} (other : ∀ k, key ≠ encodeBytes inner.id k) :
    (db.commit (deletionOps inner db name inner.id)).lookup .records key =
      db.lookup .records key := by
  have hw : written [inner.clearOp] .records key = none := written_clearOp_other other
  rw [Tables.lookup_commit, deletionOps, written_append, written_deletes (by decide),
    written_append, hw, written_gcOps]
  rfl

theorem pointsAt_iff {v : UInt64} :
    v ∈ (storedPointers inner db).map ChunkPointer.valueId ↔ PointsAt db inner.id v := by
  rw [List.mem_map]
  constructor
  · rintro ⟨p, hp, hv⟩
    obtain ⟨k, raw, hraw, hparse⟩ := mem_storedPointers.1 hp
    exact ⟨k, raw, p, hraw, hparse, hv⟩
  · rintro ⟨k, raw, p, hraw, hparse, hv⟩
    exact ⟨p, mem_storedPointers.2 ⟨k, raw, hraw, hparse⟩, hv⟩

theorem lookup_deletion_chunk {v : UInt64} (points : PointsAt db inner.id v) (rest : Bytes) :
    (db.commit (deletionOps inner db name inner.id)).lookup .chunks (u64be v ++ rest) = none := by
  rw [Tables.lookup_commit, deletionOps, written_append, written_deletes (by decide),
    written_append, written_clearOp_chunk, written_gcOps_chunk, if_pos (pointsAt_iff.2 points)]
  rfl

/-- Chunk keys under no value id that the locker points at. -/
theorem lookup_deletion_chunk_other {key : Bytes}
    (other : ∀ v rest, key = u64be v ++ rest → ¬ PointsAt db inner.id v) :
    (db.commit (deletionOps inner db name inner.id)).lookup .chunks key = db.lookup .chunks key := by
  have hgc : written ((storedPointers inner db).map gcOps) .chunks key = none := by
    rw [written_eq_none]
    intro op hop
    obtain ⟨p, hp, rfl⟩ := List.mem_map.1 hop
    have hout : ¬ (chunkRange p.valueId).contains key = true := by
      rw [contains_chunkRange]
      rintro ⟨rest, hkey⟩
      exact other p.valueId rest hkey (pointsAt_iff.1 (List.mem_map_of_mem hp))
    simp [gcOps, Op.written, hout]
  rw [Tables.lookup_commit, deletionOps, written_append, written_deletes (by decide),
    written_append, written_clearOp_chunk, hgc]
  rfl

/-- The ops of a deletion erase the locker exactly where there is no more of it than they name. -/
theorem erased_iff (inner : Inner T) {owns : UInt64 → Prop} :
    Erased name inner.id owns db (db.commit (deletionOps inner db name inner.id)) ↔
      LeavesNothing inner.id owns db := by
  constructor
  · intro h
    refine ⟨?_, fun k => ?_, fun v rest hv hp => ?_, fun v rest hv hp => ?_⟩
    · have hnone := (h .meta (chainKey inner.id)).1 (.inr (.inr (.inl rfl)))
      rw [lookup_deletion_meta, if_neg] at hnone
      · exact hnone
      · rintro (h1 | h1)
        · exact Bank.append_ne_append _ _ (by decide) (by decide) (by decide) _ _ h1
        · exact Bank.append_ne_append _ _ (by decide) (by decide) (by decide) _ _ h1
    · have hnone := (h .meta (entryKey inner.id k)).1 (.inr (.inr (.inr ⟨k, rfl⟩)))
      have hkey : entryKey inner.id k = LRU_PREFIX ++ (u32be inner.id ++ ascii "::" ++ k) := by
        simp [entryKey, lockerPrefix]
      rw [lookup_deletion_meta, if_neg] at hnone
      · exact hnone
      · rw [hkey]
        rintro (h1 | h1)
        · exact Bank.append_ne_append _ _ (by decide) (by decide) (by decide) _ _ h1
        · exact Bank.append_ne_append _ _ (by decide) (by decide) (by decide) _ _ h1
    · have hnone := (h .chunks (u64be v ++ rest)).1 ⟨v, rest, hv, rfl⟩
      rwa [lookup_deletion_chunk_other] at hnone
      intro v' rest' hkey
      rwa [← (u64be_append_inj.1 hkey).1]
    · have hsame := (h .chunks (u64be v ++ rest)).2 (by
        rintro ⟨v', rest', hv', hkey⟩
        rw [(u64be_append_inj.1 hkey).1] at hv
        exact hv hv')
      rw [← hsame]
      exact lookup_deletion_chunk hp rest
  · intro h table key
    cases table with
    | «meta» =>
      rw [lookup_deletion_meta]
      constructor
      · rintro (rfl | rfl | rfl | ⟨k, rfl⟩)
        · rw [if_pos (.inl rfl)]
        · rw [if_pos (.inr rfl)]
        · rw [h.chain, ite_self]
        · rw [h.accounts, ite_self]
      · intro hout
        rw [if_neg]
        rintro (rfl | rfl)
        · exact hout (.inl rfl)
        · exact hout (.inr (.inl rfl))
    | records =>
      constructor
      · rintro ⟨k, rfl⟩
        exact lookup_deletion_record k
      · intro hout
        exact lookup_deletion_record_other fun k hk => hout ⟨k, hk⟩
    | chunks =>
      constructor
      · rintro ⟨v, rest, hv, rfl⟩
        by_cases hp : PointsAt db inner.id v
        · exact lookup_deletion_chunk hp rest
        · rw [lookup_deletion_chunk_other]
          · exact h.pieces v rest hv hp
          · intro v' rest' hkey
            rwa [← (u64be_append_inj.1 hkey).1]
      · intro hout
        by_cases hp : ∃ v rest, key = u64be v ++ rest ∧ PointsAt db inner.id v
        · obtain ⟨v, rest, rfl, hp⟩ := hp
          have hown : ¬ owns v := fun hv => hout ⟨v, rest, hv, rfl⟩
          rw [lookup_deletion_chunk hp, h.apart v rest hown hp]
        · exact lookup_deletion_chunk_other fun v rest hkey hv => hp ⟨v, rest, hkey, hv⟩

end

namespace Bank
variable {V : Type} {env : BankEnv} {name : String} {m m' : Machine Tables (Bank V)}

/-- For an id that nothing in this process knows, the bank's chain. -/
theorem lockerChainOrBank_eq (id : LockerId) : (lockerChainOrBank env id : Io (Bank V) FilterChain) =
    lockerChain env id >>= fun chain => pure (chain.getD env.chain) := by
  unfold lockerChainOrBank lockerChain storedChainId
  rw [bind_assoc, bind_assoc]
  refine congrArg _ (funext fun found => ?_)
  cases found with
  | none => rfl
  | some raw =>
    dsimp only
    rw [bind_assoc]
    refine congrArg _ (funext fun stored => ?_)
    rw [pure_bind]
    dsimp only
    split
    · rfl
    · rw [bind_assoc]
      rfl

theorem run_deleteLocker (run : Run Served (deleteLocker env name) m (.ok true) m') :
    ∃ id chain, Knows m name id ∧
      m'.dev = m.dev.commit (deletionOps (maintenanceInner env id name chain) m.dev name id) := by
  unfold deleteLocker at run
  rw [run_read_bind] at run
  split at run
  · cases (run_fail.1 run).1
  obtain ⟨known, m₁, hexists, h₁⟩ := run_bind_ok.1 run
  obtain ⟨rfl, hknown⟩ := unknown_of_lockerExists hexists
  cases known with
  | false =>
    obtain ⟨hfalse, -⟩ := run_pure.1 h₁
    cases hfalse
  | true =>
    obtain ⟨id, m₂, hid, h₂⟩ := run_bind_ok.1 h₁
    obtain ⟨knows, hdev, -⟩ := knows_of_lockerId (fun h => by simpa using hknown.2 h) hid
    obtain ⟨chain, m₃, hchain, h₃⟩ := run_bind_ok.1 h₂
    rw [lockerChainOrBank_eq] at hchain
    obtain ⟨chain', m₃', hchain', h₂'⟩ := run_bind_ok.1 hchain
    obtain ⟨rfl, -⟩ := readsThrough_of_lockerChain hchain'
    obtain ⟨-, rfl⟩ := run_pure.1 h₂'
    obtain ⟨ops, m₄, hops, h₄⟩ := run_bind_ok.1 h₃
    obtain ⟨rfl, rfl⟩ := clearValueOps_run hops
    obtain ⟨u, m₅, hcommit, h₅⟩ := run_bind_ok.1 h₄
    rw [run_update_bind, run_update_bind] at h₅
    obtain ⟨-, rfl⟩ := run_pure.1 h₅
    rcases run_commitWith.1 hcommit with ⟨-, rfl⟩ | ⟨e, he, -⟩
    · refine ⟨id, chain, knows, ?_⟩
      rw [← hdev]
      rfl
    · cases he

/-- A deletion erases the locker exactly where it has no record of its chain, no accounting, and no
pieces but those its records point at. -/
theorem deleteLocker_erases (run : Run Served (deleteLocker env name) m (.ok true) m') :
    ∃ id, Knows m name id ∧ ∀ owns : UInt64 → Prop,
      (Erased name id owns m.dev m'.dev ↔ LeavesNothing id owns m.dev) := by
  obtain ⟨id, chain, knows, hdev⟩ := run_deleteLocker run
  refine ⟨id, knows, fun owns => ?_⟩
  rw [hdev]
  exact erased_iff (maintenanceInner env id name chain)

theorem lookup_pieced_record {k raw : Bytes}
    (h : pieced.lookup .records (encodeBytes 0 k) = some raw) :
    k = [1] ∧ raw = ChunkPointer.encode ⟨5, 1, 1, FLAG_RAW⟩ := by
  rw [pieced, Tables.lookup_commit] at h
  by_cases hk : [1] = k
  · subst hk
    refine ⟨rfl, ?_⟩
    simpa [written_cons, Op.written, Tables.lookup, Tables.get, Tables.empty, eq_comm] using h
  · simp [written_cons, Op.written, hk, Tables.lookup, Tables.get, Tables.empty] at h

/-- A locker written before chains were recorded, whose one value is in one piece. -/
theorem deleteLocker_erases_pieced : ∃ m' : Machine Tables (Bank Unit),
    Run Served (deleteLocker BankEnv.plain "notes") ⟨pieced, .fresh Unit⟩ (.ok true) m' ∧
    ∃ id, Knows (V := Unit) ⟨pieced, .fresh Unit⟩ "notes" id ∧
      Erased "notes" id (fun v => v = 5) pieced m'.dev := by
  have heval : ((deleteLocker BankEnv.plain "notes" : Io (Bank Unit) Bool).eval (serve 0)
      ⟨pieced, .fresh Unit⟩).map (·.1) = some (.ok true) := by decide
  obtain ⟨⟨r, m'⟩, heval, rfl⟩ := Option.map_eq_some_iff.1 heval
  have run := Prog.eval_run (serve_sound 0) heval
  obtain ⟨id, knows, erases⟩ := deleteLocker_erases run
  refine ⟨m', run, id, knows, (erases _).2 ?_⟩
  obtain rfl : id = 0 := knows.eq_of_fresh (by decide)
  have points : PointsAt pieced 0 5 := by
    refine ⟨[1], _, ⟨5, 1, 1, FLAG_RAW⟩, ?_, parse_eq_ok.2 ⟨rfl, by decide⟩, rfl⟩
    decide
  refine ⟨by decide, fun k => ?_, fun v rest hv hp => ?_, fun v rest hv hp => ?_⟩
  · have hkey : lockerKey "notes" ≠ entryKey 0 k := by
      have hsplit : entryKey 0 k = LRU_PREFIX ++ (u32be 0 ++ ascii "::" ++ k) := by
        simp [entryKey, lockerPrefix]
      rw [hsplit]
      exact append_ne_append _ _ (by decide) (by decide) (by decide) _ _
    rw [pieced, Tables.lookup_commit]
    simp [written_cons, Op.written, hkey, Tables.lookup, Tables.get, Tables.empty]
  · obtain rfl : v = 5 := hv
    exact absurd points hp
  · obtain ⟨k, raw, p, hraw, hparse, rfl⟩ := hp
    obtain ⟨-, rfl⟩ := lookup_pieced_record hraw
    exact absurd (congrArg ChunkPointer.valueId (encode_inj (parse_eq_ok.1 hparse).1)).symm hv

/-- A locker that was opened on an empty store has recorded its chain, and keeps the record. -/
theorem deleteLocker_leaves_chain : ¬ ∀ (db : Tables) (bank : Bank Bytes) (k : Nat)
    (m' : Machine Tables (Bank Bytes)) (id : LockerId) (owns : UInt64 → Prop),
    Run Served (lazyLockerWith BankEnv.plain "notes" bytesTag .vecU8 {}) ⟨.empty, .fresh Bytes⟩
      (.ok k) ⟨db, bank⟩ →
    Run Served (deleteLocker BankEnv.plain "notes") ⟨db, .fresh Bytes⟩ (.ok true) m' →
    Knows (V := Bytes) ⟨db, .fresh Bytes⟩ "notes" id → Erased "notes" id owns db m'.dev := by
  intro all
  let opened : Tables := Tables.empty.commit (registration "notes" 0 1 ++
    [.put .meta (schemaKey 0) (asBytes bytesTag), .put .meta (chainKey 0) [0]])
  have hopen : ((lazyLockerWith BankEnv.plain "notes" bytesTag .vecU8 {}).eval (serve 0)
      ⟨.empty, .fresh Bytes⟩).map (fun x => (x.1, x.2.dev)) = some (.ok 0, opened) := by
    decide
  obtain ⟨⟨r, ⟨db, bank⟩⟩, hopen, heq⟩ := Option.map_eq_some_iff.1 hopen
  obtain ⟨rfl, rfl⟩ := Prod.mk.inj heq
  have hdelete : ((deleteLocker BankEnv.plain "notes" : Io (Bank Bytes) Bool).eval (serve 0)
      ⟨opened, .fresh Bytes⟩).map (·.1) = some (.ok true) := by decide
  obtain ⟨⟨r, m'⟩, hdelete, rfl⟩ := Option.map_eq_some_iff.1 hdelete
  have run := Prog.eval_run (serve_sound 0) hdelete
  obtain ⟨id, chain, knows, hdev⟩ := run_deleteLocker run
  have erased := all opened bank 0 m' id (fun _ => False) (Prog.eval_run (serve_sound 0) hopen) run knows
  rw [hdev] at erased
  have left := (erased_iff (maintenanceInner BankEnv.plain id "notes" chain)).1 erased
  obtain rfl : id = 0 := knows.eq_of_fresh (by decide)
  have chained : opened.lookup .meta (chainKey 0) = some [0] := by decide
  rw [show (maintenanceInner BankEnv.plain 0 "notes" chain).id = 0 from rfl] at left
  rw [left.chain] at chained
  cases chained

end Bank
end Crossbank
