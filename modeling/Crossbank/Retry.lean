import Crossbank.Registry
import Crossbank.Locker.Reads
import Crossbank.Locker.Write

/-!
# Retrying an interrupted open

An open of a fresh name registers an id, then records its schema, then its chain, each in a commit
of its own. An open that fails in between leaves a prefix of these.

* `openAs` : open a locker of either kind; `openAs_eq` : the steps the two kinds share;
* `Fresh` : a store to which a name is new; `Left` : what an interrupted open of it leaves;
* `left_of_interrupted` : every open that fails leaves such a store;
* `retry_iff` : a retry succeeds, with an empty locker, exactly when the chain is that of the bank,
  or the name is not registered yet, or its chain is recorded.
-/

namespace Crossbank
open Async

namespace Bank
variable {V : Type} (env : BankEnv)

def openAs (kind : TxMode) (name tag : String) (value : Postcard V) (config : LockerConfig) :
    Io (Bank V) Nat :=
  match kind with
  | .lazy => lazyLockerWith env name tag value config
  | .eager => lockerWith env name tag value config

def loadRam (inner : Inner V) : TxMode → Io (Bank V) (Ram V)
  | .lazy => (fun res => Ram.opened .fresh res ∅) <$> (LazyLocker.openLocker inner).zoom (sharedPart V)
  | .eager => (fun loaded => Ram.opened .fresh loaded.2 loaded.1) <$> EagerLocker.openLocker inner

/-- The steps that both kinds of open share. -/
theorem openAs_eq (kind : TxMode) (name tag : String) (value : Postcard V) (config : LockerConfig) :
    openAs env kind name tag value config = (do
      ensureOpen
      let chain ← chainFor env config
      match ← Prog.read (openLocker name) with
      | some o => Prog.ofExcept (checkShared name o kind tag config)
      | none => do
        let id ← prepare env name tag chain
        let inner := innerOf env value name config chain id
        let ram ← loadRam inner kind
        claimOpen name kind tag config ⟨inner, ram, true⟩) := by
  cases kind with
  | lazy =>
    refine bind_congr fun _ => bind_congr fun chain => bind_congr fun found => ?_
    cases found with
    | some o => rfl
    | none =>
      refine bind_congr fun id => ?_
      dsimp only [loadRam]
      rw [bind_map_left]
  | eager =>
    refine bind_congr fun _ => bind_congr fun chain => bind_congr fun found => ?_
    cases found with
    | some o => rfl
    | none =>
      refine bind_congr fun id => ?_
      dsimp only [loadRam]
      rw [bind_map_left]

@[simp] theorem u32From_u32be (n : UInt32) (what : String) : u32From (u32be n) what = .ok n := by
  simp [u32From]

/-! ## Keys of the `meta` table -/

/-- The first two bytes of a `meta` key tell its family. -/
theorem family_lockerKey (name : String) : (lockerKey name).take 2 = [108, 111] :=
  List.take_append_of_le_length (by decide)

theorem family_schemaKey (id : LockerId) : (schemaKey id).take 2 = [115, 99] :=
  List.take_append_of_le_length (by decide)

theorem family_chainKey (id : LockerId) : (chainKey id).take 2 = [99, 104] :=
  List.take_append_of_le_length (by decide)

theorem family_counter : META_NEXT_LOCKER_ID.take 2 = [110, 101] := by decide

theorem family_entryKey (id : LockerId) (key : Bytes) : (entryKey id key).take 2 = [108, 114] := by
  simp only [entryKey, lockerPrefix, List.append_assoc]
  exact List.take_append_of_le_length (by decide)

/-- A commit of another family leaves a `meta` key as it was. -/
theorem lookup_commit_of_family {db : Tables} {ops : List Op} {key : Bytes}
    (h : ∀ op ∈ ops, ∃ k v, op = .put .meta k v ∧ k.take 2 ≠ key.take 2) :
    (db.commit ops).lookup .meta key = db.lookup .meta key := by
  refine Tables.lookup_commit_of_not_written fun op hop => ?_
  obtain ⟨k, v, rfl, hk⟩ := h op hop
  exact if_neg fun heq => hk (congrArg _ heq.2)

/-- A commit to `meta` leaves the records as they were. -/
theorem lookup_commit_of_meta {db : Tables} {ops : List Op} {table : Table} {key : Bytes}
    (h : ∀ op ∈ ops, op.table = .meta) (ht : table ≠ .meta) :
    (db.commit ops).lookup table key = db.lookup table key := by
  rw [Tables.lookup_commit, written_of_table fun op hop => by rw [h op hop]; exact ht.symm]
  rfl

/-! ## What an interrupted open leaves -/

/-- A store to which a name is new, and the id it will get is unused. -/
structure Fresh (db : Tables) (name : String) (id : LockerId) : Prop where
  unregistered : db.lookup .meta (lockerKey name) = none
  counter : nextFree (db.lookup .meta META_NEXT_LOCKER_ID) = .ok id
  noSchema : db.lookup .meta (schemaKey id) = none
  noChain : db.lookup .meta (chainKey id) = none
  noRecord : ∀ key, db.lookup .records (encodeBytes id key) = none
  noEntry : ∀ key, db.lookup .meta (entryKey id key) = none

/-- A bank that is open, and has not opened the name. -/
structure Idle (bank : Bank V) (name : String) : Prop where
  open_ : bank.closed = false
  free : openLocker name bank = none
  uncached : bank.registry[asBytes name]? = none

/-- What an interrupted open of a fresh name leaves: the name registered under its id or not, its
schema and its chain recorded or not, and nothing else. -/
structure Left (name tag : String) (chain : FilterChain) (id : LockerId)
    (m : Machine Tables (Bank V)) : Prop where
  open_ : m.mem.closed = false
  free : openLocker name m.mem = none
  registered : (m.dev.lookup .meta (lockerKey name) = none ∧ cached name m.mem = none ∧
      nextFree (m.dev.lookup .meta META_NEXT_LOCKER_ID) = .ok id) ∨
    (m.dev.lookup .meta (lockerKey name) = some (u32be id) ∧
      (cached name m.mem = none ∨ cached name m.mem = some id))
  schema : m.dev.lookup .meta (schemaKey id) = none ∨
    m.dev.lookup .meta (schemaKey id) = some (asBytes tag)
  chained : m.dev.lookup .meta (chainKey id) = none ∨
    m.dev.lookup .meta (chainKey id) = some [chain.id]
  noRecord : ∀ key, m.dev.lookup .records (encodeBytes id key) = none
  noEntry : ∀ key, m.dev.lookup .meta (entryKey id key) = none

section
variable {name tag : String} {chain : FilterChain} {id : LockerId} {db : Tables} {bank : Bank V}
  {m m' : Machine Tables (Bank V)}

theorem Fresh.left (fresh : Fresh db name id) (idle : Idle bank name) :
    Left name tag chain id ⟨db, bank⟩ :=
  ⟨idle.open_, idle.free, .inl ⟨fresh.unregistered, idle.uncached, fresh.counter⟩,
    .inl fresh.noSchema, .inl fresh.noChain, fresh.noRecord, fresh.noEntry⟩

theorem registered_registration (name : String) (id bumped : LockerId) (db : Tables) :
    (db.commit (registration name id bumped)).lookup .meta (lockerKey name) = some (u32be id) := by
  rw [Tables.lookup_commit, lockerKey, written_registration, if_pos rfl]
  rfl

theorem Left.register (left : Left name tag chain id m) (bumped : LockerId) :
    Left name tag chain id ⟨m.dev.commit (registration name id bumped), cache name id m.mem⟩ := by
  have family (key : Bytes) (h1 : [108, 111] ≠ key.take 2) (h2 : [110, 101] ≠ key.take 2) :
      (m.dev.commit (registration name id bumped)).lookup .meta key = m.dev.lookup .meta key := by
    refine lookup_commit_of_family fun op hop => ?_
    simp only [registration, List.mem_cons, List.not_mem_nil, or_false] at hop
    rcases hop with rfl | rfl
    · exact ⟨_, _, rfl, family_lockerKey name ▸ h1⟩
    · exact ⟨_, _, rfl, family_counter ▸ h2⟩
  have hreg := registered_registration name id bumped m.dev
  refine ⟨left.open_, left.free, .inr ⟨hreg, .inr (by simp [cached, cache])⟩, ?_, ?_, fun key => ?_,
    fun key => ?_⟩
  · rw [family _ (by rw [family_schemaKey]; decide) (by rw [family_schemaKey]; decide)]
    exact left.schema
  · rw [family _ (by rw [family_chainKey]; decide) (by rw [family_chainKey]; decide)]
    exact left.chained
  · rw [lookup_commit_of_meta (by simp [registration, Op.table]) (by decide)]
    exact left.noRecord key
  · rw [family _ (by rw [family_entryKey]; decide) (by rw [family_entryKey]; decide)]
    exact left.noEntry key

theorem Left.cache (left : Left name tag chain id m)
    (registered : m.dev.lookup .meta (lockerKey name) = some (u32be id)) :
    Left name tag chain id ⟨m.dev, cache name id m.mem⟩ :=
  ⟨left.open_, left.free, .inr ⟨registered, .inr (by simp [cached, Bank.cache])⟩, left.schema,
    left.chained, left.noRecord, left.noEntry⟩

theorem Left.putSchema (left : Left name tag chain id m) :
    Left name tag chain id ⟨m.dev.commit [.put .meta (schemaKey id) (asBytes tag)], m.mem⟩ := by
  have family (key : Bytes) (h : [115, 99] ≠ key.take 2) :
      (m.dev.commit [.put .meta (schemaKey id) (asBytes tag)]).lookup .meta key =
        m.dev.lookup .meta key :=
    lookup_commit_of_family fun op hop => by
      obtain rfl := List.mem_singleton.1 hop
      exact ⟨_, _, rfl, family_schemaKey id ▸ h⟩
  refine ⟨left.open_, left.free, ?_, .inr ?_, ?_, fun key => ?_, fun key => ?_⟩
  · rw [family _ (by rw [family_lockerKey]; decide), family _ (by rw [family_counter]; decide)]
    exact left.registered
  · simp [Tables.lookup_commit, written_cons, Op.written]
  · rw [family _ (by rw [family_chainKey]; decide)]
    exact left.chained
  · rw [lookup_commit_of_meta (by simp [Op.table]) (by decide)]
    exact left.noRecord key
  · rw [family _ (by rw [family_entryKey]; decide)]
    exact left.noEntry key

theorem Left.putChain (left : Left name tag chain id m) :
    Left name tag chain id ⟨m.dev.commit [.put .meta (chainKey id) [chain.id]], m.mem⟩ := by
  have family (key : Bytes) (h : [99, 104] ≠ key.take 2) :
      (m.dev.commit [.put .meta (chainKey id) [chain.id]]).lookup .meta key =
        m.dev.lookup .meta key :=
    lookup_commit_of_family fun op hop => by
      obtain rfl := List.mem_singleton.1 hop
      exact ⟨_, _, rfl, family_chainKey id ▸ h⟩
  refine ⟨left.open_, left.free, ?_, ?_, .inr ?_, fun key => ?_, fun key => ?_⟩
  · rw [family _ (by rw [family_lockerKey]; decide), family _ (by rw [family_counter]; decide)]
    exact left.registered
  · rw [family _ (by rw [family_schemaKey]; decide)]
    exact left.schema
  · simp [Tables.lookup_commit, written_cons, Op.written]
  · rw [lookup_commit_of_meta (by simp [Op.table]) (by decide)]
    exact left.noRecord key
  · rw [family _ (by rw [family_entryKey]; decide)]
    exact left.noEntry key

/-- The bank can be opened anew in between. -/
theorem Left.reopened (left : Left name tag chain id m) {bank : Bank V} (idle : Idle bank name) :
    Left name tag chain id ⟨m.dev, bank⟩ := by
  refine ⟨idle.open_, idle.free, ?_, left.schema, left.chained, left.noRecord, left.noEntry⟩
  rcases left.registered with ⟨hno, -, hcounter⟩ | ⟨hreg, -⟩
  · exact .inl ⟨hno, idle.uncached, hcounter⟩
  · exact .inr ⟨hreg, .inl idle.uncached⟩

theorem Left.of_mem (left : Left name tag chain id m) {bank : Bank V}
    (h : bank.closed = m.mem.closed ∧ bank.registry = m.mem.registry ∧
      bank.openLockers = m.mem.openLockers ∧ bank.slots = m.mem.slots) :
    Left name tag chain id ⟨m.dev, bank⟩ := by
  obtain ⟨h1, h2, h3, h4⟩ := h
  refine ⟨h1 ▸ left.open_, ?_, ?_, left.schema, left.chained, left.noRecord, left.noEntry⟩
  · simpa only [openLocker, h3, h4] using left.free
  · simpa only [cached, h2] using left.registered

theorem reads_lockerExists (name : String) : (lockerExists name : Io (Bank V) Bool).Only Req.isRead
    fun b b' => b' = b := by
  unfold lockerExists
  refine Prog.Only.bind (by simp) fun found => ?_
  cases found with
  | some id => exact Prog.only_pure
  | none => exact Prog.Only.bind (Backend.only_get.2 trivial) fun _ => Prog.only_pure

theorem run_of_reads {ρ α : Type} [WriteLock ρ] {p : Io ρ α}
    (hp : p.Only Req.isRead fun s s' => s' = s) {m m' : Machine Tables ρ} {r : Except Error α}
    (h : Run Served p m r m') : m' = m := by
  refine Prog.Only.run (I := fun m' => m' = m) hp h rfl (fun m₁ s hm hs => ?_) ?_
  · rw [hs]
    exact hm
  · intro m₁ q x m₂ hm hq hs
    rw [served_read hq hs, hm]

theorem left_lockerId (left : Left name tag chain id m) {r : Except Error LockerId}
    (h : Run Served (lockerId name) m r m') :
    Left name tag chain id m' ∧ ∀ found, r = .ok found → found = id := by
  rw [lockerId, run_read_bind] at h
  rcases left.registered with ⟨hno, hcached, hcounter⟩ | ⟨hreg, hcached | hcached⟩
  · rw [hcached] at h
    dsimp only at h
    rcases run_bind.1 h with ⟨found, m₁, hget, h₁⟩ | ⟨e, hget, rfl⟩
    · obtain ⟨rfl, hfound⟩ := run_getMany.1 hget
      obtain rfl := hfound found rfl
      simp only [List.map_cons, List.map_nil, List.dropLast_cons_cons, List.dropLast_singleton,
        List.getLast?_singleton, Option.join_some, hno, List.getLast?_cons_cons, hcounter] at h₁
      rcases run_bind.1 h₁ with ⟨next, m₂, hnext, h₂⟩ | ⟨e, hnext, rfl⟩
      · obtain ⟨hn, rfl⟩ := run_ofExcept.1 hnext
        obtain rfl := Except.ok.inj hn
        split at h₂
        · obtain ⟨rfl, rfl⟩ := run_fail.1 h₂
          exact ⟨left, by simp⟩
        · rcases run_bind.1 h₂ with ⟨u, m₃, hcommit, h₃⟩ | ⟨e, hcommit, rfl⟩
          · rcases run_commitWith.1 hcommit with ⟨-, rfl⟩ | ⟨e, he, -⟩
            · rw [run_update_bind] at h₃
              obtain ⟨rfl, rfl⟩ := run_pure.1 h₃
              exact ⟨left.register _, fun found hf => (Except.ok.inj hf).symm⟩
            · cases he
          · rcases run_commitWith.1 hcommit with ⟨he, -⟩ | ⟨e', -, rfl⟩
            · cases he
            · exact ⟨left, by simp⟩
      · obtain ⟨hn, rfl⟩ := run_ofExcept.1 hnext
        cases hn
    · obtain ⟨rfl, -⟩ := run_getMany.1 hget
      exact ⟨left, by simp⟩
  · rw [hcached] at h
    dsimp only at h
    rcases run_bind.1 h with ⟨found, m₁, hget, h₁⟩ | ⟨e, hget, rfl⟩
    · obtain ⟨rfl, hfound⟩ := run_getMany.1 hget
      obtain rfl := hfound found rfl
      simp only [List.map_cons, List.map_nil, List.dropLast_cons_cons, List.dropLast_singleton,
        List.getLast?_singleton, Option.join_some, hreg, u32From_u32be] at h₁
      have hdone : r = .ok id ∧ m' = ⟨m₁.dev, cache name id m₁.mem⟩ := h₁
      obtain ⟨rfl, rfl⟩ := hdone
      exact ⟨left.cache hreg, fun found hf => (Except.ok.inj hf).symm⟩
    · obtain ⟨rfl, -⟩ := run_getMany.1 hget
      exact ⟨left, by simp⟩
  · rw [hcached] at h
    obtain ⟨rfl, rfl⟩ := run_pure.1 h
    exact ⟨left, fun found hf => (Except.ok.inj hf).symm⟩

theorem left_bindSchema (left : Left name tag chain id m) {r : Except Error Unit}
    (h : Run Served (bindSchema id tag) m r m') : Left name tag chain id m' := by
  rcases run_bind.1 h with ⟨raw, m₁, hget, h₁⟩ | ⟨e, hget, rfl⟩
  · obtain ⟨rfl, -⟩ := run_get.1 hget
    cases raw with
    | some raw =>
      dsimp only at h₁
      split at h₁
      · obtain ⟨-, rfl⟩ := run_fail.1 h₁
        exact left
      · split at h₁
        · obtain ⟨-, rfl⟩ := run_fail.1 h₁
          exact left
        · obtain ⟨-, rfl⟩ := run_pure.1 h₁
          exact left
    | none =>
      rcases run_commitWith.1 h₁ with ⟨-, rfl⟩ | ⟨e, -, rfl⟩
      · exact left.putSchema
      · exact left
  · obtain ⟨rfl, -⟩ := run_get.1 hget
    exact left

theorem left_bindChain (left : Left name tag chain id m) {preExisting : Bool}
    {r : Except Error Unit} (h : Run Served (bindChain env id chain preExisting) m r m') :
    Left name tag chain id m' := by
  rcases run_bind.1 h with ⟨raw, m₁, hget, h₁⟩ | ⟨e, hget, rfl⟩
  · obtain ⟨rfl, -⟩ := run_get.1 hget
    cases raw with
    | some raw =>
      dsimp only at h₁
      rcases run_bind.1 h₁ with ⟨stored, m₂, hstored, h₂⟩ | ⟨e, hstored, rfl⟩
      · obtain ⟨-, rfl⟩ := run_ofExcept.1 hstored
        split at h₂
        · obtain ⟨-, rfl⟩ := run_fail.1 h₂
          exact left
        · obtain ⟨-, rfl⟩ := run_pure.1 h₂
          exact left
      · obtain ⟨-, rfl⟩ := run_ofExcept.1 hstored
        exact left
    | none =>
      dsimp only at h₁
      split at h₁
      · obtain ⟨-, rfl⟩ := run_fail.1 h₁
        exact left
      · rcases run_commitWith.1 h₁ with ⟨-, rfl⟩ | ⟨e, -, rfl⟩
        · exact left.putChain
        · exact left
  · obtain ⟨rfl, -⟩ := run_get.1 hget
    exact left

theorem left_prepare (left : Left name tag chain id m) {r : Except Error LockerId}
    (h : Run Served (prepare env name tag chain) m r m') :
    Left name tag chain id m' ∧ ∀ found, r = .ok found → found = id := by
  rcases run_bind.1 h with ⟨preExisting, m₁, hexists, h₁⟩ | ⟨e, hexists, rfl⟩
  · obtain rfl := run_of_reads (reads_lockerExists name) hexists
    rcases run_bind.1 h₁ with ⟨found, m₂, hid, h₂⟩ | ⟨e, hid, rfl⟩
    · obtain ⟨left₂, hfound⟩ := left_lockerId left hid
      obtain rfl := hfound found rfl
      rcases run_bind.1 h₂ with ⟨u, m₃, hschema, h₃⟩ | ⟨e, hschema, rfl⟩
      · have left₃ := left_bindSchema left₂ hschema
        rcases run_bind.1 h₃ with ⟨u, m₄, hchain, h₄⟩ | ⟨e, hchain, rfl⟩
        · obtain ⟨rfl, rfl⟩ := run_pure.1 h₄
          exact ⟨left_bindChain env left₃ hchain, fun found hf => (Except.ok.inj hf).symm⟩
        · exact ⟨left_bindChain env left₃ hchain, by simp⟩
      · exact ⟨left_bindSchema left₂ hschema, by simp⟩
    · exact ⟨(left_lockerId left hid).1, by simp⟩
  · obtain rfl := run_of_reads (reads_lockerExists name) hexists
    exact ⟨left, by simp⟩

/-! ## Loading -/

theorem draws_openLocker (inner : Inner V) : Draws (LazyLocker.openLocker inner) := by
  unfold LazyLocker.openLocker
  refine (reads_walk inner _ _ _ _ _ _).draws.bind fun index => ?_
  refine Draws.bind ?_ fun lru => draws_pure
  unfold openLru
  split
  · exact draws_pure
  · exact (draws_loadLru _ _ _).bind fun state => draws_pure

/-- Loading reads, and of memory changes only the cursors. -/
theorem only_loadRam (inner : Inner V) (kind : TxMode) : (loadRam inner kind).Only Req.isRead
    fun b b' => ∃ s, b' = { b with shared := s } := by
  cases kind with
  | lazy =>
    refine Prog.Only.map ?_
    refine Prog.Only.mono (Prog.Only.zoom (P := Req.isRead) (R := fun _ _ => True)
      (draws_openLocker inner)) (fun _ h => h) fun b b' ⟨s, _, hs⟩ => ⟨s, hs⟩
  | eager =>
    refine Prog.Only.map ?_
    refine Prog.Only.mono (P := Req.isRead) (R := fun _ _ => False) ?_ (fun _ h => h)
      fun _ _ h => h.elim
    unfold EagerLocker.openLocker
    split
    · exact reads_fail
    · refine (reads_walk inner _ _ _ _ _ _).bind fun acc => ?_
      split
      · exact reads_fail
      · exact reads_pure

theorem loadRam_run {inner : Inner V} {kind : TxMode} {r : Except Error (Ram V)}
    (h : Run Served (loadRam inner kind) m r m') :
    ∃ s, m' = ⟨m.dev, { m.mem with shared := s }⟩ := by
  refine Prog.Only.run (I := fun m' => ∃ s, m' = ⟨m.dev, { m.mem with shared := s }⟩)
    (only_loadRam inner kind) h ⟨m.mem.shared, rfl⟩ ?_ ?_
  · rintro _ _ ⟨s, rfl⟩ ⟨s', rfl⟩
    exact ⟨s', rfl⟩
  · rintro _ q x m₂ ⟨s, rfl⟩ hq hs
    exact ⟨s, served_read hq hs⟩

theorem inOrder_eq_nil {tree : Tree} {range : KeyRange} {reverse : Bool}
    (h : ∀ key, range.contains key = true → tree[key]? = none) :
    Tree.inOrder reverse tree range = [] := by
  have hin : Tree.inRange tree range = [] := by
    rw [List.eq_nil_iff_forall_not_mem]
    intro e he
    obtain ⟨hv, hc⟩ := Tree.mem_inRange.1 he
    rw [h _ hc] at hv
    cases hv
  unfold Tree.inOrder
  rw [hin]
  simp

theorem entries_eq_nil (inner : Inner V) {db : Tables}
    (h : ∀ key, db.lookup .records (inner.encodeKey key) = none) :
    inner.entries db .unbounded .unbounded = [] := by
  rw [List.eq_nil_iff_forall_not_mem]
  rintro ⟨key, raw⟩ he
  have hraw := ((Inner.mem_entries inner).1 he).1
  rw [h key] at hraw
  cases hraw

/-- The accounting of a locker without rows. -/
theorem loadLru_empty {backend : Backend} {id : LockerId} {maxBytes : Nat}
    {m : Machine Tables Shared} (fuel : 0 < backend.walkFuel)
    (h : ∀ key, m.dev.lookup .meta (entryKey id key) = none) :
    Run Answered (loadLru backend id maxBytes) m (.ok (.new maxBytes)) m := by
  have hnil : Tree.inOrder false m.dev.metadata (.ofPrefix (lockerPrefix id)) = [] := by
    refine inOrder_eq_nil fun key hkey => ?_
    obtain ⟨k, rfl⟩ := (KeyRange.contains_ofPrefix _ _).1 hkey
    exact h k
  have hpage : scanTree m.dev.metadata
      ⟨.meta, .ofPrefix (lockerPrefix id), false, DEFAULT_SCAN_PAGE, true⟩ = ⟨[], none⟩ := by
    unfold scanTree
    dsimp only
    rw [hnil]
    rfl
  obtain ⟨n, hn⟩ := Nat.exists_eq_add_of_lt fuel
  have hpages : Run Answered (loadPages (lockerPrefix id) backend.walkFuel
      (.ofPrefix (lockerPrefix id)) (.new maxBytes, none)) m (.ok (.new maxBytes, none)) m := by
    rw [hn, Nat.zero_add, loadPages]
    refine run_bind.2 (.inl ⟨_, m, answered_scan.2 ⟨rfl, rfl⟩, ?_⟩)
    rw [show m.dev.get Table.meta = m.dev.metadata from rfl, hpage]
    exact run_pure.2 ⟨rfl, rfl⟩
  refine run_bind.2 (.inl ⟨_, m, hpages, ?_⟩)
  exact run_pure.2 ⟨rfl, rfl⟩

structure EmptyRam (kind : TxMode) (ram : Ram V) : Prop where
  index : kind = .lazy → ram.res.index = some ∅
  values : ram.values = ∅
  staged : ram.res.staged = []
  closed : ram.closed = false

/-- Loading a locker without records gives an empty one. -/
theorem loadRam_empty {inner : Inner V} {kind : TxMode} (fuel : 0 < inner.backend.walkFuel)
    (precious : kind = .eager → inner.config.policy = .precious)
    (noRecord : ∀ key, m.dev.lookup .records (inner.encodeKey key) = none)
    (noEntry : ∀ key, m.dev.lookup .meta (entryKey inner.id key) = none) :
    ∃ ram, Run Answered (loadRam inner kind) m (.ok ram) m ∧ EmptyRam kind ram := by
  have hentries := entries_eq_nil inner noRecord
  cases kind with
  | lazy =>
    have hlru : ∃ lru, Run Answered (openLru inner ∅) ⟨m.dev, m.mem.shared⟩ (.ok lru)
        ⟨m.dev, m.mem.shared⟩ := by
      unfold openLru
      split
      · exact ⟨none, run_pure.2 ⟨rfl, rfl⟩⟩
      · exact ⟨_, run_bind.2 (.inl ⟨_, _, loadLru_empty fuel noEntry, run_pure.2 ⟨rfl, rfl⟩⟩)⟩
    obtain ⟨lru, hlru⟩ := hlru
    have hwalk : Run Answered (inner.walk .unbounded .unbounded false false
        (fun (index : KeySet) key _ => .ok (index.insert key)) ∅) ⟨m.dev, m.mem.shared⟩ _ _ :=
      Inner.walk_eval inner (by rw [hentries]; exact fuel)
    have hnone : inner.entriesInOrder false m.dev .unbounded .unbounded = [] := hentries
    rw [hnone] at hwalk
    have hopen : Run Answered (LazyLocker.openLocker inner) ⟨m.dev, m.mem.shared⟩
        (.ok (Resident.new .lazy (some ∅) lru)) ⟨m.dev, m.mem.shared⟩ :=
      run_bind.2 (.inl ⟨∅, _, hwalk, run_bind.2 (.inl ⟨lru, _, hlru, run_pure.2 ⟨rfl, rfl⟩⟩)⟩)
    refine ⟨.opened .fresh (Resident.new .lazy (some ∅) lru) ∅, ?_, fun _ => rfl, rfl, rfl, rfl⟩
    refine run_map.2 ⟨.ok _, ?_, rfl⟩
    refine (run_zoom (fun q m x m' hq => answered_zoom (sharedPart V) hq)
      (R := fun _ _ => True) (draws_openLocker inner)).2 ⟨_, hopen, by simp [sharedPart]⟩
  | eager =>
    have hwalk : Run Answered (inner.walk .unbounded .unbounded false true
        (EagerLocker.loadVisit inner) ⟨∅, [], 0, false⟩) m _ _ :=
      Inner.walk_eval inner (by rw [hentries]; exact fuel)
    have hnone : inner.entriesInOrder false m.dev .unbounded .unbounded = [] := hentries
    rw [hnone] at hwalk
    refine ⟨.opened .fresh (Resident.new .eager none none) ∅, ?_, fun h => by simp at h, rfl, rfl, rfl⟩
    refine run_map.2 ⟨.ok (∅, Resident.new .eager none none), ?_, rfl⟩
    unfold EagerLocker.openLocker
    rw [precious rfl]
    exact run_bind.2 (.inl ⟨_, m, hwalk, run_pure.2 ⟨rfl, rfl⟩⟩)

/-! ## The open that is interrupted -/

variable {kind : TxMode} {value : Postcard V} {config : LockerConfig}

/-- The chain of a locker opened with `config`. -/
def chainOf (env : BankEnv) (config : LockerConfig) : FilterChain := config.chain.getD env.chain

/-- A bank that knows the chain of `config`. -/
def adopt (config : LockerConfig) (bank : Bank V) : Bank V :=
  match config.chain with
  | some chain => { bank with chains := Function.update bank.chains chain.id (some chain) }
  | none => bank

@[simp] theorem openLocker_adopt (name : String) (config : LockerConfig) (bank : Bank V) :
    openLocker name (adopt config bank) = openLocker name bank := by
  unfold adopt
  split <;> rfl

@[simp] theorem cached_adopt (name : String) (config : LockerConfig) (bank : Bank V) :
    cached name (adopt config bank) = cached name bank := by
  unfold adopt
  split <;> rfl

theorem Left.adopt (left : Left name tag chain id m) :
    Left name tag chain id ⟨m.dev, adopt config m.mem⟩ := by
  unfold Bank.adopt
  split
  · exact left.of_mem ⟨rfl, rfl, rfl, rfl⟩
  · exact left

theorem chainFor_run {sem : (q : Req) → Machine Tables (Bank V) → Resp q → Machine Tables (Bank V) → Prop}
    {r : Except Error FilterChain} : Run sem (chainFor env config) m r m' ↔
      r = .ok (chainOf env config) ∧ m' = ⟨m.dev, adopt config m.mem⟩ := by
  unfold chainFor chainOf adopt
  cases config.chain with
  | some chain =>
    dsimp only
    rw [run_update_bind, run_pure]
    rfl
  | none => exact run_pure

/-- What an interrupted open leaves. -/
theorem left_of_interrupted (left : Left name tag (chainOf env config) id m) {e : Error}
    (h : Run Served (openAs env kind name tag value config) m (.error e) m') :
    Left name tag (chainOf env config) id m' := by
  rw [openAs_eq] at h
  rcases run_bind.1 h with ⟨u, m₁, hopen, h₁⟩ | ⟨e', hopen, -⟩
  · obtain ⟨-, rfl⟩ := run_sync.1 hopen
    rcases run_bind.1 h₁ with ⟨chain, m₂, hchain, h₂⟩ | ⟨e', hchain, -⟩
    · obtain ⟨hc, rfl⟩ := (chainFor_run env).1 hchain
      obtain rfl := Except.ok.inj hc
      have left₂ : Left name tag (chainOf env config) id ⟨m.dev, adopt config m.mem⟩ := left.adopt
      rw [run_read_bind, left₂.free] at h₂
      dsimp only at h₂
      rcases run_bind.1 h₂ with ⟨found, m₃, hprepare, h₃⟩ | ⟨e', hprepare, -⟩
      · obtain ⟨left₃, hfound⟩ := left_prepare env left₂ hprepare
        obtain rfl := hfound found rfl
        rcases run_bind.1 h₃ with ⟨ram, m₄, hload, h₄⟩ | ⟨e', hload, -⟩
        · obtain ⟨s, rfl⟩ := loadRam_run hload
          have left₄ : Left name tag (chainOf env config) found
              ⟨m₃.dev, { m₃.mem with shared := s }⟩ := left₃.of_mem ⟨rfl, rfl, rfl, rfl⟩
          obtain ⟨hclaim, -⟩ := run_sync.1 h₄
          rw [left₄.free] at hclaim
          cases hclaim
        · obtain ⟨s, rfl⟩ := loadRam_run hload
          exact left₃.of_mem ⟨rfl, rfl, rfl, rfl⟩
      · exact (left_prepare env left₂ hprepare).1
    · cases ((chainFor_run env).1 hchain).1
  · obtain ⟨-, rfl⟩ := run_sync.1 hopen
    exact left

/-! ## The retry -/

/-- What a retry needs of what the interrupted open left. -/
def Retryable (env : BankEnv) (name : String) (config : LockerConfig) (id : LockerId)
    (db : Tables) : Prop :=
  (chainOf env config).id = env.chain.id ∨ db.lookup .meta (lockerKey name) = none ∨
    (db.lookup .meta (chainKey id)).isSome

theorem answered_lockerExists (left : Left name tag chain id m) :
    Run Answered (lockerExists name) m (.ok (m.dev.lookup .meta (lockerKey name)).isSome) m := by
  rw [lockerExists, run_read_bind]
  rcases left.registered with ⟨hno, hcached, -⟩ | ⟨hreg, hcached | hcached⟩
  · rw [hcached, hno]
    exact run_bind.2 (.inl ⟨none, m, answered_get.2 ⟨by rw [hno], rfl⟩, run_pure.2 ⟨rfl, rfl⟩⟩)
  · rw [hcached, hreg]
    exact run_bind.2 (.inl ⟨some (u32be id), m, answered_get.2 ⟨by rw [hreg], rfl⟩,
      run_pure.2 ⟨rfl, rfl⟩⟩)
  · rw [hcached, hreg]
    exact run_pure.2 ⟨rfl, rfl⟩

theorem answered_lockerId_of_unknown (uncached : cached name m.mem = none)
    (unregistered : m.dev.lookup .meta (lockerKey name) = none)
    (counter : nextFree (m.dev.lookup .meta META_NEXT_LOCKER_ID) = .ok id)
    (room : id.toNat ≠ 2 ^ 32 - 1) : Run Answered (lockerId name) m (.ok id)
      ⟨m.dev.commit (registration name id (id + 1)), cache name id m.mem⟩ := by
  rw [lockerId, run_read_bind, uncached]
  refine run_bind.2 (.inl ⟨_, m, answered_getMany.2 ⟨rfl, rfl⟩, ?_⟩)
  simp only [List.map_cons, List.map_nil, List.dropLast_cons_cons, List.dropLast_singleton,
    List.getLast?_singleton, Option.join_some, unregistered, List.getLast?_cons_cons, counter]
  refine run_bind.2 (.inl ⟨id, m, run_ofExcept.2 ⟨rfl, rfl⟩, ?_⟩)
  rw [if_neg room]
  exact run_bind.2 (.inl ⟨(), _, answered_commitWith.2 ⟨rfl, rfl⟩,
    run_update_bind.2 (run_pure.2 ⟨rfl, rfl⟩)⟩)

theorem answered_lockerId_of_registered {raw : Bytes} (uncached : cached name m.mem = none)
    (registered : m.dev.lookup .meta (lockerKey name) = some raw)
    (parsed : u32From raw "locker id" = .ok id) :
    Run Answered (lockerId name) m (.ok id) ⟨m.dev, cache name id m.mem⟩ := by
  rw [lockerId, run_read_bind, uncached]
  refine run_bind.2 (.inl ⟨_, m, answered_getMany.2 ⟨rfl, rfl⟩, ?_⟩)
  simp only [List.map_cons, List.map_nil, List.dropLast_cons_cons, List.dropLast_singleton,
    List.getLast?_singleton, Option.join_some, registered, parsed]
  exact ⟨rfl, rfl⟩

theorem answered_lockerId (left : Left name tag chain id m) (room : id.toNat ≠ 2 ^ 32 - 1) :
    ∃ m', Run Answered (lockerId name) m (.ok id) m' ∧ Left name tag chain id m' ∧
      m'.dev.lookup .meta (lockerKey name) = some (u32be id) ∧
      m'.dev.lookup .meta (chainKey id) = m.dev.lookup .meta (chainKey id) := by
  rcases left.registered with ⟨hno, hcached, hcounter⟩ | ⟨hreg, hcached | hcached⟩
  · refine ⟨_, answered_lockerId_of_unknown hcached hno hcounter room, left.register (id + 1),
      registered_registration name id (id + 1) m.dev, ?_⟩
    refine lookup_commit_of_family fun op hop => ?_
    simp only [registration, List.mem_cons, List.not_mem_nil, or_false] at hop
    rcases hop with rfl | rfl
    · exact ⟨_, _, rfl, by rw [family_lockerKey, family_chainKey]; decide⟩
    · exact ⟨_, _, rfl, by rw [family_counter, family_chainKey]; decide⟩
  · exact ⟨_, answered_lockerId_of_registered hcached hreg (u32From_u32be _ _), left.cache hreg, hreg,
      rfl⟩
  · rw [lockerId]
    simp only [run_read_bind]
    rw [hcached]
    exact ⟨m, run_pure.2 ⟨rfl, rfl⟩, left, hreg, rfl⟩

theorem answered_bindSchema (left : Left name tag chain id m) :
    ∃ m', Run Answered (bindSchema id tag) m (.ok ()) m' ∧ Left name tag chain id m' ∧
      m'.dev.lookup .meta (chainKey id) = m.dev.lookup .meta (chainKey id) := by
  rcases left.schema with hs | hs
  · refine ⟨_, run_bind.2 (.inl ⟨none, m, answered_get.2 ⟨by rw [hs], rfl⟩,
      answered_commitWith.2 ⟨rfl, rfl⟩⟩), left.putSchema, ?_⟩
    refine lookup_commit_of_family fun op hop => ?_
    obtain rfl := List.mem_singleton.1 hop
    exact ⟨_, _, rfl, by rw [family_schemaKey, family_chainKey]; decide⟩
  · refine ⟨m, run_bind.2 (.inl ⟨some (asBytes tag), m, answered_get.2 ⟨by rw [hs], rfl⟩, ?_⟩),
      left, rfl⟩
    simp only [fromUtf8_asBytes, ne_eq, not_true_eq_false, if_false]
    exact run_pure.2 ⟨rfl, rfl⟩

/-- Binding the chain of a name that is registered already needs its record, or the bank's
chain. -/
theorem answered_bindChain (left : Left name tag chain id m) (preExisting : Bool) :
    (∃ m', Run Answered (bindChain env id chain preExisting) m (.ok ()) m' ∧
      Left name tag chain id m') ↔
      chain.id = env.chain.id ∨ preExisting = false ∨ (m.dev.lookup .meta (chainKey id)).isSome := by
  rcases left.chained with hc | hc
  · have refused (hp : preExisting = true) (hne : chain.id ≠ env.chain.id) (m' : Machine Tables (Bank V)) :
        ¬ Run Answered (bindChain env id chain preExisting) m (.ok ()) m' := by
      intro h
      obtain ⟨raw, m₁, hget, h₁⟩ := run_bind_ok.1 h
      obtain ⟨hraw, rfl⟩ := answered_get.1 hget
      obtain rfl := Except.ok.inj hraw
      rw [hc] at h₁
      dsimp only at h₁
      rw [if_pos ⟨hp, hne⟩] at h₁
      cases (run_fail.1 h₁).1
    rw [hc]
    constructor
    · rintro ⟨m', h, -⟩
      by_contra hcon
      simp only [not_or, Bool.not_eq_false] at hcon
      exact refused hcon.2.1 hcon.1 m' h
    · intro ok
      refine ⟨_, run_bind.2 (.inl ⟨none, m, answered_get.2 ⟨by rw [hc], rfl⟩, ?_⟩), left.putChain⟩
      dsimp only
      have okay : ¬(preExisting = true ∧ chain.id ≠ env.chain.id) := by
        rintro ⟨hp, hne⟩
        rcases ok with h | h | h
        · exact hne h
        · rw [hp] at h
          cases h
        · cases h
      rw [if_neg okay]
      exact answered_commitWith.2 ⟨rfl, rfl⟩
  · rw [hc]
    simp only [Option.isSome_some, or_true, iff_true]
    refine ⟨m, run_bind.2 (.inl ⟨some [chain.id], m, answered_get.2 ⟨by rw [hc], rfl⟩, ?_⟩), left⟩
    exact run_bind.2 (.inl ⟨chain.id, m, run_ofExcept.2 ⟨rfl, rfl⟩,
      by rw [if_neg (by simp)]; exact run_pure.2 ⟨rfl, rfl⟩⟩)

/-- The locker in a slot is open and holds nothing, and nothing is stored for it. -/
def OpenedEmpty (kind : TxMode) (id : LockerId) (slot : Nat) (m : Machine Tables (Bank V)) : Prop :=
  ∃ s, m.mem.slots[slot]? = some s ∧ s.inner.id = id ∧ s.ram.closed = false ∧
    EmptyRam kind s.ram ∧ ∀ key, m.dev.lookup .records (encodeBytes id key) = none

end

section
variable {env : BankEnv} {name tag : String} {id : LockerId} {m m' : Machine Tables (Bank V)}
  {kind : TxMode} {value : Postcard V} {config : LockerConfig}

theorem answered_claimOpen (slot : Slot V) (kind : TxMode) (tag : String) (config : LockerConfig)
    (free : openLocker name m.mem = none) :
    ∃ m', Run Answered (claimOpen name kind tag config slot) m (.ok m.mem.slots.length) m' ∧
      m'.dev = m.dev ∧ m'.mem.slots = m.mem.slots ++ [slot] := by
  refine ⟨⟨m.dev, { m.mem with
    slots := m.mem.slots ++ [slot]
    openLockers := m.mem.openLockers.insert (asBytes name)
      ⟨m.mem.slots.length, kind, tag, config⟩ }⟩, ?_, rfl, rfl⟩
  rw [claimOpen, run_sync, free]
  exact ⟨rfl, rfl⟩

/-- A retry succeeds exactly when it can bind its chain. -/
theorem retry_iff_of_left (left : Left name tag (chainOf env config) id m)
    (room : id.toNat ≠ 2 ^ 32 - 1) (fuel : 0 < env.backend.walkFuel)
    (precious : kind = .eager → config.policy = .precious) :
    (∃ slot m', Run Answered (openAs env kind name tag value config) m (.ok slot) m' ∧
      OpenedEmpty kind id slot m') ↔ Retryable env name config id m.dev := by
  -- Up to the chain, the retry goes through.
  have left₂ : Left name tag (chainOf env config) id ⟨m.dev, adopt config m.mem⟩ := left.adopt
  have hopen : Run Answered ensureOpen m (.ok ()) m := by
    rw [ensureOpen, run_sync, left.open_]
    exact ⟨rfl, rfl⟩
  have hchain : Run Answered (chainFor env config) m (.ok (chainOf env config))
      ⟨m.dev, adopt config m.mem⟩ := (chainFor_run env).2 ⟨rfl, rfl⟩
  have hexists := answered_lockerExists left₂
  obtain ⟨m₃, hid, left₃, -, hrow₃⟩ := answered_lockerId left₂ room
  obtain ⟨m₄, hschema, left₄, hrow₄⟩ := answered_bindSchema left₃
  have hbind := answered_bindChain env left₄ (m.dev.lookup .meta (lockerKey name)).isSome
  rw [hrow₄, hrow₃] at hbind
  have hretry : Retryable env name config id m.dev ↔ (chainOf env config).id = env.chain.id ∨
      (m.dev.lookup .meta (lockerKey name)).isSome = false ∨
      (m.dev.lookup .meta (chainKey id)).isSome := by
    simp only [Retryable, Option.isSome_eq_false_iff, Option.isNone_iff_eq_none]
  rw [hretry, ← hbind, openAs_eq]
  constructor
  · rintro ⟨slot, m', h₀, -⟩
    obtain ⟨u, n₁, hopen₁, h₁⟩ := run_bind_ok.1 h₀
    obtain ⟨-, rfl⟩ := Run.det Answered.one hopen₁ hopen
    obtain ⟨c, n₂, hchain₂, h₂⟩ := run_bind_ok.1 h₁
    obtain ⟨hc, rfl⟩ := Run.det Answered.one hchain₂ hchain
    obtain rfl := Except.ok.inj hc
    rw [run_read_bind, left₂.free] at h₂
    obtain ⟨found, n₃, hprepare, -⟩ := run_bind_ok.1 h₂
    obtain ⟨pre, n₄, hexists₄, h₄⟩ := run_bind_ok.1 hprepare
    obtain ⟨hpre, rfl⟩ := Run.det Answered.one hexists₄ hexists
    obtain rfl := Except.ok.inj hpre
    obtain ⟨found', n₅, hid₅, h₅⟩ := run_bind_ok.1 h₄
    obtain ⟨hf, rfl⟩ := Run.det Answered.one hid₅ hid
    obtain rfl := Except.ok.inj hf
    obtain ⟨u', n₆, hschema₆, h₆⟩ := run_bind_ok.1 h₅
    obtain ⟨-, rfl⟩ := Run.det Answered.one hschema₆ hschema
    obtain ⟨u'', n₇, hbind₇, -⟩ := run_bind_ok.1 h₆
    exact ⟨n₇, hbind₇, left_bindChain env left₄ (Answered.served hbind₇)⟩
  · rintro ⟨m₅, hchained, left₅⟩
    have hprepare : Run Answered (prepare env name tag (chainOf env config)) _ (.ok id) m₅ :=
      run_bind.2 (.inl ⟨_, _, hexists, run_bind.2 (.inl ⟨id, m₃, hid, run_bind.2 (.inl ⟨(), m₄,
        hschema, run_bind.2 (.inl ⟨(), m₅, hchained, run_pure.2 ⟨rfl, rfl⟩⟩)⟩)⟩)⟩)
    have hloaded : ∃ ram, Run Answered (loadRam
        (innerOf env value name config (chainOf env config) id) kind) m₅ (.ok ram) m₅ ∧
        EmptyRam kind ram := loadRam_empty fuel precious left₅.noRecord left₅.noEntry
    obtain ⟨ram, hload, empty⟩ := hloaded
    obtain ⟨m₆, hclaim, hdev, hslots⟩ := answered_claimOpen
      ⟨innerOf env value name config (chainOf env config) id, ram, true⟩ kind tag config left₅.free
    have opened : OpenedEmpty kind id m₅.mem.slots.length m₆ := by
      refine ⟨⟨innerOf env value name config (chainOf env config) id, ram, true⟩, ?_, rfl,
        empty.closed, empty, ?_⟩
      · rw [hslots, List.getElem?_concat_length]
      · rw [hdev]
        exact left₅.noRecord
    refine ⟨m₅.mem.slots.length, m₆, run_bind.2 (.inl ⟨(), m, hopen, run_bind.2 (.inl ⟨_, _, hchain,
      run_read_bind.2 ?_⟩)⟩), opened⟩
    rw [left₂.free]
    exact run_bind.2 (.inl ⟨id, m₅, hprepare, run_bind.2 (.inl ⟨ram, m₅, hload, hclaim⟩)⟩)

/-- An interrupted first open of a fresh name can be retried, from the same bank or after it is
opened anew, exactly when the chain is that of the bank, or the name was not registered, or its
chain was recorded. -/
theorem retry_iff {db : Tables} {bank bank' : Bank V} (fresh : Fresh db name id)
    (idle : Idle bank name) (room : id.toNat ≠ 2 ^ 32 - 1) (fuel : 0 < env.backend.walkFuel)
    (precious : kind = .eager → config.policy = .precious) {e : Error}
    (interrupted : Run Served (openAs env kind name tag value config) ⟨db, bank⟩ (.error e) m)
    (retried : bank' = m.mem ∨ Idle bank' name) :
    (∃ slot m', Run Answered (openAs env kind name tag value config) ⟨m.dev, bank'⟩ (.ok slot) m' ∧
      OpenedEmpty kind id slot m') ↔ Retryable env name config id m.dev := by
  have left := left_of_interrupted env (fresh.left idle) interrupted
  rcases retried with rfl | idle'
  · exact retry_iff_of_left left room fuel precious
  · exact retry_iff_of_left (left.reopened idle') room fuel precious

/-! ## Runs -/

theorem fresh_empty (name : String) : Fresh Tables.empty name 0 where
  unregistered := by simp [Tables.lookup, Tables.get, Tables.empty]
  counter := by simp [Tables.lookup, Tables.get, Tables.empty, nextFree]
  noSchema := by simp [Tables.lookup, Tables.get, Tables.empty]
  noChain := by simp [Tables.lookup, Tables.get, Tables.empty]
  noRecord key := by simp [Tables.lookup, Tables.get, Tables.empty]
  noEntry key := by simp [Tables.lookup, Tables.get, Tables.empty]

theorem idle_fresh (name : String) : Idle (Bank.fresh V) name where
  open_ := rfl
  free := by simp [openLocker, Bank.fresh]
  uncached := by simp [Bank.fresh]

theorem run_openAs_error (open_ : m.mem.closed = false) (free : openLocker name m.mem = none)
    {e : Error} (failed : Run Served (prepare env name tag (chainOf env config))
      ⟨m.dev, adopt config m.mem⟩ (.error e) m') :
    Run Served (openAs env kind name tag value config) m (.error e) m' := by
  rw [openAs_eq]
  refine run_bind.2 (.inl ⟨(), m, ?_, run_bind.2 (.inl ⟨_, _, (chainFor_run env).2 ⟨rfl, rfl⟩, ?_⟩)⟩)
  · rw [ensureOpen, run_sync, open_]
    exact ⟨rfl, rfl⟩
  · rw [run_read_bind, openLocker_adopt, free]
    exact run_bind.2 (.inr ⟨e, failed, rfl⟩)

/-- A first open whose schema read fails leaves a name that is registered, and no more. -/
theorem interrupted_registered (config : LockerConfig) : ∃ m : Machine Tables (Bank Bytes),
    Run Served (openAs BankEnv.plain .lazy "a" "Vec<u8>" .vecU8 config)
      ⟨Tables.empty, Bank.fresh Bytes⟩ (.error .closed) m ∧
    Left "a" "Vec<u8>" (chainOf BankEnv.plain config) 0 m ∧
    m.dev.lookup .meta (lockerKey "a") = some (u32be 0) ∧
    m.dev.lookup .meta (chainKey 0) = none := by
  have left : Left "a" "Vec<u8>" (chainOf BankEnv.plain config) 0
      ⟨Tables.empty, adopt config (Bank.fresh Bytes)⟩ :=
    ((fresh_empty "a").left (idle_fresh "a")).adopt
  obtain ⟨m, hid, left₂, hreg, hchain⟩ := answered_lockerId left (by decide)
  refine ⟨m, ?_, left₂, hreg, hchain.trans (fresh_empty "a").noChain⟩
  refine run_openAs_error rfl (idle_fresh "a").free (run_bind.2 (.inl ⟨false, _, ?_, run_bind.2 (.inl
    ⟨0, m, Answered.served hid, run_bind.2 (.inr ⟨.closed, ?_, rfl⟩)⟩)⟩))
  · exact Answered.served (answered_lockerExists left)
  · refine run_bind.2 (.inr ⟨.closed, run_get.2 ⟨rfl, ?_⟩, rfl⟩)
    intro v hv
    cases hv

/-- Under the chain of the bank a name that is registered and no more is opened by a retry, and by
a bank that is opened anew. -/
theorem retry_iff_registered : ∃ m : Machine Tables (Bank Bytes),
    m.dev.lookup .meta (lockerKey "a") = some (u32be 0) ∧
    (∃ slot m', Run Answered (openAs BankEnv.plain .lazy "a" "Vec<u8>" .vecU8 {}) m (.ok slot) m' ∧
      OpenedEmpty .lazy 0 slot m') ∧
    ∃ slot m', Run Answered (openAs BankEnv.plain .lazy "a" "Vec<u8>" .vecU8 {})
      ⟨m.dev, Bank.fresh Bytes⟩ (.ok slot) m' ∧ OpenedEmpty .lazy 0 slot m' := by
  obtain ⟨m, failed, -, registered, -⟩ := interrupted_registered {}
  refine ⟨m, registered, ?_, ?_⟩
  · exact (retry_iff (fresh_empty "a") (idle_fresh "a") (by decide) (by decide) (by decide) failed
      (.inl rfl)).2 (.inl rfl)
  · exact (retry_iff (fresh_empty "a") (idle_fresh "a") (by decide) (by decide) (by decide) failed
      (.inr (idle_fresh "a"))).2 (.inl rfl)

/-- A config with a chain of its own. -/
def ownChain : LockerConfig := { chain := some ⟨1, []⟩ }

/-- A first open under a chain of its own, whose schema read fails, is refused for good. -/
theorem retry_refused : ∃ m : Machine Tables (Bank Bytes),
    Run Served (openAs BankEnv.plain .lazy "a" "Vec<u8>" .vecU8 ownChain)
      ⟨Tables.empty, Bank.fresh Bytes⟩ (.error .closed) m ∧
    ¬ ∃ slot m', Run Answered (openAs BankEnv.plain .lazy "a" "Vec<u8>" .vecU8 ownChain) m
      (.ok slot) m' ∧ OpenedEmpty .lazy 0 slot m' := by
  obtain ⟨m, failed, left, hreg, hchain⟩ := interrupted_registered ownChain
  refine ⟨m, failed, fun retried => ?_⟩
  have hcase := (retry_iff_of_left left (by decide) (by decide) (by decide)).1 retried
  rcases hcase with h | h | h
  · exact absurd h (by decide)
  · rw [hreg] at h
    cases h
  · rw [hchain] at h
    cases h

end

end Bank
end Crossbank
