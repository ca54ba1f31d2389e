import Crossbank.Binding
import Crossbank.Verify

/-!
# The recorded chain

* `HasChain` : the chain id in an envelope; a chain opens only its own (`openStored_of_other`);
* `SealedWith` : the chains that the values of a locker were sealed with;
* `BindsTruly` : an open records the chain of the values, or is refused and writes nothing;
* `Attested` : what the store says about the chain of a locker before an open;
* `bindsTruly_iff` : every open binds truly exactly when the store attests the chain of every value.
  The row is written from the configuration, so it can lie (`bindsTruly_unrecorded`).
-/

namespace Crossbank
open Async

def HasChain (raw : Bytes) (n : UInt8) : Prop := raw.take 4 = MAGIC ∧ raw[5]? = some n

/-- What a chain seals names it. -/
theorem hasChain_of_sealSlice {chain : FilterChain} {payload sealed : Bytes}
    (h : chain.sealSlice payload = .ok sealed) : HasChain sealed chain.id := by
  have hm : MAGIC = [67, 66, 78, 75] := by decide
  unfold FilterChain.sealSlice at h
  cases hbody : chain.filters.foldlM (fun body filter => filter.forward body) payload with
  | error e =>
    rw [hbody] at h
    cases h
  | ok body =>
    rw [hbody] at h
    obtain rfl := Except.ok.inj h
    unfold HasChain
    simp [header, hm]

theorem openStored_of_other {chain : FilterChain} {raw : Bytes} {n : UInt8} (h : HasChain raw n)
    (other : n ≠ chain.id) : ∃ e, chain.openStored raw = .error e := by
  have hn : raw.getD 5 0 = n := by
    rw [List.getD_eq_getElem?_getD, h.2]
    rfl
  unfold FilterChain.openStored
  dsimp only
  rw [hn]
  split
  · exact ⟨_, rfl⟩
  · split
    · exact ⟨_, rfl⟩
    · split
      · exact ⟨_, rfl⟩
      · exact ⟨_, rfl⟩

/-- A value of the locker, or a piece of one, names this chain. -/
def SealedWith (db : Tables) (id : LockerId) (n : UInt8) : Prop :=
  ∃ key raw, db.lookup .records (encodeBytes id key) = some raw ∧
    (HasChain raw n ∨ ∃ pointer seq piece, ChunkPointer.parse raw = .ok pointer ∧
      seq < pointer.nChunks ∧ db.lookup .chunks (chunkKey pointer.valueId seq) = some piece ∧
      HasChain piece n)

/-- Another state of the store with the same records and pieces. -/
def SameValues (db db' : Tables) : Prop :=
  ∀ table key, table ≠ .meta → db'.lookup table key = db.lookup table key

theorem SameValues.trans {db db' db'' : Tables} (first : SameValues db db')
    (second : SameValues db' db'') : SameValues db db'' := fun table key ht =>
  (second table key ht).trans (first table key ht)

theorem SameValues.sealedWith {db db' : Tables} (same : SameValues db db') {id : LockerId}
    {n : UInt8} : SealedWith db' id n ↔ SealedWith db id n := by
  unfold SealedWith
  simp only [same .records _ (by decide), same .chunks _ (by decide)]

/-- A request that writes nothing but rows of `meta`. -/
def Req.writesMeta : Req → Prop
  | .commit ops _ => ∀ op ∈ ops, op.table = .meta
  | _ => True

theorem Req.writesMeta_of_isRead {q : Req} (h : q.isRead) : q.writesMeta := by
  cases q with
  | commit => exact h.elim
  | _ => trivial

theorem sameValues_of_served {ρ : Type} [WriteLock ρ] {m m' : Machine Tables ρ} {q : Req}
    {x : Resp q} (h : q.writesMeta) (answer : Served q m x m') : SameValues m.dev m'.dev := by
  intro table key ht
  cases q with
  | commit ops options =>
    rcases answer with ⟨-, rfl⟩ | ⟨e, -, rfl⟩
    · exact Bank.lookup_commit_of_meta h ht
    · rfl
  | get => rw [served_read (by trivial) answer]
  | getMany => rw [served_read (by trivial) answer]
  | scan => rw [served_read (by trivial) answer]
  | flush =>
    obtain rfl := answer
    rfl
  | lock =>
    obtain ⟨s, -, rfl⟩ := answer
    rfl
  | idle =>
    obtain rfl := answer
    rfl

namespace Bank
variable {V : Type}

/-! ## What an open does to the store -/

section
variable {env : BankEnv} {name tag : String} {id : LockerId} {chain : FilterChain}
  {kind : TxMode} {value : Postcard V} {config : LockerConfig} {m m' : Machine Tables (Bank V)}

theorem writesMeta_prepare : (prepare env name tag chain : Io (Bank V) LockerId).Only Req.writesMeta
    fun _ _ => True := by
  have get (key : Bytes) : (Backend.get .meta key : Io (Bank V) _).Only Req.writesMeta
      fun _ _ => True := Backend.only_get.2 trivial
  have put (key v : Bytes) : (Backend.commit [.put .meta key v] : Io (Bank V) _).Only Req.writesMeta
      fun _ _ => True := Backend.only_commitWith.2 fun op hop => by
    rw [List.mem_singleton.1 hop]
    rfl
  unfold prepare
  refine Prog.Only.bind ?_ fun pre => Prog.Only.bind ?_ fun id => Prog.Only.bind ?_ fun _ =>
    Prog.Only.bind ?_ fun _ => Prog.only_pure
  · exact (reads_lockerExists name).mono (fun q => Req.writesMeta_of_isRead) fun _ _ _ => trivial
  · unfold lockerId
    refine Prog.Only.bind (Prog.only_read.2 fun _ => trivial) fun known => ?_
    cases known with
    | some id => exact Prog.only_pure
    | none =>
      refine Prog.Only.bind (Backend.only_getMany.2 trivial) fun found => ?_
      dsimp only
      split
      · exact Prog.Only.bind Prog.only_ofExcept fun _ => Prog.Only.bind
          (Prog.only_update.2 fun _ => trivial) fun _ => Prog.only_pure
      · refine Prog.Only.bind Prog.only_ofExcept fun next => ?_
        split
        · exact Prog.only_fail
        · refine Prog.Only.bind (Backend.only_commitWith.2 fun op hop => ?_) fun _ => Prog.Only.bind
            (Prog.only_update.2 fun _ => trivial) fun _ => Prog.only_pure
          simp only [registration, List.mem_cons, List.not_mem_nil, or_false] at hop
          rcases hop with rfl | rfl <;> rfl
  · unfold bindSchema
    refine (get _).bind fun raw => ?_
    cases raw with
    | none => exact put _ _
    | some raw =>
      dsimp only
      split
      · exact Prog.only_fail
      · split
        · exact Prog.only_fail
        · exact Prog.only_pure
  · unfold bindChain
    refine (get _).bind fun raw => ?_
    cases raw with
    | none =>
      dsimp only
      split
      · exact Prog.only_fail
      · exact put _ _
    | some raw =>
      refine Prog.Only.bind Prog.only_ofExcept fun stored => ?_
      split
      · exact Prog.only_fail
      · exact Prog.only_pure

/-- An open writes rows of `meta` only. -/
theorem sameValues_of_openAs {r : Except Error Nat}
    (run : Run Served (openAs env kind name tag value config) m r m') : SameValues m.dev m'.dev := by
  have only : (openAs env kind name tag value config).Only Req.writesMeta fun _ _ => True := by
    rw [openAs_eq]
    refine Prog.Only.bind (Prog.only_sync.2 fun _ => trivial) fun _ => Prog.Only.bind ?_ fun chain =>
      Prog.Only.bind (Prog.only_read.2 fun _ => trivial) fun found => ?_
    · unfold chainFor
      split
      · exact Prog.Only.bind (Prog.only_update.2 fun _ => trivial) fun _ => Prog.only_pure
      · exact Prog.only_pure
    · cases found with
      | some o => exact Prog.only_ofExcept
      | none =>
        refine writesMeta_prepare.bind fun id => Prog.Only.bind ?_ fun ram => ?_
        · exact (only_loadRam _ kind).mono (fun q => Req.writesMeta_of_isRead) fun _ _ _ => trivial
        · exact Prog.only_sync.2 fun _ => trivial
  refine Prog.Only.run (I := fun m₁ => SameValues m.dev m₁.dev) only run (fun _ _ _ => rfl) ?_ ?_
  · intro m₁ s same _
    exact same
  · intro m₁ q x m₂ same hq answer
    exact same.trans (sameValues_of_served hq answer)

/-- What the registration of a name, and the chain of an open, must agree with. -/
theorem run_bindChain {preExisting : Bool} {r : Except Error Unit}
    (run : Run Served (bindChain env id chain preExisting) m r m') (pre : preExisting = true) :
    ((∃ e, r = .error e) ∧ m'.dev = m.dev) ∨
      (m.dev.lookup .meta (chainKey id) = some [chain.id] ∧ m'.dev = m.dev) ∨
      (m.dev.lookup .meta (chainKey id) = none ∧ chain.id = env.chain.id ∧
        m'.dev = m.dev.commit [.put .meta (chainKey id) [chain.id]]) := by
  rcases run_bind.1 run with ⟨row, m₁, hget, h₁⟩ | ⟨e, hget, rfl⟩
  · obtain ⟨rfl, hrow⟩ := run_get.1 hget
    obtain rfl := hrow row rfl
    cases hlook : m₁.dev.lookup .meta (chainKey id) with
    | some row =>
      rw [hlook] at h₁
      rcases run_bind.1 h₁ with ⟨stored, m₂, hparse, h₂⟩ | ⟨e, hparse, rfl⟩
      · obtain ⟨hstored, rfl⟩ := run_ofExcept.1 hparse
        split at h₂
        · obtain ⟨rfl, rfl⟩ := run_fail.1 h₂
          exact .inl ⟨⟨_, rfl⟩, rfl⟩
        · next same =>
          obtain ⟨-, rfl⟩ := run_pure.1 h₂
          rw [eq_of_chainIdFrom hstored.symm, not_not.1 same]
          exact .inr (.inl ⟨rfl, rfl⟩)
      · obtain ⟨-, rfl⟩ := run_ofExcept.1 hparse
        exact .inl ⟨⟨_, rfl⟩, rfl⟩
    | none =>
      rw [hlook] at h₁
      dsimp only at h₁
      split at h₁
      · obtain ⟨rfl, rfl⟩ := run_fail.1 h₁
        exact .inl ⟨⟨_, rfl⟩, rfl⟩
      · next bank =>
        have same : chain.id = env.chain.id := by
          by_contra hne
          exact bank ⟨pre, hne⟩
        rcases run_commitWith.1 h₁ with ⟨-, rfl⟩ | ⟨e, rfl, rfl⟩
        · exact .inr (.inr ⟨rfl, same, rfl⟩)
        · exact .inl ⟨⟨_, rfl⟩, rfl⟩
  · obtain ⟨rfl, -⟩ := run_get.1 hget
    exact .inl ⟨⟨_, rfl⟩, rfl⟩

theorem dev_of_lockerId_error {e : Error} (run : Run Served (lockerId name) m (.error e) m') :
    m'.dev = m.dev := by
  unfold lockerId at run
  rw [run_read_bind] at run
  split at run
  · cases (run_pure.1 run).1
  · rcases run_bind.1 run with ⟨found, m₁, hget, h₁⟩ | ⟨e', hget, -⟩
    · obtain ⟨rfl, -⟩ := run_getMany.1 hget
      dsimp only at h₁
      split at h₁
      · rcases run_bind.1 h₁ with ⟨id', m₂, hparse, h₂⟩ | ⟨e', hparse, -⟩
        · rw [run_update_bind] at h₂
          cases (run_pure.1 h₂).1
        · obtain ⟨-, rfl⟩ := run_ofExcept.1 hparse
          rfl
      · rcases run_bind.1 h₁ with ⟨next, m₂, hnext, h₂⟩ | ⟨e', hnext, -⟩
        · obtain ⟨-, rfl⟩ := run_ofExcept.1 hnext
          split at h₂
          · obtain ⟨-, rfl⟩ := run_fail.1 h₂
            rfl
          · rcases run_bind.1 h₂ with ⟨u, m₃, -, h₃⟩ | ⟨e', hcommit, -⟩
            · rw [run_update_bind] at h₃
              cases (run_pure.1 h₃).1
            · rcases run_commitWith.1 hcommit with ⟨he, -⟩ | ⟨e'', -, rfl⟩
              · cases he
              · rfl
        · obtain ⟨-, rfl⟩ := run_ofExcept.1 hnext
          rfl
    · obtain ⟨rfl, -⟩ := run_getMany.1 hget
      rfl

theorem Knows.not_unknown (knows : Knows m name id) : ¬ Unknown m name := by
  rintro ⟨uncached, unregistered⟩
  unfold Knows at knows
  rw [uncached] at knows
  obtain ⟨raw, hraw, -⟩ := knows
  have hlook : m.dev.lookup .meta (META_LOCKER_PREFIX ++ asBytes name) = none := unregistered
  rw [hlook] at hraw
  cases hraw

theorem Knows.eq (knows : Knows m name id) {id' : LockerId} (knows' : Knows m name id') :
    id = id' := by
  unfold Knows at knows knows'
  split at knows
  · next known hknown =>
    rw [hknown] at knows'
    exact knows.trans knows'.symm
  · next hnone =>
    rw [hnone] at knows'
    obtain ⟨raw, hraw, hid⟩ := knows
    obtain ⟨raw', hraw', hid'⟩ := knows'
    obtain rfl := Option.some.inj (hraw.symm.trans hraw')
    exact Option.some.inj (hid.symm.trans hid')

theorem knows_adopt : Knows ⟨m.dev, adopt config m.mem⟩ name id ↔ Knows m name id := by
  unfold Knows
  rw [cached_adopt]

/-- Binding a name that is known and has a schema writes at most its chain row, and that only
where there is none and the chain is the bank's. -/
theorem run_prepare_of_knows {raw : Bytes} (knows : Knows m name id)
    (schema : m.dev.lookup .meta (schemaKey id) = some raw) {r : Except Error LockerId}
    (run : Run Served (prepare env name tag chain) m r m') :
    ((∃ e, r = .error e) ∧ m'.dev = m.dev) ∨ (fromUtf8 raw = some tag ∧
      ((m.dev.lookup .meta (chainKey id) = some [chain.id] ∧ m'.dev = m.dev) ∨
        (m.dev.lookup .meta (chainKey id) = none ∧ chain.id = env.chain.id ∧
          m'.dev = m.dev.commit [.put .meta (chainKey id) [chain.id]]))) := by
  rcases run_bind.1 run with ⟨pre, m₁, hexists, h₁⟩ | ⟨e, hexists, rfl⟩
  · obtain ⟨rfl, hpre⟩ := unknown_of_lockerExists hexists
    have hpre' : pre = true := by
      cases pre with
      | true => rfl
      | false => exact absurd (hpre.1 rfl) knows.not_unknown
    rcases run_bind.1 h₁ with ⟨id', m₂, hid, h₂⟩ | ⟨e, hid, rfl⟩
    · obtain ⟨knows', hdev, -⟩ := knows_of_lockerId knows.not_unknown hid
      obtain rfl := knows.eq knows'
      rw [← hdev] at schema ⊢
      rcases run_bind.1 h₂ with ⟨u, m₃, hschema, h₃⟩ | ⟨e, hschema, rfl⟩
      · obtain ⟨row, m₄, hget, h₄⟩ := run_bind_ok.1 hschema
        obtain ⟨rfl, hrow⟩ := run_get.1 hget
        rw [hrow row rfl, schema] at h₄
        dsimp only at h₄
        split at h₄
        · cases (run_fail.1 h₄).1
        · next stored hstored =>
          split at h₄
          · cases (run_fail.1 h₄).1
          · next htag =>
            obtain ⟨-, rfl⟩ := run_pure.1 h₄
            rw [hstored, not_not.1 htag]
            rcases run_bind.1 h₃ with ⟨u', m₅, hchain, h₅⟩ | ⟨e, hchain, rfl⟩
            · obtain ⟨-, rfl⟩ := run_pure.1 h₅
              rcases run_bindChain hchain hpre' with ⟨⟨e, he⟩, -⟩ | bound
              · cases he
              · exact .inr ⟨rfl, bound⟩
            · rcases run_bindChain hchain hpre' with ⟨-, hdev'⟩ | bound
              · exact .inl ⟨⟨e, rfl⟩, hdev'⟩
              · exact .inr ⟨rfl, bound⟩
      · refine .inl ⟨⟨e, rfl⟩, ?_⟩
        rcases run_bind.1 hschema with ⟨row, m₄, hget, h₄⟩ | ⟨e', hget, -⟩
        · obtain ⟨rfl, hrow⟩ := run_get.1 hget
          rw [hrow row rfl, schema] at h₄
          dsimp only at h₄
          split at h₄
          · obtain ⟨-, rfl⟩ := run_fail.1 h₄
            rfl
          · split at h₄
            · obtain ⟨-, rfl⟩ := run_fail.1 h₄
              rfl
            · cases (run_pure.1 h₄).1
        · obtain ⟨rfl, -⟩ := run_get.1 hget
          rfl
    · exact .inl ⟨⟨e, rfl⟩, dev_of_lockerId_error hid⟩
  · obtain rfl := run_of_reads (reads_lockerExists name) hexists
    exact .inl ⟨⟨e, rfl⟩, rfl⟩

/-- An open of a name that is known and not open writes what binding it writes. -/
theorem run_openAs_of_knows {raw : Bytes} (free : openLocker name m.mem = none)
    (knows : Knows m name id) (schema : m.dev.lookup .meta (schemaKey id) = some raw)
    {r : Except Error Nat} (run : Run Served (openAs env kind name tag value config) m r m') :
    ((∃ e, r = .error e) ∧ m'.dev = m.dev) ∨ (fromUtf8 raw = some tag ∧
      ((m.dev.lookup .meta (chainKey id) = some [(chainOf env config).id] ∧ m'.dev = m.dev) ∨
        (m.dev.lookup .meta (chainKey id) = none ∧ (chainOf env config).id = env.chain.id ∧
          m'.dev = m.dev.commit [.put .meta (chainKey id) [(chainOf env config).id]]))) := by
  rw [openAs_eq] at run
  rcases run_bind.1 run with ⟨u, m₁, hopen, h₁⟩ | ⟨e, hopen, rfl⟩
  · obtain ⟨-, rfl⟩ := run_sync.1 hopen
    obtain ⟨c, m₂, hchain, h₂⟩ | ⟨e, hchain, -⟩ := run_bind.1 h₁
    · obtain ⟨hc, rfl⟩ := (chainFor_run env).1 hchain
      obtain rfl := Except.ok.inj hc
      rw [run_read_bind, openLocker_adopt, free] at h₂
      dsimp only at h₂
      rcases run_bind.1 h₂ with ⟨found, m₃, hprepare, h₃⟩ | ⟨e, hprepare, rfl⟩
      · have hdev : m'.dev = m₃.dev := by
          rcases run_bind.1 h₃ with ⟨ram, m₄, hload, h₄⟩ | ⟨e, hload, -⟩
          · obtain ⟨s, rfl⟩ := loadRam_run hload
            obtain ⟨-, rfl⟩ := run_sync.1 h₄
            rfl
          · obtain ⟨s, rfl⟩ := loadRam_run hload
            rfl
        rw [hdev]
        rcases run_prepare_of_knows (knows_adopt.2 knows) schema hprepare with ⟨⟨e, he⟩, -⟩ | bound
        · cases he
        · exact .inr bound
      · rcases run_prepare_of_knows (knows_adopt.2 knows) schema hprepare with ⟨-, hdev⟩ | bound
        · exact .inl ⟨⟨e, rfl⟩, hdev⟩
        · exact .inr bound
    · cases ((chainFor_run env).1 hchain).1
  · obtain ⟨-, rfl⟩ := run_sync.1 hopen
    exact .inl ⟨⟨e, rfl⟩, rfl⟩

theorem run_openAs_of_open {o : OpenLocker} (held : openLocker name m.mem = some o)
    {r : Except Error Nat} (run : Run Served (openAs env kind name tag value config) m r m') :
    m'.dev = m.dev ∧ ∀ slot, r = .ok slot → configConflict o.config config = none := by
  rw [openAs_eq] at run
  rcases run_bind.1 run with ⟨u, m₁, hopen, h₁⟩ | ⟨e, hopen, rfl⟩
  · obtain ⟨-, rfl⟩ := run_sync.1 hopen
    obtain ⟨c, m₂, hchain, h₂⟩ | ⟨e, hchain, -⟩ := run_bind.1 h₁
    · obtain ⟨hc, rfl⟩ := (chainFor_run env).1 hchain
      rw [run_read_bind, openLocker_adopt, held] at h₂
      obtain ⟨rfl, rfl⟩ := run_ofExcept.1 h₂
      refine ⟨rfl, fun slot hslot => ?_⟩
      unfold checkShared at hslot
      split at hslot
      · cases hslot
      · split at hslot
        · cases hslot
        · split at hslot
          · cases hslot
          · next h => exact h
    · cases ((chainFor_run env).1 hchain).1
  · obtain ⟨-, rfl⟩ := run_sync.1 hopen
    exact ⟨rfl, by simp⟩

/-- Configs that do not conflict name the same chain. -/
theorem chainOf_of_configConflict {a b : LockerConfig} (h : configConflict a b = none) :
    (chainOf env a).id = (chainOf env b).id := by
  have same : a.chain.map FilterChain.id = b.chain.map FilterChain.id := by
    show a.chainId = b.chainId
    unfold configConflict at h
    grind
  unfold chainOf
  cases ha : a.chain with
  | none =>
    rw [ha, Option.map_none, eq_comm, Option.map_eq_none_iff] at same
    rw [same]
  | some chain =>
    rw [ha, Option.map_some, eq_comm, Option.map_eq_some_iff] at same
    obtain ⟨chain', hb, hid⟩ := same
    rw [hb]
    exact hid.symm

end

/-! ## Binding truly -/

/-- What an open of a locker has done: it has recorded the chain of every value, or it was refused,
because it cannot read one, and has written nothing. -/
structure BindsTruly (id : LockerId) (chain : FilterChain) (m m' : Machine Tables (Bank V))
    (r : Except Error Nat) : Prop where
  recorded : ∀ slot n, r = .ok slot → SealedWith m'.dev id n →
    m'.dev.lookup .meta (chainKey id) = some [n]
  refused : ∀ n, SealedWith m.dev id n → n ≠ chain.id → (∃ e, r = .error e) ∧ m'.dev = m.dev

def IdFor (m : Machine Tables (Bank V)) (name : String) (id : LockerId) : Prop :=
  Knows m name id ∨ Unknown m name ∧
    nextFree (m.dev.lookup .meta META_NEXT_LOCKER_ID) = .ok id ∧ id.toNat ≠ 2 ^ 32 - 1

/-- The store says that a value was sealed with the chain `n`: its row does, or it has no row and
`n` is the bank's. Where no type can pass the schema, no open comes to look. -/
def Attested (env : BankEnv) (m : Machine Tables (Bank V)) (name : String) (id : LockerId)
    (n : UInt8) : Prop :=
  match openLocker name m.mem with
  | some o => n = (chainOf env o.config).id ∧ m.dev.lookup .meta (chainKey id) = some [n]
  | none => Knows m name id ∧ ∃ raw, m.dev.lookup .meta (schemaKey id) = some raw ∧
    ∀ tag, fromUtf8 raw = some tag →
      match m.dev.lookup .meta (chainKey id) with
      | none => n = env.chain.id
      | some row => ∀ stored, chainIdFrom row = .ok stored → n = stored

section
variable {env : BankEnv} {name tag : String} {id : LockerId} {kind : TxMode} {value : Postcard V}
  {config : LockerConfig} {m m' : Machine Tables (Bank V)}

/-- Where the store attests every chain, an open binds truly. -/
theorem bindsTruly_of_attested
    (attested : m.mem.closed = true ∨ ∀ n, SealedWith m.dev id n → Attested env m name id n)
    {r : Except Error Nat} (run : Run Served (openAs env kind name tag value config) m r m') :
    BindsTruly id (chainOf env config) m m' r := by
  have values : ∀ n, SealedWith m'.dev id n ↔ SealedWith m.dev id n := fun n =>
    (sameValues_of_openAs run).sealedWith
  rcases attested with closed | attested
  · -- A bank that is closed refuses every open.
    have stopped : (∃ e, r = .error e) ∧ m'.dev = m.dev := by
      rw [openAs_eq, ensureOpen] at run
      rcases run_bind.1 run with ⟨u, m₁, hopen, -⟩ | ⟨e, hopen, rfl⟩
      · obtain ⟨hok, -⟩ := run_sync.1 hopen
        rw [closed] at hok
        cases hok
      · obtain ⟨-, rfl⟩ := run_sync.1 hopen
        exact ⟨⟨e, rfl⟩, rfl⟩
    obtain ⟨⟨e, rfl⟩, hdev⟩ := stopped
    refine ⟨fun slot n hslot => ?_, fun n _ _ => ⟨⟨e, rfl⟩, hdev⟩⟩
    cases hslot
  · have outcome (n : UInt8) (sealed : SealedWith m.dev id n) :
        ((∃ e, r = .error e) ∧ m'.dev = m.dev) ∨
          (n = (chainOf env config).id ∧ m'.dev.lookup .meta (chainKey id) = some [n]) := by
      have here := attested n sealed
      unfold Attested at here
      cases hopen : openLocker name m.mem with
      | some o =>
        rw [hopen] at here
        obtain ⟨hn, hrow⟩ := here
        obtain ⟨hdev, same⟩ := run_openAs_of_open hopen run
        cases r with
        | error e => exact .inl ⟨⟨e, rfl⟩, hdev⟩
        | ok slot =>
          rw [hdev]
          exact .inr ⟨hn.trans (chainOf_of_configConflict (same slot rfl)), hrow⟩
      | none =>
        rw [hopen] at here
        obtain ⟨knows, raw, hschema, hchain⟩ := here
        rcases run_openAs_of_knows hopen knows hschema run with stopped | ⟨htag, bound⟩
        · exact .inl stopped
        · have hn := hchain tag htag
          rcases bound with ⟨hrow, hdev⟩ | ⟨hrow, hbank, hdev⟩
          · rw [hrow] at hn
            obtain rfl : n = (chainOf env config).id := hn _ rfl
            rw [hdev]
            exact .inr ⟨rfl, hrow⟩
          · rw [hrow] at hn
            obtain rfl : n = env.chain.id := hn
            rw [hdev, hbank]
            exact .inr ⟨rfl, by simp [Tables.lookup_commit, written_cons, Op.written]⟩
    refine ⟨fun slot n hslot sealed => ?_, fun n sealed other => ?_⟩
    · rcases outcome n ((values n).1 sealed) with ⟨⟨e, he⟩, -⟩ | ⟨-, hrow⟩
      · rw [he] at hslot
        cases hslot
      · exact hrow
    · rcases outcome n sealed with stopped | ⟨same, -⟩
      · exact stopped
      · exact absurd same other

/-! ## Opens that do not -/

theorem answered_lockerExists_of_knows (knows : Knows m name id) :
    Run Answered (lockerExists name) m (.ok true) m := by
  rw [lockerExists, run_read_bind]
  unfold Knows at knows
  cases hcached : cached name m.mem with
  | some known => exact run_pure.2 ⟨rfl, rfl⟩
  | none =>
    rw [hcached] at knows
    obtain ⟨raw, hraw, -⟩ := knows
    exact run_bind.2 (.inl ⟨some raw, m, answered_get.2 ⟨congrArg _ hraw.symm, rfl⟩,
      run_pure.2 ⟨rfl, rfl⟩⟩)

theorem answered_lockerId_of_knows (knows : Knows m name id) :
    ∃ m', Run Answered (lockerId name) m (.ok id) m' ∧ m'.dev = m.dev ∧
      openLocker name m'.mem = openLocker name m.mem := by
  unfold Knows at knows
  split at knows
  · next known hknown =>
    refine ⟨m, ?_, rfl, rfl⟩
    rw [lockerId, run_read_bind, hknown, knows]
    exact run_pure.2 ⟨rfl, rfl⟩
  · next hnone =>
    obtain ⟨raw, hraw, hid⟩ := knows
    have parsed : u32From raw "locker id" = .ok id := by
      unfold u32From
      rw [hid]
    exact ⟨_, answered_lockerId_of_registered hnone hraw parsed, rfl, rfl⟩

theorem bindSchema_matches {raw : Bytes} (schema : m.dev.lookup .meta (schemaKey id) = some raw)
    (htag : fromUtf8 raw = some tag) : Run Answered (bindSchema id tag) m (.ok ()) m := by
  refine run_bind.2 (.inl ⟨some raw, m, answered_get.2 ⟨by rw [schema], rfl⟩, ?_⟩)
  simp only [htag, ne_eq, not_true_eq_false, if_false]
  exact run_pure.2 ⟨rfl, rfl⟩

/-- A name that is known is bound where its row is that of the chain, or it has none and the chain
is the bank's. -/
theorem answered_prepare_of_knows {raw : Bytes} {chain : FilterChain} (knows : Knows m name id)
    (schema : m.dev.lookup .meta (schemaKey id) = some raw) (htag : fromUtf8 raw = some tag)
    (bound : m.dev.lookup .meta (chainKey id) = some [chain.id] ∨
      m.dev.lookup .meta (chainKey id) = none ∧ chain.id = env.chain.id) :
    ∃ m', Run Answered (prepare env name tag chain) m (.ok id) m' ∧
      m'.dev.records = m.dev.records ∧ openLocker name m'.mem = openLocker name m.mem := by
  obtain ⟨m₁, hid, hdev, hopen⟩ := answered_lockerId_of_knows knows
  have hschema : Run Answered (bindSchema id tag) m₁ (.ok ()) m₁ :=
    bindSchema_matches (hdev.symm ▸ schema) htag
  have hchain : ∃ m₂, Run Answered (bindChain env id chain true) m₁ (.ok ()) m₂ ∧
      m₂.dev.records = m₁.dev.records ∧ m₂.mem = m₁.mem := by
    rw [← hdev] at bound
    rcases bound with hrow | ⟨hrow, hbank⟩
    · refine ⟨m₁, run_bind.2 (.inl ⟨some [chain.id], m₁, answered_get.2 ⟨by rw [hrow], rfl⟩, ?_⟩),
        rfl, rfl⟩
      exact run_bind.2 (.inl ⟨chain.id, m₁, run_ofExcept.2 ⟨rfl, rfl⟩,
        by rw [if_neg (by simp)]; exact run_pure.2 ⟨rfl, rfl⟩⟩)
    · refine ⟨⟨m₁.dev.commit [.put .meta (chainKey id) [chain.id]], m₁.mem⟩,
        run_bind.2 (.inl ⟨none, m₁, answered_get.2 ⟨by rw [hrow], rfl⟩, ?_⟩), rfl, rfl⟩
      dsimp only
      rw [if_neg fun h => h.2 hbank]
      exact answered_commitWith.2 ⟨rfl, rfl⟩
  obtain ⟨m₂, hchain, hrecords, hmem⟩ := hchain
  refine ⟨m₂, run_bind.2 (.inl ⟨true, m, answered_lockerExists_of_knows knows, run_bind.2 (.inl
    ⟨id, m₁, hid, run_bind.2 (.inl ⟨(), m₁, hschema, run_bind.2 (.inl ⟨(), m₂, hchain,
      run_pure.2 ⟨rfl, rfl⟩⟩)⟩)⟩)⟩), ?_, ?_⟩
  · rw [hrecords, hdev]
  · rw [hmem, hopen]

theorem answered_openAs_lazy (value : Postcard V) {m₁ : Machine Tables (Bank V)}
    (open_ : m.mem.closed = false)
    (free : openLocker name m.mem = none) (precious : config.policy = .precious)
    (fuel : ((maintenanceInner env id name env.chain).entries m.dev .unbounded .unbounded).length <
      env.backend.walkFuel)
    (prepared : Run Answered (prepare env name tag (chainOf env config))
      ⟨m.dev, adopt config m.mem⟩ (.ok id) m₁)
    (records : m₁.dev.records = m.dev.records) (free₁ : openLocker name m₁.mem = none) :
    ∃ slot m', Run Answered (openAs env .lazy name tag value config) m (.ok slot) m' := by
  let inner := innerOf env value name config (chainOf env config) id
  have hopen : ∃ res, Run Answered (LazyLocker.openLocker inner) ⟨m₁.dev, m₁.mem.shared⟩ (.ok res)
      ⟨m₁.dev, m₁.mem.shared⟩ := by
    have hentries : inner.entries m₁.dev .unbounded .unbounded =
        (maintenanceInner env id name env.chain).entries m.dev .unbounded .unbounded := by
      unfold Inner.entries
      rw [records]
      rfl
    have hwalk : Run Answered (inner.walk .unbounded .unbounded false false
        (fun (index : KeySet) key _ => .ok (index.insert key)) ∅) ⟨m₁.dev, m₁.mem.shared⟩ _ _ :=
      Inner.walk_eval inner (by rw [hentries]; exact fuel)
    have hinserts (entries : List (Bytes × Bytes)) (index : KeySet) :
        ∃ index', entries.foldlM (fun (index : KeySet) (e : Bytes × Bytes) =>
          (.ok (index.insert e.1) : Except Error KeySet)) index = .ok index' := by
      induction entries generalizing index with
      | nil => exact ⟨index, rfl⟩
      | cons e entries ih => exact ih _
    obtain ⟨index, hindex⟩ := hinserts (inner.entriesInOrder false m₁.dev .unbounded .unbounded) ∅
    rw [hindex] at hwalk
    refine ⟨Resident.new .lazy (some index) none, run_bind.2 (.inl ⟨index, _, hwalk,
      run_bind.2 (.inl ⟨none, _, ?_, run_pure.2 ⟨rfl, rfl⟩⟩)⟩)⟩
    rw [openLru, show inner.config.policy = .precious from precious]
    exact run_pure.2 ⟨rfl, rfl⟩
  obtain ⟨res, hopen⟩ := hopen
  have hload : Run Answered (loadRam inner .lazy) m₁ (.ok (.opened .fresh res ∅)) m₁ := by
    refine run_map.2 ⟨.ok res, ?_, rfl⟩
    exact (run_zoom (fun q m x m' hq => answered_zoom (sharedPart V) hq) (R := fun _ _ => True)
      (draws_openLocker inner)).2 ⟨_, hopen, by simp [sharedPart]⟩
  obtain ⟨m', hclaim, -, -⟩ := answered_claimOpen
    ⟨inner, .opened .fresh res ∅, true⟩ .lazy tag config free₁
  refine ⟨m₁.mem.slots.length, m', ?_⟩
  rw [openAs_eq]
  refine run_bind.2 (.inl ⟨(), m, ?_, run_bind.2 (.inl ⟨_, _, (chainFor_run env).2 ⟨rfl, rfl⟩, ?_⟩)⟩)
  · rw [ensureOpen, run_sync, open_]
    exact ⟨rfl, rfl⟩
  · rw [run_read_bind, openLocker_adopt, free]
    exact run_bind.2 (.inl ⟨id, m₁, prepared, run_bind.2 (.inl ⟨_, m₁, hload, hclaim⟩)⟩)

theorem exists_ne (n : UInt8) : ∃ c : UInt8, c ≠ n := by
  by_cases h : n = 0
  · exact ⟨1, by rw [h]; decide⟩
  · exact ⟨0, fun hn => h hn.symm⟩

def chained (c : UInt8) : LockerConfig := { chain := some ⟨c, []⟩ }

/-- An open of a name that is not registered, after which the schema cannot be read, has registered
it. -/
theorem openAs_registers (env : BankEnv) (kind : TxMode) (tag : String) (value : Postcard V)
    (config : LockerConfig) (open_ : m.mem.closed = false) (free : openLocker name m.mem = none)
    (unknown : Unknown m name) (counter : nextFree (m.dev.lookup .meta META_NEXT_LOCKER_ID) = .ok id)
    (room : id.toNat ≠ 2 ^ 32 - 1) :
    ∃ m', Run Served (openAs env kind name tag value config) m (.error .closed) m' ∧
      m'.dev ≠ m.dev := by
  obtain ⟨uncached, unregistered⟩ := unknown
  have hid : Run Answered (lockerId name) ⟨m.dev, adopt config m.mem⟩ (.ok id) _ :=
    answered_lockerId_of_unknown (by rw [cached_adopt, uncached]) unregistered counter room
  refine ⟨_, run_openAs_error open_ free (run_bind.2 (.inl ⟨false, _, ?_, run_bind.2 (.inl
    ⟨id, _, Answered.served hid, run_bind.2 (.inr ⟨.closed, run_bind.2 (.inr
      ⟨.closed, run_get.2 ⟨rfl, by simp⟩, rfl⟩), rfl⟩)⟩)⟩)), fun same => ?_⟩
  · rw [lockerExists, run_read_bind, cached_adopt, uncached]
    exact run_bind.2 (.inl ⟨none, _, run_get.2 ⟨rfl, by simp [unregistered]⟩,
      run_pure.2 ⟨rfl, rfl⟩⟩)
  · have row := registered_registration name id (id + 1) m.dev
    dsimp only at same
    rw [same, unregistered] at row
    cases row

/-- An open of a name without a schema, after which the chain cannot be read, has recorded the
schema. -/
theorem openAs_binds_schema (env : BankEnv) (kind : TxMode) (tag : String) (value : Postcard V)
    (config : LockerConfig) (open_ : m.mem.closed = false) (free : openLocker name m.mem = none)
    (knows : Knows m name id) (noSchema : m.dev.lookup .meta (schemaKey id) = none) :
    ∃ m', Run Served (openAs env kind name tag value config) m (.error .closed) m' ∧
      m'.dev ≠ m.dev := by
  obtain ⟨m₁, hid, hdev, -⟩ := answered_lockerId_of_knows
    (m := ⟨m.dev, adopt config m.mem⟩) (knows_adopt.2 knows)
  dsimp only at hdev
  have hschema : Run Served (bindSchema id tag) m₁ (.ok ())
      ⟨m₁.dev.commit [.put .meta (schemaKey id) (asBytes tag)], m₁.mem⟩ :=
    run_bind.2 (.inl ⟨none, m₁, run_get.2 ⟨rfl, by simp [hdev, noSchema]⟩,
      run_commitWith.2 (.inl ⟨rfl, rfl⟩)⟩)
  refine ⟨_, run_openAs_error open_ free (run_bind.2 (.inl ⟨true, _,
    Answered.served (answered_lockerExists_of_knows (knows_adopt.2 knows)), run_bind.2 (.inl
      ⟨id, _, Answered.served hid, run_bind.2 (.inl ⟨(), _, hschema, run_bind.2 (.inr ⟨.closed,
        run_bind.2 (.inr ⟨.closed, run_get.2 ⟨rfl, by simp⟩, rfl⟩), rfl⟩)⟩)⟩)⟩)), fun same => ?_⟩
  have row : (m₁.dev.commit [.put .meta (schemaKey id) (asBytes tag)]).lookup .meta (schemaKey id) =
      some (asBytes tag) := by
    simp [Tables.lookup_commit, written_cons, Op.written]
  dsimp only at same
  rw [same, noSchema] at row
  cases row

/-- Every open of a name binds truly exactly when the bank is closed, or the store attests the
chain of every value of the locker. -/
theorem bindsTruly_iff (value : Postcard V) (idFor : IdFor m name id)
    (fuel : ((maintenanceInner env id name env.chain).entries m.dev .unbounded .unbounded).length <
      env.backend.walkFuel) :
    (∀ kind tag config r m', Run Served (openAs env kind name tag value config) m r m' →
      BindsTruly id (chainOf env config) m m' r) ↔
    m.mem.closed = true ∨ ∀ n, SealedWith m.dev id n → Attested env m name id n := by
  refine ⟨fun truly => ?_, fun attested kind tag config r m' run => bindsTruly_of_attested attested run⟩
  by_cases closed : m.mem.closed = true
  · exact .inl closed
  · have open_ : m.mem.closed = false := Bool.eq_false_iff.2 closed
    refine .inr fun n sealed => ?_
    obtain ⟨c, other⟩ := exists_ne n
    unfold Attested
    cases held : openLocker name m.mem with
    | some o =>
      -- Another handle that agrees with the first is always given.
      have shared : checkShared name o o.kind o.typeTag o.config = .ok o.slot := by
        simp [checkShared, configConflict]
      have run : Run Served (openAs env o.kind name o.typeTag value o.config) m (.ok o.slot)
          ⟨m.dev, adopt o.config m.mem⟩ := by
        rw [openAs_eq]
        refine run_bind.2 (.inl ⟨(), m, ?_, run_bind.2 (.inl ⟨_, _, (chainFor_run env).2 ⟨rfl, rfl⟩,
          ?_⟩)⟩)
        · rw [ensureOpen, run_sync, open_]
          exact ⟨rfl, rfl⟩
        · rw [run_read_bind, openLocker_adopt, held]
          exact run_ofExcept.2 ⟨shared.symm, rfl⟩
      have binds := truly _ _ _ _ _ run
      refine ⟨?_, binds.recorded o.slot n rfl sealed⟩
      by_contra hne
      obtain ⟨⟨e, he⟩, -⟩ := binds.refused n sealed hne
      cases he
    | none =>
      have knows : Knows m name id := by
        rcases idFor with knows | ⟨unknown, counter, room⟩
        · exact knows
        · obtain ⟨m', run, changed⟩ := openAs_registers env .lazy "" value (chained c) open_ held unknown
            counter room
          exact absurd ((truly _ _ _ _ _ run).refused n sealed other.symm).2 changed
      refine ⟨knows, ?_⟩
      cases schema : m.dev.lookup .meta (schemaKey id) with
      | none =>
        obtain ⟨m', run, changed⟩ := openAs_binds_schema env .lazy "" value (chained c) open_ held knows
          schema
        exact absurd ((truly _ _ _ _ _ run).refused n sealed other.symm).2 changed
      | some raw =>
        refine ⟨raw, rfl, fun tag htag => ?_⟩
        -- Any chain that can be bound is one that an open succeeds with.
        have must (config : LockerConfig) (precious : config.policy = .precious)
            (bound : m.dev.lookup .meta (chainKey id) = some [(chainOf env config).id] ∨
              m.dev.lookup .meta (chainKey id) = none ∧ (chainOf env config).id = env.chain.id) :
            n = (chainOf env config).id := by
          by_contra hne
          obtain ⟨m₁, prepared, records, free₁⟩ := answered_prepare_of_knows
            (m := ⟨m.dev, adopt config m.mem⟩) (knows_adopt.2 knows) schema htag bound
          dsimp only at free₁
          rw [openLocker_adopt, held] at free₁
          obtain ⟨slot, m', run⟩ := answered_openAs_lazy value open_ held precious fuel
            prepared records free₁
          obtain ⟨⟨e, he⟩, -⟩ := (truly _ _ _ _ _ (Answered.served run)).refused n sealed hne
          cases he
        cases row : m.dev.lookup .meta (chainKey id) with
        | none => exact must {} rfl (.inr ⟨row, rfl⟩)
        | some stored =>
          intro recorded hrecorded
          rw [eq_of_chainIdFrom hrecorded] at row
          exact must (chained recorded) rfl (.inl row)

end

/-! ## A row that lies -/

/-- A locker of one value, sealed with the chain 1. -/
def sealedUnder (rows : List Op) : Tables := Tables.empty.commit
  ([.put .meta (lockerKey "a") (u32be 0), .put .meta (schemaKey 0) (asBytes "x"),
    .put .records (encodeBytes 0 [1]) (header 1 ++ [7])] ++ rows)

/-- Every open of the locker over a store binds truly. -/
def AllBindTruly (db : Tables) : Prop :=
  ∀ kind tag config r m', Run Served (openAs BankEnv.plain kind "a" tag .vecU8 config)
    ⟨db, .fresh Bytes⟩ r m' → BindsTruly 0 (chainOf BankEnv.plain config) ⟨db, .fresh Bytes⟩ m' r

/-- Where the chain is recorded, every open binds truly. -/
theorem bindsTruly_iff_recorded : AllBindTruly (sealedUnder [.put .meta (chainKey 0) [1]]) := by
  have knows : Knows (V := Bytes) ⟨sealedUnder [.put .meta (chainKey 0) [1]], .fresh Bytes⟩ "a" 0 :=
    ⟨u32be 0, by decide, by decide⟩
  refine (bindsTruly_iff .vecU8 (.inl knows) (by decide)).2 (.inr fun n sealed => ?_)
  have one : n = 1 := by
    obtain ⟨key, raw, hraw, carried⟩ := sealed
    have hraw' : raw = header 1 ++ [7] := by
      rw [sealedUnder, Tables.lookup_commit] at hraw
      by_cases hk : [1] = key
      · subst hk
        simpa [written_cons, Op.written, Tables.lookup, Tables.get, Tables.empty, eq_comm] using hraw
      · simp [written_cons, Op.written, hk, Tables.lookup, Tables.get, Tables.empty] at hraw
    rw [hraw'] at carried
    rcases carried with ⟨-, hn⟩ | ⟨pointer, seq, piece, hparse, -⟩
    · exact Option.some.inj (hn.symm.trans (by decide))
    · rw [show ChunkPointer.parse (header 1 ++ [7]) = .error _ from rfl] at hparse
      cases hparse
  obtain rfl := one
  refine ⟨knows, asBytes "x", by decide, fun tag _ => ?_⟩
  rw [show (sealedUnder [.put .meta (chainKey 0) [1]]).lookup .meta (chainKey 0) = some [1] by
    decide]
  exact fun stored hstored => Except.ok.inj hstored

/-- A locker without a row is recorded under the bank's chain, whatever its values say. -/
theorem bindsTruly_unrecorded : ¬ ∀ (r : Except Error Nat) (m' : Machine Tables (Bank Bytes)),
    Run Served (openAs BankEnv.plain .lazy "a" "x" .vecU8 {}) ⟨sealedUnder [], .fresh Bytes⟩ r m' →
      BindsTruly 0 (chainOf BankEnv.plain {}) ⟨sealedUnder [], .fresh Bytes⟩ m' r := by
  intro truly
  have heval : ((openAs BankEnv.plain .lazy "a" "x" .vecU8 {}).eval (serve 0)
      ⟨sealedUnder [], .fresh Bytes⟩).map (fun x => (x.1, x.2.dev.lookup .meta (chainKey 0),
        x.2.dev.lookup .records (encodeBytes 0 [1]))) =
      some (.ok 0, some [0], some (header 1 ++ [7])) := by decide
  obtain ⟨⟨r, m'⟩, heval, heq⟩ := Option.map_eq_some_iff.1 heval
  obtain ⟨rfl, hrest⟩ := Prod.mk.inj heq
  obtain ⟨hrow, hrecord⟩ := Prod.mk.inj hrest
  have sealed : SealedWith m'.dev 0 1 :=
    ⟨[1], _, hrecord, .inl ⟨by decide, by decide⟩⟩
  have recorded := (truly _ _ (Prog.eval_run (serve_sound 0) heval)).recorded 0 1 rfl sealed
  rw [hrow] at recorded
  cases recorded

end Bank
end Crossbank
