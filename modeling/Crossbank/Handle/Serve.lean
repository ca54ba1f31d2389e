import Crossbank.Retry
import Crossbank.Handle.Raw

/-!
# The store of a bank as a map of maps

* `Shelved` : the stored rows of a locker are the sealed values of a shelf;
* `Displays` : the store of a bank, with no locker open, is the shelves of its registered names;
* `Displays.commit`, `Displays.bind`, `Displays.register`, `Displays.forget` : what the commits of a job
  do to the shelves;
* `Displays.rawLocker` : a call that opens its locker has put up its shelf, or fails.
-/

namespace Crossbank
open Async

/-- What a store of sealed values relies on. -/
structure BankEnv.Lawful (env : BankEnv) : Prop where
  faithful : env.chain.Faithful
  inverts : env.bytes.Inverts

section
variable (env : BankEnv)

/-- The row of a value: none, or the value sealed. -/
def RowOf (v row : Option Bytes) : Prop :=
  (v = none ∧ row = none) ∨ ∃ bytes sealed, v = some bytes ∧ row = some sealed ∧
    env.bytes.encode env.chain bytes = .ok sealed

/-- The rows of a locker are the sealed values of a shelf, under keys that are strings. -/
structure Shelved (id : LockerId) (shelf : Shelf) (db : Tables) : Prop where
  row : ∀ key : String, RowOf env (shelf key) (db.lookup .records (encode id key))
  utf8 : ∀ k, db.lookup .records (encodeBytes id k) ≠ none → ∃ key, k = asBytes key

/-- The store is the shelves of the registered names: each has an id of its own, and the rows under it
are its values. What the bank remembers of the registrations is so. No locker is open. -/
structure Displays {V : Type} (s : Shelves) (m : Machine Tables (Bank V)) : Prop where
  distinct : Bank.Distinct m.dev
  parses : ∀ name raw, m.dev.lookup .meta (META_LOCKER_PREFIX ++ name) = some raw →
    ∃ id, u32FromBe raw = some id
  utf8 : ∀ name id, Bank.Registered m.dev name id → ∃ n, name = asBytes n
  names : ∀ name, s name ≠ none ↔ ∃ id, Bank.Registered m.dev (asBytes name) id
  holds : ∀ name id, Bank.Registered m.dev (asBytes name) id → Shelved env id (s.shelf name) m.dev
  placed : ∀ id k, m.dev.lookup .records (encodeBytes id k) ≠ none →
    ∃ name, Bank.Registered m.dev name id
  cached : ∀ name id, Bank.cached name m.mem = some id → Bank.Registered m.dev (asBytes name) id
  closed : ∀ name, Bank.isLockerOpen name m.mem = false

end

section
variable {V : Type} {env : BankEnv} {s : Shelves} {m m' : Machine Tables (Bank V)} {db : Tables}
  {name : String} {id : LockerId} {shelf : Shelf} {ops : List Op}

/-! ## Values -/

/-- What is opened of a sealed value is the value. -/
theorem eq_of_decode (lawful : env.Lawful) {v w sealed : Bytes}
    (hsealed : env.bytes.encode env.chain v = .ok sealed)
    (hopened : env.bytes.decode env.chain sealed = .ok w) : w = v := by
  obtain ⟨payload, hpayload, hseal⟩ := bind_eq_ok.1 hsealed
  obtain ⟨payload', hopen, hvalue⟩ := bind_eq_ok.1 hopened
  obtain rfl := lawful.faithful payload sealed payload' hseal hopen
  unfold Postcard.payload at hpayload
  unfold Postcard.ofPayload at hvalue
  split at hpayload
  · next hbytes =>
    obtain rfl := Except.ok.inj hpayload
    rw [lawful.inverts v _ hbytes] at hvalue
    exact (Except.ok.inj hvalue).symm
  · cases hpayload

theorem RowOf.ne_none {v row : Option Bytes} (h : RowOf env v row) : row ≠ none ↔ v ≠ none := by
  rcases h with ⟨rfl, rfl⟩ | ⟨bytes, sealed, rfl, rfl, -⟩
  · exact Iff.rfl
  · simp

theorem RowOf.slotValue (lawful : env.Lawful) {v row : Option Bytes} {found : Option Bytes}
    (h : RowOf env v row) (hfound : Bank.slotValue env row = .ok found) : found = v := by
  rcases h with ⟨rfl, rfl⟩ | ⟨bytes, sealed, rfl, rfl, hsealed⟩
  · exact (Except.ok.inj hfound).symm
  · unfold Bank.slotValue at hfound
    dsimp only at hfound
    cases hw : env.bytes.decode env.chain sealed with
    | error e =>
      rw [hw] at hfound
      cases hfound
    | ok w =>
      rw [hw] at hfound
      obtain rfl := Except.ok.inj hfound
      rw [eq_of_decode lawful hsealed hw]

/-! ## What a commit leaves of a locker -/

/-- Rows that are not written are kept. -/
theorem Shelved.congr {db' : Tables} (holds : Shelved env id shelf db)
    (same : ∀ k, db'.lookup .records (encodeBytes id k) = db.lookup .records (encodeBytes id k)) :
    Shelved env id shelf db' where
  row key := by
    have hrow := holds.row key
    rwa [encode, ← same] at hrow
  utf8 k := by
    rw [same]
    exact holds.utf8 k

theorem Shelved.put (holds : Shelved env id shelf db) {key : String} {v sealed : Bytes}
    (hsealed : env.bytes.encode env.chain v = .ok sealed) :
    Shelved env id (Function.update shelf key (some v))
      (db.commit [.put .records (encode id key) sealed]) where
  row other := by
    rw [Tables.lookup_commit]
    by_cases h : other = key
    · subst h
      rw [Function.update_self]
      refine .inr ⟨v, sealed, rfl, ?_, hsealed⟩
      simp [written_cons, Op.written]
    · rw [Function.update_of_ne h]
      have hne : asBytes key ≠ asBytes other := fun heq => h (asBytes_inj.1 heq).symm
      have hw : written [.put .records (encode id key) sealed] .records (encode id other) = none := by
        simp [written_cons, Op.written, encode, hne]
      rw [hw]
      exact holds.row other
  utf8 k := by
    rw [Tables.lookup_commit]
    by_cases h : asBytes key = k
    · intro _
      exact ⟨key, h.symm⟩
    · have hw : written [.put .records (encode id key) sealed] .records (encodeBytes id k) = none := by
        simp [written_cons, Op.written, encode, h]
      rw [hw]
      exact holds.utf8 k

theorem Shelved.delete (holds : Shelved env id shelf db) {key : String} :
    Shelved env id (Function.update shelf key none)
      (db.commit [.delete .records (encode id key)]) where
  row other := by
    rw [Tables.lookup_commit]
    by_cases h : other = key
    · subst h
      rw [Function.update_self]
      refine .inl ⟨rfl, ?_⟩
      simp [written_cons, Op.written]
    · rw [Function.update_of_ne h]
      have hne : asBytes key ≠ asBytes other := fun heq => h (asBytes_inj.1 heq).symm
      have hw : written [.delete .records (encode id key)] .records (encode id other) = none := by
        simp [written_cons, Op.written, encode, hne]
      rw [hw]
      exact holds.row other
  utf8 k := by
    rw [Tables.lookup_commit]
    by_cases h : asBytes key = k
    · intro _
      exact ⟨key, h.symm⟩
    · have hw : written [.delete .records (encode id key)] .records (encodeBytes id k) = none := by
        simp [written_cons, Op.written, encode, h]
      rw [hw]
      exact holds.utf8 k

theorem Shelved.clear : Shelved env id (fun _ => none)
    (db.commit [.deleteRange .records (lockerRange id)]) := by
  have gone (k : Bytes) : (db.commit [.deleteRange .records (lockerRange id)]).lookup .records
      (encodeBytes id k) = none := by
    rw [Tables.lookup_commit]
    simp [written_cons, Op.written]
  exact ⟨fun key => .inl ⟨rfl, gone _⟩, fun k h => absurd (gone k) h⟩

theorem Shelved.putAll (holds : Shelved env id shelf db) {batch : List (String × Bytes)}
    (hops : Bank.rawPutOps env id batch = .ok ops) :
    Shelved env id (batch.foldl (fun shelf e => Function.update shelf e.1 (some e.2)) shelf)
      (db.commit ops) := by
  induction batch generalizing ops shelf db with
  | nil =>
    obtain rfl := pure_eq_ok.1 hops
    exact holds
  | cons e batch ih =>
    unfold Bank.rawPutOps at hops
    rw [List.mapM_cons, bind_eq_ok] at hops
    obtain ⟨op, hop, hrest⟩ := hops
    obtain ⟨sealed, hsealed, hput⟩ := bind_eq_ok.1 hop
    obtain rfl := Except.ok.inj hput
    obtain ⟨more, hmore, hall⟩ := bind_eq_ok.1 hrest
    obtain rfl := pure_eq_ok.1 hall
    have put : Shelved env id (Function.update shelf e.1 (some e.2))
        (db.commit [.put .records (encode id e.1) sealed]) := holds.put hsealed
    have stored := ih put (show Bank.rawPutOps env id batch = .ok more from hmore)
    exact stored

theorem Shelved.deleteAll (holds : Shelved env id shelf db) (names : List String) :
    Shelved env id (names.foldl (fun shelf key => Function.update shelf key none) shelf)
      (db.commit (names.map fun key => .delete .records (encode id key))) := by
  induction names generalizing shelf db with
  | nil => exact holds
  | cons key names ih =>
    have deleted : Shelved env id (Function.update shelf key none)
        (db.commit [.delete .records (encode id key)]) := holds.delete
    have stored := ih deleted
    exact stored

/-! ## What a commit leaves of the shelves -/

theorem Bank.Registered.unique {name : Bytes} {id' : LockerId} (h : Bank.Registered db name id)
    (h' : Bank.Registered db name id') : id' = id := by
  obtain ⟨raw, hraw, hid⟩ := h
  obtain ⟨raw', hraw', hid'⟩ := h'
  rw [hraw] at hraw'
  obtain rfl := Option.some.inj hraw'
  rw [hid] at hid'
  exact (Option.some.inj hid').symm

/-- A commit that writes rows of one locker alone changes its shelf alone. -/
theorem Displays.commit (displays : Displays env s m) (registered : Bank.Registered m.dev (asBytes name) id)
    (spares : Bank.SparesRegistry ops)
    (own : ∀ other k, other ≠ id → written ops .records (encodeBytes other k) = none)
    {f : Shelf → Shelf} (holds : Shelved env id (f (s.shelf name)) (m.dev.commit ops)) :
    Displays env (s.change name f) { m with dev := m.dev.commit ops } where
  distinct := spares.distinct.2 displays.distinct
  parses n raw hraw := by
    dsimp only at hraw
    rw [Tables.lookup_commit, spares.1] at hraw
    exact displays.parses n raw hraw
  utf8 n id' h := displays.utf8 n id' (spares.registered.1 h)
  names n := by
    rw [Shelves.change_ne_none, displays.names]
    simp only [spares.registered]
    constructor
    · rintro (rfl | h)
      · exact ⟨id, registered⟩
      · exact h
    · exact .inr
  holds n id' h := by
    have h' := spares.registered.1 h
    rw [Shelves.shelf_change]
    by_cases hn : n = name
    · subst hn
      obtain rfl := Bank.Registered.unique registered h'
      rw [if_pos rfl]
      exact holds
    · have other : id' ≠ id := by
        rintro rfl
        exact hn (asBytes_inj.1 (displays.distinct.injective _ _ _ h' registered))
      rw [if_neg hn]
      refine (displays.holds n id' h').congr fun k => ?_
      rw [Tables.lookup_commit, own id' k other]
      rfl
  placed id' k h := by
    by_cases hid : id' = id
    · subst hid
      exact ⟨asBytes name, spares.registered.2 registered⟩
    · dsimp only at h
      rw [Tables.lookup_commit, own id' k hid] at h
      obtain ⟨n, hn⟩ := displays.placed id' k h
      exact ⟨n, spares.registered.2 hn⟩
  cached n id' h := spares.registered.2 (displays.cached n id' h)
  closed := displays.closed

theorem Displays.bind (displays : Displays env s m) (spares : Bank.SparesRegistry ops)
    (none_ : ∀ row, written ops .records row = none) :
    Displays env s { m with dev := m.dev.commit ops } := by
  have records (row : Bytes) : (m.dev.commit ops).lookup .records row = m.dev.lookup .records row := by
    rw [Tables.lookup_commit, none_]
    rfl
  refine ⟨spares.distinct.2 displays.distinct, ?_, ?_, ?_, ?_, ?_, ?_, displays.closed⟩
  · intro n raw hraw
    dsimp only at hraw
    rw [Tables.lookup_commit, spares.1] at hraw
    exact displays.parses n raw hraw
  · intro n id h
    exact displays.utf8 n id (spares.registered.1 h)
  · intro n
    simp only [spares.registered]
    exact displays.names n
  · intro n id h
    exact (displays.holds n id (spares.registered.1 h)).congr fun k => records _
  · intro id k h
    dsimp only at h
    rw [records] at h
    obtain ⟨n, hn⟩ := displays.placed id k h
    exact ⟨n, spares.registered.2 hn⟩
  · intro n id h
    exact spares.registered.2 (displays.cached n id h)

theorem Displays.register {next : LockerId} (displays : Displays env s m)
    (fresh : m.dev.lookup .meta (lockerKey name) = none)
    (hnext : Bank.nextFree (m.dev.lookup .meta META_NEXT_LOCKER_ID) = .ok next)
    (room : next.toNat ≠ 2 ^ 32 - 1) :
    Displays env (s.touch name)
      { m with dev := m.dev.commit (Bank.registration name next (next + 1)) } := by
  have below : ∀ n id, Bank.Registered m.dev n id → id < next := by
    obtain ⟨next', hnext', below⟩ := displays.distinct.below
    rw [hnext] at hnext'
    obtain rfl := Except.ok.inj hnext'
    exact below
  have unregistered : ∀ id, ¬ Bank.Registered m.dev (asBytes name) id := by
    rintro id ⟨raw, hraw, -⟩
    rw [show META_LOCKER_PREFIX ++ asBytes name = lockerKey name from rfl, fresh] at hraw
    cases hraw
  have records (row : Bytes) : (m.dev.commit (Bank.registration name next (next + 1))).lookup .records
      row = m.dev.lookup .records row := by
    rw [Tables.lookup_commit]
    simp [Bank.registration, written_cons, Op.written]
  have registered {n : Bytes} {id : LockerId} :
      Bank.Registered (m.dev.commit (Bank.registration name next (next + 1))) n id ↔
        (n = asBytes name ∧ id = next) ∨ (n ≠ asBytes name ∧ Bank.Registered m.dev n id) :=
    Bank.registered_commit_registration
  have hnone : s name = none := by
    by_contra h
    obtain ⟨id, hid⟩ := (displays.names name).1 h
    exact unregistered id hid
  refine ⟨?_, ?_, ?_, ?_, ?_, ?_, ?_, ?_⟩
  · exact (Bank.distinct_commit_registration displays.distinct room).2 fun other id _ h => below other id h
  · intro n raw hraw
    dsimp only at hraw
    rw [Tables.lookup_commit, Bank.written_registration] at hraw
    split at hraw
    · obtain rfl := Option.some.inj hraw
      exact ⟨next, u32FromBe_u32be next⟩
    · exact displays.parses n raw hraw
  · intro n id h
    rcases registered.1 h with ⟨rfl, -⟩ | ⟨-, h⟩
    · exact ⟨name, rfl⟩
    · exact displays.utf8 n id h
  · intro n
    rw [Shelves.touch, Shelves.change_ne_none, displays.names]
    constructor
    · rintro (rfl | ⟨id, h⟩)
      · exact ⟨next, registered.2 (.inl ⟨rfl, rfl⟩)⟩
      · by_cases hn : asBytes n = asBytes name
        · exact ⟨next, registered.2 (.inl ⟨hn, rfl⟩)⟩
        · exact ⟨id, registered.2 (.inr ⟨hn, h⟩)⟩
    · rintro ⟨id, h⟩
      rcases registered.1 h with ⟨hn, -⟩ | ⟨-, h⟩
      · exact .inl (asBytes_inj.1 hn)
      · exact .inr ⟨id, h⟩
  · intro n id h
    rw [Shelves.touch, Shelves.shelf_change]
    rcases registered.1 h with ⟨hn, rfl⟩ | ⟨hn, h⟩
    · obtain rfl := asBytes_inj.1 hn
      have empty : ∀ k, m.dev.lookup .records (encodeBytes id k) = none := by
        intro k
        by_contra hk
        obtain ⟨other, hother⟩ := displays.placed id k hk
        exact absurd (below other id hother) (UInt32.lt_irrefl id)
      rw [if_pos rfl]
      refine ⟨fun key => .inl ⟨?_, ?_⟩, fun k hk => ?_⟩
      · rw [Shelves.shelf, hnone]
        rfl
      · rw [records]
        exact empty _
      · rw [records] at hk
        exact absurd (empty k) hk
    · rw [if_neg fun heq => hn (congrArg asBytes heq)]
      exact (displays.holds n id h).congr fun k => records _
  · intro id k h
    dsimp only at h
    rw [records] at h
    obtain ⟨n, hn⟩ := displays.placed id k h
    refine ⟨n, registered.2 (.inr ⟨?_, hn⟩)⟩
    rintro rfl
    exact unregistered id hn
  · intro n id h
    have h' := displays.cached n id h
    refine registered.2 (.inr ⟨?_, h'⟩)
    intro hn
    rw [hn] at h'
    exact unregistered id h'
  · exact displays.closed

/-- A bank may remember what is registered. -/
theorem Displays.cache (displays : Displays env s m) (registered : Bank.Registered m.dev (asBytes name) id) :
    Displays env s ⟨m.dev, Bank.cache name id m.mem⟩ := by
  refine ⟨displays.distinct, displays.parses, displays.utf8, displays.names, displays.holds, displays.placed, ?_,
    displays.closed⟩
  intro n other h
  unfold Bank.cached Bank.cache at h
  dsimp only at h
  rw [Std.ExtTreeMap.getElem?_insert] at h
  split at h
  · next heq =>
    obtain rfl := Option.some.inj h
    have hn : asBytes name = asBytes n := Std.LawfulEqCmp.eq_of_compare heq
    exact hn ▸ registered
  · exact displays.cached n other h

theorem Displays.forget {chain : FilterChain} (displays : Displays env s m)
    (registered : Bank.Registered m.dev (asBytes name) id) :
    Displays env (s.forget name)
      ⟨m.dev.commit (deletionOps (Bank.maintenanceInner env id name chain) m.dev name id),
        { m.mem with
          registry := m.mem.registry.erase (asBytes name)
          openLockers := m.mem.openLockers.erase (asBytes name) }⟩ := by
  have meta_ (key : Bytes) : (m.dev.commit (deletionOps (Bank.maintenanceInner env id name chain)
      m.dev name id)).lookup .meta key =
      if lockerKey name = key ∨ schemaKey id = key then none else m.dev.lookup .meta key :=
    lookup_deletion_meta key
  have schema (n : Bytes) : schemaKey id ≠ META_LOCKER_PREFIX ++ n :=
    Bank.append_ne_append _ _ (by decide) (by decide) (by decide) _ _
  have left {n : Bytes} {other : LockerId} : Bank.Registered (m.dev.commit
      (deletionOps (Bank.maintenanceInner env id name chain) m.dev name id)) n other ↔
      n ≠ asBytes name ∧ Bank.Registered m.dev n other := by
    unfold Bank.Registered
    rw [meta_]
    by_cases hn : n = asBytes name
    · subst hn
      simp [lockerKey]
    · have hk : ¬ lockerKey name = META_LOCKER_PREFIX ++ n := fun h =>
        hn (List.append_cancel_left h).symm
      simp [hk, schema n, hn]
  have counter : (m.dev.commit (deletionOps (Bank.maintenanceInner env id name chain) m.dev name
      id)).lookup .meta META_NEXT_LOCKER_ID = m.dev.lookup .meta META_NEXT_LOCKER_ID := by
    rw [meta_, if_neg]
    rintro (h | h)
    · exact Bank.locker_prefix_ne_counter _ h
    · exact Bank.append_ne_append META_SCHEMA_PREFIX META_NEXT_LOCKER_ID (by decide) (by decide)
        (by decide) (u32be id) [] (by simpa [schemaKey] using h)
  have others {other : LockerId} (hother : other ≠ id) (k : Bytes) : (m.dev.commit (deletionOps
      (Bank.maintenanceInner env id name chain) m.dev name id)).lookup .records
      (encodeBytes other k) = m.dev.lookup .records (encodeBytes other k) :=
    lookup_deletion_record_other fun k' h => hother (encodeBytes_inj.1 h).1
  have apart {n : String} {other : LockerId} (hn : n ≠ name)
      (h : Bank.Registered m.dev (asBytes n) other) : other ≠ id := by
    rintro rfl
    exact hn (asBytes_inj.1 (displays.distinct.injective _ _ _ h registered))
  refine ⟨⟨?_, ?_⟩, ?_, ?_, ?_, ?_, ?_, ?_, ?_⟩
  · intro a b other ha hb
    exact displays.distinct.injective a b other (left.1 ha).2 (left.1 hb).2
  · obtain ⟨next, hnext, below⟩ := displays.distinct.below
    exact ⟨next, counter ▸ hnext, fun n other h => below n other (left.1 h).2⟩
  · intro n raw hraw
    dsimp only at hraw
    rw [meta_] at hraw
    split at hraw
    · cases hraw
    · exact displays.parses n raw hraw
  · intro n other h
    exact displays.utf8 n other (left.1 h).2
  · intro n
    unfold Shelves.forget
    by_cases hn : n = name
    · subst hn
      simp [left]
    · have hbytes : asBytes n ≠ asBytes name := fun h => hn (asBytes_inj.1 h)
      rw [Function.update_of_ne hn, displays.names]
      simp [left, hbytes]
  · intro n other h
    obtain ⟨hbytes, h⟩ := left.1 h
    have hn : n ≠ name := fun heq => hbytes (congrArg asBytes heq)
    have same : (s.forget name).shelf n = s.shelf n := by
      unfold Shelves.shelf Shelves.forget
      rw [Function.update_of_ne hn]
    rw [same]
    exact (displays.holds n other h).congr fun k => others (apart hn h) k
  · intro other k h
    by_cases hid : other = id
    · subst hid
      have gone : (m.dev.commit (deletionOps (Bank.maintenanceInner env other name chain) m.dev name
          other)).lookup .records (encodeBytes other k) = none := lookup_deletion_record k
      exact absurd gone h
    · dsimp only at h
      rw [others hid] at h
      obtain ⟨n, hn⟩ := displays.placed other k h
      refine ⟨n, left.2 ⟨?_, hn⟩⟩
      rintro rfl
      exact hid (Bank.Registered.unique registered hn)
  · intro n other h
    unfold Bank.cached at h
    dsimp only at h
    rw [Std.ExtTreeMap.getElem?_erase] at h
    split at h
    · cases h
    · next hne =>
      refine left.2 ⟨?_, displays.cached n other h⟩
      intro hn
      rw [hn] at hne
      exact hne Std.ReflCmp.compare_self
  · intro n
    have hclosed := displays.closed n
    unfold Bank.isLockerOpen Bank.openLocker at hclosed ⊢
    dsimp only at hclosed ⊢
    rw [Std.ExtTreeMap.getElem?_erase]
    split
    · rfl
    · exact hclosed

/-! ## Opening a locker -/

namespace Displays

theorem lockerExists (displays : Displays env s m) {r : Except Error Bool}
    (h : Run Served (Bank.lockerExists name) m r m') :
    m' = m ∧ ∀ b, r = .ok b → b = (s name).isSome := by
  have hm := Bank.run_of_reads (Bank.reads_lockerExists name) h
  refine ⟨hm, ?_⟩
  rintro b rfl
  obtain ⟨-, hb⟩ := Bank.unknown_of_lockerExists h
  have unknown : Bank.Unknown m name ↔ s name = none := by
    rw [← not_iff_not, ← ne_eq (s name), displays.names]
    unfold Bank.Unknown
    constructor
    · intro known
      cases hc : Bank.cached name m.mem with
      | some id => exact ⟨id, displays.cached name id hc⟩
      | none =>
        cases hrow : m.dev.lookup .meta (lockerKey name) with
        | none => exact absurd ⟨hc, hrow⟩ known
        | some raw =>
          obtain ⟨id, hid⟩ := displays.parses (asBytes name) raw hrow
          exact ⟨id, raw, hrow, hid⟩
    · rintro ⟨id, raw, hraw, -⟩ ⟨-, hrow⟩
      rw [show META_LOCKER_PREFIX ++ asBytes name = lockerKey name from rfl, hrow] at hraw
      cases hraw
  rw [unknown] at hb
  cases hs : s name with
  | none => exact hb.2 hs
  | some shelf =>
    cases b with
    | false =>
      rw [hb.1 rfl] at hs
      cases hs
    | true => rfl

theorem lockerId (displays : Displays env s m) {r : Except Error LockerId}
    (h : Run Served (Bank.lockerId name) m r m') :
    (∃ e, r = .error e ∧ Displays env s m') ∨
      ∃ id, r = .ok id ∧ Displays env (s.touch name) m' ∧ Bank.Registered m'.dev (asBytes name) id := by
  have known {id : LockerId} {m : Machine Tables (Bank V)} (displays : Displays env s m)
      (registered : Bank.Registered m.dev (asBytes name) id) : Displays env (s.touch name) m := by
    rwa [Shelves.touch_of_registered ((displays.names name).2 ⟨id, registered⟩)]
  unfold Bank.lockerId at h
  rw [run_read_bind] at h
  cases hc : Bank.cached name m.mem with
  | some id =>
    rw [hc] at h
    obtain ⟨rfl, rfl⟩ := run_pure.1 h
    have registered := displays.cached name id hc
    exact .inr ⟨id, rfl, known displays registered, registered⟩
  | none =>
    rw [hc] at h
    rcases run_bind.1 h with ⟨found, m₁, hget, h₁⟩ | ⟨e, hget, rfl⟩
    · obtain ⟨rfl, hfound⟩ := run_getMany.1 hget
      obtain rfl := hfound found rfl
      have hnext : (List.map (m₁.dev.lookup .meta)
          [lockerKey name, META_NEXT_LOCKER_ID]).getLast?.join =
          m₁.dev.lookup .meta META_NEXT_LOCKER_ID := by simp
      have hraw : (List.map (m₁.dev.lookup .meta)
          [lockerKey name, META_NEXT_LOCKER_ID]).dropLast.getLast?.join =
          m₁.dev.lookup .meta (lockerKey name) := by simp
      dsimp only at h₁
      rw [hraw, hnext] at h₁
      cases hrow : m₁.dev.lookup .meta (lockerKey name) with
      | some raw =>
        rw [hrow] at h₁
        rcases run_bind.1 h₁ with ⟨id, m₂, hparse, h₂⟩ | ⟨e, hparse, rfl⟩
        · obtain ⟨hid, rfl⟩ := run_ofExcept.1 hparse
          rw [run_update_bind] at h₂
          obtain ⟨rfl, rfl⟩ := run_pure.1 h₂
          have registered : Bank.Registered m₂.dev (asBytes name) id :=
            ⟨raw, hrow, Bank.eq_of_u32From hid.symm⟩
          exact .inr ⟨id, rfl, known (displays.cache registered) registered, registered⟩
        · obtain ⟨-, rfl⟩ := run_ofExcept.1 hparse
          exact .inl ⟨e, rfl, displays⟩
      | none =>
        rw [hrow] at h₁
        rcases run_bind.1 h₁ with ⟨next, m₂, hparse, h₂⟩ | ⟨e, hparse, rfl⟩
        · obtain ⟨hid, rfl⟩ := run_ofExcept.1 hparse
          split at h₂
          · obtain ⟨rfl, rfl⟩ := run_fail.1 h₂
            exact .inl ⟨_, rfl, displays⟩
          · next room =>
            rcases run_bind.1 h₂ with ⟨u, m₃, hcommit, h₃⟩ | ⟨e, hcommit, rfl⟩
            · rcases run_commitWith.1 hcommit with ⟨-, rfl⟩ | ⟨e, he, -⟩
              · rw [run_update_bind] at h₃
                obtain ⟨rfl, rfl⟩ := run_pure.1 h₃
                have registered : Bank.Registered (m₂.dev.commit
                    (Bank.registration name next (next + 1))) (asBytes name) next :=
                  Bank.registered_commit_registration.2 (.inl ⟨rfl, rfl⟩)
                exact .inr ⟨next, rfl, (displays.register hrow hid.symm room).cache registered, registered⟩
              · cases he
            · rcases run_commitWith.1 hcommit with ⟨he, -⟩ | ⟨e', -, rfl⟩
              · cases he
              · exact .inl ⟨e, rfl, displays⟩
        · obtain ⟨-, rfl⟩ := run_ofExcept.1 hparse
          exact .inl ⟨e, rfl, displays⟩
    · obtain ⟨rfl, -⟩ := run_getMany.1 hget
      exact .inl ⟨e, rfl, displays⟩

theorem bindRow {p value : Bytes} {r : Except Error Unit} (displays : Displays env s m)
    (registered : Bank.Registered m.dev (asBytes name) id) (hp : 2 ≤ p.length)
    (hl : p.take 2 ≠ META_LOCKER_PREFIX.take 2) (hc : p.take 2 ≠ META_NEXT_LOCKER_ID.take 2)
    (h : Run Served (Backend.commit [.put .meta (p ++ u32be id) value]) m r m') :
    Displays env s m' ∧ Bank.Registered m'.dev (asBytes name) id := by
  have spares := Bank.sparesRegistry_put (p := p) (u32be id) value hp hl hc
  rcases run_commitWith.1 h with ⟨-, rfl⟩ | ⟨e, -, rfl⟩
  · refine ⟨displays.bind spares fun row => ?_, spares.registered.2 registered⟩
    simp [written_cons, Op.written]
  · exact ⟨displays, registered⟩

theorem bindSchema {tag : String} {r : Except Error Unit} (displays : Displays env s m)
    (registered : Bank.Registered m.dev (asBytes name) id)
    (h : Run Served (Bank.bindSchema id tag) m r m') :
    Displays env s m' ∧ Bank.Registered m'.dev (asBytes name) id := by
  rcases run_bind.1 h with ⟨found, m₁, hget, h₁⟩ | ⟨e, hget, rfl⟩
  · obtain ⟨rfl, -⟩ := run_get.1 hget
    cases found with
    | some raw =>
      dsimp only at h₁
      split at h₁
      · obtain ⟨-, rfl⟩ := run_fail.1 h₁
        exact ⟨displays, registered⟩
      · split at h₁
        · obtain ⟨-, rfl⟩ := run_fail.1 h₁
          exact ⟨displays, registered⟩
        · obtain ⟨-, rfl⟩ := run_pure.1 h₁
          exact ⟨displays, registered⟩
    | none => exact displays.bindRow registered (by decide) (by decide) (by decide) h₁
  · obtain ⟨rfl, -⟩ := run_get.1 hget
    exact ⟨displays, registered⟩

theorem bindChain {chain : FilterChain} {preExisting : Bool} {r : Except Error Unit}
    (displays : Displays env s m) (registered : Bank.Registered m.dev (asBytes name) id)
    (h : Run Served (Bank.bindChain env id chain preExisting) m r m') :
    Displays env s m' ∧ Bank.Registered m'.dev (asBytes name) id := by
  rcases run_bind.1 h with ⟨found, m₁, hget, h₁⟩ | ⟨e, hget, rfl⟩
  · obtain ⟨rfl, -⟩ := run_get.1 hget
    cases found with
    | some raw =>
      rcases run_bind.1 h₁ with ⟨stored, m₂, hparse, h₂⟩ | ⟨e, hparse, rfl⟩
      · obtain ⟨-, rfl⟩ := run_ofExcept.1 hparse
        split at h₂
        · obtain ⟨-, rfl⟩ := run_fail.1 h₂
          exact ⟨displays, registered⟩
        · obtain ⟨-, rfl⟩ := run_pure.1 h₂
          exact ⟨displays, registered⟩
      · obtain ⟨-, rfl⟩ := run_ofExcept.1 hparse
        exact ⟨displays, registered⟩
    | none =>
      dsimp only at h₁
      split at h₁
      · obtain ⟨-, rfl⟩ := run_fail.1 h₁
        exact ⟨displays, registered⟩
      · exact displays.bindRow registered (by decide) (by decide) (by decide) h₁
  · obtain ⟨rfl, -⟩ := run_get.1 hget
    exact ⟨displays, registered⟩

/-- A call that opens its locker has put up its shelf, or fails. -/
theorem rawLocker (displays : Displays env s m) {r : Except Error LockerId}
    (h : Run Served (Bank.rawLocker env name) m r m') :
    (∃ e, r = .error e ∧ (Displays env s m' ∨ Displays env (s.touch name) m')) ∨
      ∃ id, r = .ok id ∧ Displays env (s.touch name) m' ∧ Bank.Registered m'.dev (asBytes name) id := by
  rcases run_bind.1 h with ⟨pre, m₁, hexists, h₁⟩ | ⟨e, hexists, rfl⟩
  · obtain ⟨rfl, -⟩ := displays.lockerExists hexists
    rcases run_bind.1 h₁ with ⟨id, m₂, hid, h₂⟩ | ⟨e, hid, rfl⟩
    · rcases displays.lockerId hid with ⟨e, he, -⟩ | ⟨id', hid', displays₂, registered₂⟩
      · cases he
      · obtain rfl := Except.ok.inj hid'
        rcases run_bind.1 h₂ with ⟨u, m₃, hschema, h₃⟩ | ⟨e, hschema, rfl⟩
        · obtain ⟨displays₃, registered₃⟩ := displays₂.bindSchema registered₂ hschema
          rcases run_bind.1 h₃ with ⟨u', m₄, hchain, h₄⟩ | ⟨e, hchain, rfl⟩
          · obtain ⟨displays₄, registered₄⟩ := displays₃.bindChain registered₃ hchain
            obtain ⟨rfl, rfl⟩ := run_pure.1 h₄
            exact .inr ⟨id, rfl, displays₄, registered₄⟩
          · exact .inl ⟨e, rfl, .inr (displays₃.bindChain registered₃ hchain).1⟩
        · exact .inl ⟨e, rfl, .inr (displays₂.bindSchema registered₂ hschema).1⟩
    · rcases displays.lockerId hid with ⟨e', -, displays'⟩ | ⟨id, hid', -⟩
      · exact .inl ⟨e, rfl, .inl displays'⟩
      · cases hid'
  · obtain ⟨rfl, -⟩ := displays.lockerExists hexists
    exact .inl ⟨e, rfl, .inl displays⟩

end Displays

end
end Crossbank
