import Crossbank.Async.Surface
import Crossbank.Locker.Reads
import Crossbank.Locker.Stored
import Crossbank.Registry

/-!
# Surveying a locker for damage

* `Bank.verify` : the keys of the records that cannot be read, found without changing anything;
* `Req.failure` : the error that a backend call is answered with;
* `Inner.damagedKeys` : the keys whose record or pieces do not decode to a whole payload;
* `Separates` : a survey tells damage from failure;
* `Bank.verify_separates` : it does exactly when no read of pieces fails; the failure of such a
  read is taken for damage (`Bank.verify_lists_intact`).
-/

namespace Crossbank
open Async

namespace Bank
variable {V : Type} (env : BankEnv)

/-- The chain id a locker's records were sealed with, if one was recorded. -/
def storedChainId (id : LockerId) : Io (Bank V) (Option UInt8) := do
  match ← Backend.get .meta (chainKey id) with
  | some raw => do
    let stored ← Prog.ofExcept (chainIdFrom raw)
    pure (some stored)
  | none => pure none

/-- The chain one locker's records are sealed with, unless nothing in this process knows it. -/
def lockerChain (id : LockerId) : Io (Bank V) (Option FilterChain) := do
  match ← storedChainId id with
  | none => pure (some env.chain)
  | some stored =>
    if stored = env.chain.id then pure (some env.chain)
    else do
      let chains ← Prog.read Bank.chains
      pure (chains stored)

/-- What a survey has found so far: damaged keys, and pointers whose pieces are still to be read. -/
structure Survey where
  bad : List Bytes
  chunked : List (Bytes × ChunkPointer)

def verifyVisit (inner : Inner Bytes) (acc : Survey) (key : Bytes) (value : Option Bytes) :
    Except Error Survey :=
  match value with
  | none => .ok { acc with bad := acc.bad ++ [key] }
  | some raw =>
    if isPointer raw then
      match ChunkPointer.parse raw with
      | .ok pointer => .ok { acc with chunked := acc.chunked ++ [(key, pointer)] }
      | .error _ => .ok { acc with bad := acc.bad ++ [key] }
    else if (inner.chain.openStored raw).isOk then .ok acc
    else .ok { acc with bad := acc.bad ++ [key] }

/-- Read the pieces of each pointer. Any error at all is taken for damage. -/
def verifyChunks (inner : Inner Bytes) : List (Bytes × ChunkPointer) → List Bytes →
    Io (Bank V) (List Bytes)
  | [], bad => pure bad
  | (key, pointer) :: rest, bad => do
    let read ← (inner.readChunks pointer).attempt
    verifyChunks inner rest (if read.isOk then bad else bad ++ [key])

/-- The keys of the records that cannot be read, in byte order. -/
def verify (name : String) : Io (Bank V) (List Bytes) := do
  if !(← lockerExists name) then pure []
  else do
    let id ← lockerId name
    match ← lockerChain env id with
    | none => do
      let stored ← storedChainId id
      let shown := match stored with
        | some s => toString s
        | none => "?"
      .fail (.schemaMismatch
        s!"filter chain {shown}; nothing in this process can open it"
        s!"locker {name.quote} cannot be verified without its chain — register it with Bank::register_chain, or open the locker with it first")
    | some chain => do
      let inner := maintenanceInner env id name chain
      let found ← inner.walk .unbounded .unbounded false true (verifyVisit inner) ⟨[], []⟩
      let bad ← verifyChunks inner found.chunked found.bad
      pure (bad.mergeSort fun a b => (compare a b).isLE)

end Bank

/-! ## Failed calls -/

/-- The error that a backend call is answered with. -/
def Req.failure : (q : Req) → Resp q → Option Error
  | .get .., .error e | .getMany .., .error e | .scan _, .error e | .commit .., .error e
  | .flush, .error e => some e
  | _, _ => none

def Req.readsChunks : Req → Bool
  | .getMany .chunks _ => true
  | _ => false

/-- The failure of anything but a read of pieces. -/
def Req.otherFailure (q : Req) (x : Resp q) : Option Error :=
  if q.readsChunks then none else q.failure x

section
variable {ρ : Type}

theorem surfaces_get {table : Table} {key : Bytes} :
    (Backend.get table key : Io ρ _).Surfaces Req.otherFailure := by
  refine Prog.surfaces_answer fun x e h => ?_
  cases x with
  | ok v => cases h
  | error e' => exact congrArg _ (Option.some.inj h)

theorem surfaces_getMany {table : Table} {keys : List Bytes} :
    (Backend.getMany table keys : Io ρ _).Surfaces Req.otherFailure := by
  refine Prog.surfaces_answer fun x e h => ?_
  unfold Req.otherFailure at h
  split at h
  · cases h
  · cases x with
    | ok v => cases h
    | error e' => exact congrArg _ (Option.some.inj h)

theorem surfaces_scan {request : ScanRequest} :
    (Backend.scan request : Io ρ _).Surfaces Req.otherFailure := by
  refine Prog.surfaces_answer fun x e h => ?_
  cases x with
  | ok v => cases h
  | error e' => exact congrArg _ (Option.some.inj h)

theorem surfaces_commitWith {ops : List Op} {options : CommitOptions} :
    (Backend.commitWith ops options : Io ρ _).Surfaces Req.otherFailure := by
  refine Prog.surfaces_answer fun x e h => ?_
  cases x with
  | ok v => cases h
  | error e' => exact congrArg _ (Option.some.inj h)

theorem surfaces_walk {T σ : Type} (inner : Inner T) {start stop : Bound Bytes}
    {reverse wantValues : Bool} {visit : σ → Bytes → Option Bytes → Except Error σ} {acc : σ} :
    (inner.walk start stop reverse wantValues visit acc : Io ρ σ).Surfaces Req.otherFailure := by
  have pages (fuel : Nat) (range : KeyRange) (acc : σ) :
      (inner.walkPages reverse wantValues visit fuel range acc : Io ρ σ).Surfaces
        Req.otherFailure := by
    induction fuel generalizing range acc with
    | zero => trivial
    | succ fuel ih =>
      unfold Inner.walkPages
      refine surfaces_scan.bind fun page => Prog.surfaces_ofExcept.bind fun acc => ?_
      cases page.resume with
      | none => trivial
      | some last => exact ih _ _
  unfold Inner.walk
  split
  · trivial
  · exact pages _ _ _

/-- A history of answers none of which is a failure is one of a backend that works. -/
theorem answered_of_chain [WriteLock ρ] {m m' : Machine Tables ρ} {h : List (Event Req Resp ρ)}
    (chain : Chain Served m h m') (works : ∀ q x, Event.io q x ∈ h → q.failure x = none) :
    Chain Answered m h m' := by
  induction chain with
  | nil m => exact .nil m
  | ram tail ih => exact .ram (ih fun q x hx => works q x (List.mem_cons_of_mem _ hx))
  | @io m m₁ m' q x h answer tail ih =>
    refine .io ?_ (ih fun q x hx => works q x (List.mem_cons_of_mem _ hx))
    have hx := works q x List.mem_cons_self
    unfold Answered
    cases q with
    | get table key =>
      cases x with
      | error e => cases hx
      | ok v =>
        obtain ⟨rfl, hv⟩ := answer
        rw [hv v rfl]
        rfl
    | getMany table keys =>
      cases x with
      | error e => cases hx
      | ok v =>
        obtain ⟨rfl, hv⟩ := answer
        rw [hv v rfl]
        rfl
    | scan request =>
      cases x with
      | error e => cases hx
      | ok v =>
        obtain ⟨rfl, hv⟩ := answer
        rw [hv v rfl]
        rfl
    | commit ops options =>
      rcases answer with ⟨rfl, rfl⟩ | ⟨e, rfl, -⟩
      · rfl
      · cases hx
    | flush =>
      cases x with
      | error e => cases hx
      | ok v =>
        obtain rfl := answer
        rfl
    | lock =>
      obtain ⟨s, hs, rfl⟩ := answer
      show (WriteLock.acquire m.mem).map _ = _
      rw [hs]
      rfl
    | idle =>
      obtain rfl := answer
      rfl

end

/-! ## What a survey is to find -/

section
variable {T : Type} (inner : Inner T)

/-- The keys whose record or pieces do not decode to a whole payload, in byte order. -/
def Inner.damagedKeys (db : Tables) : List Bytes :=
  ((inner.entries db .unbounded .unbounded).filter fun e =>
    !(inner.payloadOf db e.2).isOk).map Prod.fst

theorem not_isOk {ε α : Type} {x : Except ε α} : (!x.isOk) = true ↔ ∃ e, x = .error e := by
  cases x <;> simp [Except.isOk, Except.toBool]

theorem mem_damagedKeys {db : Tables} {key : Bytes} :
    key ∈ inner.damagedKeys db ↔ ∃ e, inner.storedAt db key = some (.error e) := by
  unfold Inner.damagedKeys Inner.storedAt
  rw [List.mem_map]
  constructor
  · rintro ⟨⟨k, raw⟩, hmem, rfl⟩
    obtain ⟨he, hbad⟩ := List.mem_filter.1 hmem
    obtain ⟨e, herr⟩ := not_isOk.1 hbad
    rw [((Inner.mem_entries inner).1 he).1]
    exact ⟨e, congrArg some herr⟩
  · rintro ⟨e, he⟩
    obtain ⟨raw, hraw, herr⟩ := Option.map_eq_some_iff.1 he
    refine ⟨(key, raw), List.mem_filter.2 ⟨(Inner.mem_entries inner).2 ⟨hraw, rfl⟩, ?_⟩, rfl⟩
    exact not_isOk.2 ⟨e, herr⟩

/-- Each key is listed once, in byte order. -/
theorem damagedKeys_ascending (db : Tables) :
    (inner.damagedKeys db).Pairwise fun a b => compare a b = .lt := by
  unfold Inner.damagedKeys
  rw [List.pairwise_map]
  exact (Inner.entries_ascending inner db .unbounded .unbounded).filter _

end

namespace Bank
variable {V : Type} {env : BankEnv} {name : String} {m m' : Machine Tables (Bank V)}

/-- The bank knows the name by this id: it has cached it, or it is registered. -/
def Knows (m : Machine Tables (Bank V)) (name : String) (id : LockerId) : Prop :=
  match cached name m.mem with
  | some known => id = known
  | none => Registered m.dev (asBytes name) id

def Unknown (m : Machine Tables (Bank V)) (name : String) : Prop :=
  cached name m.mem = none ∧ m.dev.lookup .meta (lockerKey name) = none

theorem Knows.eq_of_fresh {db : Tables} {id id' : LockerId}
    (knows : Knows (V := V) ⟨db, .fresh V⟩ name id)
    (h : db.lookup .meta (lockerKey name) = some (u32be id')) : id = id' := by
  have hcached : cached name (.fresh V) = none := Std.ExtTreeMap.getElem?_empty
  unfold Knows at knows
  rw [hcached] at knows
  obtain ⟨raw, hraw, hid⟩ := knows
  have hlook : db.lookup .meta (META_LOCKER_PREFIX ++ asBytes name) = some (u32be id') := h
  rw [hlook] at hraw
  rw [← Option.some.inj hraw, u32FromBe_u32be] at hid
  exact (Option.some.inj hid).symm

/-- The chain that the records of a locker are read through: the recorded one, or the bank's where
none is recorded. -/
def ReadsThrough (env : BankEnv) (m : Machine Tables (Bank V)) (id : LockerId) (chain : FilterChain) :
    Prop :=
  match m.dev.lookup .meta (chainKey id) with
  | none => chain = env.chain
  | some raw => ∃ stored, chainIdFrom raw = .ok stored ∧
    if stored = env.chain.id then chain = env.chain else m.mem.chains stored = some chain

/-- What a survey of a name is to list. -/
def Lists (env : BankEnv) (m : Machine Tables (Bank V)) (name : String) (list : List Bytes) : Prop :=
  (Unknown m name ∧ list = []) ∨
  ∃ id chain, Knows m name id ∧ ReadsThrough env m id chain ∧
    list = (maintenanceInner env id name chain).damagedKeys m.dev

/-- A survey tells damage from failure: it lists exactly what is damaged, and only when nothing it
asked for failed; where something did, it fails with that error. -/
structure Separates (env : BankEnv) (name : String) (m : Machine Tables (Bank V))
    (h : List (Event Req Resp (Bank V))) (r : Except Error (List Bytes)) : Prop where
  lists : ∀ list, r = .ok list →
    (∀ q x, .io q x ∈ h → q.failure x = none) ∧ Lists env m name list
  surfaced : ∀ q x e, .io q x ∈ h → q.failure x = some e → r = .error e

/-! ## A survey that is answered -/

theorem unknown_of_lockerExists {b : Bool} (run : Run Served (lockerExists name) m (.ok b) m') :
    m' = m ∧ (b = false ↔ Unknown m name) := by
  unfold lockerExists at run
  unfold Unknown
  rw [run_read_bind] at run
  cases hc : cached name m.mem with
  | some id =>
    rw [hc] at run
    obtain ⟨hb, rfl⟩ := run_pure.1 run
    obtain rfl := Except.ok.inj hb
    simp
  | none =>
    rw [hc] at run
    obtain ⟨found, m₁, hget, h₁⟩ := run_bind_ok.1 run
    obtain ⟨rfl, hfound⟩ := run_get.1 hget
    obtain rfl := hfound found rfl
    obtain ⟨hb, rfl⟩ := run_pure.1 h₁
    obtain rfl := Except.ok.inj hb
    simp

theorem eq_of_u32From {raw : Bytes} {what : String} {id : UInt32} (h : u32From raw what = .ok id) :
    u32FromBe raw = some id := by
  unfold u32From at h
  split at h
  · next n hn => rw [hn, Except.ok.inj h]
  · cases h

/-- The id of a name that is known. -/
theorem knows_of_lockerId {id : LockerId} (known : ¬ Unknown m name)
    (run : Run Served (lockerId name) m (.ok id) m') :
    Knows m name id ∧ m'.dev = m.dev ∧ m'.mem.chains = m.mem.chains := by
  unfold lockerId at run
  unfold Knows
  unfold Unknown at known
  rw [run_read_bind] at run
  cases hc : cached name m.mem with
  | some id' =>
    rw [hc] at run
    obtain ⟨hid, rfl⟩ := run_pure.1 run
    exact ⟨Except.ok.inj hid, rfl, rfl⟩
  | none =>
    rw [hc] at run
    obtain ⟨found, m₁, hget, h₁⟩ := run_bind_ok.1 run
    obtain ⟨rfl, hfound⟩ := run_getMany.1 hget
    obtain rfl := hfound found rfl
    have hraw : (List.map (m₁.dev.lookup .meta)
        [lockerKey name, META_NEXT_LOCKER_ID]).dropLast.getLast?.join =
        m₁.dev.lookup .meta (lockerKey name) := by
      simp
    dsimp only at h₁
    rw [hraw] at h₁
    cases hlook : m₁.dev.lookup .meta (lockerKey name) with
    | none => exact absurd ⟨hc, hlook⟩ known
    | some raw =>
      rw [hlook] at h₁
      obtain ⟨id', m₂, hparse, h₂⟩ := run_bind_ok.1 h₁
      obtain ⟨hid, rfl⟩ := run_ofExcept.1 hparse
      rw [run_update_bind] at h₂
      obtain ⟨hid', rfl⟩ := run_pure.1 h₂
      obtain rfl := Except.ok.inj hid'
      exact ⟨⟨raw, hlook, eq_of_u32From hid.symm⟩, rfl, rfl⟩

theorem readsThrough_of_lockerChain {id : LockerId} {chain : Option FilterChain}
    (run : Run Served (lockerChain env id) m (.ok chain) m') :
    m' = m ∧ ∀ c, chain = some c → ReadsThrough env m id c := by
  unfold lockerChain at run
  unfold ReadsThrough
  obtain ⟨stored, m₁, hstored, h₁⟩ := run_bind_ok.1 run
  obtain ⟨found, m₂, hget, h₂⟩ := run_bind_ok.1 hstored
  obtain ⟨rfl, hfound⟩ := run_get.1 hget
  obtain rfl := hfound found rfl
  cases hlook : m₂.dev.lookup .meta (chainKey id) with
  | none =>
    rw [hlook] at h₂
    obtain ⟨hnone, rfl⟩ := run_pure.1 h₂
    obtain rfl := Except.ok.inj hnone
    obtain ⟨hchain, rfl⟩ := run_pure.1 h₁
    obtain rfl := Except.ok.inj hchain
    exact ⟨rfl, fun c hc => (Option.some.inj hc).symm⟩
  | some raw =>
    rw [hlook] at h₂
    obtain ⟨n, m₃, hparse, h₃⟩ := run_bind_ok.1 h₂
    obtain ⟨hn, rfl⟩ := run_ofExcept.1 hparse
    obtain ⟨hsome, rfl⟩ := run_pure.1 h₃
    obtain rfl := Except.ok.inj hsome
    dsimp only at h₁
    split at h₁
    · next hbank =>
      obtain ⟨hchain, rfl⟩ := run_pure.1 h₁
      obtain rfl := Except.ok.inj hchain
      exact ⟨rfl, fun c hc => ⟨n, hn.symm, by rw [if_pos hbank]; exact (Option.some.inj hc).symm⟩⟩
    · next hother =>
      rw [run_read_bind] at h₁
      obtain ⟨hchain, rfl⟩ := run_pure.1 h₁
      refine ⟨rfl, fun c hc => ⟨n, hn.symm, ?_⟩⟩
      rw [if_neg hother, ← hc]
      exact (Except.ok.inj hchain).symm

/-- Pieces that are read decide, pointer by pointer, whether a value is whole. -/
theorem list_of_verifyChunks {inner : Inner Bytes} {chunked : List (Bytes × ChunkPointer)}
    {bad list : List Bytes} (run : Run Answered (verifyChunks inner chunked bad) m (.ok list) m') :
    list = bad ++ (chunked.filter fun e => !(inner.assemble m.dev e.2).isOk).map Prod.fst := by
  induction chunked generalizing bad m with
  | nil =>
    obtain ⟨hlist, rfl⟩ := run_pure.1 run
    obtain rfl := Except.ok.inj hlist
    simp
  | cons e chunked ih =>
    obtain ⟨key, pointer⟩ := e
    obtain ⟨read, m₁, hread, h₁⟩ := run_bind_ok.1 run
    obtain ⟨x, hx, hread'⟩ := run_attempt.1 hread
    obtain rfl := Except.ok.inj hread'
    have hval : Run Answered (inner.readChunks pointer) m (inner.assemble m.dev pointer) m :=
      Inner.readChunks_eval inner pointer
    obtain ⟨rfl, rfl⟩ := Run.det Answered.one hx hval
    rw [ih h₁, List.filter_cons]
    cases (inner.assemble m₁.dev pointer).isOk <;> simp

/-- The walk parts the damaged records from the pointers. -/
theorem foldlM_verifyVisit {inner : Inner Bytes} {entries : List (Bytes × Bytes)} {acc found : Survey}
    (h : entries.foldlM (fun acc e => verifyVisit inner acc e.1 (if true then some e.2 else none)) acc =
      .ok found) (db : Tables) :
    (found.bad ++ (found.chunked.filter fun e => !(inner.assemble db e.2).isOk).map Prod.fst).Perm
      (acc.bad ++ (acc.chunked.filter fun e => !(inner.assemble db e.2).isOk).map Prod.fst ++
        (entries.filter fun e => !(inner.payloadOf db e.2).isOk).map Prod.fst) := by
  induction entries generalizing acc with
  | nil =>
    obtain rfl := pure_eq_ok.1 h
    simp
  | cons e entries ih =>
    obtain ⟨key, raw⟩ := e
    rw [List.foldlM_cons, if_pos rfl] at h
    obtain ⟨acc₁, hvisit, hrest⟩ := bind_eq_ok.1 h
    have middle (a b c : List Bytes) : (a ++ [key] ++ b ++ c).Perm (a ++ b ++ key :: c) := by
      rw [List.append_assoc a, List.append_assoc a, List.append_assoc a]
      exact List.perm_middle.symm.append_left a
    refine (ih hrest).trans ?_
    -- A damaged record comes in front of the pointers; a pointer comes behind them.
    unfold verifyVisit at hvisit
    dsimp only at hvisit
    rw [List.filter_cons]
    unfold Inner.payloadOf
    split at hvisit
    · next hptr =>
      simp only [hptr, if_true]
      split at hvisit
      · next pointer hp =>
        obtain rfl := Except.ok.inj hvisit
        have hbind : (ChunkPointer.parse raw >>= inner.assemble db) = inner.assemble db pointer := by
          rw [hp]
          rfl
        dsimp only
        rw [hbind, List.filter_append]
        cases hok : (inner.assemble db pointer).isOk <;> simp [hok]
      · next e hp =>
        obtain rfl := Except.ok.inj hvisit
        have hbind : (ChunkPointer.parse raw >>= inner.assemble db) = .error e := by
          rw [hp]
          rfl
        dsimp only
        rw [hbind]
        exact middle _ _ _
    · next hptr =>
      have hfalse : isPointer raw = false := by simpa using hptr
      simp only [hfalse, Bool.false_eq_true, if_false]
      split at hvisit
      · next hok =>
        obtain rfl := Except.ok.inj hvisit
        rw [hok]
        simp
      · next hbad =>
        obtain rfl := Except.ok.inj hvisit
        have hbad' : (inner.chain.openStored raw).isOk = false := by simpa using hbad
        rw [hbad']
        exact middle _ _ _

theorem lists_of_verify {list : List Bytes} (run : Run Answered (verify env name) m (.ok list) m') :
    Lists env m name list := by
  unfold verify at run
  obtain ⟨known, m₁, hexists, h₁⟩ := run_bind_ok.1 run
  obtain ⟨rfl, hknown⟩ := unknown_of_lockerExists (Answered.served hexists)
  cases known with
  | false =>
    obtain ⟨hlist, -⟩ := run_pure.1 h₁
    exact .inl ⟨hknown.1 rfl, Except.ok.inj hlist⟩
  | true =>
    have known : ¬ Unknown m₁ name := fun h => by simpa using hknown.2 h
    obtain ⟨id, m₂, hid, h₂⟩ := run_bind_ok.1 h₁
    obtain ⟨knows, hdev, hchains⟩ := knows_of_lockerId known (Answered.served hid)
    obtain ⟨chain, m₃, hchain, h₃⟩ := run_bind_ok.1 h₂
    obtain ⟨rfl, reads⟩ := readsThrough_of_lockerChain (Answered.served hchain)
    cases chain with
    | none =>
      obtain ⟨stored, m₄, -, h₄⟩ := run_bind_ok.1 h₃
      cases (run_fail.1 h₄).1
    | some chain =>
      obtain ⟨found, m₄, hwalk, h₄⟩ := run_bind_ok.1 h₃
      obtain ⟨bad, m₅, hchunks, h₅⟩ := run_bind_ok.1 h₄
      obtain ⟨hlist, rfl⟩ := run_pure.1 h₅
      have hvisited := Inner.walk_run _ (Answered.served hwalk)
      obtain rfl := (reads_walk _ _ _ _ _ _ _).run (Answered.served hwalk)
      have hbad := list_of_verifyChunks hchunks
      rw [Inner.entriesInOrder, if_neg Bool.false_ne_true] at hvisited
      have perm := foldlM_verifyVisit hvisited m₄.dev
      refine .inr ⟨id, chain, knows, ?_, ?_⟩
      · have := reads chain rfl
        unfold ReadsThrough at this ⊢
        rwa [hdev, hchains] at this
      · -- The sorted list is the ascending one: they hold the same keys.
        rw [← hbad] at perm
        rw [Except.ok.inj hlist, ← hdev]
        have antisymm (a b : Bytes) (hab : (compare a b).isLE = true)
            (hba : (compare b a).isLE = true) : a = b :=
          Std.LawfulEqCmp.eq_of_compare (Std.OrientedCmp.isLE_antisymm hab hba)
        refine List.Perm.eq_of_pairwise (fun a b _ _ => antisymm a b) ?_ ?_ ?_
        · refine List.pairwise_mergeSort (fun a b c => Std.TransCmp.isLE_trans) (fun a b => ?_) bad
          have hswap : compare b a = (compare a b).swap := Std.OrientedCmp.eq_swap
          rw [hswap]
          cases compare a b <;> rfl
        · exact (damagedKeys_ascending _ _).imp fun h => by rw [h]; rfl
        · refine (List.mergeSort_perm _ _).trans ?_
          unfold Inner.damagedKeys
          simpa using perm

/-! ## A survey that is not -/

theorem surfaces_lockerExists :
    (lockerExists name : Io (Bank V) Bool).Surfaces Req.otherFailure := by
  unfold lockerExists
  intro bank
  show Prog.Surfaces _ (match cached name bank with
    | some _ => pure true
    | none => _)
  split
  · trivial
  · exact surfaces_get.bind fun found => trivial

theorem surfaces_lockerId : (lockerId name : Io (Bank V) LockerId).Surfaces Req.otherFailure := by
  unfold lockerId
  intro bank
  show Prog.Surfaces _ (match cached name bank with
    | some id => pure id
    | none => _)
  split
  · trivial
  · refine surfaces_getMany.bind fun found => ?_
    dsimp only
    split
    · exact Prog.surfaces_ofExcept.bind fun id _ => trivial
    · refine Prog.surfaces_ofExcept.bind fun next => ?_
      split
      · trivial
      · exact surfaces_commitWith.bind fun _ _ => trivial

theorem surfaces_storedChainId (id : LockerId) :
    (storedChainId id : Io (Bank V) _).Surfaces Req.otherFailure := by
  unfold storedChainId
  refine surfaces_get.bind fun found => ?_
  cases found with
  | none => trivial
  | some raw => exact Prog.surfaces_ofExcept.bind fun stored => trivial

theorem surfaces_lockerChain (id : LockerId) :
    (lockerChain env id : Io (Bank V) _).Surfaces Req.otherFailure := by
  unfold lockerChain
  refine (surfaces_storedChainId id).bind fun stored => ?_
  cases stored with
  | none => trivial
  | some stored =>
    dsimp only
    split
    · trivial
    · exact fun _ => trivial

theorem only_verifyChunks (inner : Inner Bytes) (chunked : List (Bytes × ChunkPointer))
    (bad : List Bytes) : (verifyChunks inner chunked bad : Io (Bank V) _).Only
      (fun q => q.readsChunks = true) fun _ _ => True := by
  have groups (pointer : ChunkPointer) (rounds seq : Nat) (out : Bytes) :
      (inner.readGroups pointer rounds seq out : Io (Bank V) Bytes).Only
        (fun q => q.readsChunks = true) fun _ _ => True := by
    induction rounds generalizing seq out with
    | zero => trivial
    | succ rounds ih =>
      unfold Inner.readGroups
      split
      · refine Prog.Only.bind (Backend.only_getMany.2 rfl) fun pieces => ?_
        exact Prog.Only.bind Prog.only_ofExcept fun out => ih _ _
      · trivial
  induction chunked generalizing bad with
  | nil => trivial
  | cons e chunked ih =>
    obtain ⟨key, pointer⟩ := e
    unfold verifyChunks
    refine Prog.Only.bind (Prog.Only.attempt ?_) fun read => ih _
    unfold Inner.readChunks
    refine Prog.Only.bind (groups _ _ _ _) fun out => ?_
    split <;> trivial

theorem surfaces_verify : (verify env name : Io (Bank V) _).Surfaces Req.otherFailure := by
  unfold verify
  refine surfaces_lockerExists.bind fun known => ?_
  split
  · trivial
  refine surfaces_lockerId.bind fun id => (surfaces_lockerChain id).bind fun chain => ?_
  cases chain with
  | none => exact (surfaces_storedChainId id).bind fun stored => trivial
  | some chain =>
    refine (surfaces_walk _).bind fun found => Prog.Surfaces.bind ?_ fun bad => trivial
    exact Prog.surfaces_of_only (only_verifyChunks _ _ _) fun q x hq => by
      rw [Req.otherFailure, if_pos hq]

/-- Reading the pieces of what the walk has found never fails. -/
theorem ends_verifyChunks {inner : Inner Bytes} {chunked : List (Bytes × ChunkPointer)}
    {bad : List Bytes} {h : List (Event Req Resp (Bank V))} {r : Except Error (List Bytes)}
    (he : Ends (verifyChunks inner chunked bad) h r) : ∃ list, r = .ok list := by
  induction chunked generalizing bad h with
  | nil => exact ⟨bad, (ends_ret.1 he).2⟩
  | cons e chunked ih =>
    obtain ⟨key, pointer⟩ := e
    rcases ends_bind.1 he with ⟨read, h₁, h₂, -, -, hrest⟩ | ⟨e, hread, -⟩
    · exact ih hrest
    · obtain ⟨x, -, hx⟩ := ends_attempt.1 hread
      cases hx

/-- Nothing is asked of the pieces of values. -/
abbrev OtherReads {ρ α : Type} (p : Io ρ α) : Prop :=
  p.Only (fun q => ¬ q.readsChunks = true) fun _ _ => True

theorem otherReads_lockerExists : OtherReads (lockerExists name : Io (Bank V) Bool) := by
  unfold lockerExists
  refine Prog.Only.bind (Prog.only_read.2 fun _ => trivial) fun known => ?_
  cases known with
  | some id => trivial
  | none => exact Prog.Only.bind (Backend.only_get.2 Bool.false_ne_true) fun found => trivial

theorem otherReads_lockerId : OtherReads (lockerId name : Io (Bank V) LockerId) := by
  unfold lockerId
  refine Prog.Only.bind (Prog.only_read.2 fun _ => trivial) fun known => ?_
  cases known with
  | some id => trivial
  | none =>
    refine Prog.Only.bind (Backend.only_getMany.2 Bool.false_ne_true) fun found => ?_
    dsimp only
    split
    · exact Prog.Only.bind Prog.only_ofExcept fun id => Prog.Only.bind
        (Prog.only_update.2 fun _ => trivial) fun _ => trivial
    · refine Prog.Only.bind Prog.only_ofExcept fun next => ?_
      split
      · trivial
      · refine Prog.Only.bind (Backend.only_commitWith.2 Bool.false_ne_true) fun _ => ?_
        exact Prog.Only.bind (Prog.only_update.2 fun _ => trivial) fun _ => trivial

theorem otherReads_storedChainId (id : LockerId) :
    OtherReads (storedChainId id : Io (Bank V) (Option UInt8)) := by
  unfold storedChainId
  refine Prog.Only.bind (Backend.only_get.2 Bool.false_ne_true) fun found => ?_
  cases found with
  | none => trivial
  | some raw => exact Prog.Only.bind Prog.only_ofExcept fun stored => trivial

theorem otherReads_lockerChain (id : LockerId) :
    OtherReads (lockerChain env id : Io (Bank V) (Option FilterChain)) := by
  unfold lockerChain
  refine Prog.Only.bind (otherReads_storedChainId id) fun stored => ?_
  cases stored with
  | none => trivial
  | some stored =>
    dsimp only
    split
    · trivial
    · exact Prog.Only.bind (Prog.only_read.2 fun _ => trivial) fun chains => trivial

theorem otherReads_walk {T ρ σ : Type} (inner : Inner T) {start stop : Bound Bytes}
    {reverse wantValues : Bool} {visit : σ → Bytes → Option Bytes → Except Error σ} {acc : σ} :
    OtherReads (inner.walk start stop reverse wantValues visit acc : Io ρ σ) := by
  have pages (fuel : Nat) (range : KeyRange) (acc : σ) :
      OtherReads (inner.walkPages reverse wantValues visit fuel range acc : Io ρ σ) := by
    induction fuel generalizing range acc with
    | zero => trivial
    | succ fuel ih =>
      unfold Inner.walkPages
      refine Prog.Only.bind (Backend.only_scan.2 Bool.false_ne_true) fun page => ?_
      refine Prog.Only.bind Prog.only_ofExcept fun acc => ?_
      cases page.resume with
      | none => trivial
      | some last => exact ih _ _
  unfold Inner.walk
  split
  · trivial
  · exact pages _ _ _

/-- A survey that has read pieces returns a list, whatever the reads were answered. -/
theorem late_verify : (verify env name : Io (Bank V) _).Late (fun q => q.readsChunks = true)
    fun r => ∃ list, r = .ok list := by
  unfold verify
  refine Prog.Late.bind otherReads_lockerExists fun known => ?_
  split
  · exact Prog.late_of_only (R := fun _ _ => True) Prog.only_pure
  refine Prog.Late.bind otherReads_lockerId fun id => ?_
  refine Prog.Late.bind (otherReads_lockerChain id) fun chain => ?_
  cases chain with
  | none => exact Prog.late_of_only (Prog.Only.bind (otherReads_storedChainId id) fun _ => trivial)
  | some chain =>
    refine Prog.Late.bind (otherReads_walk _) fun found h r he q x _ _ => ?_
    rcases ends_bind.1 he with ⟨bad, h₁, h₂, -, -, hrest⟩ | ⟨e, hchunks, -⟩
    · exact ⟨_, (ends_ret.1 hrest).2⟩
    · obtain ⟨list, hlist⟩ := ends_verifyChunks hchunks
      cases hlist

/-- A survey tells damage from failure exactly when no read of pieces fails. -/
theorem verify_separates {h : List (Event Req Resp (Bank V))} {r : Except Error (List Bytes)}
    (ends : Ends (verify env name) h r) (chain : Chain Served m h m') :
    Separates env name m h r ↔ ∀ q x, .io q x ∈ h → q.readsChunks = true → q.failure x = none := by
  have others (q : Req) (x : Resp q) (e : Error) (hmem : .io q x ∈ h)
      (hq : q.readsChunks = false) (hx : q.failure x = some e) : r = .error e :=
    surfaces_verify.ends ends hmem (by rw [Req.otherFailure, hq, if_neg Bool.false_ne_true, hx])
  constructor
  · intro sep q x hmem hq
    cases hx : q.failure x with
    | none => rfl
    | some e =>
      obtain ⟨list, rfl⟩ := late_verify h r ends q x hmem hq
      cases sep.surfaced q x e hmem hx
  · intro chunks
    have surfaced (q : Req) (x : Resp q) (e : Error) (hmem : .io q x ∈ h)
        (hx : q.failure x = some e) : r = .error e := by
      cases hq : q.readsChunks with
      | true =>
        rw [chunks q x hmem hq] at hx
        cases hx
      | false => exact others q x e hmem hq hx
    refine ⟨?_, surfaced⟩
    rintro list rfl
    have works (q : Req) (x : Resp q) (hmem : .io q x ∈ h) : q.failure x = none := by
      cases hx : q.failure x with
      | none => rfl
      | some e => cases surfaced q x e hmem hx
    exact ⟨works, lists_of_verify (run_iff.2 ⟨h, ends, answered_of_chain chain works⟩)⟩

/-! ## A failed read, taken for damage -/

def pieced : Tables := Tables.empty.commit
  [.put .meta (lockerKey "notes") (u32be 0),
    .put .records (encodeBytes 0 [1]) (ChunkPointer.encode ⟨5, 1, 1, FLAG_RAW⟩),
    .put .chunks (chunkKey 5 0) (header 0 ++ [7])]

/-- A backend that fails `n` times out of none, or each time pieces are read. -/
def serveChunks (n : Nat) (q : Req) (m : Machine Tables (Bank Unit)) :
    Option (Resp q × Machine Tables (Bank Unit)) :=
  serve (if q.readsChunks then n else 0) q m

theorem exists_verify {n : Nat} {list : List Bytes}
    (h : ((verify BankEnv.plain "notes").eval (serveChunks n) ⟨pieced, .fresh Unit⟩).map (·.1) =
      some (.ok list)) :
    ∃ h m', Ends (verify BankEnv.plain "notes") h (.ok list) ∧
      Chain Served ⟨pieced, .fresh Unit⟩ h m' := by
  obtain ⟨⟨r, m'⟩, heval, rfl⟩ := Option.map_eq_some_iff.1 h
  obtain ⟨h, ends, chain⟩ := run_iff.1 (Prog.eval_run (fun q => serve_sound _ q) heval)
  exact ⟨h, m', ends, chain⟩

/-- A survey of a whole value, with every read answered. -/
theorem verify_separates_whole : ∃ h m', Ends (verify BankEnv.plain "notes") h (.ok []) ∧
    Chain Served ⟨pieced, .fresh Unit⟩ h m' ∧
    (Separates BankEnv.plain "notes" ⟨pieced, .fresh Unit⟩ h (.ok []) ↔
      ∀ q x, .io q x ∈ h → q.readsChunks = true → q.failure x = none) := by
  obtain ⟨h, m', ends, chain⟩ : ∃ h m', Ends (verify BankEnv.plain "notes") h (.ok []) ∧
      Chain Served ⟨pieced, .fresh Unit⟩ h m' := exists_verify (n := 0) (by decide +kernel)
  exact ⟨h, m', ends, chain, verify_separates ends chain⟩

/-- A read of pieces fails, and the survey lists a key whose value is whole. -/
theorem verify_lists_intact : ¬ ∀ (m m' : Machine Tables (Bank Unit)) (name : String)
    (h : List (Event Req Resp (Bank Unit))) (r : Except Error (List Bytes)),
    Ends (verify BankEnv.plain name) h r → Chain Served m h m' →
      Separates BankEnv.plain name m h r := by
  intro all
  obtain ⟨h, m', ends, chain⟩ : ∃ h m', Ends (verify BankEnv.plain "notes") h (.ok [[1]]) ∧
      Chain Served ⟨pieced, .fresh Unit⟩ h m' := exists_verify (n := 1) (by decide +kernel)
  obtain ⟨-, hlists⟩ := (all _ _ _ _ _ ends chain).lists _ rfl
  rcases hlists with ⟨-, hnil⟩ | ⟨id, chain', hid, hchain, hlist⟩
  · cases hnil
  · obtain rfl : id = 0 := hid.eq_of_fresh (by decide)
    obtain rfl : chain' = FilterChain.raw := by
      have hlook : pieced.lookup .meta (chainKey 0) = none := by decide
      unfold ReadsThrough at hchain
      rw [hlook] at hchain
      exact hchain
    have hmem : [1] ∈ (maintenanceInner BankEnv.plain 0 "notes" FilterChain.raw).damagedKeys pieced := by
      rw [← hlist]
      exact List.mem_cons_self
    obtain ⟨e, he⟩ := (mem_damagedKeys _).1 hmem
    have hwhole : (maintenanceInner BankEnv.plain 0 "notes" FilterChain.raw).storedAt pieced [1] =
        some (.ok [7]) := by decide
    rw [hwhole] at he
    cases he

end Bank
end Crossbank
