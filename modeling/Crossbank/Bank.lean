import Crossbank.Locker.Eager
import Crossbank.Locker.Io

/-!
# The bank

The registry that maps locker names to ids, and the lockers opened from it.

* `BankEnv`, `Bank V` : what a bank is assembled over, and what it keeps in memory;
* `lockerId`, `prepare` : the id of a name, allotted on first use, with its schema and its chain;
* `lazyLockerWith`, `lockerWith` : open a locker, or share the one that is open;
* `rawGet`, `rawPut`, ... : bytes-level access by name;
* `quarantine`, `deleteLocker` : maintenance;
* `claimOpen_eq` : a claim shares the open locker, or adds one.
-/

namespace Crossbank
open Async

def FORMAT_VERSION : UInt32 := 1

def META_FORMAT_VERSION : Bytes := ascii "format_version"

def META_NEXT_LOCKER_ID : Bytes := ascii "next_locker_id"

def META_LOCKER_PREFIX : Bytes := ascii "locker::"

def META_SCHEMA_PREFIX : Bytes := ascii "schema::"

def META_CHAIN_PREFIX : Bytes := ascii "chain::"

def lockerKey (name : String) : Bytes := META_LOCKER_PREFIX ++ asBytes name

def schemaKey (id : LockerId) : Bytes := META_SCHEMA_PREFIX ++ u32be id

def chainKey (id : LockerId) : Bytes := META_CHAIN_PREFIX ++ u32be id

def u32From (bytes : Bytes) (what : String) : Except Error UInt32 :=
  match u32FromBe bytes with
  | some n => .ok n
  | none => .error (.corrupt s!"{what} is not a 4-byte integer")

/-- What a bank is assembled over. `bytes` serialises a `Vec<u8>`. -/
structure BankEnv where
  backend : Backend
  chain : FilterChain
  bytes : Postcard Bytes

/-- A backend that pages by 256, under the raw chain. -/
def BankEnv.plain : BankEnv := ⟨⟨DEFAULT_SCAN_PAGE, 64, DEFAULT_SCAN_PAGE_pos⟩, .raw, .vecU8⟩

/-- A locker that was opened: what it was opened with, its memory, and whether a handle is left. -/
structure Slot (V : Type) where
  inner : Inner V
  ram : Ram V
  alive : Bool

structure OpenLocker where
  slot : Nat
  kind : TxMode
  typeTag : String
  config : LockerConfig

structure Bank (V : Type) where
  registry : Std.ExtTreeMap Bytes LockerId compare
  chains : UInt8 → Option FilterChain
  openLockers : Std.ExtTreeMap Bytes OpenLocker compare
  slots : List (Slot V)
  shared : Shared
  closed : Bool

instance {V : Type} : WriteLock (Bank V) := ⟨fun _ => none⟩

def Bank.fresh (V : Type) : Bank V := ⟨∅, fun _ => none, ∅, [], .fresh, false⟩

def Bank.sharedPart (V : Type) : Part (Bank V) Shared where
  get bank := bank.shared
  set s bank := { bank with shared := s }
  get_set _ _ := rfl
  set_get _ := rfl
  set_set _ _ _ := rfl

def bytesTag : String := "alloc::vec::Vec<u8>"

namespace Bank
variable {V : Type} (env : BankEnv)

def ensureOpen : Io (Bank V) Unit :=
  Prog.sync fun bank => (if bank.closed then .error .closed else .ok (), bank)

/-- Refuse a store of another layout, or mark a new one. -/
def checkOrWriteFormatVersion : Io (Bank V) Unit := do
  match ← Backend.get .meta META_FORMAT_VERSION with
  | some raw => do
    let found ← Prog.ofExcept (u32From raw "format version")
    if found ≠ FORMAT_VERSION then
      .fail (.unsupportedVersion (min found.toNat 255) FORMAT_VERSION.toNat)
    else pure ()
  | none => Backend.commit [.put .meta META_FORMAT_VERSION (u32be FORMAT_VERSION)]

/-! ## The registry -/

def cached (name : String) (bank : Bank V) : Option LockerId := bank.registry[asBytes name]?

def cache (name : String) (id : LockerId) (bank : Bank V) : Bank V :=
  { bank with registry := bank.registry.insert (asBytes name) id }

/-- The ops that register a name under an id and move the counter past it. -/
def registration (name : String) (id bumped : LockerId) : List Op :=
  [.put .meta (lockerKey name) (u32be id), .put .meta META_NEXT_LOCKER_ID (u32be bumped)]

/-- The next free id, as the counter row has it. -/
def nextFree : Option Bytes → Except Error LockerId
  | some raw => u32From raw "next locker id"
  | none => .ok 0

/-- The id for a name, allocating one on first use. -/
def lockerId (name : String) : Io (Bank V) LockerId := do
  match ← Prog.read (cached name) with
  | some id => pure id
  | none => do
    let found ← Backend.getMany .meta [lockerKey name, META_NEXT_LOCKER_ID]
    let nextRaw := found.getLast?.join
    let registered := found.dropLast.getLast?.join
    match registered with
    | some raw => do
      let id ← Prog.ofExcept (u32From raw "locker id")
      Prog.update (cache name id)
      pure id
    | none => do
      let next ← Prog.ofExcept (nextFree nextRaw)
      if next.toNat = 2 ^ 32 - 1 then .fail (.backend "locker id space is exhausted")
      else do
        Backend.commit (registration name next (next + 1))
        Prog.update (cache name next)
        pure next

def lockerExists (name : String) : Io (Bank V) Bool := do
  match ← Prog.read (cached name) with
  | some _ => pure true
  | none => do
    let found ← Backend.get .meta (lockerKey name)
    pure found.isSome

/-- Record, or verify, the schema tag a locker was written with. -/
def bindSchema (id : LockerId) (tag : String) : Io (Bank V) Unit := do
  match ← Backend.get .meta (schemaKey id) with
  | some raw =>
    match fromUtf8 raw with
    | none => .fail (.corrupt s!"schema tag is not UTF-8: {utf8Error raw}")
    | some stored => if stored ≠ tag then .fail (.schemaMismatch stored tag) else pure ()
  | none => Backend.commit [.put .meta (schemaKey id) (asBytes tag)]

def chainIdFrom : Bytes → Except Error UInt8
  | [stored] => .ok stored
  | _ => .error (.corrupt "a locker's filter chain id is not a single byte")

/-- Record, or verify, the filter chain a locker is stored under. -/
def bindChain (id : LockerId) (chain : FilterChain) (preExisting : Bool) : Io (Bank V) Unit := do
  match ← Backend.get .meta (chainKey id) with
  | some raw => do
    let stored ← Prog.ofExcept (chainIdFrom raw)
    if stored ≠ chain.id then
      .fail (.schemaMismatch
        s!"filter chain {stored}; this locker's values were sealed with it"
        s!"{chain.describe} — reopen the locker with the chain it was written under, or use a new locker name")
    else pure ()
  | none =>
    if preExisting ∧ chain.id ≠ env.chain.id then
      .fail (.schemaMismatch
        s!"no filter chain record; this locker predates per-locker chains, so its values were sealed with the bank chain ({env.chain.describe})"
        s!"{chain.describe} — reopen it under the bank chain, which records the chain id from then on, or copy its values into a new locker name")
    else Backend.commit [.put .meta (chainKey id) [chain.id]]

/-- Resolve the id, and bind both the value type and the filter chain. -/
def prepare (name tag : String) (chain : FilterChain) : Io (Bank V) LockerId := do
  let preExisting ← lockerExists name
  let id ← lockerId name
  bindSchema id tag
  bindChain env id chain preExisting
  pure id

/-! ## Opening -/

/-- The chain a locker opened with `config` reads and writes through. -/
def chainFor (config : LockerConfig) : Io (Bank V) FilterChain :=
  match config.chain with
  | some chain => do
    Prog.update fun bank => { bank with chains := Function.update bank.chains chain.id (some chain) }
    pure chain
  | none => pure env.chain

/-- The slot of an open name, unless its last handle has gone or closed. -/
def openLocker (name : String) (bank : Bank V) : Option OpenLocker :=
  bank.openLockers[asBytes name]?.filter fun o =>
    (bank.slots[o.slot]?).any fun slot => slot.alive && !slot.ram.closed

def isLockerOpen (name : String) (bank : Bank V) : Bool := (openLocker name bank).isSome

def kindWord : TxMode → String
  | .eager => "eager"
  | .lazy => "lazy"

def configConflict (a b : LockerConfig) : Option String :=
  if a.maxInline ≠ b.maxInline then some "max_inline"
  else if a.eagerBudget ≠ b.eagerBudget then some "eager_budget"
  else if a.policy ≠ b.policy then some "policy"
  else if a.commit ≠ b.commit then some "commit"
  else if a.durability ≠ b.durability then some "durability"
  else if a.onCorrupt ≠ b.onCorrupt then some "on_corrupt"
  else if a.chunkSize ≠ b.chunkSize then some "chunk_size"
  else if a.chainId ≠ b.chainId then some "filter chain"
  else none

/-- Refuse a second handle that means something else than the first. -/
def checkShared (name : String) (o : OpenLocker) (kind : TxMode) (tag : String)
    (config : LockerConfig) : Except Error Nat :=
  if o.kind ≠ kind then
    .error (.schemaMismatch s!"{kindWord o.kind} locker {name.quote}" s!"{kindWord kind} locker {name.quote}")
  else if o.typeTag ≠ tag then .error (.schemaMismatch o.typeTag tag)
  else
    match configConflict o.config config with
    | some field => .error (.invalidConfig s!"locker {name.quote} is already open with a different {field}; every handle on one name shares its state, so they must be opened the same way. Close the open handle first, or open this one with the same config.")
    | none => .ok o.slot

/-- Claim a name for a freshly opened locker, or share with who holds it. -/
def claimOpen (name : String) (kind : TxMode) (tag : String) (config : LockerConfig)
    (slot : Slot V) : Io (Bank V) Nat :=
  Prog.sync fun bank =>
    match openLocker name bank with
    | some winner =>
      let mark (s : Slot V) : Slot V := { s with ram := { s.ram with nameShared := true } }
      (checkShared name winner kind tag config,
        { bank with slots := bank.slots.modify winner.slot mark })
    | none =>
      (.ok bank.slots.length,
        { bank with slots := bank.slots ++ [slot]
                    openLockers := bank.openLockers.insert (asBytes name)
                      ⟨bank.slots.length, kind, tag, config⟩ })

def innerOf (value : Postcard V) (name : String) (config : LockerConfig) (chain : FilterChain)
    (id : LockerId) : Inner V :=
  ⟨env.backend, chain, id, name, config, value⟩

/-- Open a lazy locker, or share the one that is open. The answer is its slot. -/
def lazyLockerWith (name tag : String) (value : Postcard V) (config : LockerConfig) :
    Io (Bank V) Nat := do
  ensureOpen
  let chain ← chainFor env config
  match ← Prog.read (openLocker name) with
  | some o => Prog.ofExcept (checkShared name o .lazy tag config)
  | none => do
    let id ← prepare env name tag chain
    let inner := innerOf env value name config chain id
    let res ← (LazyLocker.openLocker inner).zoom (sharedPart V)
    claimOpen name .lazy tag config ⟨inner, Ram.opened .fresh res ∅, true⟩

/-- Open an eager locker, or share the one that is open. The answer is its slot. -/
def lockerWith (name tag : String) (value : Postcard V) (config : LockerConfig) :
    Io (Bank V) Nat := do
  ensureOpen
  let chain ← chainFor env config
  match ← Prog.read (openLocker name) with
  | some o => Prog.ofExcept (checkShared name o .eager tag config)
  | none => do
    let id ← prepare env name tag chain
    let inner := innerOf env value name config chain id
    let (values, res) ← EagerLocker.openLocker inner
    claimOpen name .eager tag config ⟨inner, Ram.opened .fresh res values, true⟩

/-! ## Bytes-level access -/

def rawLocker (name : String) : Io (Bank V) LockerId := prepare env name bytesTag env.chain

def rawGet (locker key : String) : Io (Bank V) (Option Bytes) := do
  let id ← rawLocker env locker
  match ← Backend.get .records (encode id key) with
  | some stored => do
    let v ← Prog.ofExcept (env.bytes.decode env.chain stored)
    pure (some v)
  | none => pure none

def rawPut (locker key : String) (value : Bytes) : Io (Bank V) Unit := do
  let id ← rawLocker env locker
  let sealed ← Prog.ofExcept (env.bytes.encode env.chain value)
  Backend.commit [.put .records (encode id key) sealed]

def rawDelete (locker key : String) : Io (Bank V) Unit := do
  let id ← rawLocker env locker
  Backend.commit [.delete .records (encode id key)]

def rawClear (locker : String) : Io (Bank V) Unit := do
  let id ← rawLocker env locker
  Backend.commit [.deleteRange .records (lockerRange id)]

def keysPages (id : LockerId) : Nat → KeyRange → List String → Io (Bank V) (List String)
  | 0, _, _ => .stuck
  | fuel + 1, range, acc => do
    let page ← Backend.scan ⟨.records, range, false, 256, false⟩
    let keys ← Prog.ofExcept (page.items.mapM fun item => decode id item.1)
    match page.resume with
    | some last => keysPages id fuel { range with start := .excluded last } (acc ++ keys)
    | none => pure (acc ++ keys)

def rawKeys (locker p : String) : Io (Bank V) (List String) := do
  let id ← rawLocker env locker
  keysPages id env.backend.walkFuel (prefixRange id p) []

def rawPutOps (id : LockerId) (entries : List (String × Bytes)) : Except Error (List Op) :=
  entries.mapM fun (key, value) => do
    let sealed ← env.bytes.encode env.chain value
    .ok (.put .records (encode id key) sealed)

def rawPutAll (locker : String) (entries : List (String × Bytes)) : Io (Bank V) Unit :=
  if entries.isEmpty then pure ()
  else do
    let id ← rawLocker env locker
    let ops ← Prog.ofExcept (rawPutOps env id entries)
    Backend.commit ops

def rawDeleteAll (locker : String) (keys : List String) : Io (Bank V) Unit :=
  if keys.isEmpty then pure ()
  else do
    let id ← rawLocker env locker
    Backend.commit (keys.map fun key => .delete .records (encode id key))

def rawContainsKey (locker key : String) : Io (Bank V) Bool := do
  let id ← rawLocker env locker
  let found ← Backend.get .records (encode id key)
  pure found.isSome

def lenPages : Nat → KeyRange → Nat → Io (Bank V) Nat
  | 0, _, _ => .stuck
  | fuel + 1, range, total => do
    let page ← Backend.scan ⟨.records, range, false, env.backend.scanPageSize, false⟩
    match page.resume with
    | some last => lenPages fuel { range with start := .excluded last } (total + page.items.length)
    | none => pure (total + page.items.length)

def rawLen (locker : String) : Io (Bank V) Nat := do
  let id ← rawLocker env locker
  lenPages env env.backend.walkFuel (lockerRange id) 0

/-! ## Maintenance -/

/-- The chain one locker's records are sealed with, or the bank's when nothing knows it. -/
def lockerChainOrBank (id : LockerId) : Io (Bank V) FilterChain := do
  match ← Backend.get .meta (chainKey id) with
  | none => pure env.chain
  | some raw => do
    let stored ← Prog.ofExcept (chainIdFrom raw)
    if stored = env.chain.id then pure env.chain
    else do
      let chains ← Prog.read Bank.chains
      pure ((chains stored).getD env.chain)

/-- A throwaway locker for maintenance, over an existing id. -/
def maintenanceInner (id : LockerId) (name : String) (chain : FilterChain) : Inner Bytes :=
  ⟨env.backend, chain, id, name, {}, env.bytes⟩

/-- The ops that remove the named records that are there, and how many there are. -/
def quarantineOps (inner : Inner Bytes) : List Bytes → Io (Bank V) (List Op × Nat)
  | [] => pure ([], 0)
  | key :: rest => do
    match ← inner.fetch key with
    | none => quarantineOps inner rest
    | some existing => do
      let (ops, removed) ← quarantineOps inner rest
      pure (gcParsed (some existing) ++ [inner.deleteOp key] ++ ops, removed + 1)

def quarantine (name : String) (keys : List Bytes) : Io (Bank V) Nat := do
  if (← Prog.read (isLockerOpen name)) then
    .fail (.invalidConfig s!"locker {name.quote} is still open; close it before quarantining records")
  else if keys.isEmpty then pure 0
  else if !(← lockerExists name) then pure 0
  else do
    let id ← lockerId name
    let chain ← lockerChainOrBank env id
    let (ops, removed) ← quarantineOps (maintenanceInner env id name chain) keys
    if ops.isEmpty then pure ()
    else Backend.commit ops
    pure removed

def deleteLocker (name : String) : Io (Bank V) Bool := do
  if (← Prog.read (isLockerOpen name)) then
    .fail (.invalidConfig s!"locker {name.quote} is still open; close it before deleting it")
  else if !(← lockerExists name) then pure false
  else do
    let id ← lockerId name
    let chain ← lockerChainOrBank env id
    let ops ← (maintenanceInner env id name chain).clearValueOps
    Backend.commit (ops ++ [.delete .meta (lockerKey name), .delete .meta (schemaKey id)])
    Prog.update fun bank => { bank with registry := bank.registry.erase (asBytes name) }
    Prog.update fun bank => { bank with openLockers := bank.openLockers.erase (asBytes name) }
    pure true

/-! ## What a claim leaves -/

section
variable {bank : Bank V} {name name' tag : String} {kind : TxMode} {config : LockerConfig}
  {slot : Slot V} {k : Nat}

/-- The name of the locker in a slot has one more handle. -/
def share (k : Nat) (bank : Bank V) : Bank V :=
  { bank with slots := bank.slots.modify k fun s =>
      { s with ram := { s.ram with nameShared := true } } }

def claim (name : String) (kind : TxMode) (tag : String) (config : LockerConfig) (slot : Slot V)
    (bank : Bank V) : Bank V :=
  { bank with slots := bank.slots ++ [slot]
              openLockers := bank.openLockers.insert (asBytes name)
                ⟨bank.slots.length, kind, tag, config⟩ }

theorem claimOpen_eq : claimOpen name kind tag config slot = Prog.sync fun bank : Bank V =>
    match openLocker name bank with
    | some winner => (checkShared name winner kind tag config, bank.share winner.slot)
    | none => (.ok bank.slots.length, bank.claim name kind tag config slot) := rfl

/-- A slot that is shared stays what it was, but for the mark. -/
theorem getElem?_share (k' : Nat) : (bank.share k).slots[k']? = bank.slots[k']?.map fun s =>
    if k = k' then { s with ram := { s.ram with nameShared := true } } else s := by
  rw [share, List.getElem?_modify]
  rfl

theorem openLocker_share : openLocker name (bank.share k) = openLocker name bank := by
  unfold openLocker
  congr 1
  funext o
  rw [getElem?_share, Option.any_map]
  congr 1
  funext s
  dsimp only [Function.comp]
  split <;> rfl

theorem getElem?_claim_of_some {s : Slot V} (h : bank.slots[k]? = some s) :
    (bank.claim name kind tag config slot).slots[k]? = some s :=
  (List.getElem?_append_left (List.getElem?_eq_some_iff.1 h).1).trans h

theorem getElem?_claim_last :
    (bank.claim name kind tag config slot).slots[bank.slots.length]? = some slot :=
  List.getElem?_concat_length

theorem eq_of_openLocker_claim {o : OpenLocker}
    (h : openLocker name (bank.claim name kind tag config slot) = some o) :
    o = ⟨bank.slots.length, kind, tag, config⟩ := by
  obtain ⟨ho, -⟩ := Option.filter_eq_some_iff.1 h
  rw [claim, Std.ExtTreeMap.getElem?_insert_self] at ho
  exact (Option.some.inj ho).symm

/-- A shared locker has the kind and the tag it is shared under. -/
theorem eq_of_checkShared {o : OpenLocker} (h : checkShared name o kind tag config = .ok k) :
    k = o.slot ∧ o.kind = kind ∧ o.typeTag = tag := by
  unfold checkShared at h
  split at h
  · cases h
  · next sameKind =>
    split at h
    · cases h
    · next sameTag =>
      split at h
      · cases h
      · exact ⟨(Except.ok.inj h).symm, not_not.1 sameKind, not_not.1 sameTag⟩

end

end Bank
end Crossbank
