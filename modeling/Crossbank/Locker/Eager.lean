import Crossbank.Locker.Lazy

/-!
# The eager locker

Every value resident, reads synchronous.

* `EagerLocker.openLocker` : the values and the resident state an eager locker opens with;
* `EagerLocker.putBy`, `deleteBy`, `clear`, `transact`, `flush` : its calls;
* `EagerLocker.getBy`, `keysBytes`, `len` : what it answers from memory.
-/

namespace Crossbank
open Async

namespace EagerLocker
variable {T ρ : Type} (inner : Inner T)

structure Loading (T : Type) where
  values : Std.ExtTreeMap Bytes T compare
  corrupt : List Bytes
  loaded : Nat
  overflow : Bool

def loadVisit (acc : Loading T) (key : Bytes) (raw : Option Bytes) : Except Error (Loading T) :=
  match raw with
  | none => .error (.corrupt s!"backend omitted a value for key {key}")
  | some bytes =>
    let acc := { acc with loaded := satAdd acc.loaded bytes.length }
    if acc.loaded > inner.config.eagerBudget then .ok { acc with overflow := true }
    else
      match inner.value.decode inner.chain bytes with
      | .ok value => .ok { acc with values := acc.values.insert key value }
      | .error e =>
        if inner.config.onCorrupt = .skip ∧ e.isCorruption = true then
          .ok { acc with corrupt := acc.corrupt ++ [key] }
        else .error e

/-- Open: load every value, refusing an evictable policy and contents over the budget. -/
def openLocker : Io ρ (Std.ExtTreeMap Bytes T compare × Resident) := do
  match inner.config.policy with
  | .evictable _ =>
    .fail (.invalidConfig s!"locker {inner.name.quote} is eager, which cannot use an evictable policy; use a lazy locker instead")
  | .precious => do
    let acc ← inner.walk .unbounded .unbounded false true (loadVisit inner) ⟨∅, [], 0, false⟩
    if acc.overflow then .fail (.lockerTooLarge acc.loaded inner.config.eagerBudget)
    else
      let res := acc.corrupt.foldl (fun r key => r.noteCorrupt key) (Resident.new .eager none none)
      pure (acc.values, res)

/-! ## Reading -/

def getBy (key : Bytes) (ram : Ram T) : Option T := ram.values[key]?

def containsKeyBy (key : Bytes) (ram : Ram T) : Bool := ram.values.contains key

def len (ram : Ram T) : Nat := ram.values.size

def keysBytes (ram : Ram T) : List Bytes := ram.values.keys

def keys (ram : Ram T) : List String := (keysBytes ram).filterMap fromUtf8

/-! ## Writing -/

def mirrorPut (key : Bytes) (value : T) : Io (Ram T) Unit := do
  Prog.update fun ram => { ram with values := ram.values.insert key value }
  Prog.update (Ram.mapRes (Resident.forgetDropped key))
  Prog.update (Ram.announce (.put key))

def putBy (key : Bytes) (value : T) : Io (Ram T) T := do
  Ram.ensureOpen
  let sealed ← Prog.ofExcept (inner.value.encode inner.chain value)
  if sealed.length > inner.config.maxInline then
    .fail (.valueTooLarge sealed.length inner.config.maxInline)
  else if isDeferred inner then do
    let payload ← Prog.ofExcept (inner.value.payload value)
    let full ← stage inner (.put key payload)
    mirrorPut key value
    if full then withWriteLock (flushLocked inner)
    pure value
  else do
    inner.commit [.put .records (inner.encodeKey key) sealed]
    mirrorPut key value
    pure value

def flush : Io (Ram T) Unit := LazyLocker.both (Resident.flush inner) inner.flushBackend

/-- Whether this locker holds a record under a key. -/
def holds (key : Bytes) (ram : Ram T) : Bool :=
  ram.values.contains key || ram.res.storedButUnheld key

def mirrorDelete (key : Bytes) (held : Bool) : Io (Ram T) Unit := do
  Prog.update fun ram => { ram with values := ram.values.erase key }
  Prog.update (Ram.mapRes (Resident.forgetDropped key))
  if held then Prog.update (Ram.announce (.deleted key))

def deleteBy (key : Bytes) : Io (Ram T) Unit := do
  Ram.ensureOpen
  let held ← Prog.read (holds key)
  let authoritative ← Prog.read Ram.indexIsAuthoritative
  if !held && authoritative then pure ()
  else if isDeferred inner then do
    let full ← stage inner (.delete key)
    mirrorDelete key held
    if full then withWriteLock (flushLocked inner)
  else do
    inner.commit [inner.deleteOp key]
    mirrorDelete key held

def mirrorClear : Io (Ram T) Unit := do
  Prog.update fun ram => { ram with values := ∅ }
  Prog.update (Ram.mapRes Resident.forgetAllDropped)
  Prog.update (Ram.announce .cleared)

def clear : Io (Ram T) Unit := do
  Ram.ensureOpen
  if isDeferred inner then do
    let full ← stage inner .clear
    mirrorClear
    if full then withWriteLock (flushLocked inner)
  else do
    inner.commit [inner.clearOp]
    mirrorClear

/-- Mirror one entry of a write-set, and say what there is to announce. A delete is only news if it
took something away. -/
def mirrorEntry (state : Ram T × List Notice) (entry : Staged T) : Ram T × List Notice :=
  let (ram, news) := state
  match entry with
  | .put key _ value => ({ ram with values := ram.values.insert key value }, news ++ [.put key])
  | .delete key =>
    let removed := holds key ram
    ({ ram with values := ram.values.erase key, res := ram.res.forgetDropped key },
      if removed then news ++ [.deleted key] else news)
  | .clear =>
    ({ ram with values := ∅, res := ram.res.forgetAllDropped }, news ++ [.cleared])

def transact (body : TxBody T) : Io (Ram T) Unit := do
  Ram.ensureOpen
  withWriteLock do
    let entries ← body.run inner []
    if entries.isEmpty then pure ()
    else do
      let stagedBefore ← takeStaged
      Prog.guarded dropDrained do
        let merged := mergeBatches stagedBefore entries
        let ops ← restagingOnError stagedBefore
          ((opsForPending inner merged .eager).zoom (sharedPart T))
        restagingOnError stagedBefore (inner.commit ops)
        Prog.update fun ram =>
          let (ram, news) := entries.foldl mirrorEntry (ram, [])
          { ram with events := ram.events ++ news }

def putAll (entries : List (Bytes × T)) : Io (Ram T) Unit :=
  if entries.isEmpty then pure () else transact inner (putAllBody entries)

def deleteAll (keys : List Bytes) : Io (Ram T) Unit :=
  if keys.isEmpty then pure () else transact inner (deleteAllBody keys)

/-- Flush, then close whether or not the flush landed. -/
def close : Io (Ram T) Unit := do
  let flushed ← (Resident.flush inner).attempt
  if flushed.isOk then discardStaged
  let forced ← inner.flushBackend.attempt
  Prog.update fun ram => { ram with closed := true }
  Prog.update fun ram => { ram with values := ∅ }
  Prog.ofExcept flushed
  Prog.ofExcept forced

end EagerLocker
end Crossbank
