import Crossbank.Locker.Transaction

/-!
# The lazy locker

Keys resident, values on demand.

* `LazyLocker.openLocker` : the resident state a lazy locker opens with;
* `LazyLocker.getBy`, `putBy`, `deleteBy`, `clear`, `transact`, `flush`, `evictTo` : its calls;
* `LazyLocker.collect` : the shared body of every listing, `rangeRev` and `latest` among them;
* `LazyLocker.keysBytes`, `len`, `containsKeyBy` : what it answers from its index.
-/

namespace Crossbank
open Async

/-- Where one entry of a listing came from: a sealed record, or a staged payload. -/
inductive Source where
  | stored (bytes : Bytes)
  | staged (payload : Bytes)
  deriving DecidableEq, Repr

namespace LazyLocker
variable {T : Type} (inner : Inner T)

/-- Open: read the keys, and the accounting of a budget. -/
def openLocker : Io Shared Resident := do
  let index ← inner.walk .unbounded .unbounded false false
    (fun (index : KeySet) key _ => .ok (index.insert key)) ∅
  let lru ← openLru inner index
  pure (Resident.new .lazy (some index) lru)

/-! ## Reading -/

/-- Read a value, noting a key whose bytes are damaged. -/
def loadAndNote (key : Bytes) : Io (Ram T) (Option T) := do
  match ← (inner.loadValue key).attempt with
  | .ok found => pure found
  | .error e => do
    if inner.config.onCorrupt = .skip ∧ e.isCorruption = true then
      Prog.update (Ram.mapRes (Resident.noteCorrupt key))
    .fail e

def getBy (key : Bytes) : Io (Ram T) (Option T) := do
  Ram.ensureOpen
  let staged ← Prog.read fun ram => ram.res.staged
  match stagedView staged key with
  | some none => pure none
  | some (some payload) => Prog.ofExcept ((inner.value.ofPayload payload).map some)
  | none => do
    let found ← loadAndNote inner key
    if found.isSome then noteRead key
    pure found

def decodeEntries : List (Bytes × Source) → Io (Ram T) (List (Bytes × T))
  | [] => pure []
  | (key, source) :: rest => do
    let v ← match source with
      | .stored bytes => inner.decodeRecord bytes
      | .staged payload => Prog.ofExcept (inner.value.ofPayload payload)
    let more ← decodeEntries rest
    pure ((key, v) :: more)

/-- Keep a walked record, up to a cap. -/
def collectVisit (cap : Option Nat) (stored : List (Bytes × Bytes)) (key : Bytes)
    (value : Option Bytes) : Except Error (List (Bytes × Bytes)) :=
  if cap.any (· ≤ stored.length) then .ok stored
  else
    match value with
    | none => .error (.corrupt s!"backend omitted a value for key {key}")
    | some bytes => .ok (stored ++ [(key, bytes)])

/-- What was stored, overlaid with what is staged, inside the bounds. -/
def overlay (staged : List Pending) (start stop : Bound Bytes) (stored : List (Bytes × Bytes)) :
    Std.ExtTreeMap Bytes Source compare :=
  let stored := if .clear ∈ staged then [] else stored
  (afterLastClear staged).foldl (fun merged entry =>
    match entry with
    | .put key payload =>
      if inBounds key start stop then merged.insert key (.staged payload) else merged
    | .delete key => merged.erase key
    | .clear => merged)
    (stored.foldl (fun merged e => merged.insert e.1 (.stored e.2)) ∅)

/-- Walk storage, fold in what is staged, and decode. -/
def collect (start stop : Bound Bytes) (reverse : Bool) (limit : Option Nat) :
    Io (Ram T) (List (Bytes × T)) := do
  let staged ← Prog.read fun ram => ram.res.staged
  -- Only a locker with nothing staged can apply the limit during the walk.
  let cap := if staged.isEmpty then limit else none
  let stored ← inner.walk start stop reverse true (collectVisit cap) []
  if staged.isEmpty then
    decodeEntries inner (stored.map fun e => (e.1, .stored e.2))
  else do
    let items := (overlay staged start stop stored).toList
    let items := if reverse then items.reverse else items
    let items := match limit with
      | some limit => items.take limit
      | none => items
    decodeEntries inner items

def utf8Entries {α : Type} (entries : List (Bytes × α)) : List (String × α) :=
  entries.filterMap fun e => (fromUtf8 e.1).map fun key => (key, e.2)

/-- `key::as_bytes`. -/
def boundBytes : Bound String → Bound Bytes
  | .unbounded => .unbounded
  | .included key => .included (asBytes key)
  | .excluded key => .excluded (asBytes key)

def rangeRev (start stop : Bound String) : Io (Ram T) (List (String × T)) := do
  let entries ← collect inner (boundBytes start) (boundBytes stop) true none
  pure (utf8Entries entries)

/-- The first `limit` entries of a descending scan. -/
def latest (limit : Nat) : Io (Ram T) (List (String × T)) := do
  let entries ← collect inner .unbounded .unbounded true (some limit)
  pure (utf8Entries entries)

def index (ram : Ram T) : KeySet := ram.res.index.getD ∅

def keysBytes (ram : Ram T) : List Bytes := (index ram).toList

def len (ram : Ram T) : Nat := (index ram).size

def containsKeyBy (key : Bytes) (ram : Ram T) : Bool := (index ram).contains key

def keys (ram : Ram T) : List String := (keysBytes ram).filterMap fromUtf8

/-! ## Writing -/

def putBy (key : Bytes) (value : T) : Io (Ram T) Unit := do
  Ram.ensureOpen
  withWriteLock do
    let payload ← Prog.ofExcept (inner.value.payload value)
    if isDeferred inner then do
      let full ← stage inner (.put key payload)
      Prog.update (Ram.mapRes (·.touchIndex (·.insert key)))
      Prog.update (Ram.mapRes (·.noteInline key false))
      Prog.update (Ram.announce (.put key))
      if full then flushLocked inner
    else do
      let prior ← Prog.read (Ram.prior key)
      let inline := inner.storesInline payload.length FLAG_POSTCARD
      let ops ← (inner.putPayloadOps key payload FLAG_POSTCARD prior).zoom (sharedPart T)
      let (ops, budget) ← budgetOps inner ops [(key, payload.length)] [] false [key]
      inner.commit ops
      Prog.update (Ram.mapRes (·.touchIndex (·.insert key)))
      Prog.update (Ram.mapRes (·.noteInline key inline))
      Prog.update (applyBudget budget)
      Prog.update (Ram.announce (.put key))

def deleteBy (key : Bytes) : Io (Ram T) Unit := do
  Ram.ensureOpen
  withWriteLock do
    if isDeferred inner then do
      let full ← stage inner (.delete key)
      Prog.update (Ram.mapRes (·.touchIndex (·.erase key)))
      Prog.update (Ram.mapRes (·.noteInline key false))
      Prog.update (Ram.announce (.deleted key))
      if full then flushLocked inner
    else do
      let prior ← Prog.read (Ram.prior key)
      let ops ← inner.deleteValueOps key prior
      let (ops, budget) ← budgetOps inner ops [] [key] false []
      inner.commit ops
      Prog.update (Ram.mapRes (·.touchIndex (·.erase key)))
      Prog.update (Ram.mapRes (·.noteInline key false))
      Prog.update (applyBudget budget)
      Prog.update (Ram.announce (.deleted key))

def clear : Io (Ram T) Unit := do
  Ram.ensureOpen
  withWriteLock do
    if isDeferred inner then do
      let full ← stage inner .clear
      Prog.update (Ram.mapRes (·.touchIndex fun _ => ∅))
      Prog.update (Ram.mapRes Resident.forgetInline)
      Prog.update (Ram.announce .cleared)
      if full then flushLocked inner
    else do
      let ops ← inner.clearValueOps
      let (ops, budget) ← budgetOps inner ops [] [] true []
      inner.commit ops
      Prog.update (Ram.mapRes (·.touchIndex fun _ => ∅))
      Prog.update (Ram.mapRes Resident.forgetInline)
      Prog.update (applyBudget budget)
      Prog.update (Ram.announce .cleared)

/-- What a committed write-set does to the key index. -/
def indexAfter (entries : List (Staged T)) (index : KeySet) : KeySet :=
  entries.foldl (fun index entry =>
    match entry with
    | .put key .. => index.insert key
    | .delete key => index.erase key
    | .clear => ∅) index

def noticeOf : Staged T → Notice
  | .put key .. => .put key
  | .delete key => .deleted key
  | .clear => .cleared

/-- Run a transaction: every staged write lands together, or none does. -/
def transact (body : TxBody T) : Io (Ram T) Unit := do
  Ram.ensureOpen
  withWriteLock do
    let entries ← body.run inner []
    if entries.isEmpty then pure ()
    else do
      let stagedBefore ← takeStaged
      Prog.guarded dropDrained do
        let merged := mergeBatches stagedBefore entries
        let (ops, budget) ← restagingOnError stagedBefore (batchOps inner merged .lazy)
        restagingOnError stagedBefore (inner.commit ops)
        Prog.update (Ram.mapRes (·.touchIndex (indexAfter entries)))
        Prog.update (Ram.mapRes Resident.forgetInline)
        Prog.update (applyBudget budget)
        Prog.update fun ram => { ram with events := ram.events ++ entries.map noticeOf }

def putAll (entries : List (Bytes × T)) : Io (Ram T) Unit :=
  if entries.isEmpty then pure () else transact inner (putAllBody entries)

def deleteAll (keys : List Bytes) : Io (Ram T) Unit :=
  if keys.isEmpty then pure () else transact inner (deleteAllBody keys)

/-- `Result::and` of two calls that both run. -/
def both {ρ : Type} (first second : Io ρ Unit) : Io ρ Unit := do
  let a ← first.attempt
  let b ← second.attempt
  Prog.ofExcept a
  Prog.ofExcept b

def flush : Io (Ram T) Unit := both (Resident.flush inner) inner.flushBackend

def evictTo (bytes : Nat) : Io (Ram T) Nat := do
  Ram.ensureOpen
  Resident.evictTo inner bytes

/-- Flush, then close whether or not the flush landed. -/
def close : Io (Ram T) Unit := do
  let flushed ← (Resident.flush inner).attempt
  if flushed.isOk then discardStaged
  let forced ← inner.flushBackend.attempt
  Prog.update fun ram => { ram with closed := true }
  Prog.update (Ram.mapRes (·.touchIndex fun _ => ∅))
  Prog.update (Ram.mapRes Resident.forgetInline)
  Prog.ofExcept flushed
  Prog.ofExcept forced

end LazyLocker
end Crossbank
