import Crossbank.Locker.Resident

/-!
# Transactions

* `TxBody T` : what the closure of a transaction does; `TxBody.run` : the write-set it stages;
* `opsForItems` : a write-set as backend ops, collapsed to the last action per key since the last
  clear;
* `mergeBatches` : one deferred batch followed by one transaction's write-set.
-/

namespace Crossbank
open Async

inductive Staged (T : Type) where
  | put (key payload : Bytes) (value : T)
  | delete (key : Bytes)
  | clear

/-- The write that a staged mutation is, whatever its value. -/
def Staged.pending {T : Type} : Staged T → Pending
  | .put key payload _ => .put key payload
  | .delete key => .delete key
  | .clear => .clear

/-- A deferred batch, then a transaction's write-set, as one ordered list. -/
def mergeBatches {T : Type} (staged : List Pending) (tx : List (Staged T)) : List Pending :=
  staged ++ tx.map Staged.pending

/-- The closure of a transaction: it stages writes, reads through them, and answers. -/
inductive TxBody (T : Type) where
  | done (result : Except Error Unit)
  | put (key : Bytes) (value : T) (next : Except Error Unit → TxBody T)
  | delete (key : Bytes) (next : TxBody T)
  | clear (next : TxBody T)
  | get (key : Bytes) (next : Except Error (Option T) → TxBody T)

section
variable {T ρ : Type} (inner : Inner T)

/-- A read inside a transaction: its own writes first, then storage. -/
def txGet (staged : List (Staged T)) (key : Bytes) : Io ρ (Option T) :=
  match stagedView (staged.map Staged.pending) key with
  | some none => pure none
  | some (some payload) => Prog.ofExcept ((inner.value.ofPayload payload).map some)
  | none => inner.loadValue key

/-- Run the closure: the write-set it leaves, or the error it returns. -/
def TxBody.run : TxBody T → List (Staged T) → Io ρ (List (Staged T))
  | .done (.ok ()), staged => pure staged
  | .done (.error e), _ => .fail e
  | .put key value next, staged =>
    match inner.value.payload value with
    | .ok payload => (next (.ok ())).run (staged ++ [.put key payload value])
    | .error e => (next (.error e)).run staged
  | .delete key next, staged => next.run (staged ++ [.delete key])
  | .clear next, staged => next.run (staged ++ [.clear])
  | .get key next, staged => do
    let found ← (txGet inner staged key).attempt
    (next found).run staged

def putAllBody : List (Bytes × T) → TxBody T
  | [] => .done (.ok ())
  | (key, value) :: rest => .put key value fun
    | .ok () => putAllBody rest
    | .error e => .done (.error e)

def deleteAllBody : List Bytes → TxBody T
  | [] => .done (.ok ())
  | key :: rest => .delete key (deleteAllBody rest)

/-! ## Building the commit -/

/-- The last thing a write-set does to a key. -/
inductive Action where
  | put (payload : Bytes)
  | delete
  deriving DecidableEq, Repr

/-- What a batch does after its last clear. -/
def afterLastClear (staged : List Pending) : List Pending :=
  (staged.reverse.takeWhile (· ≠ .clear)).reverse

def actionsOf (tail : List Pending) : Std.ExtTreeMap Bytes Action compare :=
  tail.foldl (fun actions entry =>
    match entry with
    | .put key payload => actions.insert key (.put payload)
    | .delete key => actions.insert key .delete
    | .clear => actions) ∅

/-- The op that drops the chunks of what an eager locker overwrites. A pointer that does not parse
has none that can be located. -/
def gcParsed : Option Bytes → List Op
  | none => []
  | some existing =>
    if isPointer existing then
      match ChunkPointer.parse existing with
      | .ok pointer => [gcOps pointer]
      | .error _ => []
    else []

/-- The ops of an eager write: sealed inline, checked against the limit. -/
def eagerPutOps (key payload : Bytes) : Io ρ (List Op) := do
  let sealed ← Prog.ofExcept (inner.chain.sealSlice payload)
  if sealed.length > inner.config.maxInline then
    .fail (.valueTooLarge sealed.length inner.config.maxInline)
  else do
    let existing ← inner.fetch key
    pure (gcParsed existing ++ [.put .records (inner.encodeKey key) sealed])

def actionOps (mode : TxMode) (key : Bytes) : Action → Io Shared (List Op)
  | .delete => inner.deleteValueOps key .unknown
  | .put payload =>
    match mode with
    | .lazy => inner.putPayloadOps key payload FLAG_POSTCARD .unknown
    | .eager => eagerPutOps inner key payload

def actionsOps (mode : TxMode) : List (Bytes × Action) → Io Shared (List Op)
  | [] => pure []
  | (key, action) :: rest => do
    let ops ← actionOps inner mode key action
    let more ← actionsOps mode rest
    pure (ops ++ more)

def opsForItems (staged : List Pending) (mode : TxMode) : Io Shared (List Op) := do
  let ops ← (if .clear ∈ staged then inner.clearValueOps else pure [])
  let more ← actionsOps inner mode (actionsOf (afterLastClear staged)).toList
  pure (ops ++ more)

/-- The deferred-write twin of `opsForItems`: a staged batch is a write-set already. -/
def opsForPending (staged : List Pending) (mode : TxMode) : Io Shared (List Op) :=
  opsForItems inner staged mode

end

/-! ## Flushing -/

section Flush
variable {T : Type} (inner : Inner T)

/-- The ops of a batch with those of the byte budget. -/
def batchOps (merged : List Pending) (mode : TxMode) : Io (Ram T) (List Op × Budget) := do
  let ops ← (opsForPending inner merged mode).zoom (sharedPart T)
  let acc := accounting merged
  budgetOps inner ops acc.updates acc.removals acc.cleared (acc.updates.map Prod.fst)

/-- Commit everything staged. The caller holds the write lock. -/
def flushLocked : Io (Ram T) Unit := do
  let entries ← takeStaged
  Prog.guarded dropDrained do
    if entries.isEmpty then pure ()
    else do
      let mode ← Prog.read fun ram => ram.res.mode
      let (ops, budget) ← restagingOnError entries (batchOps inner entries mode)
      restagingOnError entries (inner.commit ops)
      Prog.update (applyBudget budget)

def Resident.flush : Io (Ram T) Unit := do
  if (← Prog.read fun ram => ram.res.staged.length) = 0 then pure ()
  else withWriteLock (flushLocked inner)

end Flush
end Crossbank
