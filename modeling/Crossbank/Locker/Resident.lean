import Crossbank.Locker.Inner

/-!
# A locker's resident state

* `Resident` : the key index, the byte budget, the staged writes, and what is known to be inline;
* `Ram T` : everything one open locker keeps in memory;
* `Ram.prior` : what a locker can prove about the record under a key;
* `stagedView` : the staged payload of a key; `accounting` : what a batch does to the byte budget;
* `withWriteLock` : a call that holds the write lock until it ends or is dropped;
* `takeStaged`, `restage` : the staged batch, drained into a call and put back.
-/

namespace Crossbank
open Async

/-- One write waiting for a commit. -/
inductive Pending where
  | put (key payload : Bytes)
  | delete (key : Bytes)
  | clear
  deriving DecidableEq, Repr

/-- What one commit does to an evictable locker's accounting. -/
structure Budget where
  updates : List (Bytes × Entry) := []
  removals : List Bytes := []
  cleared : Bool := false
  plan : Plan := ⟨[], 0⟩
  pending : List Bytes := []
  deriving DecidableEq, Repr

/-- `drained` is the batch held by the one call that has taken it out of `staged` and has neither
committed it nor put it back. -/
structure Resident where
  mode : TxMode
  index : Option KeySet
  lru : Option LruState
  staged : List Pending
  drained : List Pending
  knownInline : Option KeySet
  corrupt : KeySet
  dropped : KeySet
  deriving DecidableEq

namespace Resident

def new (mode : TxMode) (index : Option KeySet) (lru : Option LruState) : Resident :=
  { mode := mode, index := index, lru := lru, staged := [], drained := []
    knownInline := index.map fun _ => ∅, corrupt := ∅, dropped := ∅ }

def noteCorrupt (key : Bytes) (r : Resident) : Resident :=
  { r with corrupt := r.corrupt.insert key }

def noteDropped (key : Bytes) (r : Resident) : Resident :=
  { r with dropped := r.dropped.insert key }

def forgetDropped (key : Bytes) (r : Resident) : Resident :=
  { r with dropped := r.dropped.erase key }

def forgetAllDropped (r : Resident) : Resident := { r with dropped := ∅ }

/-- Whether a record is stored under a key whose value the locker does not hold. -/
def storedButUnheld (key : Bytes) (r : Resident) : Bool :=
  r.corrupt.contains key || r.dropped.contains key

def touchIndex (f : KeySet → KeySet) (r : Resident) : Resident := { r with index := r.index.map f }

/-- Record that a key now holds an inline record, or that nothing is known any more. -/
def noteInline (key : Bytes) (inline : Bool) (r : Resident) : Resident :=
  { r with knownInline := r.knownInline.map fun known =>
      if inline then known.insert key else known.erase key }

def forgetInline (r : Resident) : Resident := { r with knownInline := r.knownInline.map fun _ => ∅ }

def drain (r : Resident) : Resident := { r with staged := [], drained := r.staged }

/-- A drained batch is back at the front, ahead of anything staged since. -/
def putBack (entries : List Pending) (r : Resident) : Resident :=
  { r with staged := entries ++ r.staged, drained := [] }

/-- The call that held a drained batch has ended. -/
def letGo (r : Resident) : Resident := { r with drained := [] }

end Resident

/-- What one open locker keeps in memory. -/
structure Ram (T : Type) where
  shared : Shared
  writeLock : Bool
  closed : Bool
  nameShared : Bool
  events : List Notice
  res : Resident
  values : Std.ExtTreeMap Bytes T compare

def Ram.lock {T : Type} (ram : Ram T) : Ram T := { ram with writeLock := true }

def Ram.unlock {T : Type} (ram : Ram T) : Ram T := { ram with writeLock := false }

instance {T : Type} : WriteLock (Ram T) :=
  ⟨fun ram => if ram.writeLock then none else some ram.lock⟩

def sharedPart (T : Type) : Part (Ram T) Shared where
  get ram := ram.shared
  set s ram := { ram with shared := s }
  get_set _ _ := rfl
  set_get _ := rfl
  set_set _ _ _ := rfl

/-- Take the write lock, and let it go when the body ends or is dropped. -/
def withWriteLock {T α : Type} (body : Io (Ram T) α) : Io (Ram T) α := do
  Prog.ask Req.lock
  body.guarded Ram.unlock

namespace Ram
variable {T : Type}

def opened (shared : Shared) (res : Resident) (values : Std.ExtTreeMap Bytes T compare) : Ram T :=
  ⟨shared, false, false, false, [], res, values⟩

def ensureOpen : Io (Ram T) Unit :=
  Prog.sync fun ram => (if ram.closed then .error .closed else .ok (), ram)

def announce (event : Notice) (ram : Ram T) : Ram T := { ram with events := ram.events ++ [event] }

def mapRes (f : Resident → Resident) (ram : Ram T) : Ram T := { ram with res := f ram.res }

/-- Whether the key index may prove a key absent. -/
def indexIsAuthoritative (ram : Ram T) : Bool := !ram.nameShared

/-- What this locker can prove about the record under a key. -/
def prior (key : Bytes) (ram : Ram T) : Prior :=
  if ram.res.staged.length ≠ 0 then .unknown
  else if !ram.indexIsAuthoritative then .unknown
  else
    match ram.res.index with
    | none => .unknown
    | some index =>
      if !index.contains key then .absent
      else
        match ram.res.knownInline with
        | some known => if known.contains key then .inline else .unknown
        | none => .unknown

end Ram

/-! ## The byte budget -/

section Budget
variable {T : Type} (inner : Inner T)

def noteRead (key : Bytes) : Io (Ram T) Unit := do
  if (← Prog.read fun ram => ram.res.lru.isNone) then pure ()
  else do
    let tick ← Ticks.allocate.zoom (sharedPart T)
    Prog.update (Ram.mapRes fun r => { r with lru := r.lru.map (·.touch key tick) })

/-- Reload the accounting when it is known to be incomplete. -/
def reloadLruIfDirty : Io (Ram T) Unit := do
  let lru ← Prog.read fun ram => ram.res.lru
  match lru with
  | none => pure ()
  | some state =>
    if !state.dirty then pure ()
    else do
      let loaded ← (loadLru inner.backend inner.id state.maxBytes).zoom (sharedPart T)
      Prog.update (Ram.mapRes fun r => { r with lru := r.lru.map (·.adoptLoaded loaded) })

def victimOps {ρ : Type} : List Bytes → Io ρ (List Op)
  | [] => pure []
  | victim :: rest => do
    let ops ← inner.deleteValueOps victim .unknown
    let more ← victimOps rest
    pure (ops ++ [Lru.deleteOp inner.id victim] ++ more)

/-- The ops of one commit with those of the byte budget, and what the commit does to it. -/
def budgetOps (ops : List Op) (updates : List (Bytes × Nat)) (removals : List Bytes)
    (cleared : Bool) (keep : List Bytes) : Io (Ram T) (List Op × Budget) := do
  if (← Prog.read fun ram => ram.res.lru.isNone) then pure (ops, {})
  else do
    reloadLruIfDirty inner
    let tick ← Ticks.allocate.zoom (sharedPart T)
    let updates := updates.map fun (key, bytes) => (key, (⟨tick, bytes⟩ : Entry))
    let lru ← Prog.read fun ram => ram.res.lru
    match lru with
    | none => pure (ops, {})
    | some state => do
      let plan := state.plan updates removals cleared state.maxBytes keep
      let (pending, pendingOps) :=
        if cleared then ([], []) else state.pendingOps inner.id (updates.map Prod.fst)
      let accounts := (if cleared then [Lru.clearOp inner.id] else []) ++
        updates.map (fun (key, entry) => Lru.putOp inner.id key entry) ++ pendingOps ++
        removals.map (Lru.deleteOp inner.id)
      let shed ← victimOps inner plan.victims
      let counter ← Prog.read fun ram => Ticks.counterOp ram.shared
      pure (ops ++ accounts ++ shed ++ [counter], ⟨updates, removals, cleared, plan, pending⟩)

/-- Apply the accounting, drop the evicted keys from the index, and say so. -/
def applyBudget (budget : Budget) (ram : Ram T) : Ram T :=
  let r := ram.res
  let lru := r.lru.map (LruState.apply budget.updates budget.removals budget.cleared budget.plan)
  let r := { r with lru := lru.map (LruState.clearPending budget.pending) }
  let r := r.touchIndex fun index => budget.plan.victims.foldl (fun i victim => i.erase victim) index
  let r := budget.plan.victims.foldl (fun r victim => r.noteInline victim false) r
  { ram with res := r, events := ram.events ++ budget.plan.victims.map Notice.evicted }

/-- Shed least-recently-used keys until at most `bytes` remain accounted. -/
def Resident.evictTo (bytes : Nat) : Io (Ram T) Nat := do
  if (← Prog.read fun ram => ram.res.lru.isNone) then pure 0
  else withWriteLock do
    let lru ← Prog.read fun ram => ram.res.lru
    match lru with
    | none => pure 0
    | some state => do
      let plan := state.plan [] [] false bytes []
      if plan.victims.isEmpty then pure 0
      else do
        let ops ← victimOps inner plan.victims
        inner.commit ops
        Prog.update (applyBudget { plan := plan })
        pure plan.victims.length

end Budget

/-! ## Staged writes -/

section Staged
variable {T : Type} (inner : Inner T)

def isDeferred : Bool := inner.config.deferredAfter.isSome

/-- Queue a write, and say whether the batch is now full. -/
def stage (entry : Pending) : Io (Ram T) Bool :=
  Prog.sync fun ram =>
    let staged := ram.res.staged ++ [entry]
    let full := match inner.config.deferredAfter with
      | some after => decide (after ≤ staged.length)
      | none => false
    (.ok full, ram.mapRes fun r => { r with staged := staged })

/-- The staged payload for a key: `none` when nothing staged has touched it, `some none` when the
last thing staged removed it. -/
def stagedView (staged : List Pending) (key : Bytes) : Option (Option Bytes) :=
  staged.reverse.findSome? fun
    | .put k payload => if k = key then some (some payload) else none
    | .delete k => if k = key then some none else none
    | .clear => some none

/-- Take the staged batch out. The call that does so holds it from here on. -/
def takeStaged : Io (Ram T) (List Pending) :=
  Prog.sync fun ram => (.ok ram.res.staged, ram.mapRes Resident.drain)

def restage (entries : List Pending) : Io (Ram T) Unit :=
  Prog.update (Ram.mapRes (Resident.putBack entries))

/-- The end of the scope that holds a drained batch. -/
def dropDrained : Ram T → Ram T := Ram.mapRes Resident.letGo

/-- Run `p`; when it fails, put the batch back and fail. -/
def restagingOnError {α : Type} (entries : List Pending) (p : Io (Ram T) α) : Io (Ram T) α := do
  match ← p.attempt with
  | .ok a => pure a
  | .error e => do
    restage entries
    .fail e

def discardStaged : Io (Ram T) Unit := Prog.update (Ram.mapRes fun r => { r with staged := [] })

/-- Keys written with their payload sizes, keys removed, and whether the batch clears. -/
structure Accounting where
  updates : List (Bytes × Nat)
  removals : List Bytes
  cleared : Bool
  deriving DecidableEq, Repr

/-- What a batch of staged writes does to the byte budget, collapsed. -/
def accounting (entries : List Pending) : Accounting :=
  entries.foldl (fun acc entry =>
    match entry with
    | .put key payload =>
      { acc with updates := acc.updates.filter (·.1 ≠ key) ++ [(key, payload.length)]
                 removals := acc.removals.filter (· ≠ key) }
    | .delete key =>
      { acc with updates := acc.updates.filter (·.1 ≠ key), removals := acc.removals ++ [key] }
    | .clear => ⟨[], [], true⟩) ⟨[], [], false⟩

end Staged

/-- The accounting a locker opens with, or nothing where it has no budget. -/
def openLru {T : Type} (inner : Inner T) (index : KeySet) : Io Shared (Option LruState) :=
  match inner.config.policy with
  | .precious => pure none
  | .evictable maxBytes => do
    let state ← loadLru inner.backend inner.id maxBytes
    let state := state.retainKeys fun k => index.contains k
    pure (some (index.toList.foldl (fun state key => state.adopt key) state))

end Crossbank
