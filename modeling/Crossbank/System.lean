import Crossbank.Async.Share
import Crossbank.Locker.Session
import Crossbank.Retry

/-!
# A bank and its open lockers

The calls of one bank and those of the lockers opened from it, on one store and one memory. A call of
a locker names its slot, and works on the memory of that slot.

* `ramOf`, `setRam` : the memory of the locker in a slot;
* `SysServed` : the answers a request may get; `serveSys` : computed ones;
* `BankCall` : opens, deletions, the calls of open lockers, and the end of a last handle.
-/

namespace Crossbank
open Async

namespace Bank
variable {V : Type}

/-! ## The memory of a slot -/

/-- The memory of the locker in a slot. The cursors are those of the bank. -/
def ramOf (k : Nat) (bank : Bank V) : Option (Ram V) :=
  bank.slots[k]?.map fun slot => { slot.ram with shared := bank.shared }

def setRam (k : Nat) (ram : Ram V) (bank : Bank V) : Bank V :=
  { bank with
    shared := ram.shared
    slots := bank.slots.modify k fun slot =>
      { slot with ram := { ram with shared := slot.ram.shared } } }

variable {bank : Bank V} {ram : Ram V} {k : Nat}

theorem getElem?_setRam (k' : Nat) : (bank.setRam k ram).slots[k']? = bank.slots[k']?.map fun slot =>
    if k = k' then { slot with ram := { ram with shared := slot.ram.shared } } else slot := by
  rw [setRam, List.getElem?_modify]
  rfl

@[simp] theorem length_setRam : (bank.setRam k ram).slots.length = bank.slots.length :=
  List.length_modify _ _ _

/-- A call on a slot leaves every slot what it was opened as. -/
theorem inner_setRam (k' : Nat) :
    (bank.setRam k ram).slots[k']?.map Slot.inner = bank.slots[k']?.map Slot.inner := by
  rw [getElem?_setRam, Option.map_map]
  congr 1
  funext slot
  dsimp only [Function.comp]
  split <;> rfl

/-! ## Requests -/

/-- A request of a locker carries its slot. -/
abbrev SysReq := Option Nat × Req

abbrev SysResp (q : SysReq) := Resp q.2

abbrev SysIo (V α : Type) := Prog SysReq SysResp Error (Bank V) α

def SysServed : (q : SysReq) → Machine Tables (Bank V) → SysResp q → Machine Tables (Bank V) → Prop
  | (none, q), m, x, m' => Served q m x m'
  | (some k, q), m, x, m' => ∃ ram m₁, ramOf k m.mem = some ram ∧ Served q ⟨m.dev, ram⟩ x m₁ ∧
      m' = ⟨m₁.dev, m.mem.setRam k m₁.mem⟩

def serveSys (n : Nat) : (q : SysReq) → Machine Tables (Bank V) →
    Option (SysResp q × Machine Tables (Bank V))
  | (none, q), m => serve n q m
  | (some k, q), m =>
    match ramOf k m.mem with
    | none => none
    | some ram => (serve n q ⟨m.dev, ram⟩).map fun a => (a.1, ⟨a.2.dev, m.mem.setRam k a.2.mem⟩)

theorem serveSys_sound (n : Nat) (q : SysReq) (m : Machine Tables (Bank V)) (x : SysResp q)
    (m' : Machine Tables (Bank V)) (h : serveSys n q m = some (x, m')) : SysServed q m x m' := by
  obtain ⟨k, q⟩ := q
  cases k with
  | none => exact serve_sound n q m x m' h
  | some k =>
    simp only [serveSys] at h
    split at h
    · cases h
    · next ram hram =>
      obtain ⟨⟨x', m₁⟩, hserve, ha⟩ := Option.map_eq_some_iff.1 h
      obtain ⟨rfl, rfl⟩ := Prod.mk.inj ha
      exact ⟨ram, m₁, hram, serve_sound n q _ _ _ hserve, rfl⟩

/-! ## Calls -/

def onSlot (k : Nat) (mode : TxMode) (call : Inner V → Io (Ram V) Unit) : SysIo V (Option Nat) := do
  match ← Prog.read fun bank : Bank V => bank.slots[k]?.filter (·.ram.res.mode = mode) with
  | some slot =>
    (fun _ => none) <$> (((call slot.inner).within (ramOf k) (setRam k)).tagged (some k) :
      SysIo V Unit)
  | none => .stuck

end Bank

/-- A call of a bank or of a locker opened from it. `release` is the end of a locker's last handle. -/
inductive BankCall (V : Type) where
  | opens (kind : TxMode) (name tag : String) (value : Postcard V) (config : LockerConfig)
  | deletes (name : String)
  | lazy (slot : Nat) (call : LazyCall V)
  | eager (slot : Nat) (call : EagerCall V)
  | release (slot : Nat)

namespace Bank
variable {V : Type} (env : BankEnv)

def letGo (k : Nat) (bank : Bank V) : Bank V :=
  { bank with slots := bank.slots.modify k fun slot => { slot with alive := false } }

end Bank

/-- The answer of an open is a slot. -/
def BankCall.prog {V : Type} (env : BankEnv) : BankCall V → Bank.SysIo V (Option Nat)
  | .opens kind name tag value config =>
    some <$> (Bank.openAs env kind name tag value config).tagged none
  | .deletes name => (fun _ => none) <$> (Bank.deleteLocker env name : Io (Bank V) Bool).tagged none
  | .lazy slot call => Bank.onSlot slot .lazy call.prog
  | .eager slot call => Bank.onSlot slot .eager call.prog
  | .release slot => (fun _ => none) <$> (Prog.update (Bank.letGo slot) : Bank.SysIo V Unit)

end Crossbank
