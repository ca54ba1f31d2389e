import Crossbank.Backend.Api
import Crossbank.Codec

/-!
# Limits and retention

* `Policy`, `OnCorrupt`, `Commit` : what a locker sheds, what it does about damage, when it writes;
* `LockerConfig` : the limits of one locker, with the defaults of the source;
* `LockerConfig.deferredAfter` : how many writes pile up before a locker commits by itself.
-/

namespace Crossbank

inductive Policy where
  | precious
  | evictable (maxBytes : Nat)
  deriving DecidableEq, Repr

inductive OnCorrupt where
  | fail
  | skip
  deriving DecidableEq, Repr

inductive Commit where
  | immediate
  | deferred (after : Nat)
  deriving DecidableEq, Repr

structure LockerConfig where
  maxInline : Nat := 256 * 1024
  eagerBudget : Nat := 32 * 1024 * 1024
  policy : Policy := .precious
  commit : Commit := .immediate
  durability : Durability := .immediate
  onCorrupt : OnCorrupt := .fail
  chunkSize : Nat := 256 * 1024
  chain : Option FilterChain := none

namespace LockerConfig

def isEventual (config : LockerConfig) : Bool := config.durability = .eventual

def chainId (config : LockerConfig) : Option UInt8 := config.chain.map FilterChain.id

/-- `none` when every write commits immediately. A batch of zero or one is not a batch. -/
def deferredAfter (config : LockerConfig) : Option Nat :=
  match config.commit with
  | .immediate => none
  | .deferred after => if after ≤ 1 then none else some after

end LockerConfig

inductive TxMode where
  | eager
  | lazy
  deriving DecidableEq, Repr

/-- A change announced to the watchers of a locker. -/
inductive Notice where
  | put (key : Bytes)
  | deleted (key : Bytes)
  | cleared
  | stale (key : Bytes)
  | evicted (key : Bytes)
  deriving DecidableEq, Repr

def U64_MAX : Nat := 2 ^ 64 - 1

/-- `u64::saturating_add`. -/
def satAdd (a b : Nat) : Nat := min (a + b) U64_MAX

/-- `u64::checked_add(1)`. -/
def checkedSucc (n : UInt64) : Option UInt64 := if n.toNat = U64_MAX then none else some (n + 1)

theorem checkedSucc_eq_some {n m : UInt64} (h : checkedSucc n = some m) : m.toNat = n.toNat + 1 := by
  unfold checkedSucc at h
  split at h
  · cases h
  · next hn =>
    obtain rfl := Option.some.inj h
    have hlt := n.toNat_lt
    have h1 : (1 : UInt64).toNat = 1 := rfl
    rw [UInt64.toNat_add, h1, Nat.mod_eq_of_lt]
    unfold U64_MAX at hn
    omega

end Crossbank
