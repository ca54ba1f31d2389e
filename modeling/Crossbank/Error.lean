import Mathlib

/-!
# Errors

* `Error` : every way a call fails;
* `Error.isCorruption` : whether an error says that stored bytes are unreadable;
* `bind_eq_ok` : a sequence of fallible steps succeeds when each of its steps does.
-/

namespace Crossbank

inductive Error where
  | backend (msg : String)
  | quotaExceeded (needed : Nat) (available : Option Nat)
  | valueTooLarge (bytes maxInline : Nat)
  | lockerTooLarge (bytes budget : Nat)
  | schemaMismatch (stored requested : String)
  | corrupt (msg : String)
  | unsupportedVersion (found supported : Nat)
  | filter (msg : String)
  | invalidConfig (msg : String)
  | closed
  deriving DecidableEq, Repr

def Error.isCorruption : Error → Bool
  | .corrupt _ | .unsupportedVersion .. | .filter _ => true
  | _ => false

section
variable {ε α β : Type}

theorem bind_eq_ok {x : Except ε α} {f : α → Except ε β} {b : β} :
    (x >>= f) = .ok b ↔ ∃ a, x = .ok a ∧ f a = .ok b := by
  cases x with
  | error e => simp [bind, Except.bind]
  | ok a => simp [bind, Except.bind]

@[simp] theorem pure_eq_ok {a b : α} : (pure a : Except ε α) = .ok b ↔ a = b := by
  simp [pure, Except.pure]

end

end Crossbank
