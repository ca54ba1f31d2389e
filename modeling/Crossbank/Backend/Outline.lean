import Crossbank.Async.Outline
import Crossbank.Backend.Memory

/-!
# Outlines of backend calls

A backend call is one step of its caller, and ends with the answer.
-/

namespace Crossbank
open Async

def Req.lands : Req → Prop
  | .commit .. => True
  | _ => False

namespace Backend
variable {ρ γ : Type} {R : Rules Req Resp Tables ρ γ} {i : Nat}
  {may : List (Event Req Resp ρ) → Event Req Resp ρ → Scene Tables ρ γ → Machine Tables ρ → Prop}
  {h : List (Event Req Resp ρ)} {x : Scene Tables ρ γ}

/-- What the step that answers `q` has to show. -/
def Answers (R : Rules Req Resp Tables ρ γ) (i : Nat)
    (may : List (Event Req Resp ρ) → Event Req Resp ρ → Scene Tables ρ γ → Machine Tables ρ → Prop)
    (q : Req) (post : Resp q → Scene Tables ρ γ → Prop) (h : List (Event Req Resp ρ))
    (x : Scene Tables ρ γ) : Prop :=
  ∀ y, R.rely i x y → R.inv y → ∀ a m, R.sem q y.machine a m → may h (.io q a) y m →
    R.Allows i (.io q a) y m ∧ ∀ z, R.rely i (R.move i (.io q a) y m) z → R.inv z → post a z

theorem safe_get {table : Table} {key : Bytes}
    {post : Except Error (Option Bytes) → Scene Tables ρ γ → Prop}
    (answers : Answers R i may (.get table key) post h x) :
    (Backend.get table key).Safe R i may (fun _ => post) h x :=
  Prog.Safe.answer (fun a : Resp (.get table key) => a) answers

theorem safe_scan {request : ScanRequest} {post : Except Error ScanPage → Scene Tables ρ γ → Prop}
    (answers : Answers R i may (.scan request) post h x) :
    (Backend.scan request).Safe R i may (fun _ => post) h x :=
  Prog.Safe.answer (fun a : Resp (.scan request) => a) answers

theorem safe_commitWith {ops : List Op} {options : CommitOptions}
    {post : Except Error Unit → Scene Tables ρ γ → Prop}
    (answers : Answers R i may (.commit ops options) post h x) :
    (Backend.commitWith ops options).Safe R i may (fun _ => post) h x :=
  Prog.Safe.answer (fun a : Resp (.commit ops options) => a) answers

end Backend
end Crossbank
