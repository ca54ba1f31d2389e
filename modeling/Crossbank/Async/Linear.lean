import Mathlib

/-!
# Histories that are one run

Callers share an object. What they see is a history: a call is sent, and later, it may be, told its reply.

* `Sighting`, `Linearizes` : a history is one run of calls, each between when it was sent and when it was
  told;
* `linearizes_of_ascending` : where calls are numbered as they are sent, and taken in that order, it is.
-/

namespace Crossbank

inductive Sighting (J R : Type) where
  | sent (call : Nat) (job : J)
  | told (call : Nat) (reply : R)
  deriving DecidableEq, Repr

section
variable {J R : Type}

/-- In this order `c` has been taken while `c'` has not. -/
def Before (order : List (Nat × J × R)) (c c' : Nat) : Prop :=
  ∃ early late, order = early ++ late ∧ c ∈ early.map Prod.fst ∧ c' ∉ early.map Prod.fst

/-- The history is the run that takes its calls in this order: each call once and with the job that it
was sent with, a call that was told its reply with that reply, and before every call that was sent after
it was told. -/
structure Linearizes (legal : List (J × R) → Prop) (history : List (Sighting J R))
    (order : List (Nat × J × R)) : Prop where
  legal : legal (order.map Prod.snd)
  once : (order.map Prod.fst).Nodup
  sent : ∀ c j r, (c, j, r) ∈ order → .sent c j ∈ history
  told : ∀ c r, .told c r ∈ history → ∃ j, (c, j, r) ∈ order
  real : history.Pairwise fun e e' => ∀ c r c' j, e = .told c r → e' = .sent c' j → Before order c c'

variable {legal : List (J × R) → Prop} {history : List (Sighting J R)} {order : List (Nat × J × R)}
  {c c' : Nat}

theorem before_of_lt (ascending : (order.map Prod.fst).Pairwise (· < ·)) (taken : c ∈ order.map Prod.fst)
    (lt : c < c') : Before order c c' := by
  obtain ⟨e, he, rfl⟩ := List.mem_map.1 taken
  obtain ⟨early, late, rfl⟩ := List.append_of_mem he
  refine ⟨early ++ [e], late, by rw [List.append_assoc, List.singleton_append], ?_, ?_⟩
  · simp
  · rw [List.map_append, List.map_cons] at ascending
    have below := (List.pairwise_append.1 ascending).2.2
    intro hc'
    rw [List.map_append, List.mem_append] at hc'
    rcases hc' with hc' | hc'
    · have := below c' hc' e.1 List.mem_cons_self
      omega
    · have heq : c' = e.1 := by simpa using hc'
      omega

/-- Calls that are taken in the order of their numbers are one run, where a call that was told its
reply has a smaller number than every call that is sent later. -/
theorem linearizes_of_ascending (run : legal (order.map Prod.snd))
    (ascending : (order.map Prod.fst).Pairwise (· < ·))
    (sent : ∀ c j r, (c, j, r) ∈ order → .sent c j ∈ history)
    (told : ∀ c r, .told c r ∈ history → ∃ j, (c, j, r) ∈ order)
    (later : history.Pairwise fun e e' => ∀ c r c' j, e = .told c r → e' = .sent c' j → c < c') :
    Linearizes legal history order where
  legal := run
  once := ascending.imp fun lt => Nat.ne_of_lt lt
  sent := sent
  told := told
  real := by
    refine later.imp_of_mem fun {e e'} he he' hlater c r c' j htold hsent => ?_
    obtain ⟨j', hmem⟩ := told c r (htold ▸ he)
    exact before_of_lt ascending (List.mem_map.2 ⟨_, hmem, rfl⟩) (hlater c r c' j htold hsent)

end
end Crossbank
