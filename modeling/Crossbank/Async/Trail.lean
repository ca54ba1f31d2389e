import Mathlib

/-!
# Runs that remember their acts

An act may be allowed or not by what has been done before it.

* `Trail step may start acts s` : the acts lead from `start` to `s`, each allowed after those before;
* `Trail.invariant` : what every allowed act keeps holds after every run;
* `Trail.of_run` : a computed run, each of whose acts is checked.
-/

namespace Async

section
variable {σ α : Type} {step : σ → α → Option σ} {may : List α → σ → α → Prop} {start s : σ}
  {acts : List α}

inductive Trail (step : σ → α → Option σ) (may : List α → σ → α → Prop) (start : σ) :
    List α → σ → Prop
  | start : Trail step may start [] start
  | act {acts : List α} {s s' : σ} {act : α} (run : Trail step may start acts s)
      (allowed : may acts s act) (next : step s act = some s') :
      Trail step may start (acts ++ [act]) s'

theorem Trail.invariant {I : List α → σ → Prop} (run : Trail step may start acts s)
    (first : I [] start) (keeps : ∀ (acts : List α) (s s' : σ) (act : α), I acts s →
      may acts s act → step s act = some s' → I (acts ++ [act]) s') : I acts s := by
  induction run with
  | start => exact first
  | act run allowed next ih => exact keeps _ _ _ _ ih allowed next

theorem Trail.of_run [∀ acts s act, Decidable (may acts s act)]
    (allowed : ∀ n : Fin acts.length, ((acts.take n).foldlM step start).all
      (fun s => may (acts.take n) s acts[n]) = true)
    (h : acts.foldlM step start = some s) : Trail step may start acts s := by
  induction acts using List.reverseRecOn generalizing s with
  | nil =>
    obtain rfl := Option.some.inj h
    exact .start
  | append_singleton acts act ih =>
    rw [List.foldlM_append] at h
    obtain ⟨s₁, hrun, hstep⟩ := Option.bind_eq_some_iff.1 h
    obtain ⟨s₂, hact, hs⟩ := Option.bind_eq_some_iff.1 hstep
    obtain rfl := Option.some.inj hs
    have within (n : Nat) (hn : n ≤ acts.length) : (acts ++ [act]).take n = acts.take n :=
      List.take_append_of_le_length hn
    refine .act (ih (fun n => ?_) hrun) ?_ hact
    · have hn := allowed ⟨n, by simp⟩
      dsimp only [Fin.getElem_fin] at hn ⊢
      rw [within n (by omega)] at hn
      simpa only [List.getElem_append_left n.2] using hn
    · have hlast := allowed ⟨acts.length, by simp⟩
      dsimp only [Fin.getElem_fin] at hlast
      rw [within _ le_rfl, List.take_length, hrun] at hlast
      simpa using hlast

end
end Async
