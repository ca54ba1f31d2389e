import Crossbank.Async.Prog

/-!
# Programs that succeed

* `Yields sem p m post` : from `m`, `p` returns, and leaves what `post` says;
* `Yields.bind`, `Yields.guarded`, ... : one rule for each way to put a program together.
-/

namespace Async

section
variable {Q : Type} {A : Q → Type} {ε ρ δ α β : Type}
  {sem : (q : Q) → Machine δ ρ → A q → Machine δ ρ → Prop} {p : Prog Q A ε ρ α}
  {m m' : Machine δ ρ} {post : α → Machine δ ρ → Prop}

/-- The program returns, and what it answers and leaves is as `post` says. -/
def Yields (sem : (q : Q) → Machine δ ρ → A q → Machine δ ρ → Prop) (p : Prog Q A ε ρ α)
    (m : Machine δ ρ) (post : α → Machine δ ρ → Prop) : Prop :=
  ∃ a m', Run sem p m (.ok a) m' ∧ post a m'

theorem Yields.mono {post' : α → Machine δ ρ → Prop} (h : Yields sem p m post)
    (weaken : ∀ a m', post a m' → post' a m') : Yields sem p m post' := by
  obtain ⟨a, m', run, hpost⟩ := h
  exact ⟨a, m', run, weaken a m' hpost⟩

/-- What is known of every run of the program holds of the one that succeeds. -/
theorem Yields.and_run {known : α → Machine δ ρ → Prop} (h : Yields sem p m post)
    (all : ∀ a m', Run sem p m (.ok a) m' → known a m') :
    Yields sem p m fun a m' => post a m' ∧ known a m' := by
  obtain ⟨a, m', run, hpost⟩ := h
  exact ⟨a, m', run, hpost, all a m' run⟩

section
variable {post : β → Machine δ ρ → Prop}

theorem Yields.bind {mid : α → Machine δ ρ → Prop} {f : α → Prog Q A ε ρ β}
    (first : Yields sem p m mid) (rest : ∀ a m₁, mid a m₁ → Yields sem (f a) m₁ post) :
    Yields sem (p >>= f) m post := by
  obtain ⟨a, m₁, run, hmid⟩ := first
  obtain ⟨b, m', hrest, hpost⟩ := rest a m₁ hmid
  exact ⟨b, m', run_bind.2 (.inl ⟨a, m₁, run, hrest⟩), hpost⟩

end

theorem Yields.guarded {release : ρ → ρ}
    (h : Yields sem p m fun a m₁ => post a { m₁ with mem := release m₁.mem }) :
    Yields sem (p.guarded release) m post := by
  obtain ⟨a, m₁, run, hpost⟩ := h
  exact ⟨a, _, run_guarded.2 ⟨m₁, run, rfl⟩, hpost⟩

end
end Async
