import Crossbank.Async.Prog

/-!
# Failures that surface

* `Prog.Surfaces failure p` : `p` ends at once with the first failure it is answered with;
* `Surfaces.ends` : so what was answered with a failure has failed with it;
* `Only.ends` : a call has been answered nothing but what it is limited to ask;
* `Prog.Late P good p` : once `p` has asked for something of the kind `P`, it ends well.
-/

namespace Async

variable {Q : Type} {A : Q → Type} {ε ρ α β : Type}

namespace Prog

/-- The call ends at once with the first failure it is answered with. -/
def Surfaces (failure : (q : Q) → A q → Option ε) : Prog Q A ε ρ α → Prop
  | ret _ => True
  | fail _ => True
  | ram _ k => ∀ s, Surfaces failure (k s)
  | await q _ k => ∀ x, match failure q x with
    | some e => k x = fail e
    | none => Surfaces failure (k x)
  | stuck => True

variable {failure : (q : Q) → A q → Option ε} {p : Prog Q A ε ρ α} {f : α → Prog Q A ε ρ β}
  {h : List (Event Q A ρ)} {r : Except ε α}

theorem Surfaces.bind (hp : p.Surfaces failure) (hf : ∀ a, (f a).Surfaces failure) :
    (p >>= f).Surfaces failure := by
  rw [bind_def]
  induction p with
  | ret a => exact hf a
  | fail e => trivial
  | stuck => trivial
  | ram g k ih => exact fun s => ih s (hp s)
  | await q d k ih =>
    intro x
    have hx := hp x
    cases hq : failure q x with
    | some e =>
      rw [hq] at hx
      dsimp only at hx ⊢
      rw [hx]
      rfl
    | none =>
      rw [hq] at hx
      exact ih x hx

theorem surfaces_ofExcept {x : Except ε α} : (ofExcept x : Prog Q A ε ρ α).Surfaces failure := by
  cases x <;> trivial

theorem surfaces_answer {q : Q} {g : A q → Except ε α}
    (errors : ∀ x e, failure q x = some e → g x = .error e) :
    (ask q >>= fun x => ofExcept (g x) : Prog Q A ε ρ α).Surfaces failure := by
  intro x
  cases hq : failure q x with
  | some e =>
    show (ofExcept (g x) : Prog Q A ε ρ α) = fail e
    rw [errors x e hq]
    rfl
  | none => exact surfaces_ofExcept

theorem surfaces_of_only {P : Q → Prop} {R : ρ → ρ → Prop} (hp : p.Only P R)
    (quiet : ∀ q x, P q → failure q x = none) : p.Surfaces failure := by
  induction p with
  | ret a => trivial
  | fail e => trivial
  | stuck => trivial
  | ram g k ih => exact fun s => ih s (hp s).2
  | await q d k ih =>
    intro x
    rw [quiet q x hp.1]
    exact ih x (hp.2 x)

theorem Surfaces.ends (hp : p.Surfaces failure) (he : Ends p h r) {q : Q} {x : A q} {e : ε}
    (hmem : .io q x ∈ h) (hx : failure q x = some e) : r = .error e := by
  induction p generalizing h with
  | ret a =>
    obtain ⟨rfl, -⟩ := ends_ret.1 he
    cases hmem
  | fail e =>
    obtain ⟨rfl, -⟩ := ends_fail.1 he
    cases hmem
  | stuck => exact (ends_stuck he).elim
  | ram g k ih =>
    obtain ⟨s, h', rfl, hk⟩ := ends_ram.1 he
    rcases List.mem_cons.1 hmem with heq | hmem
    · cases heq
    · exact ih s (hp s) hk hmem
  | await q' d k ih =>
    obtain ⟨y, h', rfl, hk⟩ := ends_await.1 he
    have hy := hp y
    cases hq : failure q' y with
    | some e' =>
      -- The first failure is the last event.
      rw [hq] at hy
      dsimp only at hy
      rw [hy] at hk
      obtain ⟨rfl, rfl⟩ := ends_fail.1 hk
      obtain ⟨rfl, hxy⟩ := Event.io.inj (List.mem_singleton.1 hmem)
      obtain rfl := eq_of_heq hxy
      rw [hx] at hq
      rw [Option.some.inj hq]
    | none =>
      rw [hq] at hy
      rcases List.mem_cons.1 hmem with heq | hmem
      · obtain ⟨rfl, hxy⟩ := Event.io.inj heq
        obtain rfl := eq_of_heq hxy
        rw [hx] at hq
        cases hq
      · exact ih y hy hk hmem

/-- A call has been answered nothing but what it is limited to ask. -/
theorem Only.ends {P : Q → Prop} {R : ρ → ρ → Prop} (hp : p.Only P R) (he : Ends p h r) {q : Q}
    {x : A q} (hmem : .io q x ∈ h) : P q := by
  induction p generalizing h with
  | ret a =>
    obtain ⟨rfl, -⟩ := ends_ret.1 he
    cases hmem
  | fail e =>
    obtain ⟨rfl, -⟩ := ends_fail.1 he
    cases hmem
  | stuck => exact (ends_stuck he).elim
  | ram g k ih =>
    obtain ⟨s, h', rfl, hk⟩ := ends_ram.1 he
    rcases List.mem_cons.1 hmem with heq | hmem
    · cases heq
    · exact ih s (hp s).2 hk hmem
  | await q' d k ih =>
    obtain ⟨y, h', rfl, hk⟩ := ends_await.1 he
    rcases List.mem_cons.1 hmem with heq | hmem
    · obtain ⟨rfl, -⟩ := Event.io.inj heq
      exact hp.1
    · exact ih y (hp.2 y) hk hmem

/-- Once the call has asked for something of the kind `P`, it ends as `good` says. -/
def Late (P : Q → Prop) (good : Except ε α → Prop) (p : Prog Q A ε ρ α) : Prop :=
  ∀ h r, Ends p h r → ∀ q x, .io q x ∈ h → P q → good r

theorem Late.bind {P : Q → Prop} {R : ρ → ρ → Prop} {good : Except ε β → Prop}
    (hp : p.Only (fun q => ¬ P q) R) (hf : ∀ a, (f a).Late P good) : (p >>= f).Late P good := by
  intro h r he q x hmem hq
  rcases ends_bind.1 he with ⟨a, h₁, h₂, rfl, h1, h2⟩ | ⟨e, h1, -⟩
  · rcases List.mem_append.1 hmem with hmem | hmem
    · exact absurd hq (hp.ends h1 hmem)
    · exact hf a h₂ r h2 q x hmem hq
  · exact absurd hq (hp.ends h1 hmem)

theorem late_of_only {P : Q → Prop} {R : ρ → ρ → Prop} {good : Except ε α → Prop}
    (hp : p.Only (fun q => ¬ P q) R) : p.Late P good :=
  fun _ _ he _ _ hmem hq => absurd hq (hp.ends he hmem)

end Prog
end Async
