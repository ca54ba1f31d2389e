import Crossbank.Async.Share

/-!
# Preconditions and postconditions

Outlines whose assertions see of a scene only what `v` shows of it. They compose as Hoare triples do.

* `Triple R v i K p G` : from what satisfies `K`, every step of the call `i` keeps the rules, and it
  ends with what satisfies `G`;
* `Steady R v i K` : the steps of the others keep `K`;
* `Triple.bind`, `Triple.attempt`, `Triple.guarded`, ... : the rule of each construct;
* `Triple.given`, `Triple.of_exists`, `Triple.answered` : what may be assumed, and with what answers a triple holds as well;
* `Triple.of_only` : the triple of a call each of whose steps keeps `K`;
* `Triple.run` : what a call that is run alone keeps;
* `Triple.tagged` : the triple of a call whose requests carry a name.
-/

namespace Async

section
variable {Q : Type} {A : Q → Type} {ε ρ α β δ γ ω : Type}

/-- What satisfies `K` may be left to the others. -/
def Steady (R : Rules Q A δ ρ γ) (v : Scene δ ρ γ → ω) (i : Nat) (K : ω → Prop) : Prop :=
  ∀ x y, K (v x) → R.rely i x y → R.inv y → K (v y)

/-- The call `p`, started where `K` holds, keeps the rules and ends where `G` holds. -/
def Triple (R : Rules Q A δ ρ γ) (v : Scene δ ρ γ → ω) (i : Nat) (K : ω → Prop)
    (p : Prog Q A ε ρ α) (G : Except ε α → ω → Prop) : Prop :=
  ∀ h x, K (v x) → p.Safe R i (fun _ _ _ _ => True) (fun _ r y => G r (v y)) h x

namespace Triple
variable {R : Rules Q A δ ρ γ} {v : Scene δ ρ γ → ω} {i : Nat} {K : ω → Prop}
  {p : Prog Q A ε ρ α} {G : Except ε α → ω → Prop} {G' : Except ε β → ω → Prop}

theorem mono {K' : ω → Prop} {G₁ : Except ε α → ω → Prop} (hp : Triple R v i K p G)
    (pre : ∀ s, K' s → K s) (post : ∀ r s, G r s → G₁ r s) : Triple R v i K' p G₁ :=
  fun h x hx => (hp h x (pre _ hx)).mono fun _ r y _ hr => post r (v y) hr

/-- What the precondition says of no scene in particular may be assumed. -/
theorem given {P : Prop} (pre : ∀ s, K s → P) (hp : P → Triple R v i K p G) : Triple R v i K p G :=
  fun h x hx => hp (pre _ hx) h x hx

/-- What the precondition only says to exist may be taken as given. -/
theorem of_exists {F : δ → ω → Prop} (hp : ∀ d, Triple R v i (F d) p G) :
    Triple R v i (fun s => ∃ d, F d s) p G := by
  rintro h x ⟨d, hd⟩
  exact hp d h x hd

theorem bind {f : α → Prog Q A ε ρ β} (hp : Triple R v i K p G)
    (next : ∀ a, Triple R v i (G (.ok a)) (f a) G')
    (failed : ∀ e s, G (.error e) s → G' (.error e) s) : Triple R v i K (p >>= f) G' :=
  fun h x hx => Prog.Safe.bind _ (hp h x hx) (fun h a y _ hy => next a h y hy)
    fun _ e y _ hy => failed e (v y) hy

theorem map {f : α → β} (hp : Triple R v i K p fun r s => G' (r.map f) s) :
    Triple R v i K (f <$> p) G' := fun h x hx => Prog.Safe.map (hp h x hx)

theorem attempt {G : Except ε (Except ε α) → ω → Prop}
    (hp : Triple R v i K p fun r s => G (.ok r) s) : Triple R v i K p.attempt G :=
  fun h x hx => Prog.Safe.attempt (hp h x hx)

theorem guarded {release : ρ → ρ} (hp : Triple R v i K p G) (steady : ∀ r, Steady R v i (G r))
    (releases : ∀ r y, G r (v y) → R.inv y →
      R.Allows i (.ram y.machine.mem (release y.machine.mem)) y
        { y.machine with mem := release y.machine.mem } ∧
      G r (v (R.move i (.ram y.machine.mem (release y.machine.mem)) y
        { y.machine with mem := release y.machine.mem }))) :
    Triple R v i K (p.guarded release) G := by
  intro h x hx
  refine Prog.Safe.guarded ((hp h x hx).mono fun h r y hy hr _ => ?_)
  obtain ⟨allowed, here⟩ := releases r y hr hy
  exact ⟨allowed, fun z hyz hz => steady r _ z here hyz hz⟩

theorem ret (steady : Steady R v i K) (a : α) :
    Triple R v i K (.ret a : Prog Q A ε ρ α) fun r s => r = .ok a ∧ K s :=
  fun _ x hx y hxy hy => ⟨rfl, steady x y hx hxy hy⟩

theorem fail (steady : Steady R v i K) (e : ε) :
    Triple R v i K (.fail e : Prog Q A ε ρ α) fun r s => r = .error e ∧ K s :=
  fun _ x hx y hxy hy => ⟨rfl, steady x y hx hxy hy⟩

theorem ofExcept (steady : Steady R v i K) (x : Except ε α) :
    Triple R v i K (Prog.ofExcept x : Prog Q A ε ρ α) fun r s => r = x ∧ K s :=
  fun _ y hy => Prog.Safe.ofExcept fun z hyz hz => ⟨rfl, steady y z hy hyz hz⟩

theorem stuck : Triple R v i K (.stuck : Prog Q A ε ρ α) G := fun _ _ _ => trivial

theorem gives {F : α → Prop} (hp : Triple R v i K p G) (hg : p.Gives F) :
    Triple R v i K p fun r s => G r s ∧ ∀ a, r = .ok a → F a :=
  fun h x hx => (hp h x hx).gives hg

/-- Where fewer answers may come, a triple still holds. -/
theorem answered {sem : (q : Q) → Machine δ ρ → A q → Machine δ ρ → Prop}
    (hp : Triple R v i K p G) (fewer : ∀ q m a m', sem q m a m' → R.sem q m a m') :
    Triple { R with sem := sem } v i K p G := by
  intro h x hx
  have go {p : Prog Q A ε ρ α} : ∀ {h : List (Event Q A ρ)} {x : Scene δ ρ γ},
      p.Safe R i (fun _ _ _ _ => True) (fun _ r y => G r (v y)) h x →
      p.Safe { R with sem := sem } i (fun _ _ _ _ => True) (fun _ r y => G r (v y)) h x := by
    induction p with
    | ret a => exact fun hp => hp
    | fail e => exact fun hp => hp
    | stuck => exact fun _ => trivial
    | ram f k ih =>
      intro h x hp y hxy hy hm
      obtain ⟨ok, rest⟩ := hp y hxy hy hm
      exact ⟨ok, ih _ rest⟩
    | await q d k ih =>
      intro h x hp y hxy hy a m ha hm
      obtain ⟨ok, rest⟩ := hp y hxy hy a m (fewer _ _ _ _ ha) hm
      exact ⟨ok, ih a rest⟩
  exact go (hp h x hx)

theorem of_only {P : Q → Prop} {C : ρ → ρ → Prop} (hp : p.Only P C) (steady : Steady R v i K)
    (ram : ∀ y s, K (v y) → R.inv y → C y.machine.mem s →
      R.Allows i (.ram y.machine.mem s) y { y.machine with mem := s } ∧
        K (v (R.move i (.ram y.machine.mem s) y { y.machine with mem := s })))
    (io : ∀ y q a m, K (v y) → R.inv y → P q → R.sem q y.machine a m →
      R.Allows i (.io q a) y m ∧ K (v (R.move i (.io q a) y m))) :
    Triple R v i K p fun _ => K :=
  fun _ _ hx => Prog.Safe.of_only (K := fun y => K (v y)) hp steady ram io hx

/-- A call that is run alone keeps the invariant, ends as its triple says, and has done to the
others only what it guarantees step by step. -/
theorem run {r : Except ε α} {x : Scene δ ρ γ} {m' : Machine δ ρ} {N : Scene δ ρ γ → Scene δ ρ γ → Prop}
    (hp : Triple R v i K p G) (here : K (v x)) (inv : R.inv x) (refl : ∀ y, N y y)
    (trans : ∀ y z w, N y z → N z w → N y w) (guar : ∀ y z, R.guar i y z → N y z)
    (run : Run R.sem p x.machine r m') :
    ∃ g, R.inv ⟨m', g⟩ ∧ G r (v ⟨m', g⟩) ∧ N x ⟨m', g⟩ := by
  have go {p : Prog Q A ε ρ α} : ∀ {h : List (Event Q A ρ)} {x : Scene δ ρ γ},
      p.Safe R i (fun _ _ _ _ => True) (fun _ r y => G r (v y)) h x → R.inv x →
      Run R.sem p x.machine r m' → ∃ g, R.inv ⟨m', g⟩ ∧ G r (v ⟨m', g⟩) ∧ N x ⟨m', g⟩ := by
    induction p with
    | ret a =>
      rintro h x hp hx ⟨rfl, rfl⟩
      exact ⟨x.record, hx, hp x (R.rely_refl i x) hx, refl x⟩
    | fail e =>
      rintro h x hp hx ⟨rfl, rfl⟩
      exact ⟨x.record, hx, hp x (R.rely_refl i x) hx, refl x⟩
    | stuck => exact fun _ _ run => run.elim
    | ram f k ih =>
      intro h x hp hx run
      obtain ⟨⟨inv, step⟩, rest⟩ := hp x (R.rely_refl i x) hx trivial
      obtain ⟨g, inv', ends, later⟩ := ih _ rest inv run
      exact ⟨g, inv', ends, trans _ _ _ (guar _ _ step) later⟩
    | await q d k ih =>
      rintro h x hp hx ⟨a, m, answer, run⟩
      obtain ⟨⟨inv, step⟩, rest⟩ := hp x (R.rely_refl i x) hx a m answer trivial
      obtain ⟨g, inv', ends, later⟩ := ih a rest inv run
      exact ⟨g, inv', ends, trans _ _ _ (guar _ _ step) later⟩
  exact go (hp [] x here) inv run

end Triple

theorem Triple.tagged {κ : Type} {t : κ} {R : Rules (κ × Q) (fun q => A q.2) δ ρ γ}
    {v : Scene δ ρ γ → ω} {i : Nat} {K : ω → Prop} {p : Prog Q A ε ρ α} {G : Except ε α → ω → Prop}
    (hp : Triple (R.untag t) v i K p G) : Triple R v i K (p.tagged t) G := by
  have go {p : Prog Q A ε ρ α} : ∀ {h : List (Event Q A ρ)}
      {h' : List (Event (κ × Q) (fun q => A q.2) ρ)} {x : Scene δ ρ γ},
      p.Safe (R.untag t) i (fun _ _ _ _ => True) (fun _ r y => G r (v y)) h x →
      (p.tagged t).Safe R i (fun _ _ _ _ => True) (fun _ r y => G r (v y)) h' x := by
    induction p with
    | ret a => exact fun hp => hp
    | fail e => exact fun hp => hp
    | stuck => exact fun _ => trivial
    | ram f k ih =>
      intro h h' x hp y hxy hy hm
      obtain ⟨ok, rest⟩ := hp y hxy hy trivial
      exact ⟨ok, ih _ rest⟩
    | await q d k ih =>
      intro h h' x hp y hxy hy a m ha hm
      obtain ⟨ok, rest⟩ := hp y hxy hy a m ha trivial
      exact ⟨ok, ih a rest⟩
  exact fun h x hx => go (hp [] x hx)

end
end Async
