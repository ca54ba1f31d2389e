import Crossbank.Async.Pool

/-!
# Proof outlines of interleaved calls

What one call keeps and may count on, shown from its own tree alone, and what all calls of a pool
then keep together.

* `Setting`, `Terms` : the invariant of every state, and what one call counts on while the others
  move, and is to them;
* `Prog.Safe` : every step of a call keeps the rules, and it ends as its postcondition says;
* `Safe.bind`, `Safe.frame`, `Safe.guarded`, ... : the outline of a call from those of its parts;
* `Safe.alone` : a part the others cannot disturb runs as it would alone;
* `Pool.Noted` : a run, with a record that each step continues;
* `Pool.Noted.safe` : calls that are safe one by one keep the rules together.
-/

namespace Async

/-- A machine, and the record kept of what has happened on it. -/
structure Scene (δ ρ γ : Type) where
  machine : Machine δ ρ
  record : γ

/-- What all calls share: how requests are answered, how a step of the call `i` continues the
record, and the invariant of every state. -/
structure Setting (Q : Type) (A : Q → Type) (δ ρ γ : Type) where
  sem : (q : Q) → Machine δ ρ → A q → Machine δ ρ → Prop
  next : Nat → Event Q A ρ → Machine δ ρ → Machine δ ρ → γ → γ
  inv : Scene δ ρ γ → Prop

/-- What one call counts on around any steps of the others, and what each of its own steps is to
them. -/
structure Terms (δ ρ γ : Type) where
  rely : Nat → Scene δ ρ γ → Scene δ ρ γ → Prop
  guar : Nat → Scene δ ρ γ → Scene δ ρ γ → Prop
  rely_refl : ∀ i x, rely i x x
  rely_trans : ∀ i x y z, rely i x y → rely i y z → rely i x z

structure Rules (Q : Type) (A : Q → Type) (δ ρ γ : Type) extends Setting Q A δ ρ γ, Terms δ ρ γ

section
variable {Q : Type} {A : Q → Type} {ε ρ α β δ γ : Type}

/-- The scene after a step of the call `i` to `m`. -/
def Setting.move (S : Setting Q A δ ρ γ) (i : Nat) (e : Event Q A ρ) (x : Scene δ ρ γ)
    (m : Machine δ ρ) : Scene δ ρ γ :=
  ⟨m, S.next i e x.machine m x.record⟩

/-- The call `i` may go to `m`: the invariant holds there, and the step is what it is to be. -/
def Rules.Allows (R : Rules Q A δ ρ γ) (i : Nat) (e : Event Q A ρ) (x : Scene δ ρ γ)
    (m : Machine δ ρ) : Prop :=
  R.inv (R.move i e x m) ∧ R.guar i x (R.move i e x m)

variable {R : Rules Q A δ ρ γ} {i : Nat} 
  {may : List (Event Q A ρ) → Event Q A ρ → Scene δ ρ γ → Machine δ ρ → Prop}

/-- From the scene `x`, with the events `h` behind it, every step of the call is allowed, whatever
the others do in between; and where it ends, `post` holds. A step is taken only where `may` lets it:
`may h e y m` says so of the event `e` that leads from `y` to `m`. -/
def Prog.Safe (R : Rules Q A δ ρ γ) (i : Nat)
    (may : List (Event Q A ρ) → Event Q A ρ → Scene δ ρ γ → Machine δ ρ → Prop)
    (post : List (Event Q A ρ) → Except ε α → Scene δ ρ γ → Prop) :
    Prog Q A ε ρ α → List (Event Q A ρ) → Scene δ ρ γ → Prop
  | .ret a, h, x => ∀ y, R.rely i x y → R.inv y → post h (.ok a) y
  | .fail e, h, x => ∀ y, R.rely i x y → R.inv y → post h (.error e) y
  | .ram f k, h, x => ∀ y, R.rely i x y → R.inv y →
      may h (.ram y.machine.mem (f y.machine.mem)) y { y.machine with mem := f y.machine.mem } →
      R.Allows i (.ram y.machine.mem (f y.machine.mem)) y
        { y.machine with mem := f y.machine.mem } ∧
      (k y.machine.mem).Safe R i may post (h ++ [.ram y.machine.mem (f y.machine.mem)])
        (R.move i (.ram y.machine.mem (f y.machine.mem)) y
          { y.machine with mem := f y.machine.mem })
  | .await q _ k, h, x => ∀ y, R.rely i x y → R.inv y → ∀ a m, R.sem q y.machine a m →
      may h (.io q a) y m →
      R.Allows i (.io q a) y m ∧
      (k a).Safe R i may post (h ++ [.io q a]) (R.move i (.io q a) y m)
  | .stuck, _, _ => True

/-- What holds where a call returns, and where it fails. -/
def outcome (good : α → Scene δ ρ γ → Prop) (bad : Scene δ ρ γ → Prop) :
    Except ε α → Scene δ ρ γ → Prop
  | .ok a, y => good a y
  | .error _, y => bad y

namespace Prog.Safe
variable {post : List (Event Q A ρ) → Except ε α → Scene δ ρ γ → Prop}
  {post' : List (Event Q A ρ) → Except ε β → Scene δ ρ γ → Prop} {h : List (Event Q A ρ)}
  {x y : Scene δ ρ γ}

/-- What is safe stays so while other calls move. -/
theorem rely {p : Prog Q A ε ρ α} (hp : p.Safe R i may post h x) (hxy : R.rely i x y) :
    p.Safe R i may post h y := by
  cases p with
  | ret a => exact fun z hyz => hp z (R.rely_trans i x y z hxy hyz)
  | fail e => exact fun z hyz => hp z (R.rely_trans i x y z hxy hyz)
  | ram f k => exact fun z hyz => hp z (R.rely_trans i x y z hxy hyz)
  | await q d k => exact fun z hyz => hp z (R.rely_trans i x y z hxy hyz)
  | stuck => trivial

/-- To be safe is to be safe wherever the others may have led. -/
theorem of_rely {p : Prog Q A ε ρ α}
    (hp : ∀ y, R.rely i x y → R.inv y → p.Safe R i may post h y) : p.Safe R i may post h x := by
  cases p with
  | ret a => exact fun y hxy hy => hp y hxy hy y (R.rely_refl i y) hy
  | fail e => exact fun y hxy hy => hp y hxy hy y (R.rely_refl i y) hy
  | ram f k => exact fun y hxy hy => hp y hxy hy y (R.rely_refl i y) hy
  | await q d k => exact fun y hxy hy => hp y hxy hy y (R.rely_refl i y) hy
  | stuck => trivial

theorem mono {post₁ : List (Event Q A ρ) → Except ε α → Scene δ ρ γ → Prop} {p : Prog Q A ε ρ α}
    (hp : p.Safe R i may post h x) (weaker : ∀ h r y, R.inv y → post h r y → post₁ h r y) :
    p.Safe R i may post₁ h x := by
  induction p generalizing h x with
  | ret a => exact fun y hxy hy => weaker h _ y hy (hp y hxy hy)
  | fail e => exact fun y hxy hy => weaker h _ y hy (hp y hxy hy)
  | ram f k ih =>
    intro y hxy hy hm
    obtain ⟨ok, rest⟩ := hp y hxy hy hm
    exact ⟨ok, ih _ rest⟩
  | await q d k ih =>
    intro y hxy hy a m ha hm
    obtain ⟨ok, rest⟩ := hp y hxy hy a m ha hm
    exact ⟨ok, ih a rest⟩
  | stuck => trivial

/-- Where fewer steps are taken, no more are to be shown allowed. -/
theorem fewer {may' : List (Event Q A ρ) → Event Q A ρ → Scene δ ρ γ → Machine δ ρ → Prop}
    {p : Prog Q A ε ρ α} (hp : p.Safe R i may post h x)
    (less : ∀ h e y m, may' h e y m → may h e y m) : p.Safe R i may' post h x := by
  induction p generalizing h x with
  | ret a => exact hp
  | fail e => exact hp
  | ram f k ih =>
    intro y hxy hy hm
    obtain ⟨ok, rest⟩ := hp y hxy hy (less _ _ _ _ hm)
    exact ⟨ok, ih _ rest⟩
  | await q d k ih =>
    intro y hxy hy a m ha hm
    obtain ⟨ok, rest⟩ := hp y hxy hy a m ha (less _ _ _ _ hm)
    exact ⟨ok, ih a rest⟩
  | stuck => trivial

theorem bind (post : List (Event Q A ρ) → Except ε α → Scene δ ρ γ → Prop) {p : Prog Q A ε ρ α}
    {f : α → Prog Q A ε ρ β} (hp : p.Safe R i may post h x)
    (next : ∀ h a y, R.inv y → post h (.ok a) y → (f a).Safe R i may post' h y)
    (failed : ∀ h e y, R.inv y → post h (.error e) y → post' h (.error e) y) :
    (p >>= f).Safe R i may post' h x := by
  rw [bind_def]
  induction p generalizing h x with
  | ret a => exact of_rely fun y hxy hy => next h a y hy (hp y hxy hy)
  | fail e => exact fun y hxy hy => failed h e y hy (hp y hxy hy)
  | ram g k ih =>
    intro y hxy hy hm
    obtain ⟨ok, rest⟩ := hp y hxy hy hm
    exact ⟨ok, ih _ rest⟩
  | await q d k ih =>
    intro y hxy hy a m ha hm
    obtain ⟨ok, rest⟩ := hp y hxy hy a m ha hm
    exact ⟨ok, ih a rest⟩
  | stuck => trivial

theorem map {f : α → β} {p : Prog Q A ε ρ α}
    (hp : p.Safe R i may (fun h r y => post' h (r.map f) y) h x) :
    (f <$> p).Safe R i may post' h x := by
  rw [map_eq_pure_bind, bind_def]
  induction p generalizing h x with
  | ret a => exact hp
  | fail e => exact hp
  | ram g k ih =>
    intro y hxy hy hm
    obtain ⟨ok, rest⟩ := hp y hxy hy hm
    exact ⟨ok, ih _ rest⟩
  | await q d k ih =>
    intro y hxy hy a m ha hm
    obtain ⟨ok, rest⟩ := hp y hxy hy a m ha hm
    exact ⟨ok, ih a rest⟩
  | stuck => trivial

theorem attempt {p : Prog Q A ε ρ α}
    {post' : List (Event Q A ρ) → Except ε (Except ε α) → Scene δ ρ γ → Prop}
    (hp : p.Safe R i may (fun h r y => post' h (.ok r) y) h x) : p.attempt.Safe R i may post' h x := by
  induction p generalizing h x with
  | ret a => exact hp
  | fail e => exact hp
  | ram g k ih =>
    intro y hxy hy hm
    obtain ⟨ok, rest⟩ := hp y hxy hy hm
    exact ⟨ok, ih _ rest⟩
  | await q d k ih =>
    intro y hxy hy a m ha hm
    obtain ⟨ok, rest⟩ := hp y hxy hy a m ha hm
    exact ⟨ok, ih a rest⟩
  | stuck => trivial

theorem guarded {p : Prog Q A ε ρ α} {release : ρ → ρ}
    (hp : p.Safe R i may (fun h r y => may h (.ram y.machine.mem (release y.machine.mem)) y
        { y.machine with mem := release y.machine.mem } →
      R.Allows i (.ram y.machine.mem (release y.machine.mem)) y
        { y.machine with mem := release y.machine.mem } ∧
      ∀ z, R.rely i (R.move i (.ram y.machine.mem (release y.machine.mem)) y
        { y.machine with mem := release y.machine.mem }) z → R.inv z →
        post (h ++ [.ram y.machine.mem (release y.machine.mem)]) r z) h x) :
    (p.guarded release).Safe R i may post h x := by
  induction p generalizing h x with
  | ret a => exact fun y hxy hy hm => hp y hxy hy hm
  | fail e => exact fun y hxy hy hm => hp y hxy hy hm
  | ram g k ih =>
    intro y hxy hy hm
    obtain ⟨ok, rest⟩ := hp y hxy hy hm
    exact ⟨ok, ih _ rest⟩
  | await q d k ih =>
    intro y hxy hy a m ha hm
    obtain ⟨ok, rest⟩ := hp y hxy hy a m ha hm
    exact ⟨ok, ih a rest⟩
  | stuck => trivial

theorem ofExcept {r : Except ε α} (hp : ∀ y, R.rely i x y → R.inv y → post h r y) :
    (ofExcept r : Prog Q A ε ρ α).Safe R i may post h x := by
  cases r with
  | ok a => exact hp
  | error e => exact hp

theorem sync {f : ρ → Except ε α × ρ}
    (hp : ∀ y, R.rely i x y → R.inv y →
      may h (.ram y.machine.mem (f y.machine.mem).2) y
        { y.machine with mem := (f y.machine.mem).2 } →
      R.Allows i (.ram y.machine.mem (f y.machine.mem).2) y
        { y.machine with mem := (f y.machine.mem).2 } ∧
      ∀ z, R.rely i (R.move i (.ram y.machine.mem (f y.machine.mem).2) y
        { y.machine with mem := (f y.machine.mem).2 }) z → R.inv z →
        post (h ++ [.ram y.machine.mem (f y.machine.mem).2]) (f y.machine.mem).1 z) :
    (sync f : Prog Q A ε ρ α).Safe R i may post h x := by
  intro y hxy hy hm
  obtain ⟨ok, ends⟩ := hp y hxy hy hm
  exact ⟨ok, ofExcept ends⟩

theorem update {f : ρ → ρ} {post : List (Event Q A ρ) → Except ε Unit → Scene δ ρ γ → Prop}
    (hp : ∀ y, R.rely i x y → R.inv y →
      may h (.ram y.machine.mem (f y.machine.mem)) y
        { y.machine with mem := f y.machine.mem } →
      R.Allows i (.ram y.machine.mem (f y.machine.mem)) y
        { y.machine with mem := f y.machine.mem } ∧
      ∀ z, R.rely i (R.move i (.ram y.machine.mem (f y.machine.mem)) y
        { y.machine with mem := f y.machine.mem }) z → R.inv z →
        post (h ++ [.ram y.machine.mem (f y.machine.mem)]) (.ok ()) z) :
    (update f : Prog Q A ε ρ Unit).Safe R i may post h x := hp

theorem read {f : ρ → α}
    (hp : ∀ y, R.rely i x y → R.inv y →
      may h (.ram y.machine.mem y.machine.mem) y y.machine →
      R.Allows i (.ram y.machine.mem y.machine.mem) y y.machine ∧
      ∀ z, R.rely i (R.move i (.ram y.machine.mem y.machine.mem) y y.machine) z → R.inv z →
        post (h ++ [.ram y.machine.mem y.machine.mem]) (.ok (f y.machine.mem)) z) :
    (read f : Prog Q A ε ρ α).Safe R i may post h x := hp

theorem ask {q : Q} {post : List (Event Q A ρ) → Except ε (A q) → Scene δ ρ γ → Prop}
    (hp : ∀ y, R.rely i x y → R.inv y → ∀ a m, R.sem q y.machine a m → may h (.io q a) y m →
      R.Allows i (.io q a) y m ∧
      ∀ z, R.rely i (R.move i (.io q a) y m) z → R.inv z → post (h ++ [.io q a]) (.ok a) z) :
    (ask q : Prog Q A ε ρ (A q)).Safe R i may post h x := hp

theorem answer {q : Q} (f : A q → Except ε α)
    (hp : ∀ y, R.rely i x y → R.inv y → ∀ a m, R.sem q y.machine a m → may h (.io q a) y m →
      R.Allows i (.io q a) y m ∧
      ∀ z, R.rely i (R.move i (.io q a) y m) z → R.inv z → post (h ++ [.io q a]) (f a) z) :
    (Prog.ask q >>= fun a => Prog.ofExcept (f a) : Prog Q A ε ρ α).Safe R i may post h x := by
  intro y hxy hy a m ha hm
  obtain ⟨ok, ends⟩ := hp y hxy hy a m ha hm
  exact ⟨ok, ofExcept ends⟩

/-- The postcondition may speak of the events that lead to the end. -/
theorem ends {p : Prog Q A ε ρ α}
    (hp : p.Safe R i may (fun h' r y => ∀ h₁, h' = h ++ h₁ → Ends p h₁ r → post h' r y) h x) :
    p.Safe R i may post h x := by
  have go : ∀ {p' : Prog Q A ε ρ α} {h₀ x}, After p h₀ p' →
      p'.Safe R i may (fun h' r y => ∀ h₁, h' = h ++ h₁ → Ends p h₁ r → post h' r y) (h ++ h₀) x →
      p'.Safe R i may post (h ++ h₀) x := by
    intro p'
    induction p' with
    | ret a => exact fun after hp' y hxy hy => hp' y hxy hy _ rfl after
    | fail e => exact fun after hp' y hxy hy => hp' y hxy hy _ rfl after
    | ram f k ih =>
      intro h₀ x after hp' y hxy hy hm
      obtain ⟨ok, rest⟩ := hp' y hxy hy hm
      rw [List.append_assoc] at rest ⊢
      exact ⟨ok, ih _ (after.trans (.ram (.here _))) rest⟩
    | await q d k ih =>
      intro h₀ x after hp' y hxy hy a m ha hm
      obtain ⟨ok, rest⟩ := hp' y hxy hy a m ha hm
      rw [List.append_assoc] at rest ⊢
      exact ⟨ok, ih a (after.trans (.io (.here _))) rest⟩
    | stuck => exact fun _ _ => trivial
  have start : p.Safe R i may post (h ++ []) x := go (After.here p) (by rwa [List.append_nil])
  rwa [List.append_nil] at start

theorem gives {G : α → Prop} {p : Prog Q A ε ρ α} (hp : p.Safe R i may post h x) (hg : p.Gives G) :
    p.Safe R i may (fun h r y => post h r y ∧ ∀ a, r = .ok a → G a) h x := by
  induction p generalizing h x with
  | ret a => exact fun y hxy hy => ⟨hp y hxy hy, fun a' h => Except.ok.inj h ▸ hg⟩
  | fail e => exact fun y hxy hy => ⟨hp y hxy hy, by simp⟩
  | ram f k ih =>
    intro y hxy hy hm
    obtain ⟨ok, rest⟩ := hp y hxy hy hm
    exact ⟨ok, ih _ rest (hg _)⟩
  | await q d k ih =>
    intro y hxy hy a m ha hm
    obtain ⟨ok, rest⟩ := hp y hxy hy a m ha hm
    exact ⟨ok, ih a rest (hg a)⟩
  | stuck => trivial

/-- The frame rule. What neither the call nor the others can end holds at its end as well. -/
theorem frame {K : Scene δ ρ γ → Prop} {p : Prog Q A ε ρ α} (hp : p.Safe R i may post h x)
    (stable : ∀ y z, K y → R.rely i y z → K z)
    (own : ∀ e y m, K y → R.Allows i e y m → K (R.move i e y m)) (hx : K x) :
    p.Safe R i may (fun h r y => post h r y ∧ K y) h x := by
  induction p generalizing h x with
  | ret a => exact fun y hxy hy => ⟨hp y hxy hy, stable x y hx hxy⟩
  | fail e => exact fun y hxy hy => ⟨hp y hxy hy, stable x y hx hxy⟩
  | ram f k ih =>
    intro y hxy hy hm
    obtain ⟨ok, rest⟩ := hp y hxy hy hm
    exact ⟨ok, ih _ rest (own _ y _ (stable x y hx hxy) ok)⟩
  | await q d k ih =>
    intro y hxy hy a m ha hm
    obtain ⟨ok, rest⟩ := hp y hxy hy a m ha hm
    exact ⟨ok, ih a rest (own _ y m (stable x y hx hxy) ok)⟩
  | stuck => trivial

/-- The outline of a call each of whose steps, whenever it is taken, is allowed and keeps `K`. -/
theorem of_only {P : Q → Prop} {C : ρ → ρ → Prop} {K : Scene δ ρ γ → Prop} {p : Prog Q A ε ρ α}
    (hp : p.Only P C) (stable : ∀ y z, K y → R.rely i y z → R.inv z → K z)
    (ram : ∀ y s, K y → R.inv y → C y.machine.mem s →
      R.Allows i (.ram y.machine.mem s) y { y.machine with mem := s } ∧
        K (R.move i (.ram y.machine.mem s) y { y.machine with mem := s }))
    (io : ∀ y q a m, K y → R.inv y → P q → R.sem q y.machine a m →
      R.Allows i (.io q a) y m ∧ K (R.move i (.io q a) y m)) (hx : K x) :
    p.Safe R i may (fun _ _ y => K y) h x := by
  induction p generalizing h x with
  | ret a => exact fun y hxy hy => stable x y hx hxy hy
  | fail e => exact fun y hxy hy => stable x y hx hxy hy
  | ram f k ih =>
    intro y hxy hy _
    obtain ⟨ok, hK⟩ := ram y _ (stable x y hx hxy hy) hy (hp y.machine.mem).1
    exact ⟨ok, ih _ (hp _).2 hK⟩
  | await q d k ih =>
    intro y hxy hy a m ha _
    obtain ⟨ok, hK⟩ := io y q a m (stable x y hx hxy hy) hy hp.1 ha
    exact ⟨ok, ih a (hp.2 a) hK⟩
  | stuck => trivial

end Prog.Safe

/-! ## Running undisturbed -/

/-- What the call does depends on memory only up to `E`. -/
def Prog.Blind (E : ρ → ρ → Prop) : Prog Q A ε ρ α → Prop
  | .ret _ => True
  | .fail _ => True
  | .ram f k => ∀ s s', E s s' → E (f s) (f s') ∧ k s = k s' ∧ (k s).Blind E
  | .await _ _ k => ∀ x, (k x).Blind E
  | .stuck => True

namespace Prog
variable {E : ρ → ρ → Prop}

theorem Blind.bind {p : Prog Q A ε ρ α} {f : α → Prog Q A ε ρ β} (hp : p.Blind E)
    (hf : ∀ a, (f a).Blind E) : (p >>= f).Blind E := by
  rw [bind_def]
  induction p with
  | ret a => exact hf a
  | fail e => trivial
  | stuck => trivial
  | ram g k ih =>
    intro s s' hs
    obtain ⟨hg, hk, hb⟩ := hp s s' hs
    exact ⟨hg, congrArg (Prog.bind · f) hk, ih s hb⟩
  | await q d k ih => exact fun x => ih x (hp x)

theorem blind_pure {a : α} : (pure a : Prog Q A ε ρ α).Blind E := trivial

theorem blind_read {f : ρ → α} (hf : ∀ s s', E s s' → f s = f s') :
    (read f : Prog Q A ε ρ α).Blind E :=
  fun s s' hs => ⟨hs, congrArg ret (hf s s' hs), trivial⟩

theorem blind_update {f : ρ → ρ} (hf : ∀ s s', E s s' → E (f s) (f s')) :
    (update f : Prog Q A ε ρ Unit).Blind E :=
  fun s s' hs => ⟨hf s s' hs, rfl, trivial⟩

/-- A call on a part of memory sees the part alone. -/
theorem blind_zoom {σ : Type} {l : Part σ ρ} {E : σ → σ → Prop} {p : Prog Q A ε ρ α}
    (part : ∀ s s', E s s' → l.get s = l.get s')
    (set : ∀ r s s', E s s' → E (l.set r s) (l.set r s')) : (p.zoom l).Blind E := by
  induction p with
  | ret a => trivial
  | fail e => trivial
  | stuck => trivial
  | ram f k ih =>
    intro s s' hs
    have hg := part s s' hs
    simp only
    rw [hg]
    exact ⟨set _ s s' hs, rfl, ih _⟩
  | await q d k ih => exact fun x => ih x

/-- A part that the others cannot disturb runs as it would alone. -/
theorem Safe.alone {P : Q → Prop} {C : ρ → ρ → Prop} {K : Scene δ ρ γ → Prop}
    (symm : ∀ s s', E s s' → E s' s) (trans : ∀ s s' s'', E s s' → E s' s'' → E s s'')
    {p : Prog Q A ε ρ α} (hp : p.Only P C) (blind : p.Blind E)
    (stable : ∀ y z, K y → R.rely i y z → R.inv z →
      K z ∧ z.machine.dev = y.machine.dev ∧ E y.machine.mem z.machine.mem)
    (ram : ∀ y s, K y → R.inv y → C y.machine.mem s →
      R.Allows i (.ram y.machine.mem s) y { y.machine with mem := s } ∧
        K (R.move i (.ram y.machine.mem s) y { y.machine with mem := s }))
    (io : ∀ y q a m, K y → R.inv y → P q → R.sem q y.machine a m →
      (m = y.machine ∧ ∀ s, R.sem q ⟨m.dev, s⟩ a ⟨m.dev, s⟩) ∧
        R.Allows i (.io q a) y m ∧ K (R.move i (.io q a) y m))
    {h : List (Event Q A ρ)} {x : Scene δ ρ γ} {m : Machine δ ρ} (hx : K x)
    (dev : m.dev = x.machine.dev) (mem : E m.mem x.machine.mem) :
    p.Safe R i may (fun _ r y => K y ∧ ∃ m', Run R.sem p m r m' ∧ m'.dev = y.machine.dev ∧
      E m'.mem y.machine.mem) h x := by
  induction p generalizing h x m with
  | ret a =>
    intro y hxy hy
    obtain ⟨hK, hd, hE⟩ := stable x y hx hxy hy
    exact ⟨hK, m, ⟨rfl, rfl⟩, dev.trans hd.symm, trans _ _ _ mem hE⟩
  | fail e =>
    intro y hxy hy
    obtain ⟨hK, hd, hE⟩ := stable x y hx hxy hy
    exact ⟨hK, m, ⟨rfl, rfl⟩, dev.trans hd.symm, trans _ _ _ mem hE⟩
  | ram f k ih =>
    intro y hxy hy _
    obtain ⟨hK, hd, hE⟩ := stable x y hx hxy hy
    obtain ⟨ok, hK'⟩ := ram y _ hK hy (hp y.machine.mem).1
    have same : E m.mem y.machine.mem := trans _ _ _ mem hE
    obtain ⟨hf, hk, -⟩ := blind m.mem y.machine.mem same
    obtain ⟨-, -, hb⟩ := blind y.machine.mem m.mem (symm _ _ same)
    refine ⟨ok, ?_⟩
    have rest := ih y.machine.mem (hp y.machine.mem).2 hb
      (h := h ++ [.ram y.machine.mem (f y.machine.mem)]) (m := { m with mem := f m.mem }) hK'
      (dev.trans hd.symm) hf
    rw [← hk] at rest ⊢
    exact rest
  | await q d k ih =>
    intro y hxy hy a m₁ ha _
    obtain ⟨hK, hd, hE⟩ := stable x y hx hxy hy
    obtain ⟨⟨rfl, anywhere⟩, ok, hK'⟩ := io y q a m₁ hK hy hp.1 ha
    have hdev : m.dev = y.machine.dev := dev.trans hd.symm
    refine ⟨ok, ?_⟩
    have rest := ih a (hp.2 a) (blind a) (h := h ++ [.io q a]) (m := m) hK' hdev
      (trans _ _ _ mem hE)
    refine rest.mono fun _ r z _ hz => ⟨hz.1, ?_⟩
    obtain ⟨-, m', hrun, hz⟩ := hz
    have hans : R.sem q m a m := by
      have h1 := anywhere m.mem
      rwa [← hdev] at h1
    exact ⟨m', ⟨a, m, hans, hrun⟩, hz⟩
  | stuck => trivial

end Prog

/-! ## Pools -/

def Prog.finished : Prog Q A ε ρ α → Bool
  | .ret _ => true
  | .fail _ => true
  | _ => false

def Prog.returned : Prog Q A ε ρ α → Option α
  | .ret a => some a
  | _ => none

theorem Prog.eq_ret_of_returned {p : Prog Q A ε ρ α} {a : α} (h : p.returned = some a) :
    p = .ret a := by
  cases p with
  | ret a' => exact congrArg ret (Option.some.inj h)
  | _ => cases h

namespace Pool

def lastEvent (P : Pool Q A ε ρ α δ) (i : Nat) : Option (Event Q A ρ) :=
  P.tasks[i]?.bind fun t => t.hist.getLast?

/-- How a step continues the record: the call that moves, if one does, is known. -/
def noting (next : Nat → Event Q A ρ → Machine δ ρ → Machine δ ρ → γ → γ) (mover : Option Nat)
    (P P' : Pool Q A ε ρ α δ) (g : γ) : γ :=
  match mover with
  | none => g
  | some i =>
    match P'.lastEvent i with
    | some e => next i e P.machine P'.machine g
    | none => g

/-- The runs from a scene with no call in flight, with the record of each, by steps that `may`
allows. -/
inductive Noted (sem : (q : Q) → Machine δ ρ → A q → Machine δ ρ → Prop)
    (next : Nat → Event Q A ρ → Machine δ ρ → Machine δ ρ → γ → γ)
    (may : Pool Q A ε ρ α δ → γ → Move Q A ε ρ α → Pool Q A ε ρ α δ → Prop) (x : Scene δ ρ γ) :
    Pool Q A ε ρ α δ → γ → Prop
  | start : Noted sem next may x ⟨x.machine, []⟩ x.record
  | step {P P' : Pool Q A ε ρ α δ} {g : γ} {l : Move Q A ε ρ α} (run : Noted sem next may x P g)
      (move : Step sem P l P') (allowed : may P g l P') :
      Noted sem next may x P' (noting next l.mover P P' g)

variable {sem : (q : Q) → Machine δ ρ → A q → Machine δ ρ → Prop}
  {next : Nat → Event Q A ρ → Machine δ ρ → Machine δ ρ → γ → γ}
  {may : Pool Q A ε ρ α δ → γ → Move Q A ε ρ α → Pool Q A ε ρ α δ → Prop} {x : Scene δ ρ γ}
  {P P' : Pool Q A ε ρ α δ} {g : γ}

/-- The call that moves goes on with one more event, and no other call does. -/
structure Moved (P P' : Pool Q A ε ρ α δ) (i : Nat) (t : Task Q A ε ρ α) (e : Event Q A ρ)
    (rest : Prog Q A ε ρ α) : Prop where
  before : P.tasks[i]? = some t
  after : P'.tasks[i]? = some { t with hist := t.hist ++ [e], rest := rest }
  others : ∀ j, j ≠ i → P'.tasks[j]? = P.tasks[j]?

theorem moved_set {i : Nat} {t : Task Q A ε ρ α} (at_i : P.tasks[i]? = some t) (m : Machine δ ρ)
    (e : Event Q A ρ) (rest : Prog Q A ε ρ α) :
    Moved P ⟨m, P.tasks.set i { t with hist := t.hist ++ [e], rest := rest }⟩ i t e rest where
  before := at_i
  after := List.getElem?_set_self (List.getElem?_eq_some_iff.1 at_i).1
  others _ hj := List.getElem?_set_ne (Ne.symm hj)

/-- What a call does when it moves. -/
theorem Moved.cases {l : Move Q A ε ρ α} {i : Nat} {t : Task Q A ε ρ α} {e : Event Q A ρ}
    {rest : Prog Q A ε ρ α} (moved : Moved P P' i t e rest) (move : Step sem P l P')
    (mover : l.mover = some i) :
    (∃ f k, l = .ram i ∧ t.rest = .ram f k ∧ e = .ram P.machine.mem (f P.machine.mem) ∧
      rest = k P.machine.mem ∧ P'.machine = { P.machine with mem := f P.machine.mem }) ∨
    (∃ q d k x, l = .io i q x ∧ t.rest = .await q d k ∧ e = .io q x ∧ rest = k x ∧
      sem q P.machine x P'.machine) := by
  cases move with
  | start p => cases mover
  | @ram j t' f k at_j hrest =>
    obtain rfl := Option.some.inj mover
    obtain rfl := Option.some.inj (moved.before.symm.trans at_j)
    have after := moved.after.symm.trans (moved_set at_j _ _ _).after
    obtain ⟨-, hhist, hrest'⟩ := Task.mk.inj (Option.some.inj after)
    obtain rfl := List.singleton_inj.1 (List.append_cancel_left hhist)
    exact .inl ⟨f, k, rfl, hrest, rfl, hrest', rfl⟩
  | @io j t' q d k x m at_j hrest answer =>
    obtain rfl := Option.some.inj mover
    obtain rfl := Option.some.inj (moved.before.symm.trans at_j)
    have after := moved.after.symm.trans (moved_set at_j _ _ _).after
    obtain ⟨-, hhist, hrest'⟩ := Task.mk.inj (Option.some.inj after)
    obtain rfl := List.singleton_inj.1 (List.append_cancel_left hhist)
    exact .inr ⟨q, d, k, x, rfl, hrest, rfl, hrest', answer⟩

theorem Moved.noting {i : Nat} {t : Task Q A ε ρ α} {e : Event Q A ρ} {rest : Prog Q A ε ρ α}
    (h : Moved P P' i t e rest) :
    noting next (some i) P P' g = next i e P.machine P'.machine g := by
  simp [Pool.noting, lastEvent, h.after]

theorem Noted.tidy {calls : Prog Q A ε ρ α → Prop} (run : Noted sem next may x P g)
    (starts : ∀ P g p P', may P g (.start p) P' → calls p) : Tidy calls P := by
  induction run with
  | start => exact fun t ht => absurd ht List.not_mem_nil
  | step _ move allowed ih => exact ih.step move fun p hp => starts _ _ p _ (hp ▸ allowed)

/-- What holds in every state of a run may be asked of each state that a step starts from. -/
theorem Noted.along {I : Pool Q A ε ρ α δ → γ → Prop} (run : Noted sem next may x P g)
    (inv : ∀ P g, Noted sem next may x P g → I P g) :
    Noted sem next (fun P g l P' => may P g l P' ∧ I P g) x P g := by
  induction run with
  | start => exact .start
  | step run move allowed ih => exact ih.step move ⟨allowed, inv _ _ run⟩

theorem Noted.also {γ' : Type} (next' : Nat → Event Q A ρ → Machine δ ρ → Machine δ ρ → γ' → γ')
    (g₀ : γ') (run : Noted sem next may x P g) :
    ∃ g', Noted sem (fun i e m m' g => (next i e m m' g.1, next' i e m m' g.2))
      (fun P g l P' => may P g.1 l P') ⟨x.machine, (x.record, g₀)⟩ P (g, g') := by
  induction run with
  | start => exact ⟨g₀, .start⟩
  | @step P P' g l _ move allowed ih =>
    obtain ⟨g', run'⟩ := ih
    have run'' := run'.step move allowed
    cases move with
    | start p => exact ⟨g', run''⟩
    | @ram i t f k at_i rest =>
      have moved := moved_set at_i { P.machine with mem := f P.machine.mem }
        (.ram P.machine.mem (f P.machine.mem)) (k P.machine.mem)
      simp only [Move.mover, moved.noting] at run'' ⊢
      exact ⟨_, run''⟩
    | @io i t q d k a m at_i rest answer =>
      have moved := moved_set at_i m (.io q a) (k a)
      simp only [Move.mover, moved.noting] at run'' ⊢
      exact ⟨_, run''⟩

/-- The pool after a list of choices and its record, if every step passes `check`. -/
def execNoting (serve : (n : Nat) → (q : Q) → Machine δ ρ → Option (A q × Machine δ ρ))
    (next : Nat → Event Q A ρ → Machine δ ρ → Machine δ ρ → γ → γ)
    (check : Pool Q A ε ρ α δ → γ → Pool Q A ε ρ α δ → Bool) :
    List (Choice Q A ε ρ α) → Pool Q A ε ρ α δ × γ → Option (Pool Q A ε ρ α δ × γ)
  | [], Pg => some Pg
  | c :: cs, (P, g) =>
    match P.choose serve c with
    | some P' =>
      if check P g P' then execNoting serve next check cs (P', noting next c.mover P P' g) else none
    | none => none

def started : List (Choice Q A ε ρ α) → List (Prog Q A ε ρ α)
  | [] => []
  | .start p :: cs => p :: started cs
  | _ :: cs => started cs

theorem map_call_set {tasks : List (Task Q A ε ρ α)} {i : Nat} {t t' : Task Q A ε ρ α}
    (at_i : tasks[i]? = some t) (same : t'.call = t.call) :
    (tasks.set i t').map Task.call = tasks.map Task.call := by
  obtain ⟨hi, rfl⟩ := List.getElem?_eq_some_iff.1 at_i
  have hlen : i < (tasks.map Task.call).length := by rwa [List.length_map]
  have hget : (tasks.map Task.call)[i] = t'.call := by rw [List.getElem_map, same]
  rw [List.map_set, ← hget]
  exact List.set_getElem_self hlen

theorem calls_of_choose {serve : (n : Nat) → (q : Q) → Machine δ ρ → Option (A q × Machine δ ρ)}
    {c : Choice Q A ε ρ α} (h : P.choose serve c = some P') :
    P'.tasks.map Task.call = P.tasks.map Task.call ++ started [c] := by
  cases c with
  | start p =>
    obtain rfl := Option.some.inj h
    exact List.map_append
  | run i =>
    simp only [choose] at h
    split at h
    · cases h
    · next call hist rest ht =>
      split at h
      · obtain rfl := Option.some.inj h
        simpa [started] using map_call_set ht rfl
      · cases h
  | answer i n =>
    simp only [choose] at h
    split at h
    · cases h
    · next call hist rest ht =>
      split at h
      · split at h
        · obtain rfl := Option.some.inj h
          simpa [started] using map_call_set ht rfl
        · cases h
      · cases h

/-- The calls of a computed run are those that its choices start, in their order. -/
theorem calls_of_execNoting {serve : (n : Nat) → (q : Q) → Machine δ ρ → Option (A q × Machine δ ρ)}
    {check : Pool Q A ε ρ α δ → γ → Pool Q A ε ρ α δ → Bool}
    {cs : List (Choice Q A ε ρ α)} {Pg : Pool Q A ε ρ α δ × γ}
    (h : execNoting serve next check cs (P, g) = some Pg) :
    Pg.1.tasks.map Task.call = P.tasks.map Task.call ++ started cs := by
  induction cs generalizing P g with
  | nil =>
    obtain rfl := Option.some.inj h
    simp [started]
  | cons c cs ih =>
    simp only [execNoting] at h
    split at h
    · next P₁ hc =>
      split at h
      · rw [ih h, calls_of_choose hc, List.append_assoc]
        cases c <;> rfl
      · cases h
    · cases h

theorem Noted.exec {serve : (n : Nat) → (q : Q) → Machine δ ρ → Option (A q × Machine δ ρ)}
    (sound : ∀ n q m x m₁, serve n q m = some (x, m₁) → sem q m x m₁)
    {check : Pool Q A ε ρ α δ → γ → Pool Q A ε ρ α δ → Bool}
    {cs : List (Choice Q A ε ρ α)} {Pg : Pool Q A ε ρ α δ × γ} (run : Noted sem next may x P g)
    (allowed : ∀ P g l P', Step sem P l P' → (∀ p, l = .start p → .start p ∈ cs) →
      check P g P' = true → may P g l P')
    (h : execNoting serve next check cs (P, g) = some Pg) : Noted sem next may x Pg.1 Pg.2 := by
  induction cs generalizing P g with
  | nil =>
    obtain rfl := Option.some.inj h
    exact run
  | cons c cs ih =>
    simp only [execNoting] at h
    split at h
    · next P₁ hc =>
      split at h
      · next hcheck =>
        obtain ⟨l, move, hmover, hl⟩ := choose_step sound hc
        have here : may P g l P₁ :=
          allowed P g l P₁ move (fun p hp => hl p hp ▸ List.mem_cons_self) hcheck
        refine ih ?_ (fun P g l P' move hp => allowed P g l P' move fun p hp' =>
          List.mem_cons_of_mem _ (hp p hp')) h
        rw [← hmover]
        exact run.step move here
      · cases h
    · cases h

/-- A call that has moved and is still to move, or whose outcome is to last. -/
def Live (lasting : Prog Q A ε ρ α → Prop) (t : Task Q A ε ρ α) : Prop :=
  t.hist ≠ [] ∧ (lasting t.call ∨ t.rest.finished = false)

/-- Calls that are safe one by one keep the rules together, as long as each live call finds what
it counts on around every step of the others. -/
theorem Noted.safe (S : Setting Q A δ ρ γ) (T : Prog Q A ε ρ α → Terms δ ρ γ)
    (lasting : Prog Q A ε ρ α → Prop)
    (when : Prog Q A ε ρ α → Nat → List (Event Q A ρ) → Event Q A ρ → Scene δ ρ γ → Machine δ ρ →
      Prop)
    (post : Prog Q A ε ρ α → Nat → List (Event Q A ρ) → Except ε α → Scene δ ρ γ → Prop)
    (run : Noted S.sem S.next may x P g) (start : S.inv x)
    (starts : ∀ P g p P', may P g (.start p) P' →
      ∀ i y, S.inv y → p.Safe ⟨S, T p⟩ i (when p i) (post p i) [] y)
    (moves : ∀ P g l P' i t e rest, may P g l P' → Step S.sem P l P' → l.mover = some i →
      Moved P P' i t e rest → when t.call i t.hist e ⟨P.machine, g⟩ P'.machine)
    (beside : ∀ P g l P' i t e rest j t', may P g l P' → Step S.sem P l P' → l.mover = some i →
      Moved P P' i t e rest → j ≠ i → P.tasks[j]? = some t' → Live lasting t' →
      S.inv ⟨P.machine, g⟩ →
      (T t.call).guar i ⟨P.machine, g⟩ (S.move i e ⟨P.machine, g⟩ P'.machine) →
      (T t'.call).rely j ⟨P.machine, g⟩ (S.move i e ⟨P.machine, g⟩ P'.machine)) :
    S.inv ⟨P.machine, g⟩ ∧ ∀ (i : Nat) (t : Task Q A ε ρ α), P.tasks[i]? = some t →
      (t.hist = [] → ∀ y, S.inv y → t.rest.Safe ⟨S, T t.call⟩ i (when t.call i) (post t.call i) [] y) ∧
      (Live lasting t →
        t.rest.Safe ⟨S, T t.call⟩ i (when t.call i) (post t.call i) t.hist ⟨P.machine, g⟩) := by
  induction run with
  | start => exact ⟨start, fun i t ht => by simp at ht⟩
  | @step P P' g l _ move allowed ih =>
    obtain ⟨hinv, hsafe⟩ := ih
    -- Wherever the call that moves stands, its next step is safe from here.
    have here (i : Nat) (t : Task Q A ε ρ α) (at_i : P.tasks[i]? = some t)
        (unfinished : t.rest.finished = false) :
        t.rest.Safe ⟨S, T t.call⟩ i (when t.call i) (post t.call i) t.hist ⟨P.machine, g⟩ := by
      by_cases hnil : t.hist = []
      · rw [hnil]
        exact (hsafe i t at_i).1 hnil _ hinv
      · exact (hsafe i t at_i).2 ⟨hnil, .inr unfinished⟩
    -- The others find what they count on.
    have rest_safe (i : Nat) (t : Task Q A ε ρ α) (e : Event Q A ρ) (rest : Prog Q A ε ρ α)
        (mover : l.mover = some i) (moved : Moved P P' i t e rest)
        (guar : (T t.call).guar i ⟨P.machine, g⟩ (S.move i e ⟨P.machine, g⟩ P'.machine))
        (hrest : rest.Safe ⟨S, T t.call⟩ i (when t.call i) (post t.call i) (t.hist ++ [e])
          (S.move i e ⟨P.machine, g⟩ P'.machine)) (j : Nat) (t' : Task Q A ε ρ α)
        (at_j : P'.tasks[j]? = some t') :
        (t'.hist = [] → ∀ y, S.inv y →
          t'.rest.Safe ⟨S, T t'.call⟩ j (when t'.call j) (post t'.call j) [] y) ∧
        (Live lasting t' → t'.rest.Safe ⟨S, T t'.call⟩ j (when t'.call j) (post t'.call j) t'.hist
          (S.move i e ⟨P.machine, g⟩ P'.machine)) := by
      by_cases hj : j = i
      · subst hj
        obtain rfl := Option.some.inj (moved.after.symm.trans at_j)
        exact ⟨fun hnil => by simp at hnil, fun _ => hrest⟩
      · rw [moved.others j hj] at at_j
        refine ⟨(hsafe j t' at_j).1, fun live => ?_⟩
        exact ((hsafe j t' at_j).2 live).rely
          (beside P g l P' i t e rest j t' allowed move mover moved hj at_j live hinv guar)
    cases move with
    | start p =>
      refine ⟨hinv, fun i t ht => ?_⟩
      rw [List.getElem?_append] at ht
      split at ht
      · exact hsafe i t ht
      · obtain rfl := List.mem_singleton.1 (List.mem_of_getElem? ht)
        exact ⟨fun _ y hy => starts P g p _ allowed i y hy, fun live => absurd rfl live.1⟩
    | @ram i t f k at_i rest =>
      have moved := moved_set at_i { P.machine with mem := f P.machine.mem }
        (.ram P.machine.mem (f P.machine.mem)) (k P.machine.mem)
      have hi := here i t at_i (by rw [rest]; rfl)
      rw [rest] at hi
      obtain ⟨⟨hinv', guar⟩, hk⟩ := hi _ ((T t.call).rely_refl i _) hinv
        (moves P g _ _ i t _ _ allowed (.ram at_i rest) rfl moved)
      have hnoting : noting S.next (some i) P _ g = _ := moved.noting
      rw [show (Move.ram i : Move Q A ε ρ α).mover = some i from rfl, hnoting]
      exact ⟨hinv', rest_safe i t _ _ rfl moved guar hk⟩
    | @io i t q d k a m at_i rest answer =>
      have moved := moved_set at_i m (.io q a) (k a)
      have hi := here i t at_i (by rw [rest]; rfl)
      rw [rest] at hi
      obtain ⟨⟨hinv', guar⟩, hk⟩ := hi _ ((T t.call).rely_refl i _) hinv a m answer
        (moves P g _ _ i t _ _ allowed (.io at_i rest answer) rfl moved)
      have hnoting : noting S.next (some i) P _ g = _ := moved.noting
      rw [show (Move.io i q a : Move Q A ε ρ α).mover = some i from rfl, hnoting]
      exact ⟨hinv', rest_safe i t _ _ rfl moved guar hk⟩

end Pool
end
end Async
