import Crossbank.Async.Pool

/-!
# Stamps drawn from a shared cursor

Calls on one memory draw stamps from a cursor in it, or reply with stamps they have found elsewhere.

* `Prog.Leaves C G p last` : every change `p` makes to memory is a `C`, and what it returns stands in
  the relation `G` to the memory before and after its last move;
* `Pool.Returned P i a` : the call `i` has returned `a`;
* `Leaving.returned_step` : what has been returned after a step was returned before it, or by its move;
* `Clock` : a cursor and the stamps of a reply; `Past.ordered` : a stamp drawn later is greater.
-/

namespace Async

variable {Q : Type} {A : Q → Type} {ε ρ α β δ : Type}

namespace Prog

/-- Every change `p` makes to memory is a `C`, and what it returns stands in the relation `G` to
the memory before and after the last move, which was a `last`. An answer leaves memory as it was. -/
def Leaves (C : ρ → ρ → Prop) (G : ρ → ρ → α → Prop) : Prog Q A ε ρ α → (ρ → ρ → Prop) → Prop
  | ret a, last => ∀ s s', last s s' → G s s' a
  | fail _, _ => True
  | ram f k, _ => ∀ s, C s (f s) ∧ Leaves C G (k s) fun t t' => t = s ∧ t' = f s
  | await _ _ k, _ => ∀ x, Leaves C G (k x) Eq
  | stuck, _ => True

variable {C : ρ → ρ → Prop} {G : ρ → ρ → α → Prop} {G' : ρ → ρ → β → Prop} {last : ρ → ρ → Prop}

theorem Leaves.map {f : α → β} {p : Prog Q A ε ρ α}
    (hp : p.Leaves C (fun s s' a => G' s s' (f a)) last) : (f <$> p).Leaves C G' last := by
  rw [map_eq_pure_bind, bind_def]
  induction p generalizing last with
  | ret a => exact hp
  | fail e => trivial
  | stuck => trivial
  | ram g k ih => exact fun s => ⟨(hp s).1, ih s (hp s).2⟩
  | await q d k ih => exact fun x => ih x (hp x)

theorem Only.leaves_bind {P : Q → Prop} {H : α → Prop} {p : Prog Q A ε ρ α}
    {f : α → Prog Q A ε ρ β} (hp : p.Only P C) (gives : p.Gives H)
    (hf : ∀ a, H a → ∀ last, (f a).Leaves C G' last) : (p >>= f).Leaves C G' last := by
  rw [bind_def]
  induction p generalizing last with
  | ret a => exact hf a gives last
  | fail e => trivial
  | stuck => trivial
  | ram g k ih => exact fun s => ⟨(hp s).1, ih s (hp s).2 (gives s)⟩
  | await q d k ih => exact fun x => ih x (hp.2 x) (gives x)

theorem leaves_sync {f : ρ → Except ε α × ρ} (keeps : ∀ s, C s (f s).2)
    (returns : ∀ s a, (f s).1 = .ok a → G s (f s).2 a) :
    (sync f : Prog Q A ε ρ α).Leaves C G last := by
  intro s
  refine ⟨keeps s, ?_⟩
  dsimp only
  cases hs : (f s).1 with
  | ok a =>
    rintro t t' ⟨rfl, rfl⟩
    exact returns t a hs
  | error e => trivial

end Prog

namespace Pool

variable {sem : (q : Q) → Machine δ ρ → A q → Machine δ ρ → Prop}
  {may : Pool Q A ε ρ α δ → Move Q A ε ρ α → Prop} {P P' : Pool Q A ε ρ α δ}
  {C : ρ → ρ → Prop} {G : ρ → ρ → α → Prop} {l : Move Q A ε ρ α}

def Returned (P : Pool Q A ε ρ α δ) (i : Nat) (a : α) : Prop :=
  ∃ t, P.tasks[i]? = some t ∧ t.rest = .ret a

/-- What the call `i` has returned, if it has. -/
def reply (P : Pool Q A ε ρ α δ) (i : Nat) : Option α :=
  match P.tasks[i]? with
  | some ⟨_, _, .ret a⟩ => some a
  | _ => none

theorem returned_iff_reply {i : Nat} {a : α} : P.Returned i a ↔ P.reply i = some a := by
  unfold Returned reply
  constructor
  · rintro ⟨⟨call, hist, rest⟩, ht, rfl⟩
    rw [ht]
  · intro h
    split at h
    · next call hist b ht =>
      obtain rfl := Option.some.inj h
      exact ⟨_, ht, rfl⟩
    · cases h

/-- Every call in flight changes memory as `C` allows, and returns as `G` asks. -/
def Leaving (C : ρ → ρ → Prop) (G : ρ → ρ → α → Prop) (P : Pool Q A ε ρ α δ) : Prop :=
  ∀ t ∈ P.tasks, ∃ last, t.rest.Leaves C G last

def Still (sem : (q : Q) → Machine δ ρ → A q → Machine δ ρ → Prop) : Prop :=
  ∀ q m x m', sem q m x m' → m'.mem = m.mem

theorem leaving_set {i : Nat} {t : Task Q A ε ρ α} {m : Machine δ ρ} (leaving : Leaving C G P)
    (ht : ∃ last, t.rest.Leaves C G last) : Leaving C G ⟨m, P.tasks.set i t⟩ := by
  intro t' ht'
  rcases List.mem_or_eq_of_mem_set ht' with ht' | rfl
  · exact leaving t' ht'
  · exact ht

theorem Leaving.step (leaving : Leaving C G P) (move : Step sem P l P')
    (starts : ∀ p, l = .start p → p.Leaves C G Eq) : Leaving C G P' := by
  cases move with
  | start p =>
    intro t ht
    rcases List.mem_append.1 ht with ht | ht
    · exact leaving t ht
    · obtain rfl := List.mem_singleton.1 ht
      exact ⟨Eq, starts p rfl⟩
  | @ram i t f k at_i rest =>
    obtain ⟨last, hp⟩ := leaving t (List.mem_of_getElem? at_i)
    rw [rest] at hp
    exact leaving_set leaving ⟨_, (hp P.machine.mem).2⟩
  | @io i t q d k x m at_i rest answer =>
    obtain ⟨last, hp⟩ := leaving t (List.mem_of_getElem? at_i)
    rw [rest] at hp
    exact leaving_set leaving ⟨Eq, hp x⟩

theorem Leaving.mem_step (leaving : Leaving C G P) (still : Still sem) (refl : ∀ s, C s s)
    (move : Step sem P l P') : C P.machine.mem P'.machine.mem := by
  cases move with
  | start p => exact refl _
  | @ram i t f k at_i rest =>
    obtain ⟨last, hp⟩ := leaving t (List.mem_of_getElem? at_i)
    rw [rest] at hp
    exact (hp P.machine.mem).1
  | @io i t q d k x m at_i rest answer =>
    rw [show m.mem = P.machine.mem from still q _ x m answer]
    exact refl _

theorem returned_set {i j : Nat} {t t' : Task Q A ε ρ α} {m : Machine δ ρ} {a : α}
    (at_i : P.tasks[i]? = some t) (h : Returned ⟨m, P.tasks.set i t'⟩ j a) :
    Returned P j a ∨ j = i ∧ t'.rest = .ret a := by
  obtain ⟨u, hu, hr⟩ := h
  by_cases hji : i = j
  · subst hji
    have inside : i < P.tasks.length := (List.getElem?_eq_some_iff.1 at_i).1
    dsimp only at hu
    rw [List.getElem?_set_self inside] at hu
    exact .inr ⟨rfl, Option.some.inj hu ▸ hr⟩
  · dsimp only at hu
    rw [List.getElem?_set_ne hji] at hu
    exact .inl ⟨u, hu, hr⟩

/-- Who has returned after a move had returned before it, or has just returned as it should. Two
calls do not return at one move. -/
theorem Leaving.returned_step (leaving : Leaving C G P) (still : Still sem)
    (move : Step sem P l P') (starts : ∀ p, l = .start p → p.Leaves C G Eq) :
    ∃ i, ∀ j a, Returned P' j a →
      Returned P j a ∨ j = i ∧ G P.machine.mem P'.machine.mem a := by
  cases move with
  | start p =>
    refine ⟨P.tasks.length, fun j a h => ?_⟩
    obtain ⟨t, ht, hr⟩ := h
    by_cases inside : j < P.tasks.length
    · dsimp only at ht
      rw [List.getElem?_append_left inside] at ht
      exact .inl ⟨t, ht, hr⟩
    · have bound := (List.getElem?_eq_some_iff.1 ht).1
      simp only [List.length_append, List.length_singleton] at bound
      obtain rfl : j = P.tasks.length := by omega
      dsimp only at ht
      rw [List.getElem?_concat_length] at ht
      obtain rfl := Option.some.inj ht
      have hp := starts p rfl
      rw [show p = .ret a from hr] at hp
      exact .inr ⟨rfl, hp _ _ rfl⟩
  | @ram i t f k at_i rest =>
    refine ⟨i, fun j a h => (returned_set at_i h).imp_right fun ⟨hj, hr⟩ => ⟨hj, ?_⟩⟩
    obtain ⟨last, hp⟩ := leaving t (List.mem_of_getElem? at_i)
    rw [rest] at hp
    have now := (hp P.machine.mem).2
    rw [show k P.machine.mem = .ret a from hr] at now
    exact now _ _ ⟨rfl, rfl⟩
  | @io i t q d k x m at_i rest answer =>
    refine ⟨i, fun j a h => (returned_set at_i h).imp_right fun ⟨hj, hr⟩ => ⟨hj, ?_⟩⟩
    obtain ⟨last, hp⟩ := leaving t (List.mem_of_getElem? at_i)
    rw [rest] at hp
    have now := hp x
    rw [show k x = .ret a from hr] at now
    exact now _ _ (still q _ x m answer).symm

end Pool

/-! ## Clocks -/

/-- A cursor in memory, the stamp a reply has drawn from it, and the stamps a reply has found. -/
structure Clock (ρ α τ : Type) where
  level : ρ → τ
  drawn : α → Option τ
  found : α → τ → Prop

namespace Clock

variable {τ : Type} [Preorder τ] (clock : Clock ρ α τ)

def Forward (s s' : ρ) : Prop := clock.level s ≤ clock.level s'

/-- A stamp that is drawn is one the cursor has passed by the move, and one that is found is one it
has passed. -/
def Marks (s s' : ρ) (a : α) : Prop :=
  (∀ x, clock.drawn a = some x → clock.level s ≤ x ∧ x < clock.level s') ∧
    ∀ x, clock.found a x → x < clock.level s'

/-- A reply bears the stamps it has drawn and found. -/
def Bears (a : α) (x : τ) : Prop := clock.drawn a = some x ∨ clock.found a x

variable {clock} {sem : (q : Q) → Machine δ ρ → A q → Machine δ ρ → Prop}
  {P₀ P P' : Pool Q A ε ρ α δ} {l : Move Q A ε ρ α} {i j : Nat} {a b : α} {x y : τ}

theorem Marks.bears {s s' : ρ} (h : clock.Marks s s' a) (bears : clock.Bears a x) :
    x < clock.level s' := by
  rcases bears with hx | hx
  · exact (h.1 x hx).2
  · exact h.2 x hx

variable (clock) in
def Starts (_ : Pool Q A ε ρ α δ) (l : Move Q A ε ρ α) : Prop :=
  ∀ p, l = .start p → p.Leaves clock.Forward clock.Marks Eq

variable (clock) in
/-- The cursor has passed every stamp that has been returned, and no stamp was drawn twice. -/
structure Past (P : Pool Q A ε ρ α δ) : Prop where
  leaving : P.Leaving clock.Forward clock.Marks
  behind : ∀ i a x, P.Returned i a → clock.Bears a x → x < clock.level P.machine.mem
  distinct : ∀ i j a b x y, i ≠ j → P.Returned i a → P.Returned j b → clock.drawn a = some x →
    clock.drawn b = some y → x ≠ y

theorem past_of_idle {m : Machine δ ρ} : clock.Past (⟨m, []⟩ : Pool Q A ε ρ α δ) := by
  have none_returned (i : Nat) (a : α) : ¬ (⟨m, []⟩ : Pool Q A ε ρ α δ).Returned i a := by
    rintro ⟨t, ht, -⟩
    simp at ht
  exact ⟨fun t ht => by simp at ht, fun i a x h => (none_returned i a h).elim,
    fun i j a b x y _ h => (none_returned i a h).elim⟩

theorem Past.forward_step (past : clock.Past P) (still : Pool.Still sem)
    (move : Pool.Step sem P l P') : clock.Forward P.machine.mem P'.machine.mem :=
  past.leaving.mem_step still (fun _ => le_refl _) move

theorem Past.step (past : clock.Past P) (still : Pool.Still sem) (move : Pool.Step sem P l P')
    (starts : clock.Starts P l) : clock.Past P' := by
  have forward := past.forward_step still move
  obtain ⟨mover, returned⟩ := past.leaving.returned_step still move starts
  refine ⟨past.leaving.step move starts, ?_, ?_⟩
  · intro i a x hi hx
    rcases returned i a hi with hi | ⟨-, marks⟩
    · exact (past.behind i a x hi hx).trans_le forward
    · exact marks.bears hx
  · intro i j a b x y hij hi hj hx hy
    rcases returned i a hi with hi | ⟨rfl, marksI⟩
    · rcases returned j b hj with hj | ⟨rfl, marksJ⟩
      · exact past.distinct i j a b x y hij hi hj hx hy
      · exact ((past.behind i a x hi (.inl hx)).trans_le (marksJ.1 y hy).1).ne
    · rcases returned j b hj with hj | ⟨rfl, -⟩
      · exact ((past.behind j b y hj (.inl hy)).trans_le (marksI.1 x hx).1).ne'
      · exact absurd rfl hij

theorem Past.run (past : clock.Past P) (still : Pool.Still sem)
    (run : Pool.Reach sem clock.Starts P P') : clock.Past P' :=
  run.invariant past fun _ _ _ past move starts => past.step still move starts

theorem Past.forward (past : clock.Past P) (still : Pool.Still sem)
    (run : Pool.Reach sem clock.Starts P P') : clock.Forward P.machine.mem P'.machine.mem := by
  induction run with
  | refl => exact le_refl _
  | step run move _ ih => exact ih.trans ((past.run still run).forward_step still move)

/-- A stamp drawn later is greater. Every stamp borne by what had been returned is less than one
that is drawn from then on. -/
theorem Past.ordered (past : clock.Past P) (still : Pool.Still sem)
    (run : Pool.Reach sem clock.Starts P P') (hi : P.Returned i a) (hx : clock.Bears a x)
    (later : ∀ c, ¬ P.Returned j c) (hj : P'.Returned j b) (hy : clock.drawn b = some y) :
    x < y := by
  induction run with
  | refl => exact absurd hj (later b)
  | @step P₁ P₂ l run move starts ih =>
    have past₁ := past.run still run
    obtain ⟨mover, returned⟩ := past₁.leaving.returned_step still move starts
    rcases returned j b hj with hj | ⟨-, marks⟩
    · exact ih hj
    · exact ((past.behind i a x hi hx).trans_le (past.forward still run)).trans_le (marks.1 y hy).1

end Clock
end Async
