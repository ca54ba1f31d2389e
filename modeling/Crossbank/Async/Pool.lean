import Crossbank.Async.Prog

/-!
# Calls that interleave

A `Pool` is one machine and the calls in flight on it. A step starts a call, lets one call make one
access to memory, or answers the request one call waits at, so every order of the calls' requests
and memory accesses is a run.

* `Pool.Step` : one step, named by its `Move`;
* `Pool.Reach may P P'` : a run from `P` to `P'` whose moves are all allowed by `may`;
* `Pool.Tidy` : a call is where its history has led it;
* `Pool.exec`, `Pool.exec_reach` : a run computed from a list of choices.
-/

namespace Async

/-- A call in flight: what was called, what has happened to it, and what is left of it. -/
structure Task (Q : Type) (A : Q → Type) (ε ρ α : Type) where
  call : Prog Q A ε ρ α
  hist : List (Event Q A ρ)
  rest : Prog Q A ε ρ α

structure Pool (Q : Type) (A : Q → Type) (ε ρ α δ : Type) where
  machine : Machine δ ρ
  tasks : List (Task Q A ε ρ α)

/-- Which call moves, and how. -/
inductive Move (Q : Type) (A : Q → Type) (ε ρ α : Type) where
  | start (p : Prog Q A ε ρ α)
  | ram (i : Nat)
  | io (i : Nat) (q : Q) (x : A q)

def Move.mover {Q : Type} {A : Q → Type} {ε ρ α : Type} : Move Q A ε ρ α → Option Nat
  | .start _ => none
  | .ram i => some i
  | .io i _ _ => some i

namespace Pool
variable {Q : Type} {A : Q → Type} {ε ρ α δ : Type}
  {sem : (q : Q) → Machine δ ρ → A q → Machine δ ρ → Prop}

inductive Step (sem : (q : Q) → Machine δ ρ → A q → Machine δ ρ → Prop) :
    Pool Q A ε ρ α δ → Move Q A ε ρ α → Pool Q A ε ρ α δ → Prop
  | start (P : Pool Q A ε ρ α δ) (p : Prog Q A ε ρ α) :
      Step sem P (.start p) { P with tasks := P.tasks ++ [⟨p, [], p⟩] }
  | ram {P : Pool Q A ε ρ α δ} {i : Nat} {t : Task Q A ε ρ α} {f : ρ → ρ}
      {k : ρ → Prog Q A ε ρ α} (at_i : P.tasks[i]? = some t) (rest : t.rest = .ram f k) :
      Step sem P (.ram i)
        ⟨{ P.machine with mem := f P.machine.mem }, P.tasks.set i
          { t with hist := t.hist ++ [.ram P.machine.mem (f P.machine.mem)]
                   rest := k P.machine.mem }⟩
  | io {P : Pool Q A ε ρ α δ} {i : Nat} {t : Task Q A ε ρ α} {q : Q} {d : ρ → ρ}
      {k : A q → Prog Q A ε ρ α} {x : A q} {m : Machine δ ρ} (at_i : P.tasks[i]? = some t)
      (rest : t.rest = .await q d k) (answer : sem q P.machine x m) :
      Step sem P (.io i q x)
        ⟨m, P.tasks.set i { t with hist := t.hist ++ [.io q x], rest := k x }⟩

/-- A run all of whose moves are allowed where they are made. -/
inductive Reach (sem : (q : Q) → Machine δ ρ → A q → Machine δ ρ → Prop)
    (may : Pool Q A ε ρ α δ → Move Q A ε ρ α → Prop) (P : Pool Q A ε ρ α δ) :
    Pool Q A ε ρ α δ → Prop
  | refl : Reach sem may P P
  | step {P' P'' : Pool Q A ε ρ α δ} {l : Move Q A ε ρ α} (run : Reach sem may P P')
      (move : Step sem P' l P'') (allowed : may P' l) : Reach sem may P P''

variable {may : Pool Q A ε ρ α δ → Move Q A ε ρ α → Prop} {P P' : Pool Q A ε ρ α δ}

theorem Reach.mono {may' : Pool Q A ε ρ α δ → Move Q A ε ρ α → Prop} (run : Reach sem may P P')
    (weaker : ∀ P l, may P l → may' P l) : Reach sem may' P P' := by
  induction run with
  | refl => exact .refl
  | step _ move allowed ih => exact .step ih move (weaker _ _ allowed)

theorem Reach.trans {P'' : Pool Q A ε ρ α δ} (first : Reach sem may P P')
    (second : Reach sem may P' P'') : Reach sem may P P'' := by
  induction second with
  | refl => exact first
  | step _ move allowed ih => exact .step ih move allowed

/-- Every call in flight is where its history has led it, and was started as `calls` allows. -/
def Tidy (calls : Prog Q A ε ρ α → Prop) (P : Pool Q A ε ρ α δ) : Prop :=
  ∀ t ∈ P.tasks, calls t.call ∧ After t.call t.hist t.rest

theorem Tidy.step {calls : Prog Q A ε ρ α → Prop} {l : Move Q A ε ρ α} (tidy : Tidy calls P)
    (move : Step sem P l P') (starts : ∀ p, l = .start p → calls p) : Tidy calls P' := by
  cases move with
  | start p =>
    intro t ht
    rcases List.mem_append.1 ht with ht | ht
    · exact tidy t ht
    · obtain rfl := List.mem_singleton.1 ht
      exact ⟨starts p rfl, .here p⟩
  | @ram i t f k at_i rest =>
    intro t' ht
    rcases List.mem_or_eq_of_mem_set ht with ht | rfl
    · exact tidy t' ht
    · obtain ⟨hc, ha⟩ := tidy t (List.mem_of_getElem? at_i)
      exact ⟨hc, ha.trans (rest ▸ .ram (.here _))⟩
  | @io i t q d k x m at_i rest answer =>
    intro t' ht
    rcases List.mem_or_eq_of_mem_set ht with ht | rfl
    · exact tidy t' ht
    · obtain ⟨hc, ha⟩ := tidy t (List.mem_of_getElem? at_i)
      exact ⟨hc, ha.trans (rest ▸ .io (.here _))⟩

/-- The invariant rule. What every allowed move keeps, every run keeps. -/
theorem Reach.invariant {I : Pool Q A ε ρ α δ → Prop} (run : Reach sem may P P') (start : I P)
    (step : ∀ P P' l, I P → Step sem P l P' → may P l → I P') : I P' := by
  induction run with
  | refl => exact start
  | step _ move allowed ih => exact step _ _ _ ih move allowed

/-! ## Computed runs -/

/-- A choice of the next move: a request is answered by the `n`th of the answers it may get. -/
inductive Choice (Q : Type) (A : Q → Type) (ε ρ α : Type) where
  | start (p : Prog Q A ε ρ α)
  | run (i : Nat)
  | answer (i n : Nat)

def Choice.mover : Choice Q A ε ρ α → Option Nat
  | .start _ => none
  | .run i => some i
  | .answer i _ => some i

/-- The pool after one choice, where `serve n q m` is the `n`th answer to `q` on `m`. -/
def choose (serve : (n : Nat) → (q : Q) → Machine δ ρ → Option (A q × Machine δ ρ))
    (P : Pool Q A ε ρ α δ) : Choice Q A ε ρ α → Option (Pool Q A ε ρ α δ)
  | .start p => some { P with tasks := P.tasks ++ [⟨p, [], p⟩] }
  | .run i =>
    match P.tasks[i]? with
    | none => none
    | some ⟨call, hist, rest⟩ =>
      match rest with
      | .ram f k =>
        some ⟨{ P.machine with mem := f P.machine.mem }, P.tasks.set i
          ⟨call, hist ++ [.ram P.machine.mem (f P.machine.mem)], k P.machine.mem⟩⟩
      | _ => none
  | .answer i n =>
    match P.tasks[i]? with
    | none => none
    | some ⟨call, hist, rest⟩ =>
      match rest with
      | .await q _ k =>
        match serve n q P.machine with
        | some (x, m) => some ⟨m, P.tasks.set i ⟨call, hist ++ [.io q x], k x⟩⟩
        | none => none
      | _ => none

def exec (serve : (n : Nat) → (q : Q) → Machine δ ρ → Option (A q × Machine δ ρ)) :
    List (Choice Q A ε ρ α) → Pool Q A ε ρ α δ → Option (Pool Q A ε ρ α δ)
  | [], P => some P
  | c :: cs, P =>
    match P.choose serve c with
    | some P' => exec serve cs P'
    | none => none

theorem choose_step {serve : (n : Nat) → (q : Q) → Machine δ ρ → Option (A q × Machine δ ρ)}
    (sound : ∀ n q m x m₁, serve n q m = some (x, m₁) → sem q m x m₁) {c : Choice Q A ε ρ α}
    (h : P.choose serve c = some P') :
    ∃ l, Step sem P l P' ∧ l.mover = c.mover ∧ ∀ p, l = .start p → c = .start p := by
  cases c with
  | start p =>
    obtain rfl := Option.some.inj h
    exact ⟨.start p, .start P p, rfl, fun p' hp => by cases hp; rfl⟩
  | run i =>
    simp only [choose] at h
    split at h
    · simp at h
    · next call hist rest ht =>
      split at h
      · next f k =>
        obtain rfl := Option.some.inj h
        exact ⟨.ram i, .ram ht rfl, rfl, fun p' hp => by cases hp⟩
      · simp at h
  | answer i n =>
    simp only [choose] at h
    split at h
    · simp at h
    · next call hist rest ht =>
      split at h
      · next q d k =>
        split at h
        · next x m hs =>
          obtain rfl := Option.some.inj h
          exact ⟨.io i q x, .io ht rfl (sound n q P.machine x m hs), rfl, fun p' hp => by cases hp⟩
        · simp at h
      · simp at h

theorem exec_reach {serve : (n : Nat) → (q : Q) → Machine δ ρ → Option (A q × Machine δ ρ)}
    (sound : ∀ n q m x m₁, serve n q m = some (x, m₁) → sem q m x m₁)
    {calls : Prog Q A ε ρ α → Prop} {cs : List (Choice Q A ε ρ α)}
    (allowed : ∀ p, .start p ∈ cs → calls p) (h : exec serve cs P = some P') :
    Reach sem (fun _ l => ∀ p, l = .start p → calls p) P P' := by
  induction cs generalizing P with
  | nil =>
    obtain rfl := Option.some.inj h
    exact .refl
  | cons c cs ih =>
    simp only [exec] at h
    split at h
    · next P₁ hc =>
      obtain ⟨l, move, -, hl⟩ := choose_step sound hc
      have first : Reach sem (fun _ l => ∀ p, l = .start p → calls p) P P₁ :=
        .step .refl move fun p hp => allowed p (hl p hp ▸ List.mem_cons_self)
      exact first.trans (ih (fun p hp => allowed p (List.mem_cons_of_mem _ hp)) h)
    · simp at h

end Pool
end Async
