import Mathlib

/-!
# Programs that suspend

An `async` call runs on a memory `ρ` it shares with other calls, and suspends at every request `q`
it makes of a device. Between two requests it runs without interruption. `Prog` is the call as a
tree: what it does to memory, what it asks for, and how it goes on with each possible answer.

* `Prog.bind`, `Prog.attempt`, `Prog.guarded` : sequencing, catching a failure, and a guard whose
  release runs when the guarded part returns, fails, or is dropped at a request;
* `After p h p'` : `p'` is what is left of `p` once the events `h` have happened to it;
* `Run sem p m r m'` : run alone from the machine `m`, `p` ends with `r` in `m'`;
* `run_iff` : a run alone is a history of `p` whose events chain from `m` to `m'`;
* `Run.seq`, `Run.mono`, `Run.det` : how runs compose, and when there is only one;
* `Prog.Only.run` : what every step of a call keeps, its run keeps;
* `Prog.zoom`, `run_zoom` : a call on a part of a larger memory.
-/

namespace Async

/-- A call: it returns, fails with an error, changes memory, or suspends at a request. `drop` is
what memory becomes when the suspended call is dropped there; `stuck` stands for a loop that was
followed for as long as the model follows it. -/
inductive Prog (Q : Type) (A : Q → Type) (ε ρ α : Type) where
  | ret (a : α)
  | fail (e : ε)
  | ram (f : ρ → ρ) (k : ρ → Prog Q A ε ρ α)
  | await (q : Q) (drop : ρ → ρ) (k : A q → Prog Q A ε ρ α)
  | stuck

/-- What happens to a call: a memory access, or the answer to a request. -/
inductive Event (Q : Type) (A : Q → Type) (ρ : Type) where
  | ram (pre post : ρ)
  | io (q : Q) (x : A q)

section Prog
variable {Q : Type} {A : Q → Type} {ε ρ α β γ : Type}

namespace Prog

def bind : Prog Q A ε ρ α → (α → Prog Q A ε ρ β) → Prog Q A ε ρ β
  | ret a, f => f a
  | fail e, _ => fail e
  | ram g k, f => ram g (fun s => (k s).bind f)
  | await q d k, f => await q d (fun x => (k x).bind f)
  | stuck, _ => stuck

instance : Monad (Prog Q A ε ρ) where
  pure := ret
  bind := bind

def ofExcept : Except ε α → Prog Q A ε ρ α
  | .ok a => ret a
  | .error e => fail e

/-- A synchronous step on memory that answers or fails. -/
def sync (f : ρ → Except ε α × ρ) : Prog Q A ε ρ α :=
  ram (fun s => (f s).2) (fun s => ofExcept (f s).1)

def read (f : ρ → α) : Prog Q A ε ρ α := ram id (fun s => ret (f s))

def update (f : ρ → ρ) : Prog Q A ε ρ Unit := ram f (fun _ => ret ())

/-- Suspend at `q`, holding nothing that has to be released. -/
def ask (q : Q) : Prog Q A ε ρ (A q) := await q id ret

def attempt : Prog Q A ε ρ α → Prog Q A ε ρ (Except ε α)
  | ret a => ret (.ok a)
  | fail e => ret (.error e)
  | ram g k => ram g (fun s => (k s).attempt)
  | await q d k => await q d (fun x => (k x).attempt)
  | stuck => stuck

/-- Run `p` holding a guard: `release` runs when `p` ends, and when it is dropped. -/
def guarded (release : ρ → ρ) : Prog Q A ε ρ α → Prog Q A ε ρ α
  | ret a => ram release (fun _ => ret a)
  | fail e => ram release (fun _ => fail e)
  | ram g k => ram g (fun s => guarded release (k s))
  | await q d k => await q (release ∘ d) (fun x => guarded release (k x))
  | stuck => stuck

def ended : Except ε α → Prog Q A ε ρ α
  | .ok a => ret a
  | .error e => fail e

theorem pure_def (a : α) : (pure a : Prog Q A ε ρ α) = ret a := rfl

theorem bind_def (p : Prog Q A ε ρ α) (f : α → Prog Q A ε ρ β) : p >>= f = p.bind f := rfl

@[simp] theorem ret_bind (a : α) (f : α → Prog Q A ε ρ β) : (ret a).bind f = f a := rfl

@[simp] theorem fail_bind (e : ε) (f : α → Prog Q A ε ρ β) : (fail e).bind f = fail e := rfl

theorem bind_assoc (p : Prog Q A ε ρ α) (f : α → Prog Q A ε ρ β) (g : β → Prog Q A ε ρ γ) :
    (p.bind f).bind g = p.bind fun a => (f a).bind g := by
  induction p with
  | ret a => rfl
  | fail e => rfl
  | ram h k ih => simp only [bind, ih]
  | await q d k ih => simp only [bind, ih]
  | stuck => rfl

theorem bind_ret (p : Prog Q A ε ρ α) : p.bind ret = p := by
  induction p with
  | ret a => rfl
  | fail e => rfl
  | ram h k ih => simp only [bind, ih]
  | await q d k ih => simp only [bind, ih]
  | stuck => rfl

instance : LawfulMonad (Prog Q A ε ρ) :=
  LawfulMonad.mk' (Prog Q A ε ρ) bind_ret (fun _ _ => rfl) bind_assoc

end Prog

/-! ## Histories -/

/-- `p'` is what is left of `p` after the events of the list. -/
inductive After : Prog Q A ε ρ α → List (Event Q A ρ) → Prog Q A ε ρ α → Prop
  | here (p : Prog Q A ε ρ α) : After p [] p
  | ram {f : ρ → ρ} {k : ρ → Prog Q A ε ρ α} {s : ρ} {h : List (Event Q A ρ)}
      {p' : Prog Q A ε ρ α} (tail : After (k s) h p') :
      After (.ram f k) (.ram s (f s) :: h) p'
  | io {q : Q} {d : ρ → ρ} {k : A q → Prog Q A ε ρ α} {x : A q} {h : List (Event Q A ρ)}
      {p' : Prog Q A ε ρ α} (tail : After (k x) h p') :
      After (.await q d k) (.io q x :: h) p'

/-- After the events `h`, the call ends with `r`. -/
def Ends (p : Prog Q A ε ρ α) (h : List (Event Q A ρ)) (r : Except ε α) : Prop :=
  After p h (Prog.ended r)

/-- After the events `h`, the call waits for an answer to `q`; dropped there, it leaves memory as
`d` says. -/
def Waits (p : Prog Q A ε ρ α) (h : List (Event Q A ρ)) (q : Q) (d : ρ → ρ) : Prop :=
  ∃ k, After p h (.await q d k)

theorem After.trans {p p' p'' : Prog Q A ε ρ α} {h h' : List (Event Q A ρ)} (first : After p h p')
    (rest : After p' h' p'') : After p (h ++ h') p'' := by
  induction first with
  | here p => exact rest
  | ram _ ih => exact .ram (ih rest)
  | io _ ih => exact .io (ih rest)

@[simp] theorem ends_ret {a : α} {h : List (Event Q A ρ)} {r : Except ε α} :
    Ends (Prog.ret a) h r ↔ h = [] ∧ r = .ok a := by
  constructor
  · intro hr
    cases r <;> cases hr
    exact ⟨rfl, rfl⟩
  · rintro ⟨rfl, rfl⟩
    exact .here _

@[simp] theorem ends_fail {e : ε} {h : List (Event Q A ρ)} {r : Except ε α} :
    Ends (Prog.fail e) h r ↔ h = [] ∧ r = .error e := by
  constructor
  · intro hr
    cases r <;> cases hr
    exact ⟨rfl, rfl⟩
  · rintro ⟨rfl, rfl⟩
    exact .here _

@[simp] theorem ends_stuck {h : List (Event Q A ρ)} {r : Except ε α} :
    ¬ Ends (Prog.stuck : Prog Q A ε ρ α) h r := by
  intro hr
  cases r <;> cases hr

@[simp] theorem ends_ram {f : ρ → ρ} {k : ρ → Prog Q A ε ρ α} {h : List (Event Q A ρ)}
    {r : Except ε α} :
    Ends (.ram f k) h r ↔ ∃ s h', h = .ram s (f s) :: h' ∧ Ends (k s) h' r := by
  constructor
  · intro hr
    cases r <;> cases hr <;> exact ⟨_, _, rfl, by assumption⟩
  · rintro ⟨s, h', rfl, hr⟩
    exact .ram hr

@[simp] theorem ends_await {q : Q} {d : ρ → ρ} {k : A q → Prog Q A ε ρ α}
    {h : List (Event Q A ρ)} {r : Except ε α} :
    Ends (.await q d k) h r ↔ ∃ x h', h = .io q x :: h' ∧ Ends (k x) h' r := by
  constructor
  · intro hr
    cases r <;> cases hr <;> exact ⟨_, _, rfl, by assumption⟩
  · rintro ⟨x, h', rfl, hr⟩
    exact .io hr

theorem ends_bind {p : Prog Q A ε ρ α} {f : α → Prog Q A ε ρ β} {h : List (Event Q A ρ)}
    {r : Except ε β} :
    Ends (p >>= f) h r ↔
      (∃ a h₁ h₂, h = h₁ ++ h₂ ∧ Ends p h₁ (.ok a) ∧ Ends (f a) h₂ r) ∨
        ∃ e, Ends p h (.error e) ∧ r = .error e := by
  rw [Prog.bind_def]
  induction p generalizing h with
  | ret a => simp
  | fail e => simp [and_comm]
  | stuck => simp [Prog.bind]
  | ram g k ih =>
    simp only [Prog.bind, ends_ram, ih]
    constructor
    · rintro ⟨s, h', rfl, ⟨a, h₁, h₂, rfl, h1, h2⟩ | ⟨e, h1, rfl⟩⟩
      · exact .inl ⟨a, _ :: h₁, h₂, rfl, ⟨s, h₁, rfl, h1⟩, h2⟩
      · exact .inr ⟨e, ⟨s, h', rfl, h1⟩, rfl⟩
    · rintro (⟨a, _, h₂, rfl, ⟨s, h₁, rfl, h1⟩, h2⟩ | ⟨e, ⟨s, h', rfl, h1⟩, rfl⟩)
      · exact ⟨s, h₁ ++ h₂, rfl, .inl ⟨a, h₁, h₂, rfl, h1, h2⟩⟩
      · exact ⟨s, h', rfl, .inr ⟨e, h1, rfl⟩⟩
  | await q d k ih =>
    simp only [Prog.bind, ends_await, ih]
    constructor
    · rintro ⟨x, h', rfl, ⟨a, h₁, h₂, rfl, h1, h2⟩ | ⟨e, h1, rfl⟩⟩
      · exact .inl ⟨a, _ :: h₁, h₂, rfl, ⟨x, h₁, rfl, h1⟩, h2⟩
      · exact .inr ⟨e, ⟨x, h', rfl, h1⟩, rfl⟩
    · rintro (⟨a, _, h₂, rfl, ⟨x, h₁, rfl, h1⟩, h2⟩ | ⟨e, ⟨x, h', rfl, h1⟩, rfl⟩)
      · exact ⟨x, h₁ ++ h₂, rfl, .inl ⟨a, h₁, h₂, rfl, h1, h2⟩⟩
      · exact ⟨x, h', rfl, .inr ⟨e, h1, rfl⟩⟩

theorem ends_bind_ok {p : Prog Q A ε ρ α} {f : α → Prog Q A ε ρ β} {h : List (Event Q A ρ)} {b : β} :
    Ends (p >>= f) h (.ok b) ↔
      ∃ a h₁ h₂, h = h₁ ++ h₂ ∧ Ends p h₁ (.ok a) ∧ Ends (f a) h₂ (.ok b) := by
  simp [ends_bind]

@[simp] theorem ends_map {f : α → β} {p : Prog Q A ε ρ α} {h : List (Event Q A ρ)} {r : Except ε β} :
    Ends (f <$> p) h r ↔ ∃ x, Ends p h x ∧ r = x.map f := by
  rw [map_eq_pure_bind, ends_bind]
  constructor
  · rintro (⟨a, h₁, h₂, rfl, h1, h2⟩ | ⟨e, h1, rfl⟩)
    · obtain ⟨rfl, rfl⟩ := ends_ret.1 h2
      exact ⟨.ok a, by simpa using h1, rfl⟩
    · exact ⟨.error e, h1, rfl⟩
  · rintro ⟨x, hx, rfl⟩
    cases x with
    | ok a => exact .inl ⟨a, h, [], by simp, hx, ends_ret.2 ⟨rfl, rfl⟩⟩
    | error e => exact .inr ⟨e, hx, rfl⟩

@[simp] theorem ends_ofExcept {x : Except ε α} {h : List (Event Q A ρ)} {r : Except ε α} :
    Ends (Prog.ofExcept x) h r ↔ h = [] ∧ r = x := by
  cases x with
  | ok a => exact ends_ret
  | error e => exact ends_fail

@[simp] theorem ends_sync {f : ρ → Except ε α × ρ} {h : List (Event Q A ρ)} {r : Except ε α} :
    Ends (Prog.sync f) h r ↔ ∃ s, h = [.ram s (f s).2] ∧ r = (f s).1 := by
  simp [Prog.sync]

@[simp] theorem ends_read {f : ρ → α} {h : List (Event Q A ρ)} {r : Except ε α} :
    Ends (Prog.read f) h r ↔ ∃ s, h = [.ram s s] ∧ r = .ok (f s) := by
  simp [Prog.read]

@[simp] theorem ends_update {f : ρ → ρ} {h : List (Event Q A ρ)} {r : Except ε Unit} :
    Ends (Prog.update f) h r ↔ ∃ s, h = [.ram s (f s)] ∧ r = .ok () := by
  simp [Prog.update]

@[simp] theorem ends_ask {q : Q} {h : List (Event Q A ρ)} {r : Except ε (A q)} :
    Ends (Prog.ask q) h r ↔ ∃ x, h = [.io q x] ∧ r = .ok x := by
  simp [Prog.ask]

@[simp] theorem ends_attempt {p : Prog Q A ε ρ α} {h : List (Event Q A ρ)}
    {r : Except ε (Except ε α)} : Ends p.attempt h r ↔ ∃ x, Ends p h x ∧ r = .ok x := by
  induction p generalizing h with
  | ret a => simp [Prog.attempt]
  | fail e => simp [Prog.attempt]
  | stuck => simp [Prog.attempt]
  | ram g k ih =>
    simp only [Prog.attempt, ends_ram, ih]
    constructor
    · rintro ⟨s, h', rfl, x, hx, rfl⟩
      exact ⟨x, ⟨s, h', rfl, hx⟩, rfl⟩
    · rintro ⟨x, ⟨s, h', rfl, hx⟩, rfl⟩
      exact ⟨s, h', rfl, x, hx, rfl⟩
  | await q d k ih =>
    simp only [Prog.attempt, ends_await, ih]
    constructor
    · rintro ⟨y, h', rfl, x, hx, rfl⟩
      exact ⟨x, ⟨y, h', rfl, hx⟩, rfl⟩
    · rintro ⟨x, ⟨y, h', rfl, hx⟩, rfl⟩
      exact ⟨y, h', rfl, x, hx, rfl⟩

theorem ends_guarded {release : ρ → ρ} {p : Prog Q A ε ρ α} {h : List (Event Q A ρ)}
    {r : Except ε α} :
    Ends (p.guarded release) h r ↔ ∃ h' s, h = h' ++ [.ram s (release s)] ∧ Ends p h' r := by
  induction p generalizing h with
  | ret a => simp [Prog.guarded]
  | fail e => simp [Prog.guarded]
  | stuck => simp [Prog.guarded]
  | ram g k ih =>
    simp only [Prog.guarded, ends_ram, ih]
    constructor
    · rintro ⟨s, _, rfl, h', t, rfl, hr⟩
      exact ⟨_ :: h', t, rfl, s, h', rfl, hr⟩
    · rintro ⟨_, t, rfl, s, h', rfl, hr⟩
      exact ⟨s, _, rfl, h', t, rfl, hr⟩
  | await q d k ih =>
    simp only [Prog.guarded, ends_await, ih]
    constructor
    · rintro ⟨x, _, rfl, h', t, rfl, hr⟩
      exact ⟨_ :: h', t, rfl, x, h', rfl, hr⟩
    · rintro ⟨_, t, rfl, x, h', rfl, hr⟩
      exact ⟨x, _, rfl, h', t, rfl, hr⟩

/-! ## Where a call waits -/

@[simp] theorem waits_ret {a : α} {h : List (Event Q A ρ)} {q : Q} {d : ρ → ρ} :
    ¬ Waits (Prog.ret a : Prog Q A ε ρ α) h q d := by
  rintro ⟨k, hk⟩
  cases hk

@[simp] theorem waits_fail {e : ε} {h : List (Event Q A ρ)} {q : Q} {d : ρ → ρ} :
    ¬ Waits (Prog.fail e : Prog Q A ε ρ α) h q d := by
  rintro ⟨k, hk⟩
  cases hk

@[simp] theorem waits_stuck {h : List (Event Q A ρ)} {q : Q} {d : ρ → ρ} :
    ¬ Waits (Prog.stuck : Prog Q A ε ρ α) h q d := by
  rintro ⟨k, hk⟩
  cases hk

@[simp] theorem waits_ram {f : ρ → ρ} {k : ρ → Prog Q A ε ρ α} {h : List (Event Q A ρ)} {q : Q}
    {d : ρ → ρ} :
    Waits (.ram f k) h q d ↔ ∃ s h', h = .ram s (f s) :: h' ∧ Waits (k s) h' q d := by
  constructor
  · rintro ⟨k', hk⟩
    cases hk with
    | ram tail => exact ⟨_, _, rfl, k', tail⟩
  · rintro ⟨s, h', rfl, k', tail⟩
    exact ⟨k', .ram tail⟩

@[simp] theorem waits_await {q : Q} {d : ρ → ρ} {k : A q → Prog Q A ε ρ α}
    {h : List (Event Q A ρ)} {q' : Q} {d' : ρ → ρ} :
    Waits (.await q d k) h q' d' ↔
      (h = [] ∧ q' = q ∧ d' = d) ∨ ∃ x h', h = .io q x :: h' ∧ Waits (k x) h' q' d' := by
  constructor
  · rintro ⟨k', hk⟩
    cases hk with
    | here => exact .inl ⟨rfl, rfl, rfl⟩
    | io tail => exact .inr ⟨_, _, rfl, k', tail⟩
  · rintro (⟨rfl, rfl, rfl⟩ | ⟨x, h', rfl, k', tail⟩)
    · exact ⟨k, .here _⟩
    · exact ⟨k', .io tail⟩

@[simp] theorem waits_ofExcept {x : Except ε α} {h : List (Event Q A ρ)} {q : Q} {d : ρ → ρ} :
    ¬ Waits (Prog.ofExcept x : Prog Q A ε ρ α) h q d := by
  cases x with
  | ok a => exact waits_ret
  | error e => exact waits_fail

@[simp] theorem waits_sync {f : ρ → Except ε α × ρ} {h : List (Event Q A ρ)} {q : Q} {d : ρ → ρ} :
    ¬ Waits (Prog.sync f : Prog Q A ε ρ α) h q d := by
  simp [Prog.sync]

@[simp] theorem waits_read {f : ρ → α} {h : List (Event Q A ρ)} {q : Q} {d : ρ → ρ} :
    ¬ Waits (Prog.read f : Prog Q A ε ρ α) h q d := by
  simp [Prog.read]

@[simp] theorem waits_update {f : ρ → ρ} {h : List (Event Q A ρ)} {q : Q} {d : ρ → ρ} :
    ¬ Waits (Prog.update f : Prog Q A ε ρ Unit) h q d := by
  simp [Prog.update]

@[simp] theorem waits_ask {q : Q} {h : List (Event Q A ρ)} {q' : Q} {d : ρ → ρ} :
    Waits (Prog.ask q : Prog Q A ε ρ (A q)) h q' d ↔ h = [] ∧ q' = q ∧ d = id := by
  simp [Prog.ask]

theorem waits_bind {p : Prog Q A ε ρ α} {f : α → Prog Q A ε ρ β} {h : List (Event Q A ρ)} {q : Q}
    {d : ρ → ρ} :
    Waits (p >>= f) h q d ↔
      Waits p h q d ∨ ∃ a h₁ h₂, h = h₁ ++ h₂ ∧ Ends p h₁ (.ok a) ∧ Waits (f a) h₂ q d := by
  rw [Prog.bind_def]
  induction p generalizing h with
  | ret a => simp
  | fail e => simp
  | stuck => simp [Prog.bind]
  | ram g k ih =>
    simp only [Prog.bind, waits_ram, ends_ram, ih]
    constructor
    · rintro ⟨s, h', rfl, hp | ⟨a, h₁, h₂, rfl, hp, hf⟩⟩
      · exact .inl ⟨s, h', rfl, hp⟩
      · exact .inr ⟨a, _ :: h₁, h₂, rfl, ⟨s, h₁, rfl, hp⟩, hf⟩
    · rintro (⟨s, h', rfl, hp⟩ | ⟨a, _, h₂, rfl, ⟨s, h₁, rfl, hp⟩, hf⟩)
      · exact ⟨s, h', rfl, .inl hp⟩
      · exact ⟨s, h₁ ++ h₂, rfl, .inr ⟨a, h₁, h₂, rfl, hp, hf⟩⟩
  | await q' d' k ih =>
    simp only [Prog.bind, waits_await, ends_await, ih]
    constructor
    · rintro (⟨rfl, rfl, rfl⟩ | ⟨x, h', rfl, hp | ⟨a, h₁, h₂, rfl, hp, hf⟩⟩)
      · exact .inl (.inl ⟨rfl, rfl, rfl⟩)
      · exact .inl (.inr ⟨x, h', rfl, hp⟩)
      · exact .inr ⟨a, _ :: h₁, h₂, rfl, ⟨x, h₁, rfl, hp⟩, hf⟩
    · rintro ((⟨rfl, rfl, rfl⟩ | ⟨x, h', rfl, hp⟩) | ⟨a, _, h₂, rfl, ⟨x, h₁, rfl, hp⟩, hf⟩)
      · exact .inl ⟨rfl, rfl, rfl⟩
      · exact .inr ⟨x, h', rfl, .inl hp⟩
      · exact .inr ⟨x, h₁ ++ h₂, rfl, .inr ⟨a, h₁, h₂, rfl, hp, hf⟩⟩

@[simp] theorem waits_map {f : α → β} {p : Prog Q A ε ρ α} {h : List (Event Q A ρ)} {q : Q}
    {d : ρ → ρ} : Waits (f <$> p) h q d ↔ Waits p h q d := by
  rw [map_eq_pure_bind, waits_bind]
  constructor
  · rintro (hp | ⟨a, h₁, h₂, -, -, hf⟩)
    · exact hp
    · exact absurd hf waits_ret
  · exact .inl

@[simp] theorem waits_attempt {p : Prog Q A ε ρ α} {h : List (Event Q A ρ)} {q : Q} {d : ρ → ρ} :
    Waits p.attempt h q d ↔ Waits p h q d := by
  induction p generalizing h with
  | ret a => simp [Prog.attempt]
  | fail e => simp [Prog.attempt]
  | stuck => simp [Prog.attempt]
  | ram g k ih => simp only [Prog.attempt, waits_ram, ih]
  | await q' d' k ih => simp only [Prog.attempt, waits_await, ih]

/-! ## What a call is limited to -/

namespace Prog

/-- Every request `p` can make satisfies `P`, and every change it can make to memory is an `R`. -/
def Only (P : Q → Prop) (R : ρ → ρ → Prop) : Prog Q A ε ρ α → Prop
  | ret _ => True
  | fail _ => True
  | ram f k => ∀ s, R s (f s) ∧ Only P R (k s)
  | await q _ k => P q ∧ ∀ x, Only P R (k x)
  | stuck => True

variable {P : Q → Prop} {R : ρ → ρ → Prop}

theorem Only.bind {p : Prog Q A ε ρ α} {f : α → Prog Q A ε ρ β} (hp : p.Only P R)
    (hf : ∀ a, (f a).Only P R) : (p >>= f).Only P R := by
  rw [bind_def]
  induction p with
  | ret a => exact hf a
  | fail e => trivial
  | stuck => trivial
  | ram g k ih => exact fun s => ⟨(hp s).1, ih s (hp s).2⟩
  | await q d k ih => exact ⟨hp.1, fun x => ih x (hp.2 x)⟩

theorem Only.attempt {p : Prog Q A ε ρ α} (hp : p.Only P R) : p.attempt.Only P R := by
  induction p with
  | ret a => trivial
  | fail e => trivial
  | stuck => trivial
  | ram g k ih => exact fun s => ⟨(hp s).1, ih s (hp s).2⟩
  | await q d k ih => exact ⟨hp.1, fun x => ih x (hp.2 x)⟩

theorem Only.guarded {p : Prog Q A ε ρ α} {release : ρ → ρ} (hp : p.Only P R)
    (hr : ∀ s, R s (release s)) : (p.guarded release).Only P R := by
  induction p with
  | ret a => exact fun s => ⟨hr s, trivial⟩
  | fail e => exact fun s => ⟨hr s, trivial⟩
  | stuck => trivial
  | ram g k ih => exact fun s => ⟨(hp s).1, ih s (hp s).2⟩
  | await q d k ih => exact ⟨hp.1, fun x => ih x (hp.2 x)⟩

theorem Only.mono {P' : Q → Prop} {R' : ρ → ρ → Prop} {p : Prog Q A ε ρ α} (hp : p.Only P R)
    (hP : ∀ q, P q → P' q) (hR : ∀ s s', R s s' → R' s s') : p.Only P' R' := by
  induction p with
  | ret a => trivial
  | fail e => trivial
  | stuck => trivial
  | ram g k ih => exact fun s => ⟨hR _ _ (hp s).1, ih s (hp s).2⟩
  | await q d k ih => exact ⟨hP _ hp.1, fun x => ih x (hp.2 x)⟩

theorem Only.map {f : α → β} {p : Prog Q A ε ρ α} (hp : p.Only P R) : (f <$> p).Only P R := by
  rw [map_eq_pure_bind]
  exact hp.bind fun _ => trivial

@[simp] theorem only_ret {a : α} : (ret a : Prog Q A ε ρ α).Only P R := trivial

@[simp] theorem only_pure {a : α} : (pure a : Prog Q A ε ρ α).Only P R := trivial

@[simp] theorem only_fail {e : ε} : (fail e : Prog Q A ε ρ α).Only P R := trivial

@[simp] theorem only_stuck : (stuck : Prog Q A ε ρ α).Only P R := trivial

@[simp] theorem only_ofExcept {x : Except ε α} : (ofExcept x : Prog Q A ε ρ α).Only P R := by
  cases x <;> trivial

@[simp] theorem only_sync {f : ρ → Except ε α × ρ} :
    (sync f : Prog Q A ε ρ α).Only P R ↔ ∀ s, R s (f s).2 :=
  ⟨fun h s => (h s).1, fun h s => ⟨h s, only_ofExcept⟩⟩

@[simp] theorem only_read {f : ρ → α} : (read f : Prog Q A ε ρ α).Only P R ↔ ∀ s, R s s :=
  ⟨fun h s => (h s).1, fun h s => ⟨h s, trivial⟩⟩

@[simp] theorem only_update {f : ρ → ρ} :
    (update f : Prog Q A ε ρ Unit).Only P R ↔ ∀ s, R s (f s) :=
  ⟨fun h s => (h s).1, fun h s => ⟨h s, trivial⟩⟩

@[simp] theorem only_ask {q : Q} : (ask q : Prog Q A ε ρ (A q)).Only P R ↔ P q :=
  ⟨fun h => h.1, fun h => ⟨h, fun _ => trivial⟩⟩

theorem only_any {p : Prog Q A ε ρ α} : p.Only (fun _ => True) (fun _ _ => True) := by
  induction p with
  | ret a => trivial
  | fail e => trivial
  | stuck => trivial
  | ram f k ih => exact fun s => ⟨trivial, ih s⟩
  | await q d k ih => exact ⟨trivial, ih⟩

/-! ## What a call returns -/

/-- Whatever is answered and whatever is in memory, what `p` returns satisfies `G`. -/
def Gives (G : α → Prop) : Prog Q A ε ρ α → Prop
  | ret a => G a
  | fail _ => True
  | ram _ k => ∀ s, Gives G (k s)
  | await _ _ k => ∀ x, Gives G (k x)
  | stuck => True

variable {G : α → Prop} {G' : β → Prop}

theorem Gives.bind {p : Prog Q A ε ρ α} {f : α → Prog Q A ε ρ β} (hp : p.Gives G)
    (hf : ∀ a, G a → (f a).Gives G') : (p >>= f).Gives G' := by
  rw [bind_def]
  induction p with
  | ret a => exact hf a hp
  | fail e => trivial
  | stuck => trivial
  | ram g k ih => exact fun s => ih s (hp s)
  | await q d k ih => exact fun x => ih x (hp x)

theorem gives_any {p : Prog Q A ε ρ α} : p.Gives fun _ => True := by
  induction p with
  | ret a => trivial
  | fail e => trivial
  | stuck => trivial
  | ram g k ih => exact ih
  | await q d k ih => exact ih

/-- What follows a part whose value is used. -/
theorem Gives.next {p : Prog Q A ε ρ α} {f : α → Prog Q A ε ρ β} (hf : ∀ a, (f a).Gives G') :
    (p >>= f).Gives G' := gives_any.bind fun a _ => hf a

theorem Gives.attempt {p : Prog Q A ε ρ α} (hp : p.Gives G) :
    p.attempt.Gives fun r => ∀ a, r = .ok a → G a := by
  induction p with
  | ret a =>
    intro a' ha
    exact Except.ok.inj ha ▸ hp
  | fail e =>
    intro a ha
    cases ha
  | stuck => trivial
  | ram g k ih => exact fun s => ih s (hp s)
  | await q d k ih => exact fun x => ih x (hp x)

@[simp] theorem gives_pure {a : α} : (pure a : Prog Q A ε ρ α).Gives G ↔ G a := Iff.rfl

@[simp] theorem gives_fail {e : ε} : (fail e : Prog Q A ε ρ α).Gives G := trivial

@[simp] theorem gives_stuck : (stuck : Prog Q A ε ρ α).Gives G := trivial

theorem gives_ofExcept {x : Except ε α} (h : ∀ a, x = .ok a → G a) :
    (ofExcept x : Prog Q A ε ρ α).Gives G := by
  cases x with
  | ok a => exact h a rfl
  | error e => trivial

end Prog

/-! ## Running alone -/

structure Machine (δ ρ : Type) where
  dev : δ
  mem : ρ
  deriving DecidableEq

variable {δ : Type}

/-- From the machine `m`, with no other call, `p` ends with `r` in `m'`; `sem` says which answers a
request gets, and what the machine becomes. -/
def Run (sem : (q : Q) → Machine δ ρ → A q → Machine δ ρ → Prop) :
    Prog Q A ε ρ α → Machine δ ρ → Except ε α → Machine δ ρ → Prop
  | .ret a, m, r, m' => r = .ok a ∧ m' = m
  | .fail e, m, r, m' => r = .error e ∧ m' = m
  | .ram f k, m, r, m' => Run sem (k m.mem) { m with mem := f m.mem } r m'
  | .await q _ k, m, r, m' => ∃ x m₁, sem q m x m₁ ∧ Run sem (k x) m₁ r m'
  | .stuck, _, _, _ => False

/-- The events lead from one machine to another. -/
inductive Chain (sem : (q : Q) → Machine δ ρ → A q → Machine δ ρ → Prop) :
    Machine δ ρ → List (Event Q A ρ) → Machine δ ρ → Prop
  | nil (m : Machine δ ρ) : Chain sem m [] m
  | ram {m m' : Machine δ ρ} {post : ρ} {h : List (Event Q A ρ)}
      (tail : Chain sem { m with mem := post } h m') : Chain sem m (.ram m.mem post :: h) m'
  | io {m m₁ m' : Machine δ ρ} {q : Q} {x : A q} {h : List (Event Q A ρ)}
      (answer : sem q m x m₁) (tail : Chain sem m₁ h m') : Chain sem m (.io q x :: h) m'

section
variable {sem : (q : Q) → Machine δ ρ → A q → Machine δ ρ → Prop}

/-- A run alone is a history whose events chain. -/
theorem run_iff {p : Prog Q A ε ρ α} {m m' : Machine δ ρ} {r : Except ε α} :
    Run sem p m r m' ↔ ∃ h, Ends p h r ∧ Chain sem m h m' := by
  induction p generalizing m with
  | ret a =>
    constructor
    · rintro ⟨rfl, rfl⟩
      exact ⟨[], ends_ret.2 ⟨rfl, rfl⟩, .nil _⟩
    · rintro ⟨h, he, hc⟩
      obtain ⟨rfl, rfl⟩ := ends_ret.1 he
      cases hc
      exact ⟨rfl, rfl⟩
  | fail e =>
    constructor
    · rintro ⟨rfl, rfl⟩
      exact ⟨[], ends_fail.2 ⟨rfl, rfl⟩, .nil _⟩
    · rintro ⟨h, he, hc⟩
      obtain ⟨rfl, rfl⟩ := ends_fail.1 he
      cases hc
      exact ⟨rfl, rfl⟩
  | stuck => simp [Run]
  | ram f k ih =>
    simp only [Run, ih, ends_ram]
    constructor
    · rintro ⟨h, he, hc⟩
      exact ⟨_ :: h, ⟨m.mem, h, rfl, he⟩, .ram hc⟩
    · rintro ⟨_, ⟨s, h, rfl, he⟩, hc⟩
      cases hc with
      | ram tail => exact ⟨h, he, tail⟩
  | await q d k ih =>
    simp only [Run, ih, ends_await]
    constructor
    · rintro ⟨x, m₁, ha, h, he, hc⟩
      exact ⟨_ :: h, ⟨x, h, rfl, he⟩, .io ha hc⟩
    · rintro ⟨_, ⟨x, h, rfl, he⟩, hc⟩
      cases hc with
      | io answer tail => exact ⟨x, _, answer, h, he, tail⟩

@[simp] theorem run_ret {a : α} {m m' : Machine δ ρ} {r : Except ε α} :
    Run sem (Prog.ret a) m r m' ↔ r = .ok a ∧ m' = m := Iff.rfl

@[simp] theorem run_pure {a : α} {m m' : Machine δ ρ} {r : Except ε α} :
    Run sem (pure a) m r m' ↔ r = .ok a ∧ m' = m := Iff.rfl

@[simp] theorem run_fail {e : ε} {m m' : Machine δ ρ} {r : Except ε α} :
    Run sem (Prog.fail e) m r m' ↔ r = .error e ∧ m' = m := Iff.rfl

@[simp] theorem run_stuck {m m' : Machine δ ρ} {r : Except ε α} :
    ¬ Run sem Prog.stuck m r m' := not_false

@[simp] theorem run_ofExcept {x : Except ε α} {m m' : Machine δ ρ} {r : Except ε α} :
    Run sem (Prog.ofExcept x) m r m' ↔ r = x ∧ m' = m := by
  cases x <;> rfl

@[simp] theorem run_sync {f : ρ → Except ε α × ρ} {m m' : Machine δ ρ} {r : Except ε α} :
    Run sem (Prog.sync f) m r m' ↔ r = (f m.mem).1 ∧ m' = { m with mem := (f m.mem).2 } :=
  run_ofExcept

@[simp] theorem run_read {f : ρ → α} {m m' : Machine δ ρ} {r : Except ε α} :
    Run sem (Prog.read f) m r m' ↔ r = .ok (f m.mem) ∧ m' = m := Iff.rfl

@[simp] theorem run_update {f : ρ → ρ} {m m' : Machine δ ρ} {r : Except ε Unit} :
    Run sem (Prog.update f) m r m' ↔ r = .ok () ∧ m' = { m with mem := f m.mem } := Iff.rfl

@[simp] theorem run_ask {q : Q} {m m' : Machine δ ρ} {r : Except ε (A q)} :
    Run sem (Prog.ask q) m r m' ↔ ∃ x, sem q m x m' ∧ r = .ok x := by
  simp only [Prog.ask, Run]
  constructor
  · rintro ⟨x, _, hx, rfl, rfl⟩
    exact ⟨x, hx, rfl⟩
  · rintro ⟨x, hx, rfl⟩
    exact ⟨x, m', hx, rfl, rfl⟩

theorem run_bind {p : Prog Q A ε ρ α} {f : α → Prog Q A ε ρ β} {m m' : Machine δ ρ}
    {r : Except ε β} :
    Run sem (p >>= f) m r m' ↔
      (∃ a m₁, Run sem p m (.ok a) m₁ ∧ Run sem (f a) m₁ r m') ∨
        ∃ e, Run sem p m (.error e) m' ∧ r = .error e := by
  rw [Prog.bind_def]
  induction p generalizing m with
  | ret a => simp [Run, Prog.bind]
  | fail e => simp [Run, Prog.bind, and_comm]
  | stuck => simp [Run, Prog.bind]
  | ram g k ih => simp only [Prog.bind, Run, ih]
  | await q d k ih =>
    simp only [Prog.bind, Run, ih]
    constructor
    · rintro ⟨x, m₀, ha, ⟨a, m₁, hp, hf⟩ | ⟨e, hp, rfl⟩⟩
      · exact .inl ⟨a, m₁, ⟨x, m₀, ha, hp⟩, hf⟩
      · exact .inr ⟨e, ⟨x, m₀, ha, hp⟩, rfl⟩
    · rintro (⟨a, m₁, ⟨x, m₀, ha, hp⟩, hf⟩ | ⟨e, ⟨x, m₀, ha, hp⟩, rfl⟩)
      · exact ⟨x, m₀, ha, .inl ⟨a, m₁, hp, hf⟩⟩
      · exact ⟨x, m₀, ha, .inr ⟨e, hp, rfl⟩⟩

theorem run_bind_ok {p : Prog Q A ε ρ α} {f : α → Prog Q A ε ρ β} {m m' : Machine δ ρ} {b : β} :
    Run sem (p >>= f) m (.ok b) m' ↔
      ∃ a m₁, Run sem p m (.ok a) m₁ ∧ Run sem (f a) m₁ (.ok b) m' := by
  simp [run_bind]

theorem run_read_bind {f : ρ → α} {k : α → Prog Q A ε ρ β} {m m' : Machine δ ρ} {r : Except ε β} :
    Run sem (Prog.read f >>= k) m r m' ↔ Run sem (k (f m.mem)) m r m' := Iff.rfl

theorem run_update_bind {f : ρ → ρ} {k : Unit → Prog Q A ε ρ β} {m m' : Machine δ ρ}
    {r : Except ε β} :
    Run sem (Prog.update f >>= k) m r m' ↔ Run sem (k ()) { m with mem := f m.mem } r m' := Iff.rfl

theorem Run.of_bind (R : Machine δ ρ → Machine δ ρ → Prop)
    (trans : ∀ {m₁ m₂ m₃}, R m₁ m₂ → R m₂ m₃ → R m₁ m₃) {p : Prog Q A ε ρ α}
    {f : α → Prog Q A ε ρ β} {m m' : Machine δ ρ} {r : Except ε β} (h : Run sem (p >>= f) m r m')
    (first : ∀ x m₁, Run sem p m x m₁ → R m m₁)
    (second : ∀ a m₁, Run sem p m (.ok a) m₁ → Run sem (f a) m₁ r m' → R m₁ m') : R m m' := by
  rcases run_bind.1 h with ⟨a, m₁, hp, hf⟩ | ⟨e, hp, -⟩
  · exact trans (first _ _ hp) (second a m₁ hp hf)
  · exact first _ _ hp

theorem Run.seq {p : Prog Q A ε ρ α} {f : α → Prog Q A ε ρ β} {g : α → Except ε β}
    {m m' : Machine δ ρ} {x : Except ε α} (first : Run sem p m x m')
    (second : ∀ a, x = .ok a → Run sem (f a) m' (g a) m') : Run sem (p >>= f) m (x >>= g) m' := by
  cases x with
  | ok a => exact run_bind.2 (.inl ⟨a, m', first, second a rfl⟩)
  | error e => exact run_bind.2 (.inr ⟨e, first, rfl⟩)

@[simp] theorem run_map {f : α → β} {p : Prog Q A ε ρ α} {m m' : Machine δ ρ} {r : Except ε β} :
    Run sem (f <$> p) m r m' ↔ ∃ x, Run sem p m x m' ∧ r = x.map f := by
  simp only [run_iff, ends_map]
  constructor
  · rintro ⟨h, ⟨x, he, rfl⟩, hc⟩
    exact ⟨x, ⟨h, he, hc⟩, rfl⟩
  · rintro ⟨x, ⟨h, he, hc⟩, rfl⟩
    exact ⟨h, ⟨x, he, rfl⟩, hc⟩

@[simp] theorem run_attempt {p : Prog Q A ε ρ α} {m m' : Machine δ ρ} {r : Except ε (Except ε α)} :
    Run sem p.attempt m r m' ↔ ∃ x, Run sem p m x m' ∧ r = .ok x := by
  simp only [run_iff, ends_attempt]
  constructor
  · rintro ⟨h, ⟨x, he, rfl⟩, hc⟩
    exact ⟨x, ⟨h, he, hc⟩, rfl⟩
  · rintro ⟨x, ⟨h, he, hc⟩, rfl⟩
    exact ⟨h, ⟨x, he, rfl⟩, hc⟩

theorem run_attempt_bind {p : Prog Q A ε ρ α} {k : Except ε α → Prog Q A ε ρ β}
    {m m' : Machine δ ρ} {r : Except ε β} :
    Run sem (p.attempt >>= k) m r m' ↔ ∃ x m₁, Run sem p m x m₁ ∧ Run sem (k x) m₁ r m' := by
  rw [run_bind]
  simp only [run_attempt]
  constructor
  · rintro (⟨x, m₁, ⟨y, hp, hx⟩, hk⟩ | ⟨e, ⟨y, -, he⟩, -⟩)
    · obtain rfl := Except.ok.inj hx
      exact ⟨x, m₁, hp, hk⟩
    · cases he
  · rintro ⟨x, m₁, hp, hk⟩
    exact .inl ⟨x, m₁, ⟨x, hp, rfl⟩, hk⟩

theorem run_guarded {release : ρ → ρ} {p : Prog Q A ε ρ α} {m m' : Machine δ ρ} {r : Except ε α} :
    Run sem (p.guarded release) m r m' ↔
      ∃ m₁, Run sem p m r m₁ ∧ m' = { m₁ with mem := release m₁.mem } := by
  induction p generalizing m with
  | ret a => simp [Run, Prog.guarded]
  | fail e => simp [Run, Prog.guarded]
  | stuck => simp [Run, Prog.guarded]
  | ram g k ih => simp only [Prog.guarded, Run, ih]
  | await q d k ih =>
    simp only [Prog.guarded, Run, ih]
    constructor
    · rintro ⟨x, m₀, ha, m₁, hr, rfl⟩
      exact ⟨m₁, ⟨x, m₀, ha, hr⟩, rfl⟩
    · rintro ⟨m₁, ⟨x, m₀, ha, hr⟩, rfl⟩
      exact ⟨x, m₀, ha, m₁, hr, rfl⟩

/-- A run on a machine that gives fewer answers is a run on one that gives more. -/
theorem Run.mono {sem' : (q : Q) → Machine δ ρ → A q → Machine δ ρ → Prop}
    (sub : ∀ q m x m', sem q m x m' → sem' q m x m') {p : Prog Q A ε ρ α} {m m' : Machine δ ρ}
    {r : Except ε α} (h : Run sem p m r m') : Run sem' p m r m' := by
  induction p generalizing m with
  | ret a => exact h
  | fail e => exact h
  | stuck => exact h
  | ram f k ih => exact ih _ h
  | await q d k ih =>
    obtain ⟨x, m₁, hx, hk⟩ := h
    exact ⟨x, m₁, sub q m x m₁ hx, ih x hk⟩

theorem Run.det (one : ∀ q m x m₁ y m₂, sem q m x m₁ → sem q m y m₂ → x = y ∧ m₁ = m₂)
    {p : Prog Q A ε ρ α} {m m₁ m₂ : Machine δ ρ} {r₁ r₂ : Except ε α} (h₁ : Run sem p m r₁ m₁)
    (h₂ : Run sem p m r₂ m₂) : r₁ = r₂ ∧ m₁ = m₂ := by
  induction p generalizing m with
  | ret a => exact ⟨h₁.1.trans h₂.1.symm, h₁.2.trans h₂.2.symm⟩
  | fail e => exact ⟨h₁.1.trans h₂.1.symm, h₁.2.trans h₂.2.symm⟩
  | stuck => exact h₁.elim
  | ram f k ih => exact ih _ h₁ h₂
  | await q d k ih =>
    obtain ⟨x, n₁, hx, hk₁⟩ := h₁
    obtain ⟨y, n₂, hy, hk₂⟩ := h₂
    obtain ⟨rfl, rfl⟩ := one q m x n₁ y n₂ hx hy
    exact ih x hk₁ hk₂

/-- The invariant rule. What every request and every memory change of the call keeps, a run
keeps. -/
theorem Prog.Only.run {P : Q → Prop} {R : ρ → ρ → Prop} {I : Machine δ ρ → Prop}
    {p : Prog Q A ε ρ α} {m m' : Machine δ ρ} {r : Except ε α} (hp : p.Only P R)
    (hr : Run sem p m r m') (hm : I m)
    (ram : ∀ m s, I m → R m.mem s → I { m with mem := s })
    (io : ∀ m q x m₁, I m → P q → sem q m x m₁ → I m₁) : I m' := by
  induction p generalizing m with
  | ret a => exact hr.2 ▸ hm
  | fail e => exact hr.2 ▸ hm
  | stuck => exact hr.elim
  | ram f k ih => exact ih _ (hp _).2 hr (ram m _ hm (hp _).1)
  | await q d k ih =>
    obtain ⟨x, m₁, ha, hk⟩ := hr
    exact ih x (hp.2 x) hk (io m q x m₁ hm hp.1 ha)

/-! ## Evaluation -/

/-- Run `p` with the answers that `serve` gives. -/
def Prog.eval (serve : (q : Q) → Machine δ ρ → Option (A q × Machine δ ρ)) :
    Prog Q A ε ρ α → Machine δ ρ → Option (Except ε α × Machine δ ρ)
  | .ret a, m => some (.ok a, m)
  | .fail e, m => some (.error e, m)
  | .ram f k, m => (k m.mem).eval serve { m with mem := f m.mem }
  | .await q _ k, m =>
    match serve q m with
    | some (x, m₁) => (k x).eval serve m₁
    | none => none
  | .stuck, _ => none

theorem Prog.eval_run {serve : (q : Q) → Machine δ ρ → Option (A q × Machine δ ρ)}
    (sound : ∀ q m x m₁, serve q m = some (x, m₁) → sem q m x m₁) {p : Prog Q A ε ρ α}
    {m m' : Machine δ ρ} {r : Except ε α} (h : p.eval serve m = some (r, m')) :
    Run sem p m r m' := by
  induction p generalizing m with
  | ret a => simpa [Prog.eval, eq_comm] using h
  | fail e => simpa [Prog.eval, eq_comm] using h
  | stuck => simp [Prog.eval] at h
  | ram f k ih => exact ih _ h
  | await q d k ih =>
    simp only [Prog.eval] at h
    split at h
    · next x m₁ hs => exact ⟨x, m₁, sound q m x m₁ hs, ih x h⟩
    · simp at h

end

/-! ## A part of a larger memory -/

/-- A part `ρ` of the memory `σ`, read and replaced by itself. -/
structure Part (σ ρ : Type) where
  get : σ → ρ
  set : ρ → σ → σ
  get_set : ∀ r s, get (set r s) = r
  set_get : ∀ s, set (get s) s = s
  set_set : ∀ r r' s, set r (set r' s) = set r s

attribute [simp] Part.get_set Part.set_get Part.set_set

variable {σ : Type}

/-- The call `p`, on a part of a larger memory. -/
def Prog.zoom (l : Part σ ρ) : Prog Q A ε ρ α → Prog Q A ε σ α
  | ret a => ret a
  | fail e => fail e
  | ram f k => ram (fun s => l.set (f (l.get s)) s) (fun s => (k (l.get s)).zoom l)
  | await q d k => await q (fun s => l.set (d (l.get s)) s) (fun x => (k x).zoom l)
  | stuck => stuck

theorem Prog.Only.zoom {P : Q → Prop} {R : ρ → ρ → Prop} {l : Part σ ρ} {p : Prog Q A ε ρ α}
    (hp : p.Only P R) :
    (p.zoom l).Only P fun s s' => ∃ r, R (l.get s) r ∧ s' = l.set r s := by
  induction p with
  | ret a => trivial
  | fail e => trivial
  | stuck => trivial
  | ram f k ih => exact fun s => ⟨⟨_, (hp _).1, rfl⟩, ih _ (hp _).2⟩
  | await q d k ih => exact ⟨hp.1, fun x => ih x (hp.2 x)⟩

theorem Prog.zoom_bind {l : Part σ ρ} {p : Prog Q A ε ρ α} {f : α → Prog Q A ε ρ β} :
    (p >>= f).zoom l = p.zoom l >>= fun a => (f a).zoom l := by
  rw [bind_def, bind_def]
  induction p with
  | ret a => rfl
  | fail e => rfl
  | stuck => rfl
  | ram g k ih => exact congrArg (ram _) (funext fun s => ih _)
  | await q d k ih => exact congrArg (await q _) (funext fun x => ih x)

theorem Prog.zoom_ofExcept {l : Part σ ρ} {r : Except ε α} :
    (ofExcept r : Prog Q A ε ρ α).zoom l = ofExcept r := by
  cases r <;> rfl

theorem Prog.zoom_ask {l : Part σ ρ} {q : Q} : (ask q : Prog Q A ε ρ (A q)).zoom l = ask q := by
  show await q (fun s => l.set (l.get s) s) _ = await q id _
  simp only [Part.set_get]
  rfl

theorem Prog.Gives.zoom {G : α → Prop} {l : Part σ ρ} {p : Prog Q A ε ρ α} (hp : p.Gives G) :
    (p.zoom l).Gives G := by
  induction p with
  | ret a => exact hp
  | fail e => trivial
  | stuck => trivial
  | ram f k ih => exact fun s => ih _ (hp _)
  | await q d k ih => exact fun x => ih x (hp x)

def Event.narrow (l : Part σ ρ) : Event Q A σ → Event Q A ρ
  | .ram pre post => .ram (l.get pre) (l.get post)
  | .io q x => .io q x

theorem run_zoom {sem : (q : Q) → Machine δ ρ → A q → Machine δ ρ → Prop}
    {sem' : (q : Q) → Machine δ σ → A q → Machine δ σ → Prop} {P : Q → Prop} {l : Part σ ρ}
    (agree : ∀ q m x m', P q → (sem' q m x m' ↔ ∃ m₁, sem q ⟨m.dev, l.get m.mem⟩ x m₁ ∧
      m' = ⟨m₁.dev, l.set m₁.mem m.mem⟩))
    {R : ρ → ρ → Prop} {p : Prog Q A ε ρ α} (hp : p.Only P R) {m m' : Machine δ σ}
    {r : Except ε α} :
    Run sem' (p.zoom l) m r m' ↔ ∃ m₁, Run sem p ⟨m.dev, l.get m.mem⟩ r m₁ ∧
      m' = ⟨m₁.dev, l.set m₁.mem m.mem⟩ := by
  induction p generalizing m with
  | ret a => simp [Prog.zoom, Run]
  | fail e => simp [Prog.zoom, Run]
  | stuck => simp [Prog.zoom, Run]
  | ram f k ih =>
    simp only [Prog.zoom, Run]
    rw [ih _ (hp _).2]
    simp
  | await q d k ih =>
    simp only [Prog.zoom, Run, agree _ _ _ _ hp.1]
    constructor
    · rintro ⟨x, _, ⟨m₁, ha, rfl⟩, hr⟩
      obtain ⟨m₂, hr', rfl⟩ := (ih x (hp.2 x)).1 hr
      exact ⟨m₂, ⟨x, m₁, ha, by simpa using hr'⟩, by simp⟩
    · rintro ⟨m₂, ⟨x, m₁, ha, hr⟩, rfl⟩
      refine ⟨x, _, ⟨m₁, ha, rfl⟩, (ih x (hp.2 x)).2 ⟨m₂, by simpa using hr, by simp⟩⟩

end Prog
end Async
