import Crossbank.Async.Prog

/-!
# Programs that always end

* `Prog.Total sem allowed p m post` : from `m`, whatever it is answered, `p` makes allowed requests
  only, is never stuck, and ends as `post` says;
* `Prog.Total.bind`, ... : one rule for each way to put a program together;
* `Prog.Total.run` : what `post` says holds of every run;
* `Prog.Halts sem p m` : from `m`, whatever it is answered, `p` ends;
* `Prog.halts_bind`, ... : when a program that is put together halts.
-/

namespace Async
variable {Q : Type} {A : Q → Type} {ε ρ δ α β : Type}

namespace Prog

def Total (sem : (q : Q) → Machine δ ρ → A q → Machine δ ρ → Prop) (allowed : Q → Prop) :
    Prog Q A ε ρ α → Machine δ ρ → (Except ε α → Machine δ ρ → Prop) → Prop
  | ret a, m, post => post (.ok a) m
  | fail e, m, post => post (.error e) m
  | ram f k, m, post => (k m.mem).Total sem allowed { m with mem := f m.mem } post
  | await q _ k, m, post => allowed q ∧ ∀ x m', sem q m x m' → (k x).Total sem allowed m' post
  | stuck, _, _ => False

section
variable {sem : (q : Q) → Machine δ ρ → A q → Machine δ ρ → Prop} {allowed : Q → Prop}
  {p : Prog Q A ε ρ α} {m m' : Machine δ ρ} {post : Except ε α → Machine δ ρ → Prop}

theorem Total.mono {post' : Except ε α → Machine δ ρ → Prop} (h : p.Total sem allowed m post)
    (weaken : ∀ r m', post r m' → post' r m') : p.Total sem allowed m post' := by
  induction p generalizing m with
  | ret a => exact weaken _ _ h
  | fail e => exact weaken _ _ h
  | ram f k ih => exact ih _ h
  | await q d k ih => exact ⟨h.1, fun x m' hx => ih x (h.2 x m' hx)⟩
  | stuck => exact h

/-- A part, then a rest. A part that fails is the end. -/
theorem Total.bind {mid : Except ε α → Machine δ ρ → Prop} {f : α → Prog Q A ε ρ β}
    {post : Except ε β → Machine δ ρ → Prop} (first : p.Total sem allowed m mid)
    (rest : ∀ a m₁, mid (.ok a) m₁ → (f a).Total sem allowed m₁ post)
    (failed : ∀ e m₁, mid (.error e) m₁ → post (.error e) m₁) :
    (p >>= f).Total sem allowed m post := by
  induction p generalizing m with
  | ret a => exact rest a m first
  | fail e => exact failed e m first
  | ram g k ih => exact ih _ first
  | await q d k ih => exact ⟨first.1, fun x m' hx => ih x (first.2 x m' hx)⟩
  | stuck => exact first

@[simp] theorem total_ofExcept {x : Except ε α} :
    (ofExcept x : Prog Q A ε ρ α).Total sem allowed m post ↔ post x m := by
  cases x with
  | ok a => exact Iff.rfl
  | error e => exact Iff.rfl

theorem total_read_bind {f : ρ → α} {k : α → Prog Q A ε ρ β}
    {post : Except ε β → Machine δ ρ → Prop} :
    (read f >>= k).Total sem allowed m post ↔ (k (f m.mem)).Total sem allowed m post := Iff.rfl

theorem Total.run {r : Except ε α} (h : p.Total sem allowed m post) (run : Run sem p m r m') :
    post r m' := by
  induction p generalizing m with
  | ret a =>
    obtain ⟨rfl, rfl⟩ := run_pure.1 run
    exact h
  | fail e =>
    obtain ⟨rfl, rfl⟩ := run_fail.1 run
    exact h
  | ram f k ih => exact ih _ h run
  | await q d k ih =>
    obtain ⟨x, m₁, hx, hrest⟩ := run
    exact ih x (h.2 x m₁ hx) hrest
  | stuck => exact h.elim

/-- What every run does may be said besides. -/
theorem Total.and_run (h : p.Total sem allowed m post) :
    p.Total sem allowed m fun r m' => post r m' ∧ Run sem p m r m' := by
  induction p generalizing m with
  | ret a => exact ⟨h, rfl, rfl⟩
  | fail e => exact ⟨h, rfl, rfl⟩
  | ram f k ih => exact ih _ h
  | await q d k ih =>
    refine ⟨h.1, fun x m' hx => (ih x (h.2 x m' hx)).mono fun r m₁ hr => ⟨hr.1, x, m', hx, hr.2⟩⟩
  | stuck => exact h

theorem Total.of_sem {sem' : (q : Q) → Machine δ ρ → A q → Machine δ ρ → Prop}
    (h : p.Total sem allowed m post)
    (sub : ∀ q m x m', allowed q → sem' q m x m' → sem q m x m') :
    p.Total sem' allowed m post := by
  induction p generalizing m with
  | ret a => exact h
  | fail e => exact h
  | ram f k ih => exact ih _ h
  | await q d k ih =>
    exact ⟨h.1, fun x m' hx => ih x (h.2 x m' (sub q m x m' h.1 hx))⟩
  | stuck => exact h

/-! ## Halting -/

/-- From `m`, whatever it is answered, `p` ends. -/
def Halts (sem : (q : Q) → Machine δ ρ → A q → Machine δ ρ → Prop) (p : Prog Q A ε ρ α)
    (m : Machine δ ρ) : Prop :=
  p.Total sem (fun _ => True) m fun _ _ => True

theorem Total.halts (h : p.Total sem allowed m post) : p.Halts sem m := by
  induction p generalizing m with
  | ret a => trivial
  | fail e => trivial
  | ram f k ih => exact ih _ h
  | await q d k ih => exact ⟨trivial, fun x m' hx => ih x (h.2 x m' hx)⟩
  | stuck => exact h

@[simp] theorem halts_pure {a : α} : (pure a : Prog Q A ε ρ α).Halts sem m := trivial

@[simp] theorem halts_fail {e : ε} : (fail e : Prog Q A ε ρ α).Halts sem m := trivial

@[simp] theorem not_halts_stuck : ¬ (stuck : Prog Q A ε ρ α).Halts sem m := not_false

@[simp] theorem halts_ofExcept {x : Except ε α} : (ofExcept x : Prog Q A ε ρ α).Halts sem m :=
  total_ofExcept.2 trivial

@[simp] theorem halts_sync {f : ρ → Except ε α × ρ} : (sync f : Prog Q A ε ρ α).Halts sem m :=
  total_ofExcept.2 trivial

@[simp] theorem halts_update {f : ρ → ρ} : (update f : Prog Q A ε ρ Unit).Halts sem m := trivial

@[simp] theorem halts_ask {q : Q} : (ask q : Prog Q A ε ρ (A q)).Halts sem m :=
  ⟨trivial, fun _ _ _ => trivial⟩

/-- A sequence halts when its first part does, and the rest does wherever the first part ends. -/
theorem halts_bind {f : α → Prog Q A ε ρ β} : (p >>= f).Halts sem m ↔
    p.Halts sem m ∧ ∀ a m₁, Run sem p m (.ok a) m₁ → (f a).Halts sem m₁ := by
  constructor
  · intro h
    induction p generalizing m with
    | ret a =>
      refine ⟨trivial, fun a' m₁ run => ?_⟩
      obtain ⟨ha, rfl⟩ := run_ret.1 run
      rw [Except.ok.inj ha]
      exact h
    | fail e => exact ⟨trivial, fun a m₁ run => by cases (run_fail.1 run).1⟩
    | ram g k ih => exact ih _ h
    | await q d k ih =>
      refine ⟨⟨trivial, fun x m' hx => (ih x (h.2 x m' hx)).1⟩, ?_⟩
      rintro a m₁ ⟨x, m', hx, run⟩
      exact (ih x (h.2 x m' hx)).2 a m₁ run
    | stuck => exact h.elim
  · rintro ⟨first, rest⟩
    exact first.and_run.bind (fun a m₁ h => rest a m₁ h.2) fun _ _ _ => trivial

theorem halts_read_bind {f : ρ → α} {k : α → Prog Q A ε ρ β} :
    (read f >>= k).Halts sem m ↔ (k (f m.mem)).Halts sem m := Iff.rfl

theorem halts_update_bind {f : ρ → ρ} {k : Unit → Prog Q A ε ρ β} :
    (update f >>= k).Halts sem m ↔ (k ()).Halts sem { m with mem := f m.mem } := Iff.rfl

@[simp] theorem halts_map {f : α → β} : (f <$> p).Halts sem m ↔ p.Halts sem m := by
  rw [map_eq_pure_bind, halts_bind]
  exact and_iff_left fun _ _ _ => halts_pure

@[simp] theorem halts_attempt : p.attempt.Halts sem m ↔ p.Halts sem m := by
  induction p generalizing m with
  | ret a => exact Iff.rfl
  | fail e => exact Iff.rfl
  | ram g k ih => exact ih _
  | await q d k ih =>
    exact and_congr_right fun _ => forall_congr' fun x => forall_congr' fun m' =>
      imp_congr_right fun _ => ih x
  | stuck => exact Iff.rfl

theorem halts_attempt_bind {k : Except ε α → Prog Q A ε ρ β} : (p.attempt >>= k).Halts sem m ↔
    p.Halts sem m ∧ ∀ x m₁, Run sem p m x m₁ → (k x).Halts sem m₁ := by
  rw [halts_bind, halts_attempt]
  refine and_congr_right fun _ => ⟨fun h x m₁ run => h x m₁ (run_attempt.2 ⟨x, run, rfl⟩), ?_⟩
  intro h x m₁ run
  obtain ⟨y, run, hx⟩ := run_attempt.1 run
  rw [Except.ok.inj hx]
  exact h y m₁ run

@[simp] theorem halts_guarded {release : ρ → ρ} :
    (p.guarded release).Halts sem m ↔ p.Halts sem m := by
  induction p generalizing m with
  | ret a => exact Iff.rfl
  | fail e => exact Iff.rfl
  | ram g k ih => exact ih _
  | await q d k ih =>
    exact and_congr_right fun _ => forall_congr' fun x => forall_congr' fun m' =>
      imp_congr_right fun _ => ih x
  | stuck => exact Iff.rfl

theorem halts_zoom {σ : Type} {sem' : (q : Q) → Machine δ σ → A q → Machine δ σ → Prop}
    {P : Q → Prop} {l : Part σ ρ} {R : ρ → ρ → Prop}
    (agree : ∀ q m x m', P q → (sem' q m x m' ↔ ∃ m₁, sem q ⟨m.dev, l.get m.mem⟩ x m₁ ∧
      m' = ⟨m₁.dev, l.set m₁.mem m.mem⟩)) (only : p.Only P R) {m : Machine δ σ} :
    (p.zoom l).Halts sem' m ↔ p.Halts sem ⟨m.dev, l.get m.mem⟩ := by
  induction p generalizing m with
  | ret a => exact Iff.rfl
  | fail e => exact Iff.rfl
  | ram g k ih =>
    have h := ih (l.get m.mem) (only _).2 (m := ⟨m.dev, l.set (g (l.get m.mem)) m.mem⟩)
    rwa [Part.get_set] at h
  | await q d k ih =>
    refine and_congr_right fun _ => forall_congr' fun x => ⟨fun h m₁ hx => ?_, fun h m' hx => ?_⟩
    · have halts := (ih x (only.2 x)).1 (h _ ((agree q m x _ only.1).2 ⟨m₁, hx, rfl⟩))
      rwa [Part.get_set] at halts
    · obtain ⟨m₁, hpart, rfl⟩ := (agree q m x m' only.1).1 hx
      refine (ih x (only.2 x)).2 ?_
      rw [Part.get_set]
      exact h m₁ hpart
  | stuck => exact Iff.rfl

end
end Prog
end Async
