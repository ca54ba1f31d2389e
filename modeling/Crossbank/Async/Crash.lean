import Crossbank.Async.Prog

/-!
# Calls that die, and what a disk keeps

A process can die at any step of a call. Its memory is gone, and the device stays as it is then: a
request whose answer never arrived may have been served. And the power can be cut, which may bring back
what the device was before.

* `Dies sem p m d` : the process dies in the middle of `p`, and leaves the device `d`;
* `Prog.Winds` : whatever it asks for may be refused, and it ends; `Prog.Coda` : and nothing it asks for
  changes the device;
* `Prog.Settled` : once a request has been served that changes the device, a coda follows;
* `Prog.Settled.dies` : a settled call that dies leaves the device as it was, or as a run leaves it;
* `Disk` : a device, and what a cut may bring back; `Journaled` : what an answer does to both;
* `Prog.Settled.older` : a cut brings back nothing from the middle of a settled call;
* `Service.Lived` : what is opened over a disk, called, and opened again when it has died;
* `settled_bind`, `settled_guarded`, ... : the rule of each construct.
-/

namespace Async
variable {Q : Type} {A : Q → Type} {ε ρ δ α β : Type}

/-- After some of the steps of `p` the process dies. -/
def Dies (sem : (q : Q) → Machine δ ρ → A q → Machine δ ρ → Prop) (p : Prog Q A ε ρ α)
    (m : Machine δ ρ) (d : δ) : Prop :=
  ∃ h p' m', After p h p' ∧ Chain sem m h m' ∧ m'.dev = d

theorem Run.dies {sem : (q : Q) → Machine δ ρ → A q → Machine δ ρ → Prop} {p : Prog Q A ε ρ α}
    {m m' : Machine δ ρ} {r : Except ε α} (run : Run sem p m r m') : Dies sem p m m'.dev := by
  obtain ⟨h, ends, chain⟩ := run_iff.1 run
  exact ⟨h, _, m', ends, chain, rfl⟩

/-! ## Disks -/

/-- What an answer says of the device: it is as it was, it has changed and that may yet be lost, or
everything so far is safe. -/
inductive Mark where
  | keeps
  | lands
  | syncs
  deriving DecidableEq

/-- A device, and what it has been since it was last synced, the latest first. -/
structure Disk (δ : Type) where
  live : δ
  older : List δ

/-- What a cut may bring back, after an answer. -/
def Disk.olderAfter (d : Disk δ) : Mark → List δ
  | .keeps => d.older
  | .lands => d.live :: d.older
  | .syncs => []

/-- The process dies, and the device stays as it is, or the power is cut. -/
def Disk.Left (d d' : Disk δ) : Prop :=
  d' = d ∨ ∃ left, (left = d.live ∨ left ∈ d.older) ∧ d' = ⟨left, []⟩

def Machine.live (m : Machine (Disk δ) ρ) : Machine δ ρ := ⟨m.dev.live, m.mem⟩

/-- The answers of a device, on a disk. -/
def Journaled (sem : (q : Q) → Machine δ ρ → A q → Machine δ ρ → Prop) (mark : (q : Q) → A q → Mark)
    (q : Q) (m : Machine (Disk δ) ρ) (x : A q) (m' : Machine (Disk δ) ρ) : Prop :=
  sem q m.live x m'.live ∧ m'.dev.older = m.dev.olderAfter (mark q x)

section
variable {sem : (q : Q) → Machine δ ρ → A q → Machine δ ρ → Prop} {mark : (q : Q) → A q → Mark}
  {p : Prog Q A ε ρ α}

theorem Run.live {m m' : Machine (Disk δ) ρ} {r : Except ε α} (h : Run (Journaled sem mark) p m r m') :
    Run sem p m.live r m'.live := by
  induction p generalizing m with
  | ret a =>
    obtain ⟨rfl, rfl⟩ := h
    exact ⟨rfl, rfl⟩
  | fail e =>
    obtain ⟨rfl, rfl⟩ := h
    exact ⟨rfl, rfl⟩
  | stuck => exact h.elim
  | ram f k ih => exact ih _ h
  | await q drop k ih =>
    obtain ⟨x, m₁, answer, rest⟩ := h
    exact ⟨x, m₁.live, answer.1, ih x rest⟩

theorem Run.journaled {m : Machine (Disk δ) ρ} {n : Machine δ ρ} {r : Except ε α}
    (h : Run sem p m.live r n) :
    ∃ older, Run (Journaled sem mark) p m r ⟨⟨n.dev, older⟩, n.mem⟩ := by
  induction p generalizing m with
  | ret a =>
    obtain ⟨rfl, rfl⟩ := h
    exact ⟨m.dev.older, rfl, rfl⟩
  | fail e =>
    obtain ⟨rfl, rfl⟩ := h
    exact ⟨m.dev.older, rfl, rfl⟩
  | stuck => exact h.elim
  | ram f k ih => exact ih _ h
  | await q drop k ih =>
    obtain ⟨x, n₁, answer, rest⟩ := h
    let m₁ : Machine (Disk δ) ρ := ⟨⟨n₁.dev, m.dev.olderAfter (mark q x)⟩, n₁.mem⟩
    obtain ⟨older, run⟩ := ih x (m := m₁) rest
    exact ⟨older, x, m₁, ⟨answer, rfl⟩, run⟩

theorem Chain.live {m m' : Machine (Disk δ) ρ} {h : List (Event Q A ρ)}
    (chain : Chain (Journaled sem mark) m h m') : Chain sem m.live h m'.live := by
  induction chain with
  | nil m => exact .nil _
  | @ram m m' post h tail ih => exact .ram (m := m.live) ih
  | io answer tail ih => exact .io answer.1 ih

theorem Dies.live {m : Machine (Disk δ) ρ} {d : Disk δ} (h : Dies (Journaled sem mark) p m d) :
    Dies sem p m.live d.live := by
  obtain ⟨h, p', m', after, chain, rfl⟩ := h
  exact ⟨h, p', m'.live, after, chain.live, rfl⟩

/-- What asks for nothing that may be lost leaves nothing more to come back. -/
theorem Prog.Only.older {R : ρ → ρ → Prop} {m : Machine (Disk δ) ρ} {d : Disk δ}
    (only : p.Only (fun q => ∀ x, mark q x ≠ .lands) R) (h : Dies (Journaled sem mark) p m d) :
    ∀ left ∈ d.older, left ∈ m.dev.older := by
  obtain ⟨h, p', m', after, chain, rfl⟩ := h
  induction after generalizing m with
  | here p =>
    cases chain
    exact fun left hleft => hleft
  | ram tail ih =>
    cases chain with
    | ram chain =>
      have later := ih (only _).2 chain
      exact later
  | @io q drop k x h p' tail ih =>
    cases chain with
    | @io _ m₁ _ _ _ _ answer chain =>
      intro left hleft
      have before : left ∈ m.dev.olderAfter (mark q x) := answer.2 ▸ ih (only.2 x) chain left hleft
      cases hmark : mark q x with
      | keeps => exact (hmark ▸ before : left ∈ m.dev.olderAfter .keeps)
      | lands => exact absurd hmark (only.1 x)
      | syncs => exact absurd (hmark ▸ before : left ∈ m.dev.olderAfter .syncs) List.not_mem_nil

end

/-! ## Services -/

/-- What happens to a service: a call returns or fails, the process dies in the middle of one, the
service is opened again by the same process, or by another. -/
inductive Turn (C : Type) where
  | ended (call : C) (ok : Bool)
  | died (call : C)
  | reopened
  | restarted

/-- What is opened over a disk and called. `opens d old m` : it is opened over `d`, by the process that
has had it in the memory `old`, or by another. -/
structure Service (Q : Type) (A : Q → Type) (ε ρ δ C : Type) where
  sem : (q : Q) → Machine δ ρ → A q → Machine δ ρ → Prop
  mark : (q : Q) → A q → Mark
  prog : C → Prog Q A ε ρ Unit
  may : C → Prop
  opens : Disk δ → Option ρ → Machine (Disk δ) ρ → Prop

section
variable {C : Type} (S : Service Q A ε ρ δ C)

abbrev Service.onDisk : (q : Q) → Machine (Disk δ) ρ → A q → Machine (Disk δ) ρ → Prop :=
  Journaled S.sem S.mark

/-- The states of a service, from an open over the device `db`: calls return or fail; the process dies in
the middle of one, or the power is cut, and it is opened again by another; or it is dropped and opened
again, by the same process or by another. -/
inductive Service.Lived (db : δ) : List (Turn C) → Machine (Disk δ) ρ → Prop
  | opened {m : Machine (Disk δ) ρ} (run : S.opens ⟨db, []⟩ none m) : Lived db [] m
  | ended {log : List (Turn C)} {m m' : Machine (Disk δ) ρ} {c : C} {r : Except ε Unit}
      (before : Lived db log m) (may : S.may c) (run : Run S.onDisk (S.prog c) m r m') :
      Lived db (log ++ [.ended c r.isOk]) m'
  | died {log : List (Turn C)} {m n : Machine (Disk δ) ρ} {c : C} {d d' : Disk δ}
      (before : Lived db log m) (may : S.may c) (died : Dies S.onDisk (S.prog c) m d) (left : d.Left d')
      (run : S.opens d' none n) : Lived db (log ++ [.died c]) n
  | reopened {log : List (Turn C)} {m n : Machine (Disk δ) ρ} (before : Lived db log m)
      (run : S.opens m.dev (some m.mem) n) : Lived db (log ++ [.reopened]) n
  | restarted {log : List (Turn C)} {m n : Machine (Disk δ) ρ} {d' : Disk δ} (before : Lived db log m)
      (left : m.dev.Left d') (run : S.opens d' none n) : Lived db (log ++ [.restarted]) n

end

namespace Prog

/-- Every request may be refused, which changes nothing, and the call then ends. -/
def Winds (sem : (q : Q) → Machine δ ρ → A q → Machine δ ρ → Prop) : Prog Q A ε ρ α → Prop
  | ret _ => True
  | fail _ => True
  | ram _ k => ∀ s, (k s).Winds sem
  | await q _ k => ∃ x, (∀ m, sem q m x m) ∧ (k x).Winds sem
  | stuck => False

/-- What can follow a request that lands: it may wind, and lands nothing more. -/
structure Coda (sem : (q : Q) → Machine δ ρ → A q → Machine δ ρ → Prop) (lands : Q → Prop)
    (p : Prog Q A ε ρ α) : Prop where
  winds : p.Winds sem
  still : p.Only (fun q => ¬ lands q) fun _ _ => True

/-- A request that lands is fit to, and a coda follows it. -/
def Settled (sem : (q : Q) → Machine δ ρ → A q → Machine δ ρ → Prop) (lands fits : Q → Prop) :
    Prog Q A ε ρ α → Prop
  | ret _ => True
  | fail _ => True
  | ram _ k => ∀ s, (k s).Settled sem lands fits
  | await q _ k => (lands q → fits q) ∧
    ∀ x, (lands q → Coda sem lands (k x)) ∧ (k x).Settled sem lands fits
  | stuck => True

section
variable {sem : (q : Q) → Machine δ ρ → A q → Machine δ ρ → Prop} {lands fits : Q → Prop}
  {p : Prog Q A ε ρ α} {m : Machine δ ρ} {d : δ}

theorem Winds.run (winds : p.Winds sem) (m : Machine δ ρ) : ∃ r s, Run sem p m r ⟨m.dev, s⟩ := by
  induction p generalizing m with
  | ret a => exact ⟨.ok a, m.mem, rfl, rfl⟩
  | fail e => exact ⟨.error e, m.mem, rfl, rfl⟩
  | stuck => exact winds.elim
  | ram f k ih => exact ih _ (winds m.mem) ⟨m.dev, f m.mem⟩
  | await q drop k ih =>
    obtain ⟨x, refused, rest⟩ := winds
    obtain ⟨r, s, run⟩ := ih x rest m
    exact ⟨r, s, x, m, refused m, run⟩

section
variable (settled : p.Settled sem lands fits)
  (still : ∀ q m x m', ¬ lands q → sem q m x m' → m'.dev = m.dev)
include settled still

/-- A settled call that dies leaves the device as it was, or as one of its runs leaves it. -/
theorem Settled.dies (h : Dies sem p m d) : d = m.dev ∨ ∃ r m', Run sem p m r m' ∧ m'.dev = d := by
  obtain ⟨h, p', m', after, chain, rfl⟩ := h
  induction after generalizing m with
  | here p =>
    cases chain
    exact .inl rfl
  | ram tail ih =>
    cases chain with
    | ram chain =>
      have later := ih (settled _) chain
      exact later
  | @io q drop k x h p' tail ih =>
    cases chain with
    | @io _ m₁ _ _ _ _ answer chain =>
      obtain ⟨coda, rest⟩ := settled.2 x
      rcases ih rest chain with same | ⟨r, m₂, run, hdev⟩
      · by_cases landed : lands q
        · -- The request was served, and what is left of the call can end without the device.
          obtain ⟨r, s, run⟩ := (coda landed).winds.run m₁
          exact .inr ⟨r, ⟨m₁.dev, s⟩, ⟨x, m₁, answer, run⟩, same.symm⟩
        · exact .inl (same.trans (still q m x m₁ landed answer))
      · exact .inr ⟨r, m₂, ⟨x, m₁, answer, run⟩, hdev⟩

/-- What a cut brings back in the middle of a settled call, but for what the device is then, it
would have brought back before the call, or is what the device was before the call. -/
theorem Settled.older {mark : (q : Q) → A q → Mark} (quiet : ∀ q x, ¬ lands q → mark q x ≠ .lands)
    {m : Machine (Disk δ) ρ} {d : Disk δ} (h : Dies (Journaled sem mark) p m d) :
    ∀ left ∈ d.older, left = m.dev.live ∨ left ∈ m.dev.older := by
  obtain ⟨h, p', m', after, chain, rfl⟩ := h
  induction after generalizing m with
  | here p =>
    cases chain
    exact fun left hleft => .inr hleft
  | ram tail ih =>
    cases chain with
    | ram chain =>
      have later := ih (settled _) chain
      exact later
  | @io q drop k x h p' tail ih =>
    cases chain with
    | @io _ m₁ _ _ _ _ answer chain =>
      obtain ⟨coda, rest⟩ := settled.2 x
      have step : ∀ left ∈ m₁.dev.older, left = m.dev.live ∨ left ∈ m.dev.older := by
        intro left hleft
        have before : left ∈ m.dev.olderAfter (mark q x) := answer.2 ▸ hleft
        cases hmark : mark q x with
        | keeps => exact .inr (hmark ▸ before : left ∈ m.dev.olderAfter .keeps)
        | lands => exact List.mem_cons.1 (hmark ▸ before : left ∈ m.dev.olderAfter .lands)
        | syncs => exact absurd (hmark ▸ before : left ∈ m.dev.olderAfter .syncs) List.not_mem_nil
      intro left hleft
      by_cases landed : lands q
      · -- Nothing that follows may be lost.
        have only : (k x).Only (fun q => ∀ x, mark q x ≠ .lands) fun _ _ => True :=
          (coda landed).still.mono (fun q hq x => quiet q x hq) fun _ _ h => h
        exact step left (only.older ⟨h, p', m', tail, chain, rfl⟩ left hleft)
      · have same : m₁.dev.live = m.dev.live := still q m.live x m₁.live landed answer.1
        rcases ih rest chain left hleft with rfl | hleft
        · exact .inl same
        · exact step left hleft

end

theorem Settled.only (settled : p.Settled sem lands fits) :
    p.Only (fun q => lands q → fits q) fun _ _ => True := by
  induction p with
  | ret a => trivial
  | fail e => trivial
  | stuck => trivial
  | ram f k ih => exact fun s => ⟨trivial, ih s (settled s)⟩
  | await q drop k ih => exact ⟨settled.1, fun x => ih x (settled.2 x).2⟩

/-! ## Codas -/

theorem winds_bind {f : α → Prog Q A ε ρ β} (hp : p.Winds sem) (hf : ∀ a, (f a).Winds sem) :
    (p >>= f).Winds sem := by
  rw [bind_def]
  induction p with
  | ret a => exact hf a
  | fail e => trivial
  | stuck => exact hp.elim
  | ram g k ih => exact fun s => ih s (hp s)
  | await q drop k ih =>
    obtain ⟨x, refused, rest⟩ := hp
    exact ⟨x, refused, ih x rest⟩

theorem winds_attempt (hp : p.Winds sem) : p.attempt.Winds sem := by
  induction p with
  | ret a => trivial
  | fail e => trivial
  | stuck => exact hp.elim
  | ram g k ih => exact fun s => ih s (hp s)
  | await q drop k ih =>
    obtain ⟨x, refused, rest⟩ := hp
    exact ⟨x, refused, ih x rest⟩

theorem winds_guarded {release : ρ → ρ} (hp : p.Winds sem) : (p.guarded release).Winds sem := by
  induction p with
  | ret a => exact fun _ => trivial
  | fail e => exact fun _ => trivial
  | stuck => exact hp.elim
  | ram g k ih => exact fun s => ih s (hp s)
  | await q drop k ih =>
    obtain ⟨x, refused, rest⟩ := hp
    exact ⟨x, refused, ih x rest⟩

theorem Coda.bind {f : α → Prog Q A ε ρ β} (hp : Coda sem lands p) (hf : ∀ a, Coda sem lands (f a)) :
    Coda sem lands (p >>= f) :=
  ⟨winds_bind hp.winds fun a => (hf a).winds, hp.still.bind fun a => (hf a).still⟩

theorem Coda.attempt (hp : Coda sem lands p) : Coda sem lands p.attempt :=
  ⟨winds_attempt hp.winds, hp.still.attempt⟩

theorem Coda.guarded {release : ρ → ρ} (hp : Coda sem lands p) : Coda sem lands (p.guarded release) :=
  ⟨winds_guarded hp.winds, hp.still.guarded fun _ => trivial⟩

@[simp] theorem coda_pure {a : α} : Coda sem lands (pure a : Prog Q A ε ρ α) := ⟨trivial, trivial⟩

@[simp] theorem coda_fail {e : ε} : Coda sem lands (fail e : Prog Q A ε ρ α) := ⟨trivial, trivial⟩

@[simp] theorem coda_ofExcept {x : Except ε α} : Coda sem lands (ofExcept x : Prog Q A ε ρ α) := by
  cases x with
  | ok a => exact coda_pure
  | error e => exact coda_fail

@[simp] theorem coda_update {f : ρ → ρ} : Coda sem lands (update f : Prog Q A ε ρ Unit) :=
  ⟨fun _ => trivial, fun _ => ⟨trivial, trivial⟩⟩

theorem coda_ask {q : Q} (x : A q) (refused : ∀ m, sem q m x m) (calm : ¬ lands q) :
    Coda sem lands (ask q : Prog Q A ε ρ (A q)) :=
  ⟨⟨x, refused, trivial⟩, calm, fun _ => trivial⟩

/-! ## Settling -/

theorem Only.settled {P : Q → Prop} {R : ρ → ρ → Prop} (only : p.Only P R)
    (still : ∀ q, P q → ¬ lands q) : p.Settled sem lands fits := by
  induction p with
  | ret a => trivial
  | fail e => trivial
  | stuck => trivial
  | ram f k ih => exact fun s => ih s (only s).2
  | await q drop k ih =>
    have calm : ¬ lands q := still q only.1
    exact ⟨fun landed => absurd landed calm, fun x => ⟨fun landed => absurd landed calm, ih x (only.2 x)⟩⟩

theorem Only.settled_bind {P : Q → Prop} {R : ρ → ρ → Prop} {f : α → Prog Q A ε ρ β}
    (only : p.Only P R) (still : ∀ q, P q → ¬ lands q) (hf : ∀ a, (f a).Settled sem lands fits) :
    (p >>= f).Settled sem lands fits := by
  rw [bind_def]
  induction p with
  | ret a => exact hf a
  | fail e => trivial
  | stuck => trivial
  | ram g k ih => exact fun s => ih s (only s).2
  | await q drop k ih =>
    have calm : ¬ lands q := still q only.1
    exact ⟨fun landed => absurd landed calm, fun x => ⟨fun landed => absurd landed calm, ih x (only.2 x)⟩⟩

theorem settled_bind {f : α → Prog Q A ε ρ β} (hp : p.Settled sem lands fits)
    (coda : ∀ a, Coda sem lands (f a)) : (p >>= f).Settled sem lands fits := by
  rw [bind_def]
  induction p with
  | ret a => exact (coda a).still.settled fun _ h => h
  | fail e => trivial
  | stuck => trivial
  | ram g k ih => exact fun s => ih s (hp s)
  | await q drop k ih =>
    exact ⟨hp.1, fun x => ⟨fun landed => ((hp.2 x).1 landed).bind coda, ih x (hp.2 x).2⟩⟩

theorem settled_map {f : α → β} (hp : p.Settled sem lands fits) :
    (f <$> p).Settled sem lands fits := by
  rw [map_eq_pure_bind]
  exact settled_bind hp fun _ => coda_pure

theorem settled_attempt (hp : p.Settled sem lands fits) : p.attempt.Settled sem lands fits := by
  induction p with
  | ret a => trivial
  | fail e => trivial
  | stuck => trivial
  | ram g k ih => exact fun s => ih s (hp s)
  | await q drop k ih =>
    exact ⟨hp.1, fun x => ⟨fun landed => ((hp.2 x).1 landed).attempt, ih x (hp.2 x).2⟩⟩

theorem settled_guarded {release : ρ → ρ} (hp : p.Settled sem lands fits) :
    (p.guarded release).Settled sem lands fits := by
  induction p with
  | ret a => exact fun _ => trivial
  | fail e => exact fun _ => trivial
  | stuck => trivial
  | ram g k ih => exact fun s => ih s (hp s)
  | await q drop k ih =>
    exact ⟨hp.1, fun x => ⟨fun landed => ((hp.2 x).1 landed).guarded, ih x (hp.2 x).2⟩⟩

theorem settled_ask {q : Q} (fit : lands q → fits q) :
    (ask q : Prog Q A ε ρ (A q)).Settled sem lands fits :=
  ⟨fit, fun _ => ⟨fun _ => coda_pure, trivial⟩⟩

end
end Prog
end Async
