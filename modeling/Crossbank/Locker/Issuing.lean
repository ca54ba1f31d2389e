import Crossbank.Async.Share
import Crossbank.Locker.Issue

/-!
# Taking and landing value ids

The rules that every call of a bank keeps about value ids, and the triples of what calls are made of.

* `issueRules` : the rules, for a memory whose cursor `view` shows;
* `Issues view i K p G` : the call `i` keeps them, from `K` to `G`; `Firm i K` : nobody else ends `K`;
* `issues_still` : a part that commits nothing and takes no id; `issues_commit` : a commit;
* `issues_allocate` : an allocation; `issues_get` : a read;
* `Issues.within`, `Issues.zoom` : a call on a part of a larger memory.
-/

namespace Crossbank
open Async

section
variable {ρ σ α β : Type}

/-- What is relied on of an answer: commits land or change nothing, reads find what is stored, and no
answer moves the cursor. -/
def Shown (view : ρ → ValueIds) :
    (q : Req) → Machine Tables ρ → Resp q → Machine Tables ρ → Prop
  | .commit ops _, m, x, m' => view m'.mem = view m.mem ∧
      ((x = .ok () ∧ m'.dev = m.dev.commit ops) ∨ ∃ e, x = .error e ∧ m'.dev = m.dev)
  | .get table key, m, x, m' => view m'.mem = view m.mem ∧ m'.dev = m.dev ∧
      ∀ v, x = .ok v → v = m.dev.lookup table key
  | .getMany _ _, m, _, m' | .scan _, m, _, m' | .flush, m, _, m' | .lock, m, _, m'
  | .idle, m, _, m' => view m'.mem = view m.mem ∧ m'.dev = m.dev

def seen (view : ρ → ValueIds) (x : Scene Tables ρ Issue) : Sight :=
  ⟨x.machine.dev, view x.machine.mem, x.record⟩

def issueSetting (view : ρ → ValueIds)
    (sem : (q : Req) → Machine Tables ρ → Resp q → Machine Tables ρ → Prop) :
    Setting Req Resp Tables ρ Issue where
  sem := sem
  next := noteIssue view
  inv x := IdsKept (seen view x)

/-- What others leave of what a call counts on: its ids, what is free, and where it has started. -/
def LeavesTo (i : Nat) (a b : Sight) : Prop := Continues i a b ∧ b.issue.opened i = a.issue.opened i

def issueTerms (view : ρ → ValueIds) : Terms Tables ρ Issue where
  rely i x y := LeavesTo i (seen view x) (seen view y)
  guar i x y := ∀ j, j ≠ i → LeavesTo j (seen view x) (seen view y)
  rely_refl _ _ := ⟨.refl _ _, rfl⟩
  rely_trans _ _ _ _ first second := ⟨first.1.trans second.1, second.2.trans first.2⟩

abbrev issueRules (view : ρ → ValueIds)
    (sem : (q : Req) → Machine Tables ρ → Resp q → Machine Tables ρ → Prop) :
    Rules Req Resp Tables ρ Issue := ⟨issueSetting view sem, issueTerms view⟩

/-- The call `i`, started where `K` holds, keeps the rules of value ids, and ends where `G` holds. -/
abbrev Issues (view : ρ → ValueIds) (i : Nat) (K : Sight → Prop) (p : Io ρ α)
    (G : Except Error α → Sight → Prop) : Prop :=
  Triple (issueRules view (Shown view)) (seen view) i K p G

/-- Nobody else ends `K`, nor does a step of the call that publishes nothing. -/
def Firm (i : Nat) (K : Sight → Prop) : Prop := ∀ a b, K a → Continues i a b → K b

end

section
variable {ρ σ α β : Type} {view : ρ → ValueIds} {i : Nat} {K : Sight → Prop}
  {y : Scene Tables ρ Issue} {m : Machine Tables ρ} {e : Event Req Resp ρ}
  {sem : (q : Req) → Machine Tables ρ → Resp q → Machine Tables ρ → Prop}

theorem Firm.steady (firm : Firm i K) : Async.Steady (issueRules view sem) (seen view) i K :=
  fun _ _ hx hxy _ => firm _ _ hx hxy.1

theorem firm_true : Firm i fun _ => True := fun _ _ _ _ => trivial

theorem firm_mine (ops : List Op) : Firm i (Mine i ops) := fun _ _ h hab => h.follows hab

theorem firm_holds (id : UInt64) : Firm i fun a => a.issue.holder id = some i :=
  fun _ _ h hab => hab.own id h

theorem Firm.and {K' : Sight → Prop} (firm : Firm i K) (firm' : Firm i K') :
    Firm i fun a => K a ∧ K' a := fun a b h hab => ⟨firm a b h.1 hab, firm' a b h.2 hab⟩

theorem Firm.imp {P : Prop} (firm : Firm i K) : Firm i fun a => P → K a :=
  fun a b h hab hp => firm a b (h hp) hab

theorem Firm.all {β : Type} {F : β → Sight → Prop} (firm : ∀ x, Firm i (F x)) :
    Firm i fun a => ∀ x, F x a := fun a b h hab x => firm x a b (h x) hab

/-! ## Steps -/

theorem allows_still (hy : IdsKept (seen view y)) (dev : m.dev = y.machine.dev)
    (values : view m.mem = view y.machine.mem)
    (holder : (noteIssue view i e y.machine m y.record).holder = y.record.holder)
    (opened : ∀ j, j ≠ i →
      (noteIssue view i e y.machine m y.record).opened j = y.record.opened j) :
    (issueRules view sem).Allows i e y m ∧
      Continues i (seen view y) (seen view ((issueRules view sem).move i e y m)) := by
  have follows (j : Nat) :
      Continues j (seen view y) (seen view ((issueRules view sem).move i e y m)) :=
    .of_eq dev values holder
  exact ⟨⟨hy.of_eq dev values holder, fun j hj => ⟨follows j, opened j hj⟩⟩, follows i⟩

/-- An access to memory that does not move the cursor. -/
theorem noteIssue_ram {s s' : ρ} (h : view s' = view s) (m m' : Machine Tables ρ) (g : Issue) :
    noteIssue view i (.ram s s') m m' g = g := by
  unfold noteIssue
  dsimp only
  rw [h]
  split
  · next heq => rw [if_pos heq]
  · rfl

theorem allows_ram {s : ρ} (hy : IdsKept (seen view y)) (h : view s = view y.machine.mem) :
    (issueRules view sem).Allows i (.ram y.machine.mem s) y { y.machine with mem := s } ∧
      Continues i (seen view y) (seen view ((issueRules view sem).move i (.ram y.machine.mem s) y
        { y.machine with mem := s })) := by
  have same := noteIssue_ram (i := i) h y.machine { y.machine with mem := s } y.record
  exact allows_still hy rfl h (congrArg Issue.holder same)
    fun j _ => congrFun (congrArg Issue.opened same) j

theorem allows_io {q : Req} {x : Resp q} (hy : IdsKept (seen view y)) (still : ¬ q.lands)
    (answer : Shown view q y.machine x m) :
    (issueRules view sem).Allows i (.io q x) y m ∧
      Continues i (seen view y) (seen view ((issueRules view sem).move i (.io q x) y m)) := by
  cases q with
  | commit ops options => exact absurd trivial still
  | get table key =>
    obtain ⟨values, dev, -⟩ := answer
    refine allows_still hy dev values ?_ fun j hj => ?_
    · cases table <;> cases x <;> rfl
    · cases table with
      | records =>
        cases x with
        | ok v => exact Function.update_of_ne hj _ _
        | error e => rfl
      | «meta» => cases x <;> rfl
      | chunks => cases x <;> rfl
  | getMany table keys => exact allows_still hy answer.2 answer.1 rfl fun _ _ => rfl
  | scan request => exact allows_still hy answer.2 answer.1 rfl fun _ _ => rfl
  | flush => exact allows_still hy answer.2 answer.1 rfl fun _ _ => rfl
  | lock => exact allows_still hy answer.2 answer.1 rfl fun _ _ => rfl
  | idle => exact allows_still hy answer.2 answer.1 rfl fun _ _ => rfl

/-- A part that commits nothing and leaves the cursor. -/
theorem issues_still {p : Io ρ α} (firm : Firm i K)
    (only : p.Only (fun q => ¬ q.lands) fun s s' => view s' = view s) :
    Issues view i K p fun _ => K := by
  refine Triple.of_only only firm.steady (fun y s hK hy hs => ?_) fun y q x m hK hy hq answer => ?_
  · obtain ⟨allowed, follows⟩ := allows_ram (i := i) hy hs
    exact ⟨allowed, firm _ _ hK follows⟩
  · obtain ⟨allowed, follows⟩ := allows_io (i := i) hy hq answer
    exact ⟨allowed, firm _ _ hK follows⟩

/-- Ops of the call land, or fail to. -/
theorem allows_commit {ops : List Op} {options : CommitOptions} {x : Except Error Unit}
    (hy : IdsKept (seen view y)) (mine : Mine i ops (seen view y))
    (answer : Shown view (.commit ops options) y.machine x m) :
    (issueRules view sem).Allows i (.io (.commit ops options) x) y m ∧
      ((∀ id, publishes ops id = false) → Continues i (seen view y)
        (seen view ((issueRules view sem).move i (.io (.commit ops options) x) y m))) := by
  obtain ⟨values, ⟨rfl, dev⟩ | ⟨e, rfl, dev⟩⟩ := answer
  · obtain ⟨kept, others, own⟩ := IdsKept.commit hy mine
    have here : seen view ((issueRules view sem).move i (.io (.commit ops options) (.ok ())) y m) =
        ⟨(seen view y).db.commit ops, (seen view y).values, (seen view y).issue.publish ops⟩ := by
      show (⟨m.dev, view m.mem, y.record.publish ops⟩ : Sight) = _
      rw [dev, values]
      rfl
    rw [here]
    refine ⟨⟨?_, fun j hj => ⟨?_, rfl⟩⟩, own⟩
    · show IdsKept (seen view _)
      rw [here]
      exact kept
    · rw [here]
      exact others j hj
  · obtain ⟨allowed, follows⟩ : (issueRules view sem).Allows i
        (.io (.commit ops options) (.error e)) y m ∧ Continues i (seen view y) _ :=
      allows_still hy dev values rfl fun _ _ => rfl
    exact ⟨allowed, fun _ => follows⟩

/-- A commit of ops of the call. -/
theorem issues_commit {ops : List Op} {options : CommitOptions} (firm : Firm i K) :
    Issues view i (fun a => Mine i ops a ∧ K a) (Backend.commitWith ops options)
      fun _ a => (∀ id, publishes ops id = false) → K a := by
  intro h x hx
  refine Backend.safe_commitWith fun y hxy hy x' m answer _ => ?_
  obtain ⟨mine, hK⟩ := (firm_mine ops).and firm _ _ hx hxy.1
  obtain ⟨allowed, follows⟩ : (issueRules view (Shown view)).Allows i
      (.io (.commit ops options) x') y m ∧ _ := allows_commit hy mine answer
  exact ⟨allowed, fun z hyz _ quiet => firm _ _ hK ((follows quiet).trans hyz.1)⟩

/-- A read, and what it finds. -/
theorem issues_get {table : Table} {key : Bytes} {F : Option Bytes → Sight → Prop} (firm : Firm i K)
    (finds : ∀ v, Firm i (F v)) (reads : ∀ a, K a → F (a.db.lookup table key) a) :
    Issues view i K (Backend.get table key) fun r a => K a ∧ ∀ v, r = .ok v → F v a := by
  intro h x hx
  refine Backend.safe_get fun y hxy hy x' m answer _ => ?_
  have hK := firm _ _ hx hxy.1
  obtain ⟨allowed, follows⟩ : (issueRules view (Shown view)).Allows i (.io (.get table key) x') y m ∧
      Continues i (seen view y) _ := allows_io hy (fun h => h) answer
  refine ⟨allowed, fun z hyz _ => ⟨firm _ _ hK (follows.trans hyz.1), fun v hv => ?_⟩⟩
  rw [answer.2.2 v hv]
  exact finds _ _ _ (reads _ hK) (follows.trans hyz.1)

/-! ## Allocation -/

theorem issues_sync {f : ρ → Except Error α × ρ} {F : α → Sight → Prop} (firm : Firm i K)
    (finds : ∀ x, Firm i (F x))
    (steps : ∀ a s, K a → view s = a.values →
      (view (f s).2 = view s ∧ ∀ x, (f s).1 = .ok x → F x a) ∨
      ∃ id next : UInt64, view (f s).2 = ⟨some next⟩ ∧ (view s).next ≠ some next ∧
        a.cursor ≤ id.toNat ∧ next.toNat = id.toNat + 1 ∧
        ∀ x, (f s).1 = .ok x → ∀ b, b.issue.holder id = some i → F x b) :
    Issues view i K (Prog.sync f) fun r a => K a ∧ ∀ x, r = .ok x → F x a := by
  intro h x hx
  refine Prog.Safe.sync fun y hxy hy _ => ?_
  have hK := firm _ _ hx hxy.1
  rcases steps (seen view y) y.machine.mem hK rfl with ⟨still, hF⟩ | ⟨id, next, moved, ne, past, hnext, hF⟩
  · obtain ⟨allowed, follows⟩ := allows_ram (i := i) hy still
    exact ⟨allowed, fun z hyz _ => ⟨firm _ _ hK (follows.trans hyz.1),
      fun a ha => finds a _ _ (hF a ha) (follows.trans hyz.1)⟩⟩
  · obtain ⟨kept, follows⟩ := IdsKept.take hy i past hnext
    have hid : next - 1 = id := by
      refine UInt64.toNat_inj.1 ?_
      rw [UInt64.toNat_sub_of_le _ _ (by rw [UInt64.le_iff_toNat_le]; simp; omega)]
      simp [hnext]
    have here : seen view ((issueRules view (Shown view)).move i
        (.ram y.machine.mem (f y.machine.mem).2) y ⟨y.machine.dev, (f y.machine.mem).2⟩) =
        ⟨(seen view y).db, ⟨some next⟩, (seen view y).issue.take i id⟩ := by
      show (⟨y.machine.dev, view (f y.machine.mem).2, noteIssue view i
        (.ram y.machine.mem (f y.machine.mem).2) y.machine ⟨y.machine.dev, (f y.machine.mem).2⟩
        y.record⟩ : Sight) = _
      unfold noteIssue
      dsimp only
      rw [moved]
      dsimp only
      rw [if_neg ne, hid]
      rfl
    refine ⟨⟨?_, fun j hj => ⟨?_, ?_⟩⟩, fun z hyz _ => ?_⟩
    · show IdsKept (seen view _)
      rw [here]
      exact kept
    · rw [here]
      exact follows j
    · rw [here]
      rfl
    · have hz : Continues i ⟨(seen view y).db, ⟨some next⟩, (seen view y).issue.take i id⟩ (seen view z) :=
        here ▸ hyz.1
      refine ⟨firm _ _ hK ((follows i).trans hz), fun a ha => hF a ha _ (hz.own id ?_)⟩
      exact Function.update_self _ _ _

/-- What a call sees of memory, it may go by. -/
theorem issues_read {f : ρ → α} {F : α → Sight → Prop} (firm : Firm i K) (finds : ∀ x, Firm i (F x))
    (shows : ∀ a s, K a → view s = a.values → F (f s) a) :
    Issues view i K (Prog.read f) fun r a => K a ∧ ∀ x, r = .ok x → F x a := by
  show Issues view i K (Prog.sync fun s => (.ok (f s), s)) _
  exact issues_sync firm finds fun a s hK hs =>
    .inl ⟨rfl, fun x hx => Except.ok.inj hx ▸ shows a s hK hs⟩

end

section
variable {i : Nat} {K : Sight → Prop}

/-- What the floor of a fresh cursor has to be past. -/
def Floor (floor : UInt64) (a : Sight) : Prop := a.values.next = none → a.cursor ≤ floor.toNat

theorem firm_floor (floor : UInt64) : Firm i (Floor floor) := by
  intro a b h hab unseeded
  have before : a.values.next = none := not_not.1 fun hne => hab.seeded hne unseeded
  have same : b.cursor = a.cursor := by
    unfold Sight.cursor idCursor
    dsimp only
    rw [unseeded, before, hab.counter unseeded]
  rw [same]
  exact h before

theorem issues_seedFloor (firm : Firm i K) :
    Issues Shared.values i K ValueIds.seedFloor fun r a => K a ∧ ∀ floor, r = .ok floor →
      Floor floor a := by
  unfold ValueIds.seedFloor
  refine Triple.bind (issues_get (F := fun raw a => ∀ stored, parseCounter raw = .ok stored →
    Floor stored a) firm (fun raw => Firm.all fun stored => (firm_floor stored).imp) ?_) ?_ ?_
  · intro a _ stored hparse unseeded
    unfold Sight.cursor idCursor
    dsimp only
    rw [unseeded]
    dsimp only
    rw [hparse]
    exact le_rfl
  · intro raw
    refine Triple.bind (G := fun r a => K a ∧ ∀ stored, r = .ok stored → Floor stored a) ?_ ?_ ?_
    · refine (Triple.ofExcept (K := fun a => K a ∧ ∀ stored, parseCounter raw = .ok stored →
        Floor stored a) (firm.and (Firm.all fun stored => (firm_floor stored).imp)).steady _).mono ?_ ?_
      · exact fun a h => ⟨h.1, h.2 raw rfl⟩
      · rintro r a ⟨rfl, hK, hF⟩
        exact ⟨hK, hF⟩
    · intro stored
      have still : Issues Shared.values i (fun a => K a ∧ Floor stored a)
          (ValueIds.highestStoredId : Io Shared _) fun _ a => K a ∧ Floor stored a :=
        issues_still (firm.and (firm_floor stored)) (reads_highestStoredId.mono
          (fun q hq hl => by cases q <;> first | exact hl.elim | exact hq.elim) fun _ _ h => h.elim)
      refine Triple.bind (still.mono (fun a h => ⟨h.1, h.2 stored rfl⟩) fun _ _ h => h) ?_
        fun _ _ h => ⟨h.1, fun _ hf => by cases hf⟩
      intro highest
      cases highest with
      | none =>
        refine (Triple.ret (firm.and (firm_floor stored)).steady stored).mono (fun _ h => h) ?_
        rintro r a ⟨rfl, hK, hF⟩
        exact ⟨hK, fun floor hf => Except.ok.inj hf ▸ hF⟩
      | some id =>
        refine Triple.bind (Triple.ofExcept (firm.and (firm_floor stored)).steady _) ?_ ?_
        · intro past
          refine (Triple.ret (firm.and (firm_floor stored)).steady (max stored past)).mono
            (fun _ h => h.2) ?_
          rintro r a ⟨rfl, hK, hF⟩
          refine ⟨hK, fun floor hf unseeded => ?_⟩
          obtain rfl := Except.ok.inj hf
          rw [UInt64.toNat_max]
          exact (hF unseeded).trans (le_max_left _ _)
        · exact fun _ _ h => ⟨h.2.1, fun _ hf => by cases hf⟩
    · exact fun _ _ h => ⟨h.1, fun _ hf => by cases hf⟩
  · exact fun _ _ h => ⟨h.1, fun _ hf => by cases hf⟩

/-- The id that a call takes is its own. -/
theorem issues_allocate (firm : Firm i K) :
    Issues Shared.values i K ValueIds.allocate fun r a => K a ∧ ∀ id, r = .ok id →
      a.issue.holder id = some i := by
  unfold ValueIds.allocate
  refine Triple.bind (issues_sync (F := fun taken a => ∀ id, taken = some id →
    a.issue.holder id = some i) firm (fun taken => Firm.all fun id => (firm_holds id).imp) ?_) ?_ ?_
  · intro a s _ hs
    unfold ValueIds.take
    cases hnext : s.values.next with
    | none => exact .inl ⟨rfl, fun taken ht id hid => by rw [← Except.ok.inj ht] at hid; cases hid⟩
    | some current =>
      dsimp only
      cases hadv : ValueIds.advance current with
      | error e => exact .inl ⟨rfl, fun taken ht => by cases ht⟩
      | ok next =>
        have hmoved := advance_eq_ok hadv
        refine .inr ⟨current, next, rfl, fun heq => ?_, ?_, hmoved, fun taken ht b hb id hid => ?_⟩
        · have hsame : current = next := Option.some.inj heq
          rw [hsame] at hmoved
          omega
        · unfold Sight.cursor idCursor
          rw [← hs, hnext]
        · rw [← Except.ok.inj ht] at hid
          exact Option.some.inj hid ▸ hb
  · intro taken
    cases taken with
    | some id =>
      refine (Triple.ret (firm.and (firm_holds id)).steady id).mono
        (fun a h => ⟨h.1, h.2 (some id) rfl id rfl⟩) ?_
      rintro r a ⟨rfl, hK, hid⟩
      exact ⟨hK, fun id' h => Except.ok.inj h ▸ hid⟩
    | none =>
      refine Triple.bind ((issues_seedFloor firm).mono (fun a h => h.1) fun _ _ h => h) ?_
        fun _ _ h => ⟨h.1, fun _ hid => by cases hid⟩
      intro floor
      refine (issues_sync (F := fun id a => a.issue.holder id = some i) (firm.and (firm_floor floor))
        firm_holds ?_).mono (fun a h => ⟨h.1, h.2 floor rfl⟩) fun _ _ h => ⟨h.1.1, h.2⟩
      rintro a s ⟨-, hfloor⟩ hs
      unfold ValueIds.seedAndTake
      cases hnext : s.values.next with
      | none =>
        dsimp only
        cases hadv : ValueIds.advance floor with
        | error e => exact .inl ⟨rfl, fun _ ht => by cases ht⟩
        | ok next =>
          refine .inr ⟨floor, next, rfl, by simp, hfloor ?_, advance_eq_ok hadv, ?_⟩
          · rw [← hs, hnext]
          · exact fun id hid b hb => Except.ok.inj hid ▸ hb
      | some current =>
        dsimp only
        cases hadv : ValueIds.advance (max current floor) with
        | error e => exact .inl ⟨rfl, fun _ ht => by cases ht⟩
        | ok next =>
          have hmoved := advance_eq_ok hadv
          have hmax : current.toNat ≤ (max current floor).toNat := by
            rw [UInt64.toNat_max]
            exact le_max_left _ _
          refine .inr ⟨max current floor, next, rfl, fun heq => ?_, ?_, hmoved, ?_⟩
          · have hsame : current = next := Option.some.inj heq
            rw [← hsame] at hmoved
            omega
          · unfold Sight.cursor idCursor
            rw [← hs, hnext]
            exact hmax
          · exact fun id hid b hb => Except.ok.inj hid ▸ hb
  · exact fun _ _ h => ⟨h.1, fun _ hid => by cases hid⟩

end

/-! ## A part of a larger memory -/

/-- A call on a part is a call on a part that is there. -/
theorem zoom_eq_within {Q : Type} {A : Q → Type} {ε ρ σ α : Type} (l : Part σ ρ)
    (p : Prog Q A ε ρ α) : p.zoom l = p.within (fun s => some (l.get s)) l.set := by
  induction p with
  | ret a => rfl
  | fail e => rfl
  | stuck => rfl
  | ram f k ih => exact congrArg (Prog.ram _) (funext fun s => ih (l.get s))
  | await q d k ih => exact congrArg (Prog.await q _) (funext fun x => ih x)

section
variable {ρ σ α : Type} {view : ρ → ValueIds} {view' : σ → ValueIds} {i : Nat} {K : Sight → Prop}
  {sem : (q : Req) → Machine Tables σ → Resp q → Machine Tables σ → Prop}
  {get : σ → Option ρ} {set : ρ → σ → σ} {p : Io ρ α} {G : Except Error α → Sight → Prop}

/-- A request is noted whatever the memory. -/
theorem noteIssue_io {q : Req} {a : Resp q} {m m₁ : Machine Tables ρ} {m' m₁' : Machine Tables σ}
    (dev : m.dev = m'.dev) (g : Issue) :
    noteIssue view i (.io q a) m m₁ g = noteIssue view' i (.io q a) m' m₁' g := by
  unfold noteIssue
  rw [dev]
  cases q with
  | get table key => cases table <;> cases a <;> rfl
  | commit ops options => cases a <;> rfl
  | getMany | scan | flush | lock | idle => rfl

/-- A call on a part keeps the rules for the whole, where both show the same cursor. -/
theorem Issues.within (hp : Issues view i K p G)
    (shows : ∀ q m x m', sem q m x m' → Shown view' q m x m')
    (gets : ∀ s r, get s = some r → view r = view' s)
    (sets : ∀ s r r', get s = some r → view' (set r' s) = view r')
    (onto : ∀ s : σ, ∃ r : ρ, view r = view' s) :
    Triple (issueRules view' sem) (seen view') i K (p.within get set) G := by
  -- A scene of the part that shows what a scene of the whole does.
  have stands {x : Scene Tables ρ Issue} {x' y' : Scene Tables σ Issue} {r : ρ}
      (hr : view r = view' y'.machine.mem) (same : seen view x = seen view' x')
      (hxy : LeavesTo i (seen view' x') (seen view' y')) (hy : IdsKept (seen view' y')) :
      seen view ⟨⟨y'.machine.dev, r⟩, y'.record⟩ = seen view' y' ∧
        LeavesTo i (seen view x) (seen view ⟨⟨y'.machine.dev, r⟩, y'.record⟩) ∧
        IdsKept (seen view ⟨⟨y'.machine.dev, r⟩, y'.record⟩) := by
    have here : seen view ⟨⟨y'.machine.dev, r⟩, y'.record⟩ = seen view' y' := by simp [seen, hr]
    rw [here, same]
    exact ⟨rfl, hxy, hy⟩
  have go {p : Io ρ α} : ∀ {h h' : List _} {x : Scene Tables ρ Issue} {x' : Scene Tables σ Issue},
      seen view x = seen view' x' →
      p.Safe (issueRules view (Shown view)) i (fun _ _ _ _ => True) (fun _ r y => G r (seen view y))
        h x →
      (p.within get set).Safe (issueRules view' sem) i (fun _ _ _ _ => True)
        (fun _ r y => G r (seen view' y)) h' x' := by
    induction p with
    | ret a =>
      intro h h' x x' same hx y' hxy hy
      obtain ⟨r, hr⟩ := onto y'.machine.mem
      obtain ⟨here, leaves, kept⟩ := stands hr same hxy hy
      have ends : G (.ok a) (seen view ⟨⟨y'.machine.dev, r⟩, y'.record⟩) := hx _ leaves kept
      rwa [here] at ends
    | fail e =>
      intro h h' x x' same hx y' hxy hy
      obtain ⟨r, hr⟩ := onto y'.machine.mem
      obtain ⟨here, leaves, kept⟩ := stands hr same hxy hy
      have ends : G (.error e) (seen view ⟨⟨y'.machine.dev, r⟩, y'.record⟩) := hx _ leaves kept
      rwa [here] at ends
    | stuck => exact fun _ _ => trivial
    | ram f k ih =>
      unfold Prog.within
      intro h h' x x' same hx y' hxy hy _
      dsimp only
      cases hget : get y'.machine.mem with
      | none => exact ⟨(allows_ram hy rfl).1, trivial⟩
      | some r =>
        have hr := gets _ _ hget
        have hr' := sets _ _ (f r) hget
        obtain ⟨here, leaves, kept⟩ := stands hr same hxy hy
        obtain ⟨⟨inv, guar⟩, rest⟩ := hx _ leaves kept trivial
        dsimp only at inv guar rest ⊢
        have note : noteIssue view i (.ram r (f r)) ⟨y'.machine.dev, r⟩ ⟨y'.machine.dev, f r⟩
            y'.record = noteIssue view' i (.ram y'.machine.mem (set (f r) y'.machine.mem)) y'.machine
              ⟨y'.machine.dev, set (f r) y'.machine.mem⟩ y'.record := by
          unfold noteIssue
          dsimp only
          rw [hr, hr']
        have moved : seen view ((issueRules view (Shown view)).move i (.ram r (f r))
            ⟨⟨y'.machine.dev, r⟩, y'.record⟩ ⟨y'.machine.dev, f r⟩) =
            seen view' ((issueRules view' sem).move i
              (.ram y'.machine.mem (set (f r) y'.machine.mem)) y'
              ⟨y'.machine.dev, set (f r) y'.machine.mem⟩) := by
          show (⟨_, view (f r), _⟩ : Sight) = ⟨_, view' (set (f r) y'.machine.mem), _⟩
          rw [hr']
          exact congrArg (Sight.mk y'.machine.dev _) note
        refine ⟨⟨?_, fun j hj => ?_⟩, ih r moved rest⟩
        · show IdsKept (seen view' _)
          rw [← moved]
          exact inv
        · show LeavesTo j (seen view' y') (seen view' _)
          rw [← moved, ← here]
          exact guar j hj
    | await q d k ih =>
      intro h h' x x' same hx y' hxy hy a m' ha _
      obtain ⟨r, hr⟩ := onto y'.machine.mem
      obtain ⟨here, leaves, kept⟩ := stands hr same hxy hy
      have answer := shows q _ _ _ ha
      have values : view' m'.mem = view' y'.machine.mem := by
        cases q <;> exact answer.1
      have answer' : Shown view q ⟨y'.machine.dev, r⟩ a ⟨m'.dev, r⟩ := by
        cases q <;> exact ⟨rfl, answer.2⟩
      obtain ⟨⟨inv, guar⟩, rest⟩ := hx _ leaves kept a ⟨m'.dev, r⟩ answer' trivial
      have moved : seen view ((issueRules view (Shown view)).move i (.io q a)
          ⟨⟨y'.machine.dev, r⟩, y'.record⟩ ⟨m'.dev, r⟩) =
          seen view' ((issueRules view' sem).move i (.io q a) y' m') := by
        have note : noteIssue view i (.io q a) ⟨y'.machine.dev, r⟩ ⟨m'.dev, r⟩ y'.record =
            noteIssue view' i (.io q a) y'.machine m' y'.record := by
          apply noteIssue_io
          rfl
        show (⟨m'.dev, view r, _⟩ : Sight) = ⟨m'.dev, view' m'.mem, _⟩
        rw [hr, values]
        exact congrArg (Sight.mk m'.dev _) note
      refine ⟨⟨?_, fun j hj => ?_⟩, ih a moved rest⟩
      · show IdsKept (seen view' _)
        rw [← moved]
        exact inv
      · show LeavesTo j (seen view' y') (seen view' _)
        rw [← moved, ← here]
        exact guar j hj
  intro h' x' hx'
  obtain ⟨r, hr⟩ := onto x'.machine.mem
  have here : seen view ⟨⟨x'.machine.dev, r⟩, x'.record⟩ = seen view' x' := by simp [seen, hr]
  exact go here (hp [] _ (by rw [here]; exact hx'))

/-- A call on the cursors, from inside a larger memory. -/
theorem Issues.zoom {l : Part σ ρ} (hp : Issues view i K p G) :
    Issues (fun s => view (l.get s)) i K (p.zoom l) G := by
  rw [zoom_eq_within]
  refine hp.within (fun _ _ _ _ h => h) (fun s r h => ?_) (fun s r r' _ => ?_) fun s => ⟨l.get s, rfl⟩
  · obtain rfl := Option.some.inj h
    rfl
  · rw [l.get_set]

end
end Crossbank
