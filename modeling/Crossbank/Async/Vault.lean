import Crossbank.Async.Crash

/-!
# A vault

A map on a device, and edits of it that have not reached the device. Edits reach it together or not at
all; what has not reached it is gone when the vault is opened again, and what has may still be lost,
until the device is synced.

* `Edit`, `applyAll` : edits of a map; `Untouched es key` : none of them is of the key;
* `Vault` : the map on the device, what a cut may bring back instead, and the pending edits;
  `Vault.shows` : what reads are to show;
* `Deed`, `Vault.Answers` : what a call is for, and what it leaves of the vault when it ends;
  `Answers.moves` : the ways a vault may change, `Moves.shows`, `Moves.safe` : what they keep of a key;
* `Vault.Runs` : what it comes to after turns of a service;
* `Vault.Runs.safe` : on a vault that sheds nothing, an entry that is safe stays until a call is for its
  key, whatever fails and dies; `Vault.Runs.shows` : pending or not, it is shown until then or until the
  vault is opened again.
-/

namespace Async

inductive Edit (K V : Type) where
  | put (key : K) (value : V)
  | delete (key : K)
  | clear
  deriving DecidableEq

section
variable {K V : Type} [DecidableEq K]

def Edit.apply (f : K → Option V) : Edit K V → K → Option V
  | put key value => Function.update f key (some value)
  | delete key => Function.update f key none
  | clear => fun _ => none

def applyAll (es : List (Edit K V)) (f : K → Option V) : K → Option V := es.foldl Edit.apply f

def Edit.Spares (key : K) : Edit K V → Prop
  | put k _ => k ≠ key
  | delete k => k ≠ key
  | clear => False

def Untouched (es : List (Edit K V)) (key : K) : Prop := ∀ e ∈ es, e.Spares key

@[simp] theorem applyAll_nil (f : K → Option V) : applyAll [] f = f := rfl

theorem applyAll_append (es more : List (Edit K V)) (f : K → Option V) :
    applyAll (es ++ more) f = applyAll more (applyAll es f) := List.foldl_append

theorem applyAll_singleton (e : Edit K V) (f : K → Option V) : applyAll [e] f = e.apply f := rfl

theorem Edit.apply_of_spares {e : Edit K V} {key : K} (spares : e.Spares key) (f : K → Option V) :
    e.apply f key = f key := by
  cases e with
  | put k v => exact Function.update_of_ne (Ne.symm spares) _ _
  | delete k => exact Function.update_of_ne (Ne.symm spares) _ _
  | clear => exact spares.elim

theorem applyAll_of_untouched {es : List (Edit K V)} {key : K} (untouched : Untouched es key)
    (f : K → Option V) : applyAll es f key = f key := by
  induction es generalizing f with
  | nil => rfl
  | cons e es ih =>
    have later : Untouched es key := fun e' he' => untouched e' (List.mem_cons_of_mem _ he')
    rw [applyAll, List.foldl_cons]
    exact (ih later _).trans (e.apply_of_spares (untouched e List.mem_cons_self) f)

end

theorem Untouched.append {K V : Type} {es more : List (Edit K V)} {key : K}
    (first : Untouched es key) (second : Untouched more key) : Untouched (es ++ more) key := by
  intro e he
  rcases List.mem_append.1 he with he | he
  · exact first e he
  · exact second e he

theorem untouched_nil {K V : Type} (key : K) : Untouched ([] : List (Edit K V)) key :=
  fun _ he => absurd he List.not_mem_nil

/-- What is on the device, what has not reached it, and what a cut may bring back. -/
structure Vault (K V : Type) where
  durable : K → Option V
  pending : List (Edit K V)
  older : List (K → Option V)

/-- How a vault is kept: `behind`, if an edit may be left pending; `sheds`, if entries may be dropped;
`syncs`, if what reaches the device is safe at once. -/
structure Vault.Kind where
  behind : Bool
  sheds : Bool
  syncs : Bool

inductive Deed (K V : Type) where
  | look
  | edit (e : Edit K V)
  | batch (es : List (Edit K V))
  | flush
  | shed

def Deed.edits {K V : Type} : Deed K V → List (Edit K V)
  | .edit e => [e]
  | .batch es => es
  | .look | .flush | .shed => []

namespace Vault
variable {K V C : Type} [DecidableEq K]

def shows (s : Vault K V) : K → Option V := applyAll s.pending s.durable

def stage (es : List (Edit K V)) (s : Vault K V) : Vault K V := { s with pending := s.pending ++ es }

/-- A map but for the keys that are lost. -/
def without (lost : List K) (f : K → Option V) (key : K) : Option V := if key ∈ lost then none else f key

def land (kind : Kind) (f : K → Option V) (pending : List (Edit K V)) (s : Vault K V) : Vault K V :=
  ⟨f, pending, if kind.syncs then [] else s.durable :: s.older⟩

/-- What is pending reaches the device, and `lost` is shed with it. -/
def store (kind : Kind) (lost : List K) (s : Vault K V) : Vault K V := s.land kind (without lost s.shows) []

def shed (kind : Kind) (lost : List K) (s : Vault K V) : Vault K V :=
  s.land kind (without lost s.durable) s.pending

def synced (s : Vault K V) : Vault K V := { s with older := [] }

def reopened (s : Vault K V) : Vault K V := { s with pending := [] }

/-- What is left when the process dies, or the power is cut. -/
def Left (s s' : Vault K V) : Prop :=
  s' = s.reopened ∨ ∃ f, (f = s.durable ∨ f ∈ s.older) ∧ s' = ⟨f, [], []⟩

/-- The edits reach the device with what was pending. None that they write is shed with it. -/
def Stores (kind : Kind) (es : List (Edit K V)) (s s' : Vault K V) : Prop :=
  ∃ lost, (∀ key ∈ lost, Untouched (s.pending ++ es) key) ∧ (kind.sheds = false → lost = []) ∧
    s' = (s.stage es).store kind lost

/-- What a call leaves that has returned, or failed. One edit may be left pending, and is when a call
fails that was to store it with the others; a batch of edits is stored or not there. A flush that returns
has synced the device. -/
def Answers (kind : Kind) : Deed K V → Bool → Vault K V → Vault K V → Prop
  | .look, _, s, s' => s' = s
  | .edit e, ok, s, s' => ok = true ∧ Stores kind [e] s s' ∨ kind.behind = true ∧ s' = s.stage [e] ∨
      ok = false ∧ s' = s
  | .batch es, ok, s, s' => ok = true ∧ Stores kind es s s' ∨ (ok = true → es = []) ∧ s' = s
  | .flush, ok, s, s' => ∃ s₁, (Stores kind [] s s₁ ∨ (ok = true → s.pending = []) ∧ s₁ = s) ∧
      s' = if ok then s₁.synced else s₁
  | .shed, _, s, s' => s' = s ∨ kind.sheds = true ∧ ∃ lost, s' = s.shed kind lost

/-- The runs of a vault: `asks c s d` when the call `c` is for the deed `d` on the vault `s`. A call
in which the process dies has been answered or not. -/
inductive Runs (kind : Kind) (asks : C → Vault K V → Deed K V → Prop) (start : Vault K V) :
    List (Turn C) → Vault K V → Prop
  | nil : Runs kind asks start [] start
  | ended {log : List (Turn C)} {s s' : Vault K V} {c : C} {d : Deed K V} {ok : Bool}
      (before : Runs kind asks start log s) (asked : asks c s d) (answer : Answers kind d ok s s') :
      Runs kind asks start (log ++ [.ended c ok]) s'
  | died {log : List (Turn C)} {s s₁ s' : Vault K V} {c : C} {d : Deed K V} {ok : Bool}
      (before : Runs kind asks start log s) (asked : asks c s d) (answer : Answers kind d ok s s₁)
      (left : s₁.Left s') : Runs kind asks start (log ++ [.died c]) s'
  | reopened {log : List (Turn C)} {s : Vault K V} (before : Runs kind asks start log s) :
      Runs kind asks start (log ++ [.reopened]) s.reopened
  | restarted {log : List (Turn C)} {s s' : Vault K V} (before : Runs kind asks start log s)
      (left : s.Left s') : Runs kind asks start (log ++ [.restarted]) s'

section
variable {kind : Kind} {asks : C → Vault K V → Deed K V → Prop} {start s s' : Vault K V}
  {log later : List (Turn C)} {d : Deed K V} {ok : Bool} {key : K} {es : List (Edit K V)}

theorem shows_stage (es : List (Edit K V)) (s : Vault K V) : (s.stage es).shows = applyAll es s.shows :=
  applyAll_append _ _ _

theorem Runs.split (run : Runs kind asks start (log ++ later) s) :
    ∃ s₁, Runs kind asks start log s₁ ∧ Runs kind asks s₁ later s := by
  induction later using List.reverseRecOn generalizing s with
  | nil =>
    rw [List.append_nil] at run
    exact ⟨s, run, .nil⟩
  | append_singleton later turn ih =>
    rw [← List.append_assoc] at run
    generalize hl : log ++ later ++ [turn] = l at run
    cases run with
    | nil => simp at hl
    | ended before asked answer =>
      obtain ⟨rfl, heq⟩ := List.append_inj' hl rfl
      obtain ⟨s₁, first, rest⟩ := ih before
      obtain rfl := List.singleton_inj.1 heq
      exact ⟨s₁, first, .ended rest asked answer⟩
    | died before asked answer left =>
      obtain ⟨rfl, heq⟩ := List.append_inj' hl rfl
      obtain ⟨s₁, first, rest⟩ := ih before
      obtain rfl := List.singleton_inj.1 heq
      exact ⟨s₁, first, .died rest asked answer left⟩
    | reopened before =>
      obtain ⟨rfl, heq⟩ := List.append_inj' hl rfl
      obtain ⟨s₁, first, rest⟩ := ih before
      obtain rfl := List.singleton_inj.1 heq
      exact ⟨s₁, first, .reopened rest⟩
    | restarted before left =>
      obtain ⟨rfl, heq⟩ := List.append_inj' hl rfl
      obtain ⟨s₁, first, rest⟩ := ih before
      obtain rfl := List.singleton_inj.1 heq
      exact ⟨s₁, first, .restarted rest left⟩

/-- The call of the turn is for other keys, whatever the vault is. -/
def Leaves (asks : C → Vault K V → Deed K V → Prop) (key : K) : Turn C → Prop
  | .ended c _ => ∀ s d, asks c s d → Untouched d.edits key
  | .died c => ∀ s d, asks c s d → Untouched d.edits key
  | .reopened | .restarted => True

/-! ## The ways a vault may change -/

/-- What a call may do to a vault, but for a sync. -/
inductive Moves (kind : Kind) (es : List (Edit K V)) (s : Vault K V) : Vault K V → Prop
  | still : Moves kind es s s
  | staged (behind : kind.behind = true) : Moves kind es s (s.stage es)
  | stored {s' : Vault K V} (stores : Stores kind es s s') : Moves kind es s s'
  | shed (lost : List K) (sheds : kind.sheds = true) : Moves kind es s (s.shed kind lost)

/-- What a call leaves it has moved to, and a flush that returns has synced it. -/
theorem Answers.moves (h : Answers kind d ok s s') : ∃ s₁, Moves kind d.edits s s₁ ∧
    (s' = s₁ ∨ d = .flush ∧ ok = true ∧ s' = s₁.synced) := by
  cases d with
  | look => exact ⟨s, .still, .inl h⟩
  | edit e =>
    refine ⟨s', ?_, .inl rfl⟩
    rcases h with ⟨-, stores⟩ | ⟨behind, rfl⟩ | ⟨-, rfl⟩
    · exact .stored stores
    · exact .staged behind
    · exact .still
  | batch es =>
    refine ⟨s', ?_, .inl rfl⟩
    rcases h with ⟨-, stores⟩ | ⟨-, rfl⟩
    · exact .stored stores
    · exact .still
  | flush =>
    obtain ⟨s₁, h, hs'⟩ := h
    refine ⟨s₁, ?_, ?_⟩
    · rcases h with stores | ⟨-, rfl⟩
      · exact .stored stores
      · exact .still
    · cases ok with
      | true => exact .inr ⟨rfl, rfl, hs'⟩
      | false => exact .inl hs'
  | shed =>
    refine ⟨s', ?_, .inl rfl⟩
    rcases h with rfl | ⟨sheds, lost, rfl⟩
    · exact .still
    · exact .shed lost sheds

/-- What a call that dies has left: it has not come to sync the device. -/
theorem Answers.cut (h : Answers kind d ok s s') : ∃ ok₁ s₁, Answers kind d ok₁ s s₁ ∧
    Moves kind d.edits s s₁ ∧ s₁.durable = s'.durable := by
  obtain ⟨s₁, moves, same | ⟨rfl, rfl, same⟩⟩ := h.moves
  · obtain rfl := same
    exact ⟨ok, s', h, moves, rfl⟩
  · obtain ⟨s₂, h, hs'⟩ := h
    refine ⟨false, s₂, ⟨s₂, ?_, rfl⟩, ?_, ?_⟩
    · exact h.imp_right fun same => ⟨by simp, same.2⟩
    · rcases h with stores | ⟨-, rfl⟩
      · exact .stored stores
      · exact .still
    · rw [hs']
      rfl

/-- What a cut may bring back it still may, on a vault that is not synced. -/
theorem Moves.older (lazy : kind.syncs = false) (moves : Moves kind es s s') {f : K → Option V}
    (h : f = s.durable ∨ f ∈ s.older) : f = s'.durable ∨ f ∈ s'.older := by
  have landed {g : K → Option V} {pending : List (Edit K V)} : f ∈ (s.land kind g pending).older := by
    show f ∈ if kind.syncs then [] else s.durable :: s.older
    rw [lazy]
    exact List.mem_cons.2 h
  cases moves with
  | still => exact h
  | staged => exact h
  | stored stores =>
    obtain ⟨lost, -, -, rfl⟩ := stores
    exact .inr landed
  | shed lost => exact .inr landed

theorem Moves.synced (syncs : kind.syncs = true) (safe : s.older = []) (moves : Moves kind es s s') :
    s'.older = [] := by
  have landed {s : Vault K V} {g : K → Option V} {pending : List (Edit K V)} :
      (s.land kind g pending).older = [] := if_pos syncs
  cases moves with
  | still => exact safe
  | staged => exact safe
  | stored stores =>
    obtain ⟨lost, -, -, rfl⟩ := stores
    exact landed
  | shed lost => exact landed

theorem Moves.idle (through : kind.behind = false) (idle : s.pending = [])
    (moves : Moves kind es s s') : s'.pending = [] := by
  cases moves with
  | still => exact idle
  | staged behind =>
    rw [through] at behind
    cases behind
  | stored stores =>
    obtain ⟨lost, -, -, rfl⟩ := stores
    rfl
  | shed lost => exact idle

/-- A vault that keeps nothing back has nothing pending. -/
theorem Answers.idle (through : kind.behind = false) (idle : s.pending = [])
    (h : Answers kind d ok s s') : s'.pending = [] := by
  obtain ⟨s₁, moves, rfl | ⟨-, -, rfl⟩⟩ := h.moves
  · exact moves.idle through idle
  · show s₁.pending = []
    exact moves.idle through idle

theorem Answers.synced (syncs : kind.syncs = true) (safe : s.older = [])
    (h : Answers kind d ok s s') : s'.older = [] := by
  obtain ⟨s₁, moves, rfl | ⟨-, -, rfl⟩⟩ := h.moves
  · exact moves.synced syncs safe
  · rfl

omit [DecidableEq K] in
theorem Left.idle (left : s.Left s') : s'.pending = [] := by
  rcases left with rfl | ⟨f, -, rfl⟩
  · rfl
  · rfl

omit [DecidableEq K] in
theorem Left.synced (safe : s.older = []) (left : s.Left s') : s'.older = [] := by
  rcases left with rfl | ⟨f, -, rfl⟩
  · exact safe
  · rfl

theorem Runs.idle (through : kind.behind = false) (idle : start.pending = [])
    (run : Runs kind asks start log s) : s.pending = [] := by
  induction run with
  | nil => exact idle
  | ended before asked answer ih => exact answer.idle through ih
  | died before asked answer left ih => exact left.idle
  | reopened before ih => rfl
  | restarted before left ih => exact left.idle

theorem Runs.synced (syncs : kind.syncs = true) (safe : start.older = [])
    (run : Runs kind asks start log s) : s.older = [] := by
  induction run with
  | nil => exact safe
  | ended before asked answer ih => exact answer.synced syncs ih
  | died before asked answer left ih => exact left.synced (answer.synced syncs ih)
  | reopened before ih => exact ih
  | restarted before left ih => exact left.synced ih

/-! ## What stays -/

/-- Whatever a cut brings back, the key has what it has on the device, with nothing pending. -/
structure Safe (s : Vault K V) (key : K) : Prop where
  pending : Untouched s.pending key
  older : ∀ f ∈ s.older, f key = s.durable key

theorem Safe.shows (safe : Safe s key) : s.shows key = s.durable key :=
  applyAll_of_untouched safe.pending _

omit [DecidableEq K] in
theorem Safe.synced (safe : Safe s key) : Safe s.synced key :=
  ⟨safe.pending, fun _ hf => absurd hf List.not_mem_nil⟩

omit [DecidableEq K] in
theorem safe_of_synced (idle : s.pending = []) (synced : s.older = []) : Safe s key where
  pending := idle ▸ untouched_nil key
  older _ hf := absurd (synced ▸ hf) List.not_mem_nil

theorem Safe.left (safe : Safe s key) (left : s.Left s') :
    Safe s' key ∧ s'.shows key = s.shows key := by
  rw [safe.shows]
  rcases left with rfl | ⟨f, hf, rfl⟩
  · exact ⟨⟨untouched_nil key, safe.older⟩, rfl⟩
  · refine ⟨safe_of_synced rfl rfl, ?_⟩
    rcases hf with rfl | hf
    · rfl
    · exact safe.older f hf

section
variable (keeps : kind.sheds = false)
include keeps

theorem Stores.direct (h : Stores kind es s s') : s' = s.land kind (applyAll es s.shows) [] := by
  obtain ⟨lost, -, none, rfl⟩ := h
  rw [none keeps, store, shows_stage]
  rfl

section
variable (untouched : Untouched es key)
include untouched

theorem Moves.shows (moves : Moves kind es s s') : s'.shows key = s.shows key := by
  cases moves with
  | still => rfl
  | staged =>
    rw [shows_stage]
    exact applyAll_of_untouched untouched _
  | stored stores =>
    rw [stores.direct keeps]
    exact applyAll_of_untouched untouched _
  | shed lost sheds =>
    rw [keeps] at sheds
    cases sheds

theorem Moves.safe (safe : Safe s key) (moves : Moves kind es s s') : Safe s' key := by
  cases moves with
  | still => exact safe
  | staged => exact ⟨safe.pending.append untouched, safe.older⟩
  | stored stores =>
    obtain rfl := stores.direct keeps
    refine ⟨untouched_nil key, fun f hf => ?_⟩
    -- What has reached the device has of the key what was there.
    have same : applyAll es s.shows key = s.durable key :=
      (applyAll_of_untouched untouched _).trans safe.shows
    show f key = applyAll es s.shows key
    rw [same]
    unfold land at hf
    split at hf
    · exact absurd hf List.not_mem_nil
    · rcases List.mem_cons.1 hf with rfl | hf
      · rfl
      · exact safe.older f hf
  | shed lost sheds =>
    rw [keeps] at sheds
    cases sheds

end

theorem Answers.shows (untouched : Untouched d.edits key) (h : Answers kind d ok s s') :
    s'.shows key = s.shows key := by
  obtain ⟨s₁, moves, rfl | ⟨-, -, rfl⟩⟩ := h.moves
  · exact moves.shows keeps untouched
  · show s₁.shows key = s.shows key
    exact moves.shows keeps untouched

theorem Answers.safe (untouched : Untouched d.edits key) (safe : Safe s key)
    (h : Answers kind d ok s s') : Safe s' key := by
  obtain ⟨s₁, moves, rfl | ⟨-, -, rfl⟩⟩ := h.moves
  · exact moves.safe keeps untouched safe
  · exact (moves.safe keeps untouched safe).synced

/-- What is safe, and nobody writes, stays, on a vault that sheds nothing: whatever fails, wherever
the process dies and whenever the power is cut. -/
theorem Runs.safe (run : Runs kind asks start log s) (safe : Safe start key)
    (leaves : ∀ turn ∈ log, Leaves asks key turn) : Safe s key ∧ s.shows key = start.shows key := by
  induction run with
  | nil => exact ⟨safe, rfl⟩
  | @ended log s s' c d ok before asked answer ih =>
    obtain ⟨safe, same⟩ := ih fun turn ht => leaves turn (List.mem_append_left _ ht)
    have untouched := leaves _ (List.mem_append_right _ List.mem_cons_self) s d asked
    exact ⟨answer.safe keeps untouched safe, (answer.shows keeps untouched).trans same⟩
  | @died log s s₁ s' c d ok before asked answer left ih =>
    obtain ⟨safe, same⟩ := ih fun turn ht => leaves turn (List.mem_append_left _ ht)
    have untouched := leaves _ (List.mem_append_right _ List.mem_cons_self) s d asked
    obtain ⟨safe', same'⟩ := (answer.safe keeps untouched safe).left left
    exact ⟨safe', same'.trans ((answer.shows keeps untouched).trans same)⟩
  | reopened before ih =>
    obtain ⟨safe, same⟩ := ih fun turn ht => leaves turn (List.mem_append_left _ ht)
    obtain ⟨safe', same'⟩ := safe.left (.inl rfl)
    exact ⟨safe', same'.trans same⟩
  | restarted before left ih =>
    obtain ⟨safe, same⟩ := ih fun turn ht => leaves turn (List.mem_append_left _ ht)
    obtain ⟨safe', same'⟩ := safe.left left
    exact ⟨safe', same'.trans same⟩

/-- Pending or not, what nobody writes is shown, until the vault is opened again. -/
theorem Runs.shows (run : Runs kind asks start log s)
    (leaves : ∀ turn ∈ log, Leaves asks key turn ∧ ∃ c ok, turn = .ended c ok) :
    s.shows key = start.shows key := by
  induction run with
  | nil => rfl
  | @ended log s s' c d ok before asked answer ih =>
    have same := ih fun turn ht => leaves turn (List.mem_append_left _ ht)
    have untouched := (leaves _ (List.mem_append_right _ List.mem_cons_self)).1 s d asked
    exact (answer.shows keeps untouched).trans same
  | died before asked answer left ih =>
    obtain ⟨-, c, ok, heq⟩ := leaves _ (List.mem_append_right _ List.mem_cons_self)
    cases heq
  | reopened before ih =>
    obtain ⟨-, c, ok, heq⟩ := leaves _ (List.mem_append_right _ List.mem_cons_self)
    cases heq
  | restarted before left ih =>
    obtain ⟨-, c, ok, heq⟩ := leaves _ (List.mem_append_right _ List.mem_cons_self)
    cases heq

theorem Answers.edited {e : Edit K V} {v : Option V} (sets : ∀ f, e.apply f key = v)
    (h : Answers kind (.edit e) true s s') : s'.shows key = v := by
  rcases h with ⟨-, h⟩ | ⟨-, rfl⟩ | ⟨bad, -⟩
  · rw [h.direct keeps]
    exact sets _
  · rw [shows_stage]
    exact sets _
  · cases bad

theorem Answers.flushed (h : Answers kind .flush true s s') :
    (∀ key, Safe s' key) ∧ s'.shows = s.shows := by
  obtain ⟨s₁, h, rfl⟩ := h
  rw [if_pos rfl]
  rcases h with h | ⟨nil, rfl⟩
  · rw [h.direct keeps]
    exact ⟨fun key => safe_of_synced rfl rfl, rfl⟩
  · exact ⟨fun key => safe_of_synced (nil rfl) rfl, rfl⟩

end

/-- The turn that a run goes on with, of a call that is for one deed. -/
theorem Runs.first {c : C} {ok : Bool} (run : Runs kind asks start (.ended c ok :: later) s) :
    ∃ d s₁, asks c start d ∧ Answers kind d ok start s₁ ∧ Runs kind asks s₁ later s := by
  obtain ⟨s₁, one, rest⟩ : ∃ s₁, Runs kind asks start ([] ++ [.ended c ok]) s₁ ∧
      Runs kind asks s₁ later s := Runs.split run
  generalize hl : ([] : List (Turn C)) ++ [.ended c ok] = l at one
  cases one with
  | nil => simp at hl
  | @ended log s₀ _ c' d ok' before asked answer =>
    obtain ⟨hlog, heq⟩ := List.append_inj' hl rfl
    obtain ⟨rfl, rfl⟩ := Turn.ended.inj (List.singleton_inj.1 heq)
    subst hlog
    generalize hn : ([] : List (Turn C)) = n at before
    cases before with
    | nil => exact ⟨d, s₁, asked, answer, rest⟩
    | ended => simp at hn
    | died => simp at hn
    | reopened => simp at hn
    | restarted => simp at hn
  | died before asked answer left =>
    obtain ⟨-, heq⟩ := List.append_inj' hl rfl
    cases List.singleton_inj.1 heq
  | reopened before =>
    obtain ⟨-, heq⟩ := List.append_inj' hl rfl
    cases List.singleton_inj.1 heq
  | restarted before left =>
    obtain ⟨-, heq⟩ := List.append_inj' hl rfl
    cases List.singleton_inj.1 heq

end
end Vault
end Async
