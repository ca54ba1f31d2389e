import Crossbank.Bytes

/-!
# What a bank handle is for

A handle names a locker and a key with every call, and a locker is there from the first call that
names it. So a bank is, to its handles, a map of maps: what a name is registered for, and what is kept
under it.

* `Job`, `Answer` : what a handle asks for, and what it is told;
* `Shelves` : per registered name, the value under each key;
* `Job.after` : what a job leaves;
* `Job.Answers` : what it answers;
* `Enumerates.unique` : a listing is determined by what it lists.
-/

namespace Crossbank

/-- One request to the bank's owning thread. -/
inductive Job where
  | get (locker key : String)
  | put (locker key : String) (value : Bytes)
  | delete (locker key : String)
  | keys (locker p : String)
  | clear (locker : String)
  | getMany (locker : String) (keys : List String)
  | putAll (locker : String) (entries : List (String × Bytes))
  | deleteAll (locker : String) (keys : List String)
  | entries (locker p : String)
  | containsKey (locker key : String)
  | len (locker : String)
  | lockerExists (name : String)
  | lockerNames
  | deleteLocker (name : String)
  deriving DecidableEq

inductive Answer where
  | value (v : Option Bytes)
  | done
  | names (names : List String)
  | values (vs : List (Option Bytes))
  | pairs (entries : List (String × Bytes))
  | holds (b : Bool)
  | count (n : Nat)
  deriving DecidableEq

abbrev Shelf := String → Option Bytes

/-- The registered names, each with its values. -/
abbrev Shelves := String → Option Shelf

/-- The strings of a set, each once, in the order of their bytes. -/
structure Enumerates (l : List String) (S : Set String) : Prop where
  ascending : l.Pairwise fun a b => compare (asBytes a) (asBytes b) = .lt
  mem : ∀ s, s ∈ l ↔ s ∈ S

namespace Shelves

def empty : Shelves := fun _ => none

def shelf (s : Shelves) (name : String) : Shelf := (s name).getD fun _ => none

/-- Change what is kept under a name, which is registered from then on. -/
def change (s : Shelves) (name : String) (f : Shelf → Shelf) : Shelves :=
  Function.update s name (some (f (s.shelf name)))

/-- Put up an empty shelf for a name that has none. -/
def touch (s : Shelves) (name : String) : Shelves := s.change name fun shelf => shelf

/-- Forget a name and what is kept under it. -/
def forget (s : Shelves) (name : String) : Shelves := Function.update s name none

end Shelves

namespace Job

/-- The locker that a job opens. A batch of nothing opens none. -/
def opens : Job → Option String
  | .get locker _ | .put locker _ _ | .delete locker _ | .keys locker _ | .clear locker
  | .entries locker _ | .containsKey locker _ | .len locker => some locker
  | .getMany locker names => if names.isEmpty then none else some locker
  | .putAll locker batch => if batch.isEmpty then none else some locker
  | .deleteAll locker names => if names.isEmpty then none else some locker
  | .lockerExists _ | .lockerNames | .deleteLocker _ => none

/-- What a job does to the values of the locker that it opens. -/
def effect : Job → Shelf → Shelf
  | .put _ key value, shelf => Function.update shelf key (some value)
  | .delete _ key, shelf => Function.update shelf key none
  | .clear _, _ => fun _ => none
  | .putAll _ batch, shelf =>
    batch.foldl (fun shelf e => Function.update shelf e.1 (some e.2)) shelf
  | .deleteAll _ names, shelf => names.foldl (fun shelf key => Function.update shelf key none) shelf
  | _, shelf => shelf

/-- What a job leaves that has opened its locker and done no more. -/
def opened (job : Job) (s : Shelves) : Shelves :=
  match job.opens with
  | some locker => s.touch locker
  | none => s

def after (job : Job) (s : Shelves) : Shelves :=
  match job with
  | .deleteLocker name => s.forget name
  | _ =>
    match job.opens with
    | some locker => s.change locker job.effect
    | none => s

def Answers (job : Job) (s : Shelves) (answer : Answer) : Prop :=
  match job with
  | .get locker key => answer = .value (s.shelf locker key)
  | .put .. | .delete .. | .clear _ | .putAll .. | .deleteAll .. => answer = .done
  | .keys locker p => ∃ l, answer = .names l ∧
    Enumerates l {key | asBytes p <+: asBytes key ∧ s.shelf locker key ≠ none}
  | .getMany locker names => answer = .values (names.map (s.shelf locker))
  | .entries locker p => ∃ l, answer = .pairs l ∧
    Enumerates (l.map Prod.fst) {key | asBytes p <+: asBytes key ∧ s.shelf locker key ≠ none} ∧
    ∀ e ∈ l, s.shelf locker e.1 = some e.2
  | .containsKey locker key => answer = .holds (s.shelf locker key).isSome
  | .len locker => ∃ l, answer = .count l.length ∧ Enumerates l {key | s.shelf locker key ≠ none}
  | .lockerExists name | .deleteLocker name => answer = .holds (s name).isSome
  | .lockerNames => ∃ l, answer = .names l ∧ Enumerates l {name | s name ≠ none}

end Job

/-- One job, as its caller sees it: it is answered and takes effect, or it fails, and has opened its
locker at most. -/
def Shelves.Serves (s : Shelves) (job : Job) {ε : Type} (reply : Except ε Answer) (s' : Shelves) :
    Prop :=
  (∃ answer, reply = .ok answer ∧ job.Answers s answer ∧ s' = job.after s) ∨
    ∃ e, reply = .error e ∧ (s' = s ∨ s' = job.opened s)

inductive Shelves.Runs {ε : Type} (s : Shelves) : List (Job × Except ε Answer) → Shelves → Prop
  | start : Runs s [] s
  | serve {log : List (Job × Except ε Answer)} {s₁ s' : Shelves} {job : Job} {reply : Except ε Answer}
      (before : Runs s log s₁) (serves : s₁.Serves job reply s') : Runs s (log ++ [(job, reply)]) s'

section
variable {s : Shelves} {l l' : List String} {S : Set String} {name other : String} {f : Shelf → Shelf}

theorem Shelves.shelf_change : (s.change name f).shelf other =
    if other = name then f (s.shelf name) else s.shelf other := by
  unfold change shelf
  by_cases h : other = name
  · subst h
    rw [Function.update_self, if_pos rfl, Option.getD_some]
  · rw [Function.update_of_ne h, if_neg h]

theorem Shelves.change_ne_none : s.change name f other ≠ none ↔ other = name ∨ s other ≠ none := by
  unfold change
  by_cases h : other = name
  · subst h
    simp
  · rw [Function.update_of_ne h]
    simp [h]

/-- Opening what is registered leaves it. -/
theorem Shelves.touch_of_registered (registered : s name ≠ none) : s.touch name = s := by
  obtain ⟨shelf, hshelf⟩ := Option.ne_none_iff_exists'.1 registered
  unfold touch change Shelves.shelf
  rw [hshelf, Option.getD_some, ← hshelf, Function.update_eq_self]

@[simp] theorem Shelves.shelf_touch : (s.touch name).shelf other = s.shelf other := by
  rw [touch, shelf_change]
  split
  · next h => rw [h]
  · rfl

theorem Shelves.change_touch : (s.touch name).change name f = s.change name f := by
  unfold change
  rw [shelf_touch, touch, change, Function.update_idem]

/-- A listing is determined by what it lists. -/
theorem Enumerates.unique (h : Enumerates l S) (h' : Enumerates l' S) : l = l' := by
  have perm : l.Perm l' := by
    have nodup {l : List String}
        (asc : l.Pairwise fun a b => compare (asBytes a) (asBytes b) = .lt) : l.Nodup := by
      refine asc.imp fun {a b} hlt => ?_
      rintro rfl
      simp at hlt
    apply (List.perm_ext_iff_of_nodup (nodup h.ascending) (nodup h'.ascending)).2
    intro s
    rw [h.mem, h'.mem]
  apply perm.eq_of_pairwise _ h.ascending h'.ascending
  intro a b _ _ hab hba
  exact absurd hba (Std.OrientedCmp.not_lt_of_lt hab)

end
end Crossbank
