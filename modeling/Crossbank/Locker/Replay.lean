import Crossbank.Locker.Lazy

/-!
# What a batch means

A batch of staged writes stands for the writes made one by one. It is read through an overlay,
collapsed into one action for each key, and summed up for the byte budget.

* `replay` : the writes made one by one on a map;
* `stagedView_append`, `stagedView_collapse` : the last write to a key since the last clear;
* `replay_eq_stagedView` : the overlay of a batch is its replay;
* `getElem?_actionsOf` : so are the actions it collapses to;
* `getElem?_overlay` : and what a listing shows;
* `Accounting.applyTo_accounting`, `LruState.apply_sizes` : and its accounting, on the sizes.
-/

namespace Crossbank

/-! ## One by one -/

/-- One write to a map. `f` is what the map holds of a payload. -/
def Pending.applyTo {α : Type} (f : Bytes → α) (m : Bytes → Option α) : Pending → Bytes → Option α
  | .put key payload => Function.update m key (some (f payload))
  | .delete key => Function.update m key none
  | .clear => fun _ => none

def replay {α : Type} (f : Bytes → α) (items : List Pending) (m : Bytes → Option α) :
    Bytes → Option α := items.foldl (Pending.applyTo f) m

def Pending.effect (key : Bytes) : Pending → Option (Option Bytes)
  | .put k payload => if k = key then some (some payload) else none
  | .delete k => if k = key then some none else none
  | .clear => some none

theorem Pending.applyTo_eq {α : Type} (f : Bytes → α) (m : Bytes → Option α) (entry : Pending)
    (key : Bytes) :
    entry.applyTo f m key = match entry.effect key with
      | some v => v.map f
      | none => m key := by
  cases entry with
  | put k payload =>
    by_cases hk : k = key
    · subst hk
      simp [Pending.applyTo, Pending.effect]
    · simp [Pending.applyTo, Pending.effect, hk, Function.update_of_ne (Ne.symm hk)]
  | delete k =>
    by_cases hk : k = key
    · subst hk
      simp [Pending.applyTo, Pending.effect]
    · simp [Pending.applyTo, Pending.effect, hk, Function.update_of_ne (Ne.symm hk)]
  | clear => rfl

/-! ## The last write to a key -/

section
variable {staged : List Pending} {key : Bytes}

theorem stagedView_eq_findSome? (staged : List Pending) (key : Bytes) :
    stagedView staged key = staged.reverse.findSome? (Pending.effect key) := by
  unfold stagedView
  congr 1

@[simp] theorem stagedView_nil (key : Bytes) : stagedView [] key = none := rfl

theorem stagedView_append (a b : List Pending) (key : Bytes) :
    stagedView (a ++ b) key = (stagedView b key).or (stagedView a key) := by
  simp only [stagedView_eq_findSome?, List.reverse_append, List.findSome?_append]

theorem stagedView_concat (staged : List Pending) (entry : Pending) (key : Bytes) :
    stagedView (staged ++ [entry]) key = (entry.effect key).or (stagedView staged key) := by
  rw [stagedView_append, stagedView_eq_findSome? [entry]]
  simp

theorem stagedView_one (entry : Pending) (key : Bytes) : stagedView [entry] key = entry.effect key := by
  rw [← List.nil_append [entry], stagedView_concat, stagedView_nil, Option.or_none]

/-- The overlay of a batch is its replay. -/
theorem replay_eq_stagedView {α : Type} (f : Bytes → α) (staged : List Pending)
    (m : Bytes → Option α) (key : Bytes) :
    replay f staged m key = match stagedView staged key with
      | some v => v.map f
      | none => m key := by
  induction staged using List.reverseRecOn with
  | nil => rfl
  | append_singleton staged entry ih =>
    rw [replay, List.foldl_append, List.foldl_cons, List.foldl_nil, Pending.applyTo_eq,
      stagedView_concat]
    cases entry.effect key with
    | some v => rfl
    | none => exact ih

/-! ## Since the last clear -/

@[simp] theorem afterLastClear_nil : afterLastClear [] = [] := rfl

theorem afterLastClear_concat_clear (staged : List Pending) :
    afterLastClear (staged ++ [.clear]) = [] := by
  simp [afterLastClear]

theorem afterLastClear_concat (staged : List Pending) {entry : Pending} (h : entry ≠ .clear) :
    afterLastClear (staged ++ [entry]) = afterLastClear staged ++ [entry] := by
  simp [afterLastClear, h]

theorem clear_notMem_afterLastClear (staged : List Pending) :
    Pending.clear ∉ afterLastClear staged := by
  intro h
  rw [afterLastClear, List.mem_reverse] at h
  simpa using List.mem_takeWhile_imp h

theorem stagedView_collapse (staged : List Pending) (key : Bytes) :
    stagedView staged key = (stagedView (afterLastClear staged) key).or
      (if .clear ∈ staged then some none else none) := by
  induction staged using List.reverseRecOn with
  | nil => rfl
  | append_singleton staged entry ih =>
    by_cases hc : entry = .clear
    · subst hc
      rw [stagedView_concat, afterLastClear_concat_clear]
      simp [Pending.effect]
    · have hmem : Pending.clear ∈ staged ++ [entry] ↔ Pending.clear ∈ staged := by
        simp [Ne.symm hc]
      rw [stagedView_concat, afterLastClear_concat staged hc, stagedView_concat, ih, Option.or_assoc]
      simp only [hmem]

theorem mem_of_stagedView {payload : Bytes} (h : stagedView staged key = some (some payload)) :
    .put key payload ∈ staged := by
  rw [stagedView_eq_findSome?] at h
  obtain ⟨entry, hentry, he⟩ := List.exists_of_findSome?_eq_some h
  rw [List.mem_reverse] at hentry
  cases entry with
  | put k p =>
    by_cases hk : k = key
    · simp only [Pending.effect, hk, if_true, Option.some.injEq] at he
      rw [← hk, ← he]
      exact hentry
    · simp [Pending.effect, hk] at he
  | delete k => simp [Pending.effect] at he
  | clear => simp [Pending.effect] at he

/-! ## Actions -/

/-- The action that leaves a payload, or nothing, under a key. -/
def Action.of : Option Bytes → Action
  | some payload => .put payload
  | none => .delete

def Action.leaves : Action → Option Bytes
  | .put payload => some payload
  | .delete => none

@[simp] theorem Action.leaves_of (v : Option Bytes) : (Action.of v).leaves = v := by
  cases v <;> rfl

@[simp] theorem Action.of_leaves (action : Action) : Action.of action.leaves = action := by
  cases action <;> rfl

/-- One action for each key that is written, and it is the last. -/
theorem getElem?_actionsOf {tail : List Pending} (noClear : .clear ∉ tail) (key : Bytes) :
    (actionsOf tail)[key]? = (stagedView tail key).map Action.of := by
  induction tail using List.reverseRecOn with
  | nil => exact Std.ExtTreeMap.getElem?_empty
  | append_singleton tail entry ih =>
    rw [List.mem_append, not_or] at noClear
    have ih := ih noClear.1
    rw [actionsOf, List.foldl_append, List.foldl_cons, List.foldl_nil, ← actionsOf,
      stagedView_concat]
    cases entry with
    | put k payload =>
      by_cases hk : k = key
      · subst hk
        simp [Pending.effect, Action.of]
      · simp [Pending.effect, hk, ih, Std.ExtTreeMap.getElem?_insert]
    | delete k =>
      by_cases hk : k = key
      · subst hk
        simp [Pending.effect, Action.of]
      · simp [Pending.effect, hk, ih, Std.ExtTreeMap.getElem?_insert]
    | clear => simp at noClear

/-! ## What a listing shows -/

/-- What is stored under each key of a list, when the list agrees with a map. -/
theorem getElem?_foldl_stored {stored : List (Bytes × Bytes)} {r : Bytes → Option Bytes}
    (agree : ∀ e ∈ stored, r e.1 = some e.2) (m : Std.ExtTreeMap Bytes Source compare)
    (key : Bytes) :
    (stored.foldl (fun merged e => merged.insert e.1 (Source.stored e.2)) m)[key]? =
      if key ∈ stored.map Prod.fst then (r key).map Source.stored else m[key]? := by
  induction stored using List.reverseRecOn with
  | nil => simp
  | append_singleton stored e ih =>
    have ih := ih fun e he => agree e (List.mem_append_left _ he)
    rw [List.foldl_append, List.foldl_cons, List.foldl_nil, Std.ExtTreeMap.getElem?_insert, ih]
    by_cases hk : e.1 = key
    · subst hk
      simp [agree e (by simp)]
    · have hmem : key ∈ (stored ++ [e]).map Prod.fst ↔ key ∈ stored.map Prod.fst := by
        rw [List.map_append, List.mem_append, List.map_singleton, List.mem_singleton]
        exact or_iff_left (Ne.symm hk)
      rw [if_neg (by simpa using hk)]
      simp only [hmem]

/-- A listing shows what the overlay of the batch shows, inside its bounds. -/
theorem getElem?_overlay {stored : List (Bytes × Bytes)} {r : Bytes → Option Bytes}
    (agree : ∀ e ∈ stored, r e.1 = some e.2) {start stop : Bound Bytes}
    (cover : ∀ raw, r key = some raw → inBounds key start stop = true → (key, raw) ∈ stored)
    (hin : inBounds key start stop = true) :
    (LazyLocker.overlay staged start stop stored)[key]? = match stagedView staged key with
      | some v => v.map Source.staged
      | none => (r key).map Source.stored := by
  -- The map the writes since the last clear start from.
  have base : ((if .clear ∈ staged then [] else stored).foldl
      (fun merged e => merged.insert e.1 (Source.stored e.2))
      (∅ : Std.ExtTreeMap Bytes Source compare))[key]? =
      if .clear ∈ staged then none else (r key).map Source.stored := by
    split
    · rfl
    · rw [getElem?_foldl_stored agree]
      split
      · rfl
      · next hno =>
        cases hr : r key with
        | none => exact Std.ExtTreeMap.getElem?_empty
        | some raw => exact absurd (List.mem_map.2 ⟨_, cover raw hr hin, rfl⟩) hno
  -- Each of these writes, on any map.
  have writes (tail : List Pending) (noClear : .clear ∉ tail)
      (m : Std.ExtTreeMap Bytes Source compare) :
      (tail.foldl (fun merged entry =>
        match entry with
        | .put key payload =>
          if inBounds key start stop then merged.insert key (.staged payload) else merged
        | .delete key => merged.erase key
        | .clear => merged) m)[key]? = match stagedView tail key with
        | some v => v.map Source.staged
        | none => m[key]? := by
    induction tail using List.reverseRecOn with
    | nil => rfl
    | append_singleton tail entry ih =>
      rw [List.mem_append, not_or] at noClear
      have ih := ih noClear.1
      rw [List.foldl_append, List.foldl_cons, List.foldl_nil, stagedView_concat]
      cases entry with
      | put k payload =>
        by_cases hk : k = key
        · subst hk
          simp [Pending.effect, hin]
        · dsimp only
          split
          · rw [Std.ExtTreeMap.getElem?_insert, ih]
            simp [Pending.effect, hk]
          · rw [ih]
            simp [Pending.effect, hk]
      | delete k =>
        by_cases hk : k = key
        · subst hk
          simp [Pending.effect]
        · dsimp only
          rw [Std.ExtTreeMap.getElem?_erase, ih]
          simp [Pending.effect, hk]
      | clear => simp at noClear
  refine (writes _ (clear_notMem_afterLastClear staged) _).trans ?_
  rw [base, stagedView_collapse staged]
  cases stagedView (afterLastClear staged) key with
  | some v => rfl
  | none =>
    simp only [Option.none_or]
    split <;> rfl

/-- Outside its bounds it shows nothing. -/
theorem getElem?_overlay_of_not_inBounds {stored : List (Bytes × Bytes)} {start stop : Bound Bytes}
    (inside : ∀ e ∈ stored, inBounds e.1 start stop = true)
    (hout : inBounds key start stop = false) :
    (LazyLocker.overlay staged start stop stored)[key]? = none := by
  have base : ((if .clear ∈ staged then [] else stored).foldl
      (fun merged e => merged.insert e.1 (Source.stored e.2))
      (∅ : Std.ExtTreeMap Bytes Source compare))[key]? = none := by
    split
    · rfl
    · clear * - inside hout
      induction stored using List.reverseRecOn with
      | nil => rfl
      | append_singleton stored e ih =>
        have hne : e.1 ≠ key := by
          rintro rfl
          simp [inside e (by simp)] at hout
        rw [List.foldl_append, List.foldl_cons, List.foldl_nil, Std.ExtTreeMap.getElem?_insert,
          if_neg (by simpa using hne)]
        exact ih fun e he => inside e (List.mem_append_left _ he)
  unfold LazyLocker.overlay
  induction afterLastClear staged using List.reverseRecOn with
  | nil => exact base
  | append_singleton tail entry ih =>
    rw [List.foldl_append, List.foldl_cons, List.foldl_nil]
    cases entry with
    | put k payload =>
      dsimp only
      split
      · next hin =>
        have hne : k ≠ key := by
          rintro rfl
          simp [hin] at hout
        rw [Std.ExtTreeMap.getElem?_insert, if_neg (by simpa using hne)]
        exact ih
      · exact ih
    | delete k =>
      dsimp only
      rw [Std.ExtTreeMap.getElem?_erase]
      split
      · rfl
      · exact ih
    | clear => exact ih

end

/-! ## The byte budget -/

def setSize (m : Bytes → Option Nat) (update : Bytes × Nat) : Bytes → Option Nat :=
  Function.update m update.1 (some update.2)

def dropSize (m : Bytes → Option Nat) (key : Bytes) : Bytes → Option Nat := Function.update m key none

/-- What an accounting does to a map of sizes: it clears, then removes, then updates. -/
def Accounting.applyTo (acc : Accounting) (m : Bytes → Option Nat) : Bytes → Option Nat :=
  acc.updates.foldl setSize (acc.removals.foldl dropSize (if acc.cleared then fun _ => none else m))

section
variable {key k : Bytes} {m m' : Bytes → Option Nat}

/-- What the updates leave under a key depends on nothing but the key. -/
theorem updates_congr (updates : List (Bytes × Nat)) (h : m key = m' key) :
    updates.foldl setSize m key =
      updates.foldl setSize m' key := by
  induction updates using List.reverseRecOn with
  | nil => exact h
  | append_singleton updates u ih =>
    simp only [List.foldl_append, List.foldl_cons, List.foldl_nil, setSize, Function.update_apply, ih]

theorem updates_filter_ne (updates : List (Bytes × Nat)) (h : key ≠ k) :
    (updates.filter (·.1 ≠ k)).foldl setSize m key = updates.foldl setSize m key := by
  induction updates using List.reverseRecOn with
  | nil => rfl
  | append_singleton updates u ih =>
    rw [List.filter_append, List.foldl_append, List.foldl_append, List.foldl_cons, List.foldl_nil,
      setSize]
    by_cases hu : u.1 = k
    · rw [List.filter_cons_of_neg (by simpa using hu), Function.update_of_ne (hu ▸ h)]
      exact ih
    · rw [List.filter_cons_of_pos (by simpa using hu), List.filter_nil, List.foldl_cons,
        List.foldl_nil, setSize, Function.update_apply, Function.update_apply, ih]

theorem updates_filter_self (updates : List (Bytes × Nat)) :
    (updates.filter (·.1 ≠ k)).foldl setSize m k = m k := by
  induction updates using List.reverseRecOn with
  | nil => rfl
  | append_singleton updates u ih =>
    rw [List.filter_append, List.foldl_append]
    by_cases hu : u.1 = k
    · rw [List.filter_cons_of_neg (by simpa using hu)]
      exact ih
    · rw [List.filter_cons_of_pos (by simpa using hu), List.filter_nil, List.foldl_cons,
        List.foldl_nil, setSize, Function.update_of_ne (Ne.symm hu)]
      exact ih

theorem removals_apply (removals : List Bytes) :
    removals.foldl dropSize m key =
      if key ∈ removals then none else m key := by
  induction removals using List.reverseRecOn with
  | nil => simp
  | append_singleton removals k ih =>
    rw [List.foldl_append, List.foldl_cons, List.foldl_nil, dropSize, Function.update_apply, ih]
    by_cases hk : key = k
    · simp [hk]
    · simp [hk]

end

theorem Accounting.applyTo_eq (acc : Accounting) (m : Bytes → Option Nat) (key : Bytes) :
    acc.applyTo m key =
      acc.updates.foldl setSize
        (fun key => if key ∈ acc.removals then none else if acc.cleared then none else m key) key := by
  refine updates_congr _ ?_
  rw [removals_apply]
  by_cases hc : acc.cleared = true
  · simp [hc]
  · simp [hc]

/-- The accounting of a batch does to the sizes what its writes do, one by one. -/
theorem Accounting.applyTo_accounting (staged : List Pending) (m : Bytes → Option Nat) :
    (accounting staged).applyTo m = replay List.length staged m := by
  funext key
  induction staged using List.reverseRecOn with
  | nil => rfl
  | append_singleton staged entry ih =>
    rw [replay, List.foldl_append, List.foldl_cons, List.foldl_nil, ← replay, accounting,
      List.foldl_append, List.foldl_cons, List.foldl_nil, ← accounting]
    rw [Accounting.applyTo_eq] at ih ⊢
    cases entry with
    | put k payload =>
      dsimp only [Pending.applyTo]
      rw [List.foldl_append, List.foldl_cons, List.foldl_nil, setSize]
      by_cases hk : key = k
      · subst hk
        rw [Function.update_self, Function.update_self]
      · rw [Function.update_of_ne hk, Function.update_of_ne hk, updates_filter_ne _ hk, ← ih]
        exact updates_congr _ (by simp [hk])
    | delete k =>
      dsimp only [Pending.applyTo]
      by_cases hk : key = k
      · subst hk
        rw [updates_filter_self, Function.update_self, if_pos (by simp)]
      · rw [Function.update_of_ne hk, updates_filter_ne _ hk, ← ih]
        exact updates_congr _ (by simp [hk])
    | clear => rfl

theorem LruState.apply_sizes (acc : Accounting) (tick : UInt64) (plan : Plan)
    (shedsNothing : plan.victims = []) (s : LruState) (key : Bytes) :
    ((s.apply (acc.updates.map fun u => (u.1, ⟨tick, u.2⟩)) acc.removals acc.cleared
      plan).entries[key]?).map Entry.bytes =
      acc.applyTo (fun key => (s.entries[key]?).map Entry.bytes) key := by
  have removed (removals : List Bytes) (entries : Std.ExtTreeMap Bytes Entry compare)
      (m : Bytes → Option Nat) (h : ∀ key, (entries[key]?).map Entry.bytes = m key) (key : Bytes) :
      ((removals.foldl (fun entries key => entries.erase key) entries)[key]?).map Entry.bytes =
        removals.foldl dropSize m key := by
    induction removals generalizing entries m with
    | nil => exact h key
    | cons k removals ih =>
      refine ih _ _ fun key => ?_
      rw [Std.ExtTreeMap.getElem?_erase, dropSize, Function.update_apply, ← h]
      by_cases hk : k = key
      · simp [hk]
      · simp [hk, Ne.symm hk]
  have updated (updates : List (Bytes × Nat)) (entries : Std.ExtTreeMap Bytes Entry compare)
      (m : Bytes → Option Nat) (h : ∀ key, (entries[key]?).map Entry.bytes = m key) (key : Bytes) :
      (((updates.map fun u => (u.1, (⟨tick, u.2⟩ : Entry))).foldl
        (fun entries update => entries.insert update.1 update.2) entries)[key]?).map Entry.bytes =
        updates.foldl setSize m key := by
    induction updates generalizing entries m with
    | nil => exact h key
    | cons u updates ih =>
      refine ih _ _ fun key => ?_
      rw [Std.ExtTreeMap.getElem?_insert, setSize, Function.update_apply, ← h]
      by_cases hk : u.1 = key
      · simp [hk]
      · simp [hk, Ne.symm hk]
  rw [LruState.apply, shedsNothing]
  refine updated _ _ _ (fun key => removed _ _ _ (fun key => ?_) key) key
  by_cases hc : acc.cleared = true
  · simp [hc]
  · simp [hc]

end Crossbank
