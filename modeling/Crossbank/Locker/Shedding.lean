import Crossbank.Coherence.Budget
import Crossbank.Locker.Replay

/-!
# What a commit sheds

The writes of a commit change what is accounted, and then the commit sheds keys until the sum is
inside the budget.

* `LruState.after` : what is accounted once the writes have landed;
* `Eligible`, `Fewest` : the keys that may be shed, and how many of them are;
* `plan_sheds` : a plan sheds the first of the eligible keys, as few as bring the sum inside the
  budget;
* `shortfall` : how far the total of a commit falls short of the sum of the sizes;
* `accounting_view` : the accounting of a batch, key by key;
* `accounted_iff` : when planning and applying a batch keeps the total right.
-/

namespace Crossbank

/-! ## The order of shedding -/

namespace Candidate

def order (a b : Candidate) : Ordering :=
  compareLex (compareOn Candidate.tick) (compareOn Candidate.key) a b

instance : Std.TransCmp Candidate.order :=
  inferInstanceAs (Std.TransCmp (compareLex (compareOn Candidate.tick) (compareOn Candidate.key)))

theorem before_iff {a b : Candidate} : a.before b = true ↔ (a.order b).isLE = true := Iff.rfl

theorem before_trans {a b c : Candidate} (hab : a.before b = true) (hbc : b.before c = true) :
    a.before c = true :=
  before_iff.2 (Std.TransCmp.isLE_trans (before_iff.1 hab) (before_iff.1 hbc))

theorem before_total (a b : Candidate) : a.before b = true ∨ b.before a = true := by
  have hswap : b.order a = (a.order b).swap := Std.OrientedCmp.eq_swap
  rw [before_iff, before_iff, hswap]
  cases a.order b <;> simp

/-- Two candidates that come before each other have one key. -/
theorem key_eq_of_before {a b : Candidate} (hab : a.before b = true) (hba : b.before a = true) :
    a.key = b.key := by
  have heq : a.order b = .eq := Std.OrientedCmp.isLE_antisymm (before_iff.1 hab) (before_iff.1 hba)
  unfold order compareLex at heq
  exact Std.LawfulEqCmp.eq_of_compare (Ordering.then_eq_eq.1 heq).2

theorem pairwise_sorted (cs : List Candidate) :
    (cs.insertionSort fun a b => a.before b).Pairwise fun a b => a.before b = true := by
  have htotal : Std.Total fun a b : Candidate => (a.before b : Prop) := ⟨before_total⟩
  have htrans : IsTrans Candidate fun a b => (a.before b : Prop) := ⟨fun _ _ _ => before_trans⟩
  exact List.pairwise_insertionSort _ cs

end Candidate

/-! ## Shedding -/

/-- The first `count` of the keys in order, and as few as bring the sum inside the budget: all of them
if no fewer do. -/
structure Fewest (budget sum : Nat) (order : List Candidate) (count : Nat) : Prop where
  le : count ≤ order.length
  needed : ∀ n < count, budget < sum - ((order.take n).map Candidate.bytes).sum
  inside : count < order.length → sum - ((order.take count).map Candidate.bytes).sum ≤ budget

namespace LruState

/-- Shedding takes the fewest. -/
theorem shed_fewest (budget sum : Nat) (order : List Candidate) : ∃ count, Fewest budget sum order count ∧
    shed budget order sum = ⟨(order.take count).map Candidate.key,
      sum - ((order.take count).map Candidate.bytes).sum⟩ := by
  induction order generalizing sum with
  | nil => exact ⟨0, ⟨Nat.le_refl _, fun n h => by omega, fun h => by cases h⟩, rfl⟩
  | cons c rest ih =>
    unfold shed
    by_cases hfits : sum ≤ budget
    · rw [if_pos hfits]
      exact ⟨0, ⟨Nat.zero_le _, fun n h => by omega, fun _ => hfits⟩, rfl⟩
    · rw [if_neg hfits]
      obtain ⟨count, hcount, hshed⟩ := ih (sum - c.bytes)
      refine ⟨count + 1, ⟨Nat.succ_le_succ hcount.le, fun n h => ?_, fun h => ?_⟩, ?_⟩
      · cases n with
        | zero =>
          show budget < sum - 0
          omega
        | succ n =>
          have hneeded := hcount.needed n (by omega)
          rw [List.take_succ_cons, List.map_cons, List.sum_cons]
          omega
      · have hinside := hcount.inside (by simpa using h)
        rw [List.take_succ_cons, List.map_cons, List.sum_cons]
        omega
      · rw [hshed, List.take_succ_cons, List.map_cons, List.map_cons, List.sum_cons, Nat.sub_sub]

/-- A plan sheds its candidates in order, none of them if the sum is inside the budget already. -/
theorem plan_eq_shed (s : LruState) (updates : List (Bytes × Entry)) (removals : List Bytes)
    (cleared : Bool) (budget : Nat) (keep : List Bytes) : s.plan updates removals cleared budget keep =
      shed budget ((s.candidates updates removals cleared keep).insertionSort fun a b => a.before b)
        (s.totalAfter updates removals cleared) := by
  unfold plan
  dsimp only
  split
  · next hfits =>
    unfold shed
    split
    · rfl
    · rw [if_pos hfits]
  · rfl

/-- What is accounted once the writes of a commit have landed, before anything is shed. -/
def after (s : LruState) (updates : List (Bytes × Entry)) (removals : List Bytes) (cleared : Bool) :
    Std.ExtTreeMap Bytes Entry compare :=
  withAll (without (if cleared then ∅ else s.entries) removals) updates

/-- A key that may be shed: one that was held and is not removed, or one that is updated, and not one
to keep. -/
def Eligible (s : LruState) (updates : List (Bytes × Entry)) (removals : List Bytes) (cleared : Bool)
    (keep : List Bytes) (key : Bytes) : Prop :=
  ((cleared = false ∧ key ∈ s.entries ∧ key ∉ removals ∧ key ∉ updates.map Prod.fst) ∨
    key ∈ updates.map Prod.fst) ∧ key ∉ keep

section
variable {s : LruState} {updates : List (Bytes × Entry)} {removals keep : List Bytes} {cleared : Bool}
  {budget : Nat}

theorem getElem?_withAll_of_nodup {m : Std.ExtTreeMap Bytes Entry compare}
    (nodup : (updates.map Prod.fst).Nodup) {key : Bytes} {entry : Entry} :
    (key, entry) ∈ updates ↔ key ∈ updates.map Prod.fst ∧ (withAll m updates)[key]? = some entry := by
  induction updates generalizing m with
  | nil => simp
  | cons u us ih =>
    rw [List.map_cons, List.nodup_cons] at nodup
    rw [withAll_cons, List.mem_cons, List.map_cons, List.mem_cons]
    by_cases hkey : key ∈ us.map Prod.fst
    · have hne : key ≠ u.1 := fun h => nodup.1 (h ▸ hkey)
      rw [ih nodup.2 (m := m.insert u.1 u.2)]
      constructor
      · rintro (heq | ⟨-, h⟩)
        · exact absurd (congrArg Prod.fst heq) hne
        · exact ⟨.inr hkey, h⟩
      · rintro ⟨-, h⟩
        exact .inr ⟨hkey, h⟩
    · have habsent : (key, entry) ∉ us := fun h => hkey (List.mem_map_of_mem h)
      rw [getElem?_withAll_of_not_mem hkey, getElem?_inserted]
      constructor
      · rintro (heq | h)
        · obtain ⟨rfl, rfl⟩ : key = u.1 ∧ entry = u.2 := ⟨congrArg Prod.fst heq, congrArg Prod.snd heq⟩
          exact ⟨.inl rfl, if_pos rfl⟩
        · exact absurd h habsent
      · rintro ⟨hkey' | hkey', h⟩
        · obtain rfl := hkey'
          rw [if_pos rfl] at h
          obtain rfl := Option.some.inj h
          exact .inl rfl
        · exact absurd hkey' hkey

/-- The candidates are the eligible keys, as they are accounted after the writes. -/
theorem mem_candidates_iff (nodup : (updates.map Prod.fst).Nodup) {c : Candidate} :
    c ∈ s.candidates updates removals cleared keep ↔
      s.Eligible updates removals cleared keep c.key ∧
        (s.after updates removals cleared)[c.key]? = some ⟨c.tick, c.bytes⟩ := by
  rw [mem_candidates]
  unfold Eligible after
  by_cases hu : c.key ∈ updates.map Prod.fst
  · rw [getElem?_withAll_of_nodup nodup (m := without (if cleared then ∅ else s.entries) removals)]
    tauto
  · have habsent : (c.key, (⟨c.tick, c.bytes⟩ : Entry)) ∉ updates := fun h => hu (List.mem_map_of_mem h)
    rw [getElem?_withAll_of_not_mem hu, getElem?_without]
    cases cleared with
    | true => simp [habsent, hu]
    | false =>
      by_cases hr : c.key ∈ removals
      · simp [habsent, hr, hu]
      · rw [if_neg hr, if_neg Bool.false_ne_true]
        have hmem : s.entries[c.key]? = some ⟨c.tick, c.bytes⟩ → c.key ∈ s.entries := fun h =>
          Std.ExtTreeMap.isSome_getElem?_iff_mem.1 (by rw [h]; rfl)
        tauto

theorem nodup_candidates (nodup : (updates.map Prod.fst).Nodup) :
    ((s.candidates updates removals cleared keep).map Candidate.key).Nodup := by
  have hnew : ((updates.filterMap fun u => if u.1 ∈ keep then none
      else some (⟨u.2.tick, u.1, u.2.bytes⟩ : Candidate)).map Candidate.key).Sublist
        (updates.map Prod.fst) := by
    refine keys_filterMap (fun u c hc => ?_) _
    split at hc
    · cases hc
    · obtain rfl := Option.some.inj hc
      rfl
  unfold candidates
  dsimp only
  rw [List.map_append]
  refine List.nodup_append.2 ⟨?_, hnew.nodup nodup, fun key hold key' hkey => ?_⟩
  · split
    · exact .nil
    · refine (keys_filterMap (fun e c hc => ?_) _).nodup (nodup_keys_toList _)
      split at hc
      · cases hc
      · obtain rfl := Option.some.inj hc
        rfl
  · rintro rfl
    obtain ⟨c, hc, rfl⟩ := List.mem_map.1 hold
    split at hc
    · exact absurd hc List.not_mem_nil
    · obtain ⟨e, -, he⟩ := List.mem_filterMap.1 hc
      split at he
      · cases he
      · next hout =>
        obtain rfl := Option.some.inj he
        exact hout (.inr (.inl (hnew.subset hkey)))

theorem nodup_sorted (nodup : (updates.map Prod.fst).Nodup) :
    (((s.candidates updates removals cleared keep).insertionSort
      fun a b => a.before b).map Candidate.key).Nodup := by
  have hperm := List.perm_insertionSort (fun a b : Candidate => (a.before b : Prop))
    (s.candidates updates removals cleared keep)
  exact (hperm.map _).nodup_iff.2 (nodup_candidates nodup)

/-- A candidate holds what is accounted under its key after the writes. -/
theorem weighs_sorted (nodup : (updates.map Prod.fst).Nodup) {c : Candidate}
    (h : c ∈ (s.candidates updates removals cleared keep).insertionSort fun a b => a.before b) :
    weighs Entry.bytes (s.after updates removals cleared) c.key = c.bytes := by
  have hmem := (List.perm_insertionSort _ _).mem_iff.1 h
  obtain ⟨-, hentry⟩ := (mem_candidates_iff nodup).1 hmem
  rw [weighs, hentry]

/-- What a plan leaves: the keys it sheds are erased from what is accounted after the writes. -/
theorem plan_total_of_after (nodup : (updates.map Prod.fst).Nodup)
    (total : s.totalAfter updates removals cleared =
      weight Entry.bytes (s.after updates removals cleared)) :
    (s.plan updates removals cleared budget keep).total =
      weight Entry.bytes (without (s.after updates removals cleared)
        (s.plan updates removals cleared budget keep).victims) := by
  rw [plan_eq_shed, total]
  exact shed_total (nodup_sorted nodup) fun c hc => weighs_sorted nodup hc

/-- The eligible keys in order are the candidates sorted. -/
theorem sorted_candidates (nodup : (updates.map Prod.fst).Nodup) {order : List Candidate}
    (sorted : order.Pairwise fun a b => a.before b = true ∧ a.key ≠ b.key)
    (eligible : ∀ c, c ∈ order ↔ s.Eligible updates removals cleared keep c.key ∧
      (s.after updates removals cleared)[c.key]? = some ⟨c.tick, c.bytes⟩) :
    (s.candidates updates removals cleared keep).insertionSort (fun a b => a.before b) = order := by
  have hperm := List.perm_insertionSort (fun a b : Candidate => (a.before b : Prop))
    (s.candidates updates removals cleared keep)
  have hmem (c : Candidate) : c ∈ (s.candidates updates removals cleared keep).insertionSort
      (fun a b => a.before b) ↔ c ∈ order := by
    rw [hperm.mem_iff, mem_candidates_iff nodup, eligible]
  have hnodup : ((s.candidates updates removals cleared keep).insertionSort
      fun a b => a.before b).Nodup := List.Nodup.of_map _ (nodup_sorted nodup)
  have hdistinct : order.Nodup := sorted.imp fun h heq => h.2 (by rw [heq])
  refine ((List.perm_ext_iff_of_nodup hnodup hdistinct).2 hmem).eq_of_pairwise ?_
    (Candidate.pairwise_sorted _) (sorted.imp fun h => h.1)
  intro a b ha hb hab hba
  have hkey := Candidate.key_eq_of_before hab hba
  obtain ⟨-, hentry⟩ := (eligible a).1 ((hmem a).1 ha)
  obtain ⟨-, hentry'⟩ := (eligible b).1 hb
  rw [hkey, hentry'] at hentry
  obtain ⟨htick, hbytes⟩ := Entry.mk.inj (Option.some.inj hentry)
  cases a
  cases b
  rw [Candidate.mk.injEq]
  exact ⟨htick.symm, hkey, hbytes.symm⟩

/-- A plan sheds the first of the eligible keys, in the order of their last use, as few as bring
the sum inside the budget, and its total is the sum of what is left. -/
theorem plan_sheds (balanced : s.Balanced) (nodup : (updates.map Prod.fst).Nodup)
    (once : removals.Nodup) (apart : ∀ key ∈ removals, key ∉ updates.map Prod.fst)
    (small : ∀ us, us <+: updates → us ≠ [] →
      weight Entry.bytes (s.after us removals cleared) ≤ U64_MAX)
    {order : List Candidate}
    (sorted : order.Pairwise fun a b => a.before b = true ∧ a.key ≠ b.key)
    (eligible : ∀ c, c ∈ order ↔ s.Eligible updates removals cleared keep c.key ∧
      (s.after updates removals cleared)[c.key]? = some ⟨c.tick, c.bytes⟩) :
    (∃ count, Fewest budget (weight Entry.bytes (s.after updates removals cleared)) order count ∧
      (s.plan updates removals cleared budget keep).victims =
        (order.take count).map Candidate.key) ∧
    (s.plan updates removals cleared budget keep).total =
      weight Entry.bytes (without (s.after updates removals cleared)
        (s.plan updates removals cleared budget keep).victims) := by
  have htotal : s.totalAfter updates removals cleared =
      weight Entry.bytes (s.after updates removals cleared) := by
    refine totalAfter_eq balanced nodup apart (.inr (.inl fun key hdup => ?_)) small
    exact absurd hdup (List.nodup_iff_forall_not_duplicate.1 once key)
  refine ⟨?_, plan_total_of_after nodup htotal⟩
  rw [plan_eq_shed, htotal, sorted_candidates nodup sorted eligible]
  obtain ⟨count, hcount, hshed⟩ := shed_fewest budget
    (weight Entry.bytes (s.after updates removals cleared)) order
  exact ⟨count, hcount, congrArg Plan.victims hshed⟩

end

/-- Three keys of 40, 40 and 20 bytes, last used in this order. -/
def threeKeys : LruState :=
  { LruState.new 100 with
    entries := ((∅ : Std.ExtTreeMap Bytes Entry compare).insert [97] ⟨1, 40⟩ |>.insert [98] ⟨2, 40⟩
      |>.insert [99] ⟨3, 20⟩)
    total := 100 }

def threeOrder : List Candidate := [⟨1, [97], 40⟩, ⟨2, [98], 40⟩, ⟨3, [99], 20⟩]

theorem mem_threeOrder (c : Candidate) : c ∈ threeOrder ↔
    threeKeys.Eligible [([100], ⟨4, 30⟩)] [] false [[100]] c.key ∧
      (threeKeys.after [([100], ⟨4, 30⟩)] [] false)[c.key]? = some ⟨c.tick, c.bytes⟩ := by
  obtain ⟨tick, key, bytes⟩ := c
  have hafter : (threeKeys.after [([100], ⟨4, 30⟩)] [] false)[key]? =
      if [100] = key then some ⟨4, 30⟩ else if [99] = key then some ⟨3, 20⟩
        else if [98] = key then some ⟨2, 40⟩ else if [97] = key then some ⟨1, 40⟩ else none := by
    show (Std.ExtTreeMap.insert threeKeys.entries [100] ⟨4, 30⟩)[key]? = _
    simp only [threeKeys, getElem?_inserted, Std.ExtTreeMap.getElem?_empty]
  have hmem : key ∈ threeKeys.entries ↔ key = [99] ∨ key = [98] ∨ key = [97] := by
    simp [threeKeys, Std.LawfulEqCmp.compare_eq_iff_eq, @eq_comm _ key]
  dsimp only
  rw [hafter]
  unfold Eligible threeOrder
  rw [hmem]
  by_cases h100 : [100] = key
  · subst h100
    simp
  · by_cases h99 : [99] = key
    · subst h99
      simp [eq_comm]
    · by_cases h98 : [98] = key
      · subst h98
        simp [eq_comm]
      · by_cases h97 : [97] = key
        · subst h97
          simp [eq_comm]
        · simp [h100, h99, h98, h97, Ne.symm h97, Ne.symm h98, Ne.symm h99]

theorem plan_sheds_threeKeys :
    (∃ count, Fewest 100 (weight Entry.bytes (threeKeys.after [([100], ⟨4, 30⟩)] [] false)) threeOrder
      count ∧ (threeKeys.plan [([100], ⟨4, 30⟩)] [] false 100 [[100]]).victims =
        (threeOrder.take count).map Candidate.key) ∧
    (threeKeys.plan [([100], ⟨4, 30⟩)] [] false 100 [[100]]).total =
      weight Entry.bytes (without (threeKeys.after [([100], ⟨4, 30⟩)] [] false)
        (threeKeys.plan [([100], ⟨4, 30⟩)] [] false 100 [[100]]).victims) := by
  refine plan_sheds (by decide) (by decide) .nil (fun key h => absurd h List.not_mem_nil)
    (fun us hus hne => ?_) (by decide) mem_threeOrder
  rcases List.prefix_cons_iff.1 hus with rfl | ⟨t, rfl, ht⟩
  · exact absurd rfl hne
  · obtain rfl := List.prefix_nil.1 ht
    decide

example : (threeKeys.plan [([100], ⟨4, 30⟩)] [] false 100 [[100]]).victims = [[97]] := by
  decide

/-! ## A total that falls short -/

/-- How far the total falls short of the sum once updates are applied one by one: as far as before, but
no further than what the update does not replace holds; and what is past the largest total is cut. -/
def shortAfter : Std.ExtTreeMap Bytes Entry compare → Nat → List (Bytes × Entry) → Nat
  | _, short, [] => short
  | m, short, u :: us =>
    let cut := weight Entry.bytes (m.insert u.1 u.2) - U64_MAX
    shortAfter (m.insert u.1 u.2) (max cut (min short (weight Entry.bytes (m.erase u.1)))) us

/-- How far the writes of a commit leave the total short: a key that is removed twice is subtracted
twice. -/
def shortfall (s : LruState) (updates : List (Bytes × Entry)) (removals : List Bytes)
    (cleared : Bool) : Nat :=
  let short := if cleared then 0 else
    weight Entry.bytes (without s.entries removals) -
      (weight Entry.bytes s.entries - (removals.map s.held).sum)
  shortAfter (without (if cleared then ∅ else s.entries) removals) short updates

/-- One of the keys is all that those before it leave, and is large enough to be shed from the total
that falls short. -/
def Empties (budget short : Nat) (order : List Candidate)
    (m : Std.ExtTreeMap Bytes Entry compare) : Prop :=
  ∃ before c rest, order = before ++ c :: rest ∧
    weight Entry.bytes (without m (before.map Candidate.key)) = c.bytes ∧ budget + short < c.bytes

theorem fold_updates_short {m : Std.ExtTreeMap Bytes Entry compare} {updates : List (Bytes × Entry)}
    (old : Bytes → Nat) {short : Nat} (nodup : (updates.map Prod.fst).Nodup)
    (held : ∀ key ∈ updates.map Prod.fst, weighs Entry.bytes m key = old key)
    (le : short ≤ weight Entry.bytes m) :
    updates.foldl (fun total update => satAdd (total - old update.1) update.2.bytes)
      (weight Entry.bytes m - short) =
        weight Entry.bytes (withAll m updates) - shortAfter m short updates ∧
      shortAfter m short updates ≤ weight Entry.bytes (withAll m updates) := by
  induction updates generalizing m short with
  | nil => exact ⟨rfl, le⟩
  | cons u us ih =>
    rw [List.map_cons, List.nodup_cons] at nodup
    have hins := weight_insert (f := Entry.bytes) (m := m) (k := u.1) (b := u.2)
    have he := weight_erase (f := Entry.bytes) (m := m) (k := u.1)
    have hold := held u.1 (by simp)
    have hrest (key : Bytes) (hkey : key ∈ us.map Prod.fst) :
        weighs Entry.bytes (m.insert u.1 u.2) key = old key := by
      rw [weighs_insert_of_ne (by rintro rfl; exact nodup.1 hkey)]
      exact held key (by simp [hkey])
    have hstep : satAdd (weight Entry.bytes m - short - old u.1) u.2.bytes =
        weight Entry.bytes (m.insert u.1 u.2) - max (weight Entry.bytes (m.insert u.1 u.2) - U64_MAX)
          (min short (weight Entry.bytes (m.erase u.1))) := by
      unfold satAdd
      generalize U64_MAX = most
      omega
    rw [List.foldl_cons, hstep, withAll_cons, shortAfter]
    refine ih nodup.2 hrest ?_
    omega

theorem shed_short {budget short : Nat} {cs : List Candidate}
    {m : Std.ExtTreeMap Bytes Entry compare} (nodup : (cs.map Candidate.key).Nodup)
    (held : ∀ c ∈ cs, weighs Entry.bytes m c.key = c.bytes) :
    (shed budget cs (weight Entry.bytes m - short)).total =
      weight Entry.bytes (without m (shed budget cs (weight Entry.bytes m - short)).victims) - short := by
  induction cs generalizing m with
  | nil => rfl
  | cons c rest ih =>
    rw [List.map_cons, List.nodup_cons] at nodup
    have he := weight_erase (f := Entry.bytes) (m := m) (k := c.key)
    have hc := held c List.mem_cons_self
    unfold shed
    split
    · rfl
    · dsimp only
      rw [without_cons, show weight Entry.bytes m - short - c.bytes =
        weight Entry.bytes (m.erase c.key) - short by omega]
      refine ih nodup.2 fun c' hc' => ?_
      rw [weighs_erase_of_ne fun h => nodup.1 (List.mem_map.2 ⟨c', hc', h.symm⟩)]
      exact held c' (List.mem_cons_of_mem _ hc')

/-- When shedding leaves nothing, from a total that falls short. -/
theorem weight_shed_eq_zero {budget short : Nat} {cs : List Candidate}
    {m : Std.ExtTreeMap Bytes Entry compare} (nodup : (cs.map Candidate.key).Nodup)
    (held : ∀ c ∈ cs, weighs Entry.bytes m c.key = c.bytes) (positive : 0 < weight Entry.bytes m) :
    weight Entry.bytes (without m (shed budget cs (weight Entry.bytes m - short)).victims) = 0 ↔
      Empties budget short cs m := by
  induction cs generalizing m with
  | nil =>
    refine iff_of_false (Nat.pos_iff_ne_zero.1 positive) ?_
    rintro ⟨before, c, rest, h, -⟩
    exact absurd h (by simp)
  | cons c rest ih =>
    rw [List.map_cons, List.nodup_cons] at nodup
    have he := weight_erase (f := Entry.bytes) (m := m) (k := c.key)
    have hc := held c List.mem_cons_self
    have hrest (c' : Candidate) (hc' : c' ∈ rest) : weighs Entry.bytes (m.erase c.key) c'.key = c'.bytes := by
      rw [weighs_erase_of_ne fun h => nodup.1 (List.mem_map.2 ⟨c', hc', h.symm⟩)]
      exact held c' (List.mem_cons_of_mem _ hc')
    -- The key that empties the accounting is the first, or one of the rest.
    have hsplit : Empties budget short (c :: rest) m ↔
        (weight Entry.bytes m = c.bytes ∧ budget + short < c.bytes) ∨
          Empties budget short rest (m.erase c.key) := by
      constructor
      · rintro ⟨before, c', more, h, hweight, hlt⟩
        cases before with
        | nil =>
          obtain ⟨rfl, rfl⟩ := List.cons.inj h
          exact .inl ⟨hweight, hlt⟩
        | cons first before =>
          obtain ⟨rfl, rfl⟩ := List.cons.inj h
          exact .inr ⟨before, c', more, rfl, hweight, hlt⟩
      · rintro (⟨hweight, hlt⟩ | ⟨before, c', more, rfl, hweight, hlt⟩)
        · exact ⟨[], c, rest, rfl, hweight, hlt⟩
        · exact ⟨c :: before, c', more, rfl, hweight, hlt⟩
    rw [hsplit]
    unfold shed
    by_cases hfits : weight Entry.bytes m - short ≤ budget
    · rw [if_pos hfits]
      refine iff_of_false (Nat.pos_iff_ne_zero.1 positive) ?_
      rintro (⟨hweight, hlt⟩ | ⟨before, c', more, -, hweight, hlt⟩)
      · omega
      · have hle := weight_without_le (f := Entry.bytes) (m := m.erase c.key)
          (before.map Candidate.key)
        omega
    · rw [if_neg hfits]
      dsimp only
      rw [without_cons, show weight Entry.bytes m - short - c.bytes =
        weight Entry.bytes (m.erase c.key) - short by omega]
      rcases Nat.eq_zero_or_pos (weight Entry.bytes (m.erase c.key)) with hzero | hpos
      · refine iff_of_true ?_ (.inl ⟨by omega, by omega⟩)
        have hle := weight_without_le (f := Entry.bytes) (m := m.erase c.key)
          (shed budget rest (weight Entry.bytes (m.erase c.key) - short)).victims
        omega
      · rw [ih nodup.2 hrest hpos]
        refine ⟨.inr, fun h => h.resolve_left fun first => ?_⟩
        omega

/-! ## A batch -/

/-- The accounting of a batch is what it leaves of each key. -/
theorem accounting_view (batch : List Pending) (key : Bytes) :
    match stagedView batch key with
    | some (some payload) => (key, payload.length) ∈ (accounting batch).updates
    | some none => key ∉ (accounting batch).updates.map Prod.fst ∧
        ((accounting batch).cleared = true ∨ key ∈ (accounting batch).removals)
    | none => key ∉ (accounting batch).updates.map Prod.fst ∧
        (accounting batch).cleared = false ∧ key ∉ (accounting batch).removals := by
  have hgone (us : List (Bytes × Nat)) (k : Bytes) (h : k ≠ key) :
      key ∈ (us.filter (·.1 ≠ k)).map Prod.fst ↔ key ∈ us.map Prod.fst := by
    simp [Ne.symm h]
  induction batch using List.reverseRecOn with
  | nil => simp [accounting]
  | append_singleton batch entry ih =>
    rw [stagedView_concat, accounting_append]
    cases entry with
    | put k payload =>
      by_cases hk : k = key
      · subst hk
        simp [Pending.effect]
      · rw [Pending.effect, if_neg hk, Option.none_or]
        revert ih
        cases stagedView batch key with
        | none =>
          rintro ⟨hu, hc, hr⟩
          refine ⟨fun h => ?_, hc, fun h => hr (List.mem_filter.1 h).1⟩
          rw [List.map_append, List.mem_append, hgone _ k hk] at h
          rcases h with h | h
          · exact hu h
          · exact hk (List.mem_singleton.1 h).symm
        | some write =>
          cases write with
          | none =>
            rintro ⟨hu, hr⟩
            refine ⟨fun h => ?_, hr.imp_right fun h => List.mem_filter.2 ⟨h, by simp [Ne.symm hk]⟩⟩
            rw [List.map_append, List.mem_append, hgone _ k hk] at h
            rcases h with h | h
            · exact hu h
            · exact hk (List.mem_singleton.1 h).symm
          | some old =>
            intro hu
            exact List.mem_append_left _ (List.mem_filter.2 ⟨hu, by simp [Ne.symm hk]⟩)
    | delete k =>
      by_cases hk : k = key
      · subst hk
        simp [Pending.effect]
      · rw [Pending.effect, if_neg hk, Option.none_or]
        revert ih
        cases stagedView batch key with
        | none =>
          rintro ⟨hu, hc, hr⟩
          refine ⟨fun h => hu ((hgone _ k hk).1 h), hc, fun h => ?_⟩
          rcases List.mem_append.1 h with h | h
          · exact hr h
          · exact hk (List.mem_singleton.1 h).symm
        | some write =>
          cases write with
          | none =>
            rintro ⟨hu, hr⟩
            exact ⟨fun h => hu ((hgone _ k hk).1 h), hr.imp_right (List.mem_append_left _)⟩
          | some old =>
            intro hu
            exact List.mem_filter.2 ⟨hu, by simp [Ne.symm hk]⟩
    | clear => simp [Pending.effect]

/-- The updates of a batch, each key used at one tick. -/
def updatesAt (tick : UInt64) (acc : Accounting) : List (Bytes × Entry) :=
  acc.updates.map fun u => (u.1, ⟨tick, u.2⟩)

theorem keys_updatesAt (tick : UInt64) (acc : Accounting) :
    (updatesAt tick acc).map Prod.fst = acc.updates.map Prod.fst := by
  rw [updatesAt, List.map_map]
  rfl

/-- What a batch leaves accounted: the keys it puts last, and those it leaves alone. -/
theorem getElem?_after_accounting (s : LruState) (tick : UInt64) (batch : List Pending) (key : Bytes) :
    (s.after (updatesAt tick (accounting batch)) (accounting batch).removals
      (accounting batch).cleared)[key]? =
      match stagedView batch key with
      | some (some payload) => some ⟨tick, payload.length⟩
      | some none => none
      | none => s.entries[key]? := by
  have hview := accounting_view batch key
  have hkeys := keys_updatesAt tick (accounting batch)
  unfold after
  cases hv : stagedView batch key with
  | none =>
    rw [hv] at hview
    obtain ⟨hu, hc, hr⟩ := hview
    rw [getElem?_withAll_of_not_mem (by rw [hkeys]; exact hu), getElem?_without, if_neg hr, hc,
      if_neg Bool.false_ne_true]
  | some write =>
    rw [hv] at hview
    cases write with
    | none =>
      obtain ⟨hu, hr⟩ := hview
      rw [getElem?_withAll_of_not_mem (by rw [hkeys]; exact hu), getElem?_without]
      rcases hr with hc | hr
      · rw [hc, if_pos rfl]
        simp
      · rw [if_pos hr]
    | some payload =>
      have hmem : (key, (⟨tick, payload.length⟩ : Entry)) ∈ updatesAt tick (accounting batch) :=
        List.mem_map.2 ⟨_, hview, rfl⟩
      refine ((getElem?_withAll_of_nodup ?_).1 hmem).2
      rw [hkeys]
      exact (accounting_apart batch).1

/-- The accounting once the commit of a batch has landed: its plan is worked out on `s`. -/
def commitBatch (s : LruState) (tick : UInt64) (batch : List Pending) (budget : Nat)
    (keep : List Bytes) : Plan × LruState :=
  let acc := accounting batch
  let updates := updatesAt tick acc
  let plan := s.plan updates acc.removals acc.cleared budget keep
  (plan, s.apply updates acc.removals acc.cleared plan)

/-- The total is the sum of the sizes, and the keys held are those the batch puts last and those it
leaves alone, less those that are shed. -/
structure Accounted (s : LruState) (tick : UInt64) (batch : List Pending) (left : Plan × LruState) :
    Prop where
  balanced : left.2.Balanced
  entries : ∀ key, left.2.entries[key]? = if key ∈ left.1.victims then none else
    match stagedView batch key with
    | some (some payload) => some ⟨tick, payload.length⟩
    | some none => none
    | none => s.entries[key]?

/-- When the total of a batch does not fall short, or what is shed leaves nothing. -/
def Exact (s : LruState) (tick : UInt64) (batch : List Pending) (budget : Nat) (keep : List Bytes) :
    Prop :=
  let acc := accounting batch
  let updates := updatesAt tick acc
  let short := s.shortfall updates acc.removals acc.cleared
  short = 0 ∨ Empties budget short
    ((s.candidates updates acc.removals acc.cleared keep).insertionSort fun a b => a.before b)
    (s.after updates acc.removals acc.cleared)

theorem totalAfter_short {s : LruState} {updates : List (Bytes × Entry)} {removals : List Bytes}
    {cleared : Bool} (balanced : s.Balanced) (nodup : (updates.map Prod.fst).Nodup)
    (apart : ∀ key ∈ removals, key ∉ updates.map Prod.fst) :
    s.totalAfter updates removals cleared = weight Entry.bytes (s.after updates removals cleared) -
        s.shortfall updates removals cleared ∧
      s.shortfall updates removals cleared ≤ weight Entry.bytes (s.after updates removals cleared) := by
  unfold totalAfter shortfall after
  dsimp only
  cases cleared with
  | true =>
    have hnone : weight Entry.bytes (without (∅ : Std.ExtTreeMap Bytes Entry compare) removals) = 0 :=
      weight_eq_zero fun key => by rw [weighs_without, weighs_empty, ite_self]
    have hfold := fold_updates_short (fun _ => 0) nodup (fun key _ => by
      rw [weighs_without, weighs_empty, ite_self]) (Nat.zero_le
        (weight Entry.bytes (without (∅ : Std.ExtTreeMap Bytes Entry compare) removals)))
    rw [hnone] at hfold
    exact hfold
  | false =>
    have hremoved : removals.foldl (fun total key => total - s.held key) s.total =
        weight Entry.bytes (without s.entries removals) -
          (weight Entry.bytes (without s.entries removals) -
            (weight Entry.bytes s.entries - (removals.map s.held).sum)) := by
      have hle := weight_le_without (f := Entry.bytes) (m := s.entries) removals
      have hsum : (removals.map (weighs Entry.bytes s.entries)).sum = (removals.map s.held).sum := by
        congr 2
        funext key
        exact (s.held_eq key).symm
      rw [show s.total = weight Entry.bytes s.entries from balanced, foldl_sub_eq]
      omega
    have hfold := fold_updates_short s.held nodup (fun key hkey => by
        rw [weighs_without, if_neg fun h => apart key h hkey, held_eq])
      (Nat.sub_le (weight Entry.bytes (without s.entries removals))
        (weight Entry.bytes s.entries - (removals.map s.held).sum))
    simp only [if_false, Bool.false_eq_true] at hfold ⊢
    rw [hremoved]
    exact hfold

/-- Planning and applying a batch keeps the accounting right if and only if its total does not
fall short, or what is shed leaves nothing. -/
theorem accounted_iff {s : LruState} (balanced : s.Balanced) (tick : UInt64) (batch : List Pending)
    (budget : Nat) (keep : List Bytes) :
    s.Accounted tick batch (s.commitBatch tick batch budget keep) ↔ s.Exact tick batch budget keep := by
  obtain ⟨hnodup, hapart⟩ := accounting_apart batch
  have hkeys := keys_updatesAt tick (accounting batch)
  rw [← hkeys] at hnodup hapart
  obtain ⟨htotal, hle⟩ := totalAfter_short balanced hnodup hapart
  -- `left` is what the writes leave, `short` how far the total falls short of it.
  let left := s.after (updatesAt tick (accounting batch)) (accounting batch).removals
    (accounting batch).cleared
  let short := s.shortfall (updatesAt tick (accounting batch)) (accounting batch).removals
    (accounting batch).cleared
  let plan := (s.commitBatch tick batch budget keep).1
  have hplan : plan = shed budget ((s.candidates (updatesAt tick (accounting batch))
      (accounting batch).removals (accounting batch).cleared keep).insertionSort
        fun a b => a.before b) (weight Entry.bytes left - short) := by
    show s.plan _ _ _ _ _ = _
    rw [plan_eq_shed, htotal]
  have hentries (key : Bytes) : (s.commitBatch tick batch budget keep).2.entries[key]? =
      if key ∈ plan.victims then none else left[key]? := by
    show (without left plan.victims)[key]? = _
    rw [getElem?_without]
    by_cases hvictim : key ∈ plan.victims
    · rw [if_pos hvictim, if_pos hvictim]
    · rw [if_neg hvictim, if_neg hvictim]
  have hsum : plan.total = weight Entry.bytes (without left plan.victims) - short := by
    rw [hplan]
    exact shed_short (nodup_sorted hnodup) fun c hc => weighs_sorted hnodup hc
  have hbalanced : (s.commitBatch tick batch budget keep).2.Balanced ↔
      short = 0 ∨ weight Entry.bytes (without left plan.victims) = 0 := by
    show plan.total = weight Entry.bytes (without left plan.victims) ↔ _
    rw [hsum]
    omega
  have hexact : s.Exact tick batch budget keep ↔
      short = 0 ∨ weight Entry.bytes (without left plan.victims) = 0 := by
    refine or_congr_right' fun hshort => ?_
    have hle : short ≤ weight Entry.bytes left := hle
    rw [hplan]
    exact (weight_shed_eq_zero (nodup_sorted hnodup) (fun c hc => weighs_sorted hnodup hc)
      (by omega)).symm
  rw [hexact, ← hbalanced]
  refine ⟨fun h => h.balanced, fun h => ⟨h, fun key => ?_⟩⟩
  rw [hentries]
  show (if key ∈ plan.victims then none else left[key]?) = if key ∈ plan.victims then none else _
  rw [show left[key]? = _ from getElem?_after_accounting s tick batch key]

/-- A key is deleted and put again, which sheds nothing. -/
theorem accounted_threeKeys : threeKeys.Accounted 5 [.delete [97], .put [97] [0]]
    (threeKeys.commitBatch 5 [.delete [97], .put [97] [0]] 100 [[97]]) :=
  (accounted_iff (by decide) 5 _ 100 _).2 (.inl (by decide))

/-- A key deleted twice is subtracted twice. -/
theorem not_accounted_twice : threeKeys.Balanced ∧
    ¬ threeKeys.Accounted 5 [.delete [97], .delete [97]]
      (threeKeys.commitBatch 5 [.delete [97], .delete [97]] 100 []) := by
  refine ⟨by decide, fun h => ?_⟩
  exact absurd h.balanced (by decide)

end LruState
end Crossbank
