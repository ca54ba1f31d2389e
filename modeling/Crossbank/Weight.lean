import Mathlib

/-!
# The weight of a map

What the bindings of a finite map weigh together, each by a measure of its value. A running total
that is kept by adding and subtracting is compared with it.

* `weighs f m k`, `weight f m` : one key, and all of them;
* `without m ks`, `withAll m us` : the keys of a list erased, the bindings of a list written;
* `weight_erase`, `weight_insert` : one key removed or written;
* `foldl_sub_weighs` : a total less every key of a list is what erasing them leaves, as long as no
  key that weighs anything is in the list twice;
* `weight_withAll`, `weight_without_withAll` : new keys add what they hold.
-/

namespace Crossbank

section
variable {α β : Type} {cmp : α → α → Ordering} [Std.TransCmp cmp]

def weighs (f : β → Nat) (m : Std.ExtTreeMap α β cmp) (k : α) : Nat :=
  match m[k]? with
  | some b => f b
  | none => 0

def weight (f : β → Nat) (m : Std.ExtTreeMap α β cmp) : Nat := (m.toList.map fun e => f e.2).sum

variable {f : β → Nat} {m n : Std.ExtTreeMap α β cmp} {k c : α} {b : β}

@[simp] theorem weight_empty : weight f (∅ : Std.ExtTreeMap α β cmp) = 0 := by
  rw [weight, Std.ExtTreeMap.toList_eq_nil_iff.2 rfl]
  rfl

@[simp] theorem weighs_empty : weighs f (∅ : Std.ExtTreeMap α β cmp) k = 0 := by simp [weighs]

theorem nodup_toList (m : Std.ExtTreeMap α β cmp) : m.toList.Nodup :=
  Std.ExtTreeMap.distinct_keys_toList.imp fun hne heq => hne (by
    rw [heq]
    exact Std.ReflCmp.compare_self)

theorem foldl_sub_eq (held : α → Nat) (ks : List α) (total : Nat) :
    ks.foldl (fun total k => total - held k) total = total - (ks.map held).sum := by
  induction ks generalizing total with
  | nil => simp
  | cons k ks ih => rw [List.foldl_cons, ih, List.map_cons, List.sum_cons, Nat.sub_sub]

def without (m : Std.ExtTreeMap α β cmp) (ks : List α) : Std.ExtTreeMap α β cmp :=
  ks.foldl (fun m k => m.erase k) m

def withAll (m : Std.ExtTreeMap α β cmp) (us : List (α × β)) : Std.ExtTreeMap α β cmp :=
  us.foldl (fun m u => m.insert u.1 u.2) m

@[simp] theorem without_nil : without m [] = m := rfl

@[simp] theorem without_cons (ks : List α) : without m (k :: ks) = without (m.erase k) ks := rfl

@[simp] theorem withAll_nil : withAll m [] = m := rfl

@[simp] theorem withAll_cons (u : α × β) (us : List (α × β)) :
    withAll m (u :: us) = withAll (m.insert u.1 u.2) us := rfl

/-! ## One key -/

variable [Std.LawfulEqCmp cmp] [DecidableEq α]

theorem getElem?_erased : (m.erase k)[c]? = if k = c then none else m[c]? := by
  rw [Std.ExtTreeMap.getElem?_erase]
  simp only [Std.LawfulEqCmp.compare_eq_iff_eq]

theorem getElem?_inserted : (m.insert k b)[c]? = if k = c then some b else m[c]? := by
  rw [Std.ExtTreeMap.getElem?_insert]
  simp only [Std.LawfulEqCmp.compare_eq_iff_eq]

theorem toList_perm_of_getElem? (h : m[k]? = some b) :
    m.toList.Perm ((k, b) :: (m.erase k).toList) := by
  have habsent : (k, b) ∉ (m.erase k).toList := by
    rw [Std.ExtTreeMap.mem_toList_iff_getElem?_eq_some]
    simp
  rw [List.perm_ext_iff_of_nodup (nodup_toList m) (List.nodup_cons.2 ⟨habsent, nodup_toList _⟩)]
  intro ⟨c, d⟩
  rw [List.mem_cons, Std.ExtTreeMap.mem_toList_iff_getElem?_eq_some,
    Std.ExtTreeMap.mem_toList_iff_getElem?_eq_some, getElem?_erased]
  by_cases hk : k = c
  · subst hk
    rw [if_pos rfl, h]
    simp [eq_comm]
  · rw [if_neg hk]
    simp [Ne.symm hk]

theorem weight_erase : weight f (m.erase k) + weighs f m k = weight f m := by
  unfold weighs
  cases h : m[k]? with
  | none =>
    have hsame : m.erase k = m := Std.ExtTreeMap.ext_getElem? fun c => by
      rw [getElem?_erased]
      split
      · next hc => rw [← hc, h]
      · rfl
    rw [hsame]
    rfl
  | some b =>
    have hperm := (toList_perm_of_getElem? h).map fun e => f e.2
    rw [weight, weight, hperm.sum_eq, List.map_cons, List.sum_cons, Nat.add_comm]

theorem weight_insert : weight f (m.insert k b) + weighs f m k = weight f m + f b := by
  have hnew : weighs f (m.insert k b) k = f b := by simp [weighs]
  have hrest : (m.insert k b).erase k = m.erase k := Std.ExtTreeMap.ext_getElem? fun c => by
    rw [getElem?_erased, getElem?_erased, getElem?_inserted]
    split <;> rfl
  have hi := weight_erase (f := f) (m := m.insert k b) (k := k)
  have he := weight_erase (f := f) (m := m) (k := k)
  rw [hnew, hrest] at hi
  omega

theorem weighs_le_weight : weighs f m k ≤ weight f m := by
  have he := weight_erase (f := f) (m := m) (k := k)
  omega

omit [DecidableEq α] in
theorem weighs_erase_self : weighs f (m.erase k) k = 0 := by simp [weighs]

theorem weighs_erase_of_ne (h : k ≠ c) : weighs f (m.erase k) c = weighs f m c := by
  rw [weighs, weighs, getElem?_erased, if_neg h]

theorem weighs_insert_of_ne (h : k ≠ c) : weighs f (m.insert k b) c = weighs f m c := by
  rw [weighs, weighs, getElem?_inserted, if_neg h]

/-! ## Lists of keys -/

theorem getElem?_without {ks : List α} : (without m ks)[k]? = if k ∈ ks then none else m[k]? := by
  induction ks generalizing m with
  | nil => simp
  | cons c ks ih =>
    rw [without_cons, ih, getElem?_erased]
    by_cases hk : k ∈ ks
    · rw [if_pos hk, if_pos (List.mem_cons_of_mem _ hk)]
    · by_cases hc : c = k
      · simp [hc]
      · rw [if_neg hk, if_neg hc, if_neg (by simp [hk, Ne.symm hc])]

theorem weighs_without {ks : List α} :
    weighs f (without m ks) k = if k ∈ ks then 0 else weighs f m k := by
  rw [weighs, getElem?_without]
  by_cases hk : k ∈ ks
  · rw [if_pos hk, if_pos hk]
  · rw [if_neg hk, if_neg hk, weighs]

/-- What is erased weighs at most what its keys hold. -/
theorem weight_le_without (ks : List α) :
    weight f m ≤ weight f (without m ks) + (ks.map (weighs f m)).sum := by
  induction ks generalizing m with
  | nil => simp
  | cons k ks ih =>
    have hrest := ih (m := m.erase k)
    have he := weight_erase (f := f) (m := m) (k := k)
    have hle : (ks.map (weighs f (m.erase k))).sum ≤ (ks.map (weighs f m)).sum := by
      refine List.sum_le_sum fun c _ => ?_
      by_cases hc : k = c
      · rw [← hc, weighs_erase_self]
        exact Nat.zero_le _
      · rw [weighs_erase_of_ne hc]
    rw [without_cons, List.map_cons, List.sum_cons]
    omega

omit [DecidableEq α] in
theorem weight_eq_zero (h : ∀ k, weighs f m k = 0) : weight f m = 0 := by
  rw [weight, List.sum_eq_zero_iff]
  intro w hw
  obtain ⟨⟨k, b⟩, he, rfl⟩ := List.mem_map.1 hw
  rw [Std.ExtTreeMap.mem_toList_iff_getElem?_eq_some] at he
  have hk := h k
  rw [weighs, he] at hk
  exact hk

/-- A total less every key of a list is what erasing them leaves, as long as no key that holds
anything is in the list twice. -/
theorem foldl_sub_weighs {held : α → Nat} {ks : List α} (now : ∀ k ∈ ks, weighs f m k = held k)
    (twice : ∀ k, List.Duplicate k ks → held k = 0) :
    ks.foldl (fun total k => total - held k) (weight f m) = weight f (without m ks) := by
  induction ks generalizing m with
  | nil => rfl
  | cons k ks ih =>
    have he := weight_erase (f := f) (m := m) (k := k)
    have hk := now k List.mem_cons_self
    rw [List.foldl_cons, without_cons, show weight f m - held k = weight f (m.erase k) by omega]
    refine ih (fun c hc => ?_) fun c hc => twice c (hc.duplicate_cons k)
    by_cases h : k = c
    · subst h
      rw [weighs_erase_self, twice k (List.Duplicate.cons_mem hc)]
    · rw [weighs_erase_of_ne h]
      exact now c (List.mem_cons_of_mem _ hc)

/-- The total is nothing where the list holds every key that weighs anything. -/
theorem foldl_sub_weighs_all {ks : List α} (all : ∀ k, k ∉ ks → weighs f m k = 0) :
    ks.foldl (fun total k => total - weighs f m k) (weight f m) = weight f (without m ks) := by
  have hnone : weight f (without m ks) = 0 := weight_eq_zero fun k => by
    rw [weighs_without]
    split
    · rfl
    · next hk => exact all k hk
  have hle := weight_le_without (f := f) (m := m) ks
  rw [foldl_sub_eq, hnone]
  omega

/-! ## Lists of writes -/

theorem getElem?_withAll_of_not_mem {us : List (α × β)} (h : k ∉ us.map Prod.fst) :
    (withAll m us)[k]? = m[k]? := by
  induction us generalizing m with
  | nil => rfl
  | cons u us ih =>
    rw [List.map_cons, List.mem_cons, not_or] at h
    rw [withAll_cons, ih h.2, getElem?_inserted,
      if_neg (Ne.symm h.1)]

/-- What is bound after the writes was written, or was bound before. -/
theorem mem_of_getElem?_withAll {us : List (α × β)} {v : β} (h : (withAll m us)[k]? = some v) :
    (k, v) ∈ us ∨ m[k]? = some v := by
  induction us generalizing m with
  | nil => exact .inr h
  | cons u us ih =>
    rw [withAll_cons] at h
    rcases ih h with hrest | hfirst
    · exact .inl (List.mem_cons_of_mem _ hrest)
    · rw [getElem?_inserted] at hfirst
      split at hfirst
      · next hk =>
        have heq : u = (k, v) := Prod.ext hk (Option.some.inj hfirst)
        exact .inl (heq ▸ List.mem_cons_self)
      · exact .inr hfirst

/-- The keys written are bound alike whatever was bound before. -/
theorem getElem?_withAll_of_mem {us : List (α × β)} (h : k ∈ us.map Prod.fst) :
    (withAll m us)[k]? = (withAll n us)[k]? := by
  induction us generalizing m n with
  | nil => simp at h
  | cons u us ih =>
    rw [withAll_cons, withAll_cons]
    by_cases hk : k ∈ us.map Prod.fst
    · exact ih hk
    · rw [List.map_cons, List.mem_cons] at h
      obtain rfl := h.resolve_right hk
      rw [getElem?_withAll_of_not_mem hk, getElem?_withAll_of_not_mem hk]
      simp

/-- New keys add what they hold. -/
theorem weight_withAll {us : List (α × β)} (nodup : (us.map Prod.fst).Nodup)
    (new : ∀ k ∈ us.map Prod.fst, weighs f m k = 0) :
    weight f (withAll m us) = weight f m + (us.map fun u => f u.2).sum := by
  induction us generalizing m with
  | nil => simp
  | cons u us ih =>
    rw [List.map_cons, List.nodup_cons] at nodup
    have hu := weight_insert (f := f) (m := m) (k := u.1) (b := u.2)
    rw [new u.1 (by simp)] at hu
    have hrest := ih (m := m.insert u.1 u.2) nodup.2 fun k hk => by
      rw [weighs_insert_of_ne (by rintro rfl; exact nodup.1 hk)]
      exact new k (by simp [hk])
    rw [withAll_cons, hrest, List.map_cons, List.sum_cons]
    omega

/-- Writes add at most what they hold. -/
theorem weight_withAll_le (us : List (α × β)) :
    weight f (withAll m us) ≤ weight f m + (us.map fun u => f u.2).sum := by
  induction us generalizing m with
  | nil => simp
  | cons u us ih =>
    have hu := weight_insert (f := f) (m := m) (k := u.1) (b := u.2)
    have hrest := ih (m := m.insert u.1 u.2)
    rw [withAll_cons, List.map_cons, List.sum_cons]
    omega

theorem weight_without_le (ks : List α) : weight f (without m ks) ≤ weight f m := by
  induction ks generalizing m with
  | nil => simp
  | cons k ks ih =>
    have he := weight_erase (f := f) (m := m) (k := k)
    have hrest := ih (m := m.erase k)
    rw [without_cons]
    omega

/-- What the others hold and what is written: keys erased, then keys written, then keys erased
that were not written. -/
theorem weight_without_withAll {ks vs : List α} {us : List (α × β)} (nodup : (us.map Prod.fst).Nodup)
    (apart : ∀ k ∈ vs, k ∉ us.map Prod.fst) :
    weight f (without (withAll (without m ks) us) vs) =
      weight f (without m (ks ++ us.map Prod.fst ++ vs)) + (us.map fun u => f u.2).sum := by
  have hsame : without (withAll (without m ks) us) vs =
      withAll (without m (ks ++ us.map Prod.fst ++ vs)) us := Std.ExtTreeMap.ext_getElem? fun k => by
    rw [getElem?_without]
    by_cases hv : k ∈ vs
    · rw [if_pos hv, getElem?_withAll_of_not_mem (apart k hv), getElem?_without,
        if_pos (by simp [hv])]
    · rw [if_neg hv]
      by_cases hu : k ∈ us.map Prod.fst
      · exact getElem?_withAll_of_mem hu
      · rw [getElem?_withAll_of_not_mem hu, getElem?_withAll_of_not_mem hu, getElem?_without,
          getElem?_without]
        simp only [List.mem_append, hu, hv, or_false]
  rw [hsame, weight_withAll nodup fun k hk => ?_]
  rw [weighs_without, if_pos (by simp [hk])]

end
end Crossbank
