import Crossbank.Locker.Effect
import Crossbank.Weight

/-!
# The byte budget and the news of other tabs

The budget of a commit is worked out before the commit is sent, and installed once it has landed. In
between the news of another tab may change what is accounted.

* `LruState.remotePut`, `remoteDelete`, `remoteClear` : the news of one key, or of a clear;
* `LruState.budgetFor` : the budget of a batch, and `budgetOps_budget`, which ties it to a commit;
* `Accounts`, `AccountAct`, `Accounts.step` : the accounting of a locker, with the commit under way;
* `Balanced` : the total is the sum of the sizes;
* `plan_total` : a plan's total is what its commit leaves, on the accounting it was made on;
* `balanced_landed_iff` : when the total is right once the commit has landed;
* `balanced_run` : in a run of clean acts the total is the sum of the sizes.
-/

namespace Crossbank
open Async

namespace LruState

def nextLocalTick (s : LruState) : UInt64 :=
  let last := (s.entries.toList.map fun e => e.2.tick).foldl max 0
  if last.toNat = U64_MAX then last else last + 1

/-- Fold another tab's put into the accounting. Without a size it is accounted as nothing, and the
next commit reloads. -/
def remotePut (key : Bytes) (bytes : Option Nat) (s : LruState) : LruState :=
  let tick := s.nextLocalTick
  match bytes with
  | some bytes =>
    { s with entries := s.entries.insert key ⟨tick, bytes⟩
             total := satAdd (s.total - s.held key) bytes }
  | none =>
    { s with entries := if s.entries.contains key then s.entries else s.entries.insert key ⟨tick, 0⟩
             dirty := true }

def remoteDelete (key : Bytes) (s : LruState) : LruState :=
  { s with entries := s.entries.erase key
           total := s.total - s.held key
           pending := s.pending.erase key }

def remoteClear (s : LruState) : LruState :=
  { s with entries := ∅, pending := ∅, total := 0, dirty := false }

/-- The budget that a batch commits with: every key of it was used at one tick. -/
def budgetFor (id : LockerId) (tick : UInt64) (acc : Accounting) (s : LruState) : Budget :=
  let updates := acc.updates.map fun (key, bytes) => (key, (⟨tick, bytes⟩ : Entry))
  { updates := updates
    removals := acc.removals
    cleared := acc.cleared
    plan := s.plan updates acc.removals acc.cleared s.maxBytes (acc.updates.map Prod.fst)
    pending := (if acc.cleared then ([], []) else s.pendingOps id (updates.map Prod.fst)).1 }

/-- The budget that shedding down to a size commits with. -/
def budgetToShed (bytes : Nat) (s : LruState) : Budget := { plan := s.plan [] [] false bytes [] }

def landed (budget : Budget) (s : LruState) : LruState :=
  (s.apply budget.updates budget.removals budget.cleared budget.plan).clearPending budget.pending

def loaded (id : LockerId) (maxBytes : Nat) (rows : List (Bytes × Option Bytes)) : LruState :=
  (loadPage (lockerPrefix id) rows (.new maxBytes, none)).1

/-- The accounting a locker opens with, from the rows of its budget and the keys it holds. -/
def opened (id : LockerId) (maxBytes : Nat) (rows : List (Bytes × Option Bytes)) (index : KeySet) :
    LruState :=
  index.toList.foldl (fun state key => state.adopt key)
    ((loaded id maxBytes rows).retainKeys fun k => index.contains k)

def Balanced (s : LruState) : Prop := s.total = weight Entry.bytes s.entries

instance (s : LruState) : Decidable s.Balanced :=
  inferInstanceAs (Decidable (s.total = weight Entry.bytes s.entries))

end LruState

/-! ## What a commit installs -/

section
variable {T : Type} {inner : Inner T} {m m' : Machine Tables (Ram T)} {ops ops' : List Op}
  {acc : Accounting} {budget : Budget}

/-- The budget that a batch commits with is worked out on the accounting it finds. -/
theorem budgetOps_budget
    (h : Run Served (budgetOps inner ops acc.updates acc.removals acc.cleared
      (acc.updates.map Prod.fst)) m (.ok (ops', budget)) m') :
    budget = {} ∨
      ∃ state tick, m'.mem.res.lru = some state ∧ budget = state.budgetFor inner.id tick acc := by
  rw [budgetOps, run_read_bind] at h
  split at h
  · obtain ⟨hpair, -⟩ := run_pure.1 h
    exact .inl (Prod.mk.inj (Except.ok.inj hpair)).2
  · obtain ⟨u, m₁, -, h₁⟩ := run_bind_ok.1 h
    obtain ⟨tick, m₂, -, h₂⟩ := run_bind_ok.1 h₁
    rw [run_read_bind] at h₂
    split at h₂
    · obtain ⟨hpair, -⟩ := run_pure.1 h₂
      exact .inl (Prod.mk.inj (Except.ok.inj hpair)).2
    · next state hstate =>
      obtain ⟨shed, m₃, hshed, h₃⟩ := run_bind_ok.1 h₂
      obtain ⟨rfl, -⟩ := victimOps_run hshed
      rw [run_read_bind] at h₃
      obtain ⟨hpair, rfl⟩ := run_pure.1 h₃
      exact .inr ⟨state, tick, hstate, (Prod.mk.inj (Except.ok.inj hpair)).2⟩

theorem applyBudget_lru (ram : Ram T) :
    (applyBudget budget ram).res.lru = ram.res.lru.map (LruState.landed budget) := by
  have hinline (r : Resident) (victims : List Bytes) :
      (victims.foldl (fun r victim => r.noteInline victim false) r).lru = r.lru := by
    induction victims generalizing r with
    | nil => rfl
    | cons victim rest ih => rw [List.foldl_cons, ih, Resident.noteInline]
  unfold applyBudget
  dsimp only
  rw [hinline]
  cases ram.res.lru <;> simp [Resident.touchIndex, LruState.landed]

end

/-! ## The accounting of a locker -/

/-- The accounting, and the commit that holds the write lock: the accounting its budget was worked
out on, and the budget. -/
structure Accounts where
  lru : LruState
  underWay : Option (LruState × Budget)
  deriving DecidableEq

/-- What happens to the accounting: a commit of a batch is planned, or one that sheds; the commit
under way lands, or fails; news of a put, a delete or a clear arrives; a key is read; the rows are
loaded again. -/
inductive AccountAct where
  | plan (tick : UInt64) (batch : List Pending)
  | planShed (bytes : Nat)
  | land
  | fail
  | remotePut (key : Bytes) (bytes : Option Nat)
  | remoteDelete (key : Bytes)
  | remoteClear
  | touch (key : Bytes) (tick : UInt64)
  | reload (rows : List (Bytes × Option Bytes))
  deriving DecidableEq, Repr

namespace Accounts

/-- Only one commit is under way. A scan hands out each row once. -/
def step (id : LockerId) (a : Accounts) : AccountAct → Option Accounts
  | .plan tick batch =>
    match a.underWay with
    | some _ => none
    | none => some { a with underWay := some (a.lru, a.lru.budgetFor id tick (accounting batch)) }
  | .planShed bytes =>
    match a.underWay with
    | some _ => none
    | none => some { a with underWay := some (a.lru, a.lru.budgetToShed bytes) }
  | .land =>
    match a.underWay with
    | some (_, budget) => some ⟨a.lru.landed budget, none⟩
    | none => none
  | .fail =>
    match a.underWay with
    | some _ => some { a with underWay := none }
    | none => none
  | .remotePut key bytes => some { a with lru := a.lru.remotePut key bytes }
  | .remoteDelete key => some { a with lru := a.lru.remoteDelete key }
  | .remoteClear => some { a with lru := a.lru.remoteClear }
  | .touch key tick => some { a with lru := a.lru.touch key tick }
  | .reload rows =>
    match a.underWay with
    | some _ => none
    | none =>
      if (rows.map Prod.fst).Nodup then
        some { a with lru := a.lru.adoptLoaded (.loaded id a.lru.maxBytes rows) }
      else none

def run (id : LockerId) (a : Accounts) (acts : List AccountAct) : Option Accounts :=
  acts.foldlM (fun a act => a.step id act) a

end Accounts

/-- What is held under none of the keys that a commit writes, removes or sheds. -/
def Budget.restBytes (budget : Budget) (s : LruState) : Nat :=
  weight Entry.bytes (without s.entries
    (budget.removals ++ budget.updates.map Prod.fst ++ budget.plan.victims))

/-- The batch removes no key twice that holds anything, unless what it removes is all there is. -/
def Accounting.RemovesOnce (acc : Accounting) (s : LruState) : Prop :=
  acc.cleared = true ∨ (∀ key, List.Duplicate key acc.removals → s.held key = 0) ∨
    ∀ key, key ∉ acc.removals → s.held key = 0

/-- The sizes never add up past the largest total, as the updates are added one by one to what the
removals leave. -/
def Accounting.Small (acc : Accounting) (s : LruState) (tick : UInt64) : Prop :=
  ∀ updates, updates <+: acc.updates.map (fun u => (u.1, (⟨tick, u.2⟩ : Entry))) → updates ≠ [] →
    weight Entry.bytes (withAll (without (if acc.cleared then ∅ else s.entries) acc.removals)
      updates) ≤ U64_MAX

/-- When an act keeps the total right: the batch that is planned removes nothing twice; while a
commit is under way the news leaves alone, in sum, what the commit does not touch; and no sum of
sizes is past the largest total. -/
def AccountAct.Clean (id : LockerId) (a : Accounts) : AccountAct → Prop
  | .plan tick batch =>
    (accounting batch).RemovesOnce a.lru ∧ (accounting batch).Small a.lru tick
  | .land => ∀ seen budget, a.underWay = some (seen, budget) →
      budget.cleared = true ∨ budget.restBytes seen = budget.restBytes a.lru
  | .remotePut key (some bytes) => weight Entry.bytes (a.lru.entries.erase key) + bytes ≤ U64_MAX
  | .reload rows => weight Entry.bytes (LruState.loaded id a.lru.maxBytes rows).entries ≤ U64_MAX
  | _ => True

/-- Every act of a run is clean where it happens. -/
def CleanRun (id : LockerId) (a : Accounts) : List AccountAct → Prop
  | [] => True
  | act :: acts => act.Clean id a ∧ ∀ a', a.step id act = some a' → CleanRun id a' acts

/-! ## The accounting of a batch -/

theorem accounting_append (staged : List Pending) (entry : Pending) :
    accounting (staged ++ [entry]) =
      match entry with
      | .put key payload =>
        { accounting staged with
          updates := (accounting staged).updates.filter (·.1 ≠ key) ++ [(key, payload.length)]
          removals := (accounting staged).removals.filter (· ≠ key) }
      | .delete key =>
        { accounting staged with
          updates := (accounting staged).updates.filter (·.1 ≠ key)
          removals := (accounting staged).removals ++ [key] }
      | .clear => ⟨[], [], true⟩ := by
  rw [accounting, List.foldl_append, ← accounting]
  rfl

/-- A batch updates no key twice, and none that it removes. -/
theorem accounting_apart (staged : List Pending) :
    ((accounting staged).updates.map Prod.fst).Nodup ∧
      ∀ key ∈ (accounting staged).removals, key ∉ (accounting staged).updates.map Prod.fst := by
  have hsub (us : List (Bytes × Nat)) (key : Bytes) :
      ((us.filter (·.1 ≠ key)).map Prod.fst).Sublist (us.map Prod.fst) :=
    List.filter_sublist.map _
  have hgone (us : List (Bytes × Nat)) (key : Bytes) :
      key ∉ (us.filter (·.1 ≠ key)).map Prod.fst := by simp
  induction staged using List.reverseRecOn with
  | nil => exact ⟨.nil, by simp [accounting]⟩
  | append_singleton staged entry ih =>
    obtain ⟨hnodup, hapart⟩ := ih
    rw [accounting_append]
    cases entry with
    | put key payload =>
      dsimp only
      rw [List.map_append, List.map_singleton]
      constructor
      · refine (List.nodup_append.2 ⟨(hsub _ key).nodup hnodup, List.nodup_singleton _, ?_⟩)
        intro k hk c hc
        obtain rfl := List.mem_singleton.1 hc
        rintro rfl
        exact hgone _ _ hk
      · intro k hk
        obtain ⟨hk, hne⟩ := List.mem_filter.1 hk
        rw [List.mem_append, List.mem_singleton, not_or]
        exact ⟨fun h => hapart k hk ((hsub _ key).subset h), by simpa using hne⟩
    | delete key =>
      dsimp only
      refine ⟨(hsub _ key).nodup hnodup, fun k hk => ?_⟩
      rcases List.mem_append.1 hk with hk | hk
      · exact fun h => hapart k hk ((hsub _ key).subset h)
      · obtain rfl := List.mem_singleton.1 hk
        exact hgone _ _
    | clear => exact ⟨.nil, by simp⟩

/-! ## What a plan amounts to -/

namespace LruState

theorem held_eq (s : LruState) (key : Bytes) : s.held key = weighs Entry.bytes s.entries key := by
  unfold held weighs
  cases s.entries[key]? <;> rfl

theorem satAdd_of_le {a b : Nat} (h : a + b ≤ U64_MAX) : satAdd a b = a + b := Nat.min_eq_left h

/-- Updates that are added one by one, each in place of what was held. -/
theorem fold_updates {m : Std.ExtTreeMap Bytes Entry compare} {updates : List (Bytes × Entry)}
    (old : Bytes → Nat) (nodup : (updates.map Prod.fst).Nodup)
    (held : ∀ key ∈ updates.map Prod.fst, weighs Entry.bytes m key = old key)
    (small : ∀ us, us <+: updates → us ≠ [] → weight Entry.bytes (withAll m us) ≤ U64_MAX) :
    updates.foldl (fun total update => satAdd (total - old update.1) update.2.bytes)
      (weight Entry.bytes m) = weight Entry.bytes (withAll m updates) := by
  induction updates generalizing m with
  | nil => rfl
  | cons u us ih =>
    rw [List.map_cons, List.nodup_cons] at nodup
    have hins := weight_insert (f := Entry.bytes) (m := m) (k := u.1) (b := u.2)
    have hold := held u.1 (by simp)
    have hle := weighs_le_weight (f := Entry.bytes) (m := m) (k := u.1)
    have hfirst := small [u] ⟨us, rfl⟩ (List.cons_ne_nil _ _)
    rw [withAll_cons, withAll_nil] at hfirst
    rw [List.foldl_cons, satAdd_of_le (by omega),
      show weight Entry.bytes m - old u.1 + u.2.bytes = weight Entry.bytes (m.insert u.1 u.2) by
        omega, withAll_cons]
    refine ih nodup.2 (fun key hkey => ?_) fun us' hus' _ => ?_
    · rw [weighs_insert_of_ne (by rintro rfl; exact nodup.1 hkey)]
      exact held key (by simp [hkey])
    · exact small (u :: us') (List.cons_prefix_cons.2 ⟨rfl, hus'⟩) (List.cons_ne_nil _ _)

/-- Shedding is erasing: the total left is what the other keys hold. -/
theorem shed_total {budget : Nat} {cs : List Candidate} {m : Std.ExtTreeMap Bytes Entry compare}
    (nodup : (cs.map Candidate.key).Nodup)
    (held : ∀ c ∈ cs, weighs Entry.bytes m c.key = c.bytes) :
    (shed budget cs (weight Entry.bytes m)).total =
      weight Entry.bytes (without m (shed budget cs (weight Entry.bytes m)).victims) := by
  induction cs generalizing m with
  | nil => rfl
  | cons c rest ih =>
    rw [List.map_cons, List.nodup_cons] at nodup
    have he := weight_erase (f := Entry.bytes) (m := m) (k := c.key)
    have hc := held c List.mem_cons_self
    unfold shed
    split
    · rfl
    · dsimp only
      rw [without_cons,
        show weight Entry.bytes m - c.bytes = weight Entry.bytes (m.erase c.key) by omega]
      refine ih nodup.2 fun c' hc' => ?_
      rw [weighs_erase_of_ne fun h => nodup.1 (List.mem_map.2 ⟨c', hc', h.symm⟩)]
      exact held c' (List.mem_cons_of_mem _ hc')

section
variable {s : LruState} {updates : List (Bytes × Entry)} {removals : List Bytes} {cleared : Bool}

theorem totalAfter_eq (balanced : s.Balanced) (nodup : (updates.map Prod.fst).Nodup)
    (apart : ∀ key ∈ removals, key ∉ updates.map Prod.fst)
    (once : cleared = true ∨ (∀ key, List.Duplicate key removals → s.held key = 0) ∨
      ∀ key, key ∉ removals → s.held key = 0)
    (small : ∀ us, us <+: updates → us ≠ [] → weight Entry.bytes
      (withAll (without (if cleared then ∅ else s.entries) removals) us) ≤ U64_MAX) :
    s.totalAfter updates removals cleared = weight Entry.bytes
      (withAll (without (if cleared then ∅ else s.entries) removals) updates) := by
  unfold totalAfter
  dsimp only
  cases cleared with
  | true =>
    have hnone : weight Entry.bytes (without (∅ : Std.ExtTreeMap Bytes Entry compare) removals) = 0 :=
      weight_eq_zero fun key => by rw [weighs_without, weighs_empty, ite_self]
    have hfold := fold_updates (fun _ => 0) nodup (fun key _ => by
      rw [weighs_without, if_pos rfl, weighs_empty, ite_self]) small
    simp only [if_true] at hfold ⊢
    rw [← hfold, hnone]
    rfl
  | false =>
    have hremoved : removals.foldl (fun total key => total - s.held key) s.total =
        weight Entry.bytes (without s.entries removals) := by
      rw [show s.total = weight Entry.bytes s.entries from balanced]
      rcases once with h | h | h
      · cases h
      · exact foldl_sub_weighs (fun key _ => (s.held_eq key).symm) h
      · simp only [held_eq]
        exact foldl_sub_weighs_all fun key hkey => (s.held_eq key).symm.trans (h key hkey)
    have hfold := fold_updates s.held nodup (fun key hkey => by
      rw [weighs_without, if_neg fun h => apart key h hkey, held_eq]
      rfl) small
    simp only [if_false, Bool.false_eq_true] at hfold ⊢
    rw [hremoved, hfold]

/-- A plan's total is what its commit leaves, on the accounting it was made on. -/
theorem plan_total (budget : Nat) (balanced : s.Balanced) (nodup : (updates.map Prod.fst).Nodup)
    (apart : ∀ key ∈ removals, key ∉ updates.map Prod.fst)
    (once : cleared = true ∨ (∀ key, List.Duplicate key removals → s.held key = 0) ∨
      ∀ key, key ∉ removals → s.held key = 0)
    (small : ∀ us, us <+: updates → us ≠ [] → weight Entry.bytes
      (withAll (without (if cleared then ∅ else s.entries) removals) us) ≤ U64_MAX) :
    (s.plan updates removals cleared budget (updates.map Prod.fst)).total =
      weight Entry.bytes (without (withAll (without (if cleared then ∅ else s.entries) removals)
        updates) (s.plan updates removals cleared budget (updates.map Prod.fst)).victims) := by
  unfold plan
  dsimp only
  rw [totalAfter_eq balanced nodup apart once small]
  by_cases hfits : weight Entry.bytes (withAll (without (if cleared then ∅ else s.entries) removals)
    updates) ≤ budget
  · rw [if_pos hfits]
    rfl
  · rw [if_neg hfits]
    have hperm := List.perm_insertionSort (fun a b : Candidate => (a.before b : Prop))
      (s.candidates updates removals cleared (updates.map Prod.fst))
    refine shed_total ?_ fun c hc => ?_
    · rw [(hperm.map _).nodup_iff]
      exact (candidates_kept s updates removals cleared).nodup (nodup_keys_toList _)
    · rcases mem_candidates.1 (hperm.mem_iff.1 hc) with ⟨rfl, he, hr, hu, -⟩ | ⟨hu, hkeep⟩
      · rw [weighs, getElem?_withAll_of_not_mem hu, getElem?_without, if_neg hr]
        simp [he]
      · exact absurd (List.mem_map_of_mem hu) hkeep

end

@[simp] theorem landed_total (budget : Budget) (s : LruState) :
    (s.landed budget).total = budget.plan.total := rfl

theorem landed_entries (budget : Budget) (s : LruState) : (s.landed budget).entries =
    without (withAll (without (if budget.cleared then ∅ else s.entries) budget.removals)
      budget.updates) budget.plan.victims := rfl

end LruState

/-! ## One act -/

/-- The budget fits the accounting it was worked out on. -/
structure Budget.Sound (budget : Budget) (seen : LruState) : Prop where
  nodup : (budget.updates.map Prod.fst).Nodup
  apart : ∀ key ∈ budget.plan.victims, key ∉ budget.updates.map Prod.fst
  total : budget.plan.total = weight Entry.bytes (seen.landed budget).entries

namespace LruState
variable {s seen : LruState} {budget : Budget}

theorem weight_landed (sound : budget.Sound seen) (kept : budget.cleared = false) (s : LruState) :
    weight Entry.bytes (s.landed budget).entries =
      budget.restBytes s + (budget.updates.map fun u => u.2.bytes).sum := by
  rw [landed_entries, kept, if_neg Bool.false_ne_true]
  exact weight_without_withAll sound.nodup sound.apart

/-- When the total is right once a commit has landed: what it does not touch holds as much, in
sum, as when its budget was worked out. -/
theorem balanced_landed_iff (sound : budget.Sound seen) : (s.landed budget).Balanced ↔
    budget.cleared = true ∨ budget.restBytes seen = budget.restBytes s := by
  rw [Balanced, landed_total, sound.total]
  cases hc : budget.cleared with
  | true =>
    refine iff_of_true ?_ (.inl rfl)
    rw [landed_entries, landed_entries, hc, if_pos rfl, if_pos rfl]
  | false =>
    rw [weight_landed sound hc, weight_landed sound hc]
    constructor
    · intro h
      exact .inr (by omega)
    · intro h
      rw [h.resolve_left Bool.false_ne_true]

theorem sound_budgetFor {id : LockerId} {tick : UInt64} {batch : List Pending}
    (balanced : s.Balanced) (once : (accounting batch).RemovesOnce s)
    (small : (accounting batch).Small s tick) :
    (s.budgetFor id tick (accounting batch)).Sound s := by
  obtain ⟨hnodup, hapart⟩ := accounting_apart batch
  have hkeys : ((accounting batch).updates.map fun u => (u.1, (⟨tick, u.2⟩ : Entry))).map Prod.fst =
      (accounting batch).updates.map Prod.fst := by
    rw [List.map_map]
    rfl
  have htotal := plan_total s.maxBytes balanced (hkeys ▸ hnodup) (hkeys ▸ hapart) once
    small
  rw [hkeys] at htotal
  exact ⟨hkeys ▸ hnodup, fun key hkey => hkeys ▸ not_mem_keep_of_victim hkey, htotal⟩

theorem sound_budgetToShed (balanced : s.Balanced) (bytes : Nat) :
    (s.budgetToShed bytes).Sound s where
  nodup := .nil
  apart _ _ := List.not_mem_nil
  total := plan_total bytes balanced .nil (fun _ h => absurd h List.not_mem_nil)
    (.inr (.inl fun _ h => absurd h (List.not_duplicate_nil _)))
    fun _ hus hne => absurd (List.prefix_nil.1 hus) hne

theorem weight_insert_of_absent {key : Bytes} {tick : UInt64} (s : LruState) :
    weight Entry.bytes (if s.entries.contains key then s.entries else s.entries.insert key ⟨tick, 0⟩) =
      weight Entry.bytes s.entries := by
  split
  · rfl
  · next habsent =>
    have hins := weight_insert (f := Entry.bytes) (m := s.entries) (k := key) (b := ⟨tick, 0⟩)
    have hnone : weighs Entry.bytes s.entries key = 0 := by
      rw [weighs, Std.ExtTreeMap.getElem?_eq_none (by simpa using habsent)]
    dsimp only at hins
    omega

theorem Balanced.remotePut (balanced : s.Balanced) {key : Bytes} {bytes : Option Nat}
    (small : ∀ n, bytes = some n → weight Entry.bytes (s.entries.erase key) + n ≤ U64_MAX) :
    (s.remotePut key bytes).Balanced := by
  have htotal : s.total = weight Entry.bytes s.entries := balanced
  cases bytes with
  | none => exact htotal.trans (weight_insert_of_absent s).symm
  | some n =>
    have hsmall := small n rfl
    have he := weight_erase (f := Entry.bytes) (m := s.entries) (k := key)
    have hi := weight_insert (f := Entry.bytes) (m := s.entries) (k := key)
      (b := ⟨s.nextLocalTick, n⟩)
    rw [Balanced, LruState.remotePut]
    dsimp only at hi ⊢
    rw [htotal, held_eq, satAdd_of_le (by omega)]
    omega

theorem Balanced.remoteDelete (balanced : s.Balanced) (key : Bytes) :
    (s.remoteDelete key).Balanced := by
  have htotal : s.total = weight Entry.bytes s.entries := balanced
  have he := weight_erase (f := Entry.bytes) (m := s.entries) (k := key)
  rw [Balanced, LruState.remoteDelete, htotal, held_eq]
  dsimp only
  omega

theorem balanced_remoteClear : s.remoteClear.Balanced := weight_empty.symm

theorem Balanced.touch (balanced : s.Balanced) (key : Bytes) (tick : UInt64) :
    (s.touch key tick).Balanced := by
  unfold LruState.touch
  split
  · next entry hentry =>
    have hi := weight_insert (f := Entry.bytes) (m := s.entries) (k := key)
      (b := { entry with tick := tick })
    have hheld : weighs Entry.bytes s.entries key = entry.bytes := by rw [weighs, hentry]
    have htotal : s.total = weight Entry.bytes s.entries := balanced
    rw [Balanced, htotal]
    dsimp only at hi ⊢
    omega
  · exact balanced

/-! ## Rows that are read back -/

theorem eq_append_of_userKey {p metaKey key : Bytes} (h : userKey p metaKey = some key) :
    metaKey = p ++ key := by
  unfold userKey at h
  split at h
  · next hp =>
    obtain ⟨rest, rfl⟩ := List.isPrefixOf_iff_prefix.1 hp
    rw [List.drop_left] at h
    rw [Option.some.inj h]
  · cases h

theorem loaded_append (id : LockerId) (maxBytes : Nat) (rows : List (Bytes × Option Bytes))
    (row : Bytes × Option Bytes) :
    loaded id maxBytes (rows ++ [row]) =
      (loadPage (lockerPrefix id) [row]
        (loadPage (lockerPrefix id) rows (.new maxBytes, none))).1 := by
  rw [loaded, loadPage, List.foldl_append]
  rfl

theorem loadPage_singleton (p : Bytes) (row : Bytes × Option Bytes)
    (start : LruState × Option UInt64) :
    (loadPage p [row] start).1 = start.1 ∨ ∃ key entry, row.1 = p ++ key ∧
      (loadPage p [row] start).1 = { start.1 with
        total := satAdd start.1.total entry.bytes
        entries := start.1.entries.insert key entry } := by
  obtain ⟨metaKey, value⟩ := row
  obtain ⟨state, maxTick⟩ := start
  rw [loadPage, List.foldl_cons, List.foldl_nil]
  dsimp only
  split
  · next key entry hkey _ => exact .inr ⟨key, entry, eq_append_of_userKey hkey, rfl⟩
  · exact .inl rfl

/-- What the rows leave is accounted under the keys they name. -/
theorem loaded_absent {id : LockerId} {maxBytes : Nat} {rows : List (Bytes × Option Bytes)}
    {key : Bytes} (h : lockerPrefix id ++ key ∉ rows.map Prod.fst) :
    (loaded id maxBytes rows).entries[key]? = none := by
  induction rows using List.reverseRecOn with
  | nil => simp [loaded, loadPage, new]
  | append_singleton rows row ih =>
    rw [List.map_append, List.map_singleton, List.mem_append, List.mem_singleton, not_or] at h
    have hrest := ih h.1
    rw [loaded_append]
    rcases loadPage_singleton (lockerPrefix id) row
      (loadPage (lockerPrefix id) rows (.new maxBytes, none)) with hsame | ⟨k, entry, hk, hadd⟩
    · rw [hsame]
      exact hrest
    · rw [hadd]
      dsimp only
      rw [getElem?_inserted, if_neg fun heq => h.2 (by rw [hk, heq])]
      exact hrest

/-- The rows of a scan, each read once, are added up. -/
theorem balanced_loaded {id : LockerId} {maxBytes : Nat} {rows : List (Bytes × Option Bytes)}
    (distinct : (rows.map Prod.fst).Nodup)
    (small : weight Entry.bytes (loaded id maxBytes rows).entries ≤ U64_MAX) :
    (loaded id maxBytes rows).Balanced := by
  induction rows using List.reverseRecOn with
  | nil => exact weight_empty.symm
  | append_singleton rows row ih =>
    rw [List.map_append, List.map_singleton, List.nodup_append] at distinct
    obtain ⟨hdistinct, -, hnew⟩ := distinct
    rw [loaded_append] at small ⊢
    rcases loadPage_singleton (lockerPrefix id) row
      (loadPage (lockerPrefix id) rows (.new maxBytes, none)) with hsame | ⟨k, entry, hk, hadd⟩
    · rw [hsame] at small ⊢
      exact ih hdistinct small
    · have habsent : weighs Entry.bytes (loaded id maxBytes rows).entries k = 0 := by
        rw [weighs, loaded_absent]
        exact fun h => hnew _ h row.1 List.mem_cons_self hk.symm
      have hi := weight_insert (f := Entry.bytes) (m := (loaded id maxBytes rows).entries) (k := k)
        (b := entry)
      rw [hadd] at small ⊢
      have hsmall : weight Entry.bytes ((loaded id maxBytes rows).entries.insert k entry) ≤ U64_MAX :=
        small
      have htotal : (loaded id maxBytes rows).total =
        weight Entry.bytes (loaded id maxBytes rows).entries := ih hdistinct (by omega)
      change satAdd (loaded id maxBytes rows).total entry.bytes =
        weight Entry.bytes ((loaded id maxBytes rows).entries.insert k entry)
      rw [htotal, satAdd_of_le (by omega)]
      omega

theorem balanced_opened (id : LockerId) (maxBytes : Nat) (rows : List (Bytes × Option Bytes))
    (index : KeySet) : (opened id maxBytes rows index).Balanced := by
  have hadopt (keys : List Bytes) (s : LruState) (h : s.Balanced) :
      (keys.foldl (fun state key => state.adopt key) s).Balanced := by
    induction keys generalizing s with
    | nil => exact h
    | cons key keys ih => exact ih _ (h.trans (weight_insert_of_absent s).symm)
  exact hadopt _ _ rfl

end LruState

/-! ## Runs -/

namespace Accounts

/-- The total is right, and the budget of the commit under way fits what it was worked out on. -/
structure Inv (a : Accounts) : Prop where
  balanced : a.lru.Balanced
  sound : ∀ seen budget, a.underWay = some (seen, budget) → budget.Sound seen

variable {id : LockerId} {a a' : Accounts}

theorem Inv.step {act : AccountAct} (inv : a.Inv) (clean : act.Clean id a)
    (h : a.step id act = some a') : a'.Inv := by
  obtain ⟨lru, underWay⟩ := a
  obtain ⟨balanced, sound⟩ := inv
  cases act with
  | plan tick batch =>
    cases underWay with
    | some _ => cases h
    | none =>
      obtain rfl := Option.some.inj h
      refine ⟨balanced, fun seen budget hb => ?_⟩
      obtain ⟨rfl, rfl⟩ := Prod.mk.inj (Option.some.inj hb)
      exact LruState.sound_budgetFor balanced clean.1 clean.2
  | planShed bytes =>
    cases underWay with
    | some _ => cases h
    | none =>
      obtain rfl := Option.some.inj h
      refine ⟨balanced, fun seen budget hb => ?_⟩
      obtain ⟨rfl, rfl⟩ := Prod.mk.inj (Option.some.inj hb)
      exact LruState.sound_budgetToShed balanced bytes
  | land =>
    cases underWay with
    | none => cases h
    | some commit =>
      obtain ⟨seen, budget⟩ := commit
      obtain rfl := Option.some.inj h
      exact ⟨(LruState.balanced_landed_iff (sound _ _ rfl)).2 (clean _ _ rfl), fun _ _ hb => nomatch hb⟩
  | fail =>
    cases underWay with
    | none => cases h
    | some commit =>
      obtain rfl := Option.some.inj h
      exact ⟨balanced, fun _ _ hb => nomatch hb⟩
  | remotePut key bytes =>
    obtain rfl := Option.some.inj h
    refine ⟨balanced.remotePut fun n hn => ?_, sound⟩
    subst hn
    exact clean
  | remoteDelete key =>
    obtain rfl := Option.some.inj h
    exact ⟨balanced.remoteDelete key, sound⟩
  | remoteClear =>
    obtain rfl := Option.some.inj h
    exact ⟨LruState.balanced_remoteClear, sound⟩
  | touch key tick =>
    obtain rfl := Option.some.inj h
    exact ⟨balanced.touch key tick, sound⟩
  | reload rows =>
    cases underWay with
    | some _ => cases h
    | none =>
      rw [Accounts.step] at h
      dsimp only at h
      split at h
      · next distinct =>
        obtain rfl := Option.some.inj h
        exact ⟨LruState.balanced_loaded distinct clean, sound⟩
      · cases h

theorem Inv.run {acts : List AccountAct} (inv : a.Inv) (clean : CleanRun id a acts)
    (h : a.run id acts = some a') : a'.Inv := by
  induction acts generalizing a with
  | nil =>
    obtain rfl := Option.some.inj h
    exact inv
  | cons act acts ih =>
    rw [Accounts.run, List.foldlM_cons] at h
    obtain ⟨a₁, hstep, hrest⟩ := Option.bind_eq_some_iff.1 h
    exact ih (inv.step clean.1 hstep) (clean.2 a₁ hstep) hrest

end Accounts

/-- A batch is small when it is with everything that is held. -/
theorem Accounting.small_of_le {acc : Accounting} {s : LruState} {tick : UInt64}
    (h : weight Entry.bytes s.entries + (acc.updates.map Prod.snd).sum ≤ U64_MAX) :
    acc.Small s tick := by
  intro updates hstart _
  have hsum : (updates.map fun u => u.2.bytes).sum ≤ (acc.updates.map Prod.snd).sum := by
    have hall : acc.updates.map Prod.snd =
        (acc.updates.map fun u => (u.1, (⟨tick, u.2⟩ : Entry))).map fun u => u.2.bytes := by
      rw [List.map_map]
      rfl
    rw [hall]
    exact (hstart.sublist.map _).sum_le_sum fun _ _ => Nat.zero_le _
  have hbase : weight Entry.bytes (without (if acc.cleared then ∅ else s.entries) acc.removals) ≤
      weight Entry.bytes s.entries := by
    refine (weight_without_le _).trans ?_
    split
    · exact weight_empty.trans_le (Nat.zero_le _)
    · exact le_refl _
  have hadd := weight_withAll_le (f := Entry.bytes)
    (m := without (if acc.cleared then ∅ else s.entries) acc.removals) updates
  omega

/-- The total is the sum of the sizes in every run of clean acts that starts when the locker
opens. -/
theorem balanced_run {id : LockerId} {maxBytes : Nat} {rows : List (Bytes × Option Bytes)}
    {index : KeySet} {acts : List AccountAct} {a : Accounts}
    (clean : CleanRun id ⟨.opened id maxBytes rows index, none⟩ acts)
    (h : Accounts.run id ⟨.opened id maxBytes rows index, none⟩ acts = some a) : a.lru.Balanced := by
  have hstart : Accounts.Inv ⟨.opened id maxBytes rows index, none⟩ :=
    ⟨LruState.balanced_opened _ _ _ _, fun _ _ hb => nomatch hb⟩
  exact (hstart.run clean h).balanced

/-- News of the key that is being written leaves the rest alone. -/
theorem balanced_run_sameKey : ∃ a, Accounts.run 7 ⟨.opened 7 100 [] ∅, none⟩
    [.plan 1 [.put [1] [0, 0]], .remotePut [1] (some 5), .land] = some a ∧ a.lru.Balanced := by
  refine ⟨_, rfl, @balanced_run 7 100 [] ∅
    [.plan 1 [.put [1] [0, 0]], .remotePut [1] (some 5), .land] _ ⟨⟨.inr (.inl fun key h => absurd h ?_), ?_⟩, fun a₁ h₁ => ?_⟩ rfl⟩
  · exact List.not_duplicate_nil _
  · exact Accounting.small_of_le (by decide)
  · obtain rfl := Option.some.inj h₁
    refine ⟨by change _ + 5 ≤ _; decide, fun a₂ h₂ => ?_⟩
    obtain rfl := Option.some.inj h₂
    refine ⟨fun seen budget hb => ?_, fun a₃ _ => trivial⟩
    obtain ⟨rfl, rfl⟩ := Prod.mk.inj (Option.some.inj hb)
    exact .inr (by decide)

/-- News of another key between the plan and its landing: the total forgets the five bytes. -/
theorem not_balanced_run : ∃ a, Accounts.run 7 ⟨.opened 7 100 [] ∅, none⟩
    [.plan 1 [.put [1] [0, 0]], .remotePut [2] (some 5), .land] = some a ∧
      a.lru.total = 2 ∧ weight Entry.bytes a.lru.entries = 7 := by
  refine ⟨_, rfl, ?_⟩
  decide

end Crossbank
