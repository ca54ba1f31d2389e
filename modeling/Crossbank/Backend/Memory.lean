import Crossbank.Backend.Api

/-!
# Ordered byte maps with an atomic commit

* `Tables` : the three tables; `Tables.apply`, `Tables.commit` : one mutation, and a list of them;
* `scanTree` : one page of a scan;
* `Served q m x m'` : the request `q` may be answered by `x` on the machine `m`, leaving `m'`;
* `Answered q m x m'` : it is, by a backend that works;
* `served`, `refused` : what a call leaves that is served, and one whose commit fails;
* `written ops table key` : what a list of mutations leaves under a key (`lookup_commit`);
* `scanTree_next` : a page and the pages after it are the whole range.
-/

namespace Crossbank
open Async

abbrev Tree := Std.ExtTreeMap Bytes Bytes compare

structure Tables where
  metadata : Tree
  records : Tree
  chunks : Tree
  deriving DecidableEq

namespace Tables

def empty : Tables := ⟨∅, ∅, ∅⟩

def get (t : Tables) : Table → Tree
  | .meta => t.metadata
  | .records => t.records
  | .chunks => t.chunks

def modify (t : Tables) (table : Table) (f : Tree → Tree) : Tables :=
  match table with
  | .meta => { t with metadata := f t.metadata }
  | .records => { t with records := f t.records }
  | .chunks => { t with chunks := f t.chunks }

def lookup (t : Tables) (table : Table) (key : Bytes) : Option Bytes := (t.get table)[key]?

def apply (t : Tables) : Op → Tables
  | .put table key value => t.modify table (·.insert key value)
  | .delete table key => t.modify table (·.erase key)
  | .deleteRange table range => t.modify table (·.filter fun key _ => !range.contains key)

def commit (t : Tables) (ops : List Op) : Tables := ops.foldl apply t

end Tables

def Tree.inRange (tree : Tree) (range : KeyRange) : List (Bytes × Bytes) :=
  tree.toList.filter fun e => range.contains e.1

/-- The entries inside a range in the order of a scan. -/
def Tree.inOrder (reverse : Bool) (tree : Tree) (range : KeyRange) : List (Bytes × Bytes) :=
  if reverse then (Tree.inRange tree range).reverse else Tree.inRange tree range

def shown (wantValues : Bool) (e : Bytes × Bytes) : Bytes × Option Bytes :=
  (e.1, if wantValues then some e.2 else none)

/-- One page. `resume` is the last key returned, and only a full page has one. -/
def scanTree (tree : Tree) (request : ScanRequest) : ScanPage :=
  let page := (Tree.inOrder request.reverse tree request.range).take request.limit
  { items := page.map (shown request.wantValues)
    resume := if page.length < request.limit then none else page.getLast?.map Prod.fst }

/-- A memory with a write lock in it: what it becomes when the lock is taken, unless it is held. -/
class WriteLock (ρ : Type) where
  acquire : ρ → Option ρ

/-- The answers a request may get. Any backend call may fail, with any error; one that fails has
left the store as it was. -/
def Served {ρ : Type} [WriteLock ρ] : (q : Req) → Machine Tables ρ → Resp q → Machine Tables ρ → Prop
  | .get table key, m, x, m' => m' = m ∧ ∀ v, x = .ok v → v = m.dev.lookup table key
  | .getMany table keys, m, x, m' =>
    m' = m ∧ ∀ vs, x = .ok vs → vs = keys.map (m.dev.lookup table)
  | .scan request, m, x, m' =>
    m' = m ∧ ∀ page, x = .ok page → page = scanTree (m.dev.get request.table) request
  | .commit ops _, m, x, m' =>
    (x = .ok () ∧ m' = { m with dev := m.dev.commit ops }) ∨ ∃ e, x = .error e ∧ m' = m
  | .flush, m, _, m' => m' = m
  | .lock, m, _, m' => ∃ s, WriteLock.acquire m.mem = some s ∧ m' = { m with mem := s }
  | .idle, m, _, m' => m' = m

/-- The `n`th answer: the call succeeds for `n = 0`, and fails otherwise. -/
def serve {ρ : Type} [WriteLock ρ] (n : Nat) :
    (q : Req) → Machine Tables ρ → Option (Resp q × Machine Tables ρ)
  | .get table key, m =>
    some (if n = 0 then .ok (m.dev.lookup table key) else .error (.backend "failed"), m)
  | .getMany table keys, m =>
    some (if n = 0 then .ok (keys.map (m.dev.lookup table)) else .error (.backend "failed"), m)
  | .scan request, m =>
    some (if n = 0 then .ok (scanTree (m.dev.get request.table) request)
      else .error (.backend "failed"), m)
  | .commit ops _, m =>
    if n = 0 then some (.ok (), { m with dev := m.dev.commit ops })
    else some (.error (.backend "failed"), m)
  | .flush, m => some (if n = 0 then .ok () else .error (.backend "failed"), m)
  | .lock, m => (WriteLock.acquire m.mem).map fun s => ((), { m with mem := s })
  | .idle, m => some ((), m)

theorem serve_sound {ρ : Type} [WriteLock ρ] (n : Nat) (q : Req) (m : Machine Tables ρ)
    (x : Resp q) (m' : Machine Tables ρ) (h : serve n q m = some (x, m')) : Served q m x m' := by
  cases q with
  | get table key =>
    simp only [serve, Option.some.injEq, Prod.mk.injEq] at h
    obtain ⟨rfl, rfl⟩ := h
    refine ⟨rfl, fun v hv => ?_⟩
    split at hv
    · exact (Except.ok.inj hv).symm
    · cases hv
  | getMany table keys =>
    simp only [serve, Option.some.injEq, Prod.mk.injEq] at h
    obtain ⟨rfl, rfl⟩ := h
    refine ⟨rfl, fun v hv => ?_⟩
    split at hv
    · exact (Except.ok.inj hv).symm
    · cases hv
  | scan request =>
    simp only [serve, Option.some.injEq, Prod.mk.injEq] at h
    obtain ⟨rfl, rfl⟩ := h
    refine ⟨rfl, fun v hv => ?_⟩
    split at hv
    · exact (Except.ok.inj hv).symm
    · cases hv
  | commit ops options =>
    simp only [serve] at h
    split at h
    · cases h
      exact .inl ⟨rfl, rfl⟩
    · cases h
      exact .inr ⟨_, rfl, rfl⟩
  | flush =>
    simp only [serve, Option.some.injEq, Prod.mk.injEq] at h
    exact h.2.symm
  | lock =>
    obtain ⟨s, hs, hm⟩ := Option.map_eq_some_iff.1 h
    exact ⟨s, hs, (congrArg Prod.snd hm).symm⟩
  | idle =>
    simp only [serve, Option.some.injEq, Prod.mk.injEq] at h
    exact h.2.symm

def Answered {ρ : Type} [WriteLock ρ] (q : Req) (m : Machine Tables ρ) (x : Resp q)
    (m' : Machine Tables ρ) : Prop := serve 0 q m = some (x, m')

/-! ## Calls that are served -/

section
variable {α ρ : Type} [WriteLock ρ]

/-- What a call leaves that is served and returns. -/
def served (p : Io ρ α) (m : Machine Tables ρ) : Option (α × Machine Tables ρ) := do
  let (r, m') ← p.eval (serve 0) m
  return (← r.toOption, m')

theorem run_of_served {p : Io ρ α} {m : Machine Tables ρ} {x : α × Machine Tables ρ}
    (h : served p m = some x) : Run Served p m (.ok x.1) x.2 := by
  obtain ⟨⟨r, m'⟩, heval, hr⟩ := Option.bind_eq_some_iff.1 h
  cases r with
  | error e => cases hr
  | ok a =>
    obtain rfl := Option.some.inj hr
    exact Prog.eval_run (serve_sound 0) heval

def refuseCommits : (q : Req) → Machine Tables ρ → Option (Resp q × Machine Tables ρ)
  | .commit ops options, m => serve 1 (.commit ops options) m
  | q, m => serve 0 q m

theorem refuseCommits_sound (q : Req) (m : Machine Tables ρ) (x : Resp q) (m' : Machine Tables ρ)
    (h : refuseCommits q m = some (x, m')) : Served q m x m' := by
  cases q with
  | commit ops options => exact serve_sound 1 _ _ _ _ h
  | get | getMany | scan | flush | lock | idle => exact serve_sound 0 _ _ _ _ h

/-- What a call leaves that fails when its commit does. -/
def refused (p : Io ρ α) (m : Machine Tables ρ) : Option (Error × Machine Tables ρ) := do
  let (r, m') ← p.eval refuseCommits m
  match r with
  | .error e => some (e, m')
  | .ok _ => none

theorem run_of_refused {p : Io ρ α} {m : Machine Tables ρ} {x : Error × Machine Tables ρ}
    (h : refused p m = some x) : Run Served p m (.error x.1) x.2 := by
  obtain ⟨⟨r, m'⟩, heval, hr⟩ := Option.bind_eq_some_iff.1 h
  cases r with
  | ok a => cases hr
  | error e =>
    obtain rfl := Option.some.inj hr
    exact Prog.eval_run refuseCommits_sound heval

end

/-! ## What a commit leaves under a key -/

/-- What one mutation leaves under a key, or nothing when it does not touch the key. -/
def Op.written (table : Table) (key : Bytes) : Op → Option (Option Bytes)
  | .put t k v => if t = table ∧ k = key then some (some v) else none
  | .delete t k => if t = table ∧ k = key then some none else none
  | .deleteRange t r => if t = table ∧ r.contains key = true then some none else none

/-- What the last mutation that touches a key leaves under it. -/
def written (ops : List Op) (table : Table) (key : Bytes) : Option (Option Bytes) :=
  ops.foldl (fun w op => (op.written table key).or w) none

theorem foldl_written (ops : List Op) (table : Table) (key : Bytes) (w : Option (Option Bytes)) :
    ops.foldl (fun w op => (op.written table key).or w) w = (written ops table key).or w := by
  induction ops generalizing w with
  | nil => simp [written]
  | cons op ops ih =>
    simp only [written, List.foldl_cons]
    rw [ih, ih ((op.written table key).or none), Option.or_assoc, Option.or_none]

@[simp] theorem written_nil (table : Table) (key : Bytes) : written [] table key = none := rfl

theorem written_cons (op : Op) (ops : List Op) (table : Table) (key : Bytes) :
    written (op :: ops) table key = (written ops table key).or (op.written table key) := by
  rw [written, List.foldl_cons, foldl_written, Option.or_none]

theorem written_append (a b : List Op) (table : Table) (key : Bytes) :
    written (a ++ b) table key = (written b table key).or (written a table key) := by
  rw [written, List.foldl_append, foldl_written]
  rfl

theorem written_eq_none {ops : List Op} {table : Table} {key : Bytes} :
    written ops table key = none ↔ ∀ op ∈ ops, op.written table key = none := by
  induction ops with
  | nil => simp
  | cons op ops ih => simp [written_cons, ih, and_comm]

namespace Tables

theorem lookup_apply (t : Tables) (op : Op) (table : Table) (key : Bytes) :
    (t.apply op).lookup table key = (op.written table key).getD (t.lookup table key) := by
  cases op with
  | put t' k v =>
    by_cases hk : k = key
    · subst hk
      cases t' <;> cases table <;> simp [apply, modify, lookup, get, Op.written]
    · cases t' <;> cases table <;>
        simp [apply, modify, lookup, get, Op.written, hk, Std.ExtTreeMap.getElem?_insert]
  | delete t' k =>
    by_cases hk : k = key
    · subst hk
      cases t' <;> cases table <;> simp [apply, modify, lookup, get, Op.written]
    · cases t' <;> cases table <;>
        simp [apply, modify, lookup, get, Op.written, hk, Std.ExtTreeMap.getElem?_erase]
  | deleteRange t' r =>
    have hf (o : Option Bytes) : o.filter (fun _ => true) = o := by cases o <;> rfl
    cases t' <;> cases table <;> cases hc : r.contains key <;>
      simp [apply, modify, lookup, get, Op.written, hc, hf]

/-- What a commit leaves under a key: what its last mutation of the key wrote. -/
theorem lookup_commit (t : Tables) (ops : List Op) (table : Table) (key : Bytes) :
    (t.commit ops).lookup table key = (Crossbank.written ops table key).getD (t.lookup table key) := by
  induction ops generalizing t with
  | nil => rfl
  | cons op ops ih =>
    have hc : t.commit (op :: ops) = (t.apply op).commit ops := rfl
    rw [hc, ih, lookup_apply, written_cons]
    cases Crossbank.written ops table key <;> rfl

theorem lookup_commit_of_not_written {t : Tables} {ops : List Op} {table : Table} {key : Bytes}
    (h : ∀ op ∈ ops, op.written table key = none) :
    (t.commit ops).lookup table key = t.lookup table key := by
  rw [lookup_commit, written_eq_none.2 h]
  rfl

end Tables

/-! ## Scans -/

namespace Tree

theorem mem_inRange {tree : Tree} {range : KeyRange} {e : Bytes × Bytes} :
    e ∈ inRange tree range ↔ tree[e.1]? = some e.2 ∧ range.contains e.1 = true := by
  rw [inRange, List.mem_filter, ← Std.ExtTreeMap.mem_toList_iff_getElem?_eq_some]

theorem inRange_ascending (tree : Tree) (range : KeyRange) :
    (inRange tree range).Pairwise fun a b => compare a.1 b.1 = .lt :=
  List.Pairwise.filter _ Std.ExtTreeMap.ordered_keys_toList

/-- Excluding a key below all of a range's keys from one on leaves the entries after it. -/
theorem inRange_excluded {tree : Tree} {range : KeyRange} {key : Bytes}
    (hkey : range.contains key = true) :
    inRange tree { range with start := .excluded key } =
      (inRange tree range).filter fun e => compare key e.1 = .lt := by
  rw [inRange, inRange, List.filter_filter]
  refine List.filter_congr fun e _ => ?_
  simp only [KeyRange.contains, Bound.below.eq_3]
  by_cases hlt : compare key e.1 = .lt
  · have hstart : range.start.below e.1 = true := by
      simp only [KeyRange.contains, Bool.and_eq_true] at hkey
      cases hs : range.start with
      | unbounded => rfl
      | included s =>
        have h1 : (compare s key).isLE = true := by simpa [hs, Bound.below] using hkey.1
        exact Ordering.isLE_iff_eq_lt_or_eq_eq.2
          (.inl (Std.TransCmp.lt_of_isLE_of_lt h1 hlt))
      | excluded s =>
        have h1 : compare s key = .lt := by simpa [hs, Bound.below] using hkey.1
        simpa [Bound.below] using Std.TransCmp.lt_trans h1 hlt
    simp [hlt, hstart]
  · simp [hlt]

/-- Excluding a key above all of a range's keys from one on leaves the entries before it. -/
theorem inRange_excluded_stop {tree : Tree} {range : KeyRange} {key : Bytes}
    (hkey : range.contains key = true) :
    inRange tree { range with stop := .excluded key } =
      (inRange tree range).filter fun e => compare e.1 key = .lt := by
  rw [inRange, inRange, List.filter_filter]
  refine List.filter_congr fun e _ => ?_
  simp only [KeyRange.contains, Bound.above.eq_3]
  by_cases hlt : compare e.1 key = .lt
  · have hstop : range.stop.above e.1 = true := by
      simp only [KeyRange.contains, Bool.and_eq_true] at hkey
      cases hs : range.stop with
      | unbounded => rfl
      | included s =>
        have h1 : (compare key s).isLE = true := by simpa [hs, Bound.above] using hkey.2
        exact Ordering.isLE_iff_eq_lt_or_eq_eq.2
          (.inl (Std.TransCmp.lt_of_lt_of_isLE hlt h1))
      | excluded s =>
        have h1 : compare key s = .lt := by simpa [hs, Bound.above] using hkey.2
        simpa [Bound.above] using Std.TransCmp.lt_trans hlt h1
    simp [hlt, hstop]
  · simp [hlt]

theorem filter_after {α : Type} {R : α → α → Prop} [DecidableRel R] (irrefl : ∀ a, ¬ R a a)
    (asymm : ∀ a b, R a b → ¬ R b a) {l : List α} (sorted : l.Pairwise R) {n : Nat} {last : α}
    (hlast : (l.take n).getLast? = some last) : l.filter (fun e => R last e) = l.drop n := by
  obtain ⟨init, hinit⟩ := List.getLast?_eq_some_iff.1 hlast
  have hl : l = init ++ [last] ++ l.drop n := by rw [← hinit, List.take_append_drop]
  rw [hl, List.pairwise_append, List.pairwise_append] at sorted
  obtain ⟨⟨_, _, hbefore⟩, _, hafter⟩ := sorted
  have hfront : (init ++ [last]).filter (fun e => R last e) = [] := by
    rw [List.filter_eq_nil_iff]
    intro e he
    rcases List.mem_append.1 he with he | he
    · have h1 := asymm _ _ (hbefore e he last (List.mem_singleton_self _))
      simpa using h1
    · obtain rfl := List.mem_singleton.1 he
      simpa using irrefl e
  have hback : (l.drop n).filter (fun e => R last e) = l.drop n := by
    rw [List.filter_eq_self]
    intro e he
    simpa using hafter last (by simp) e he
  calc l.filter (fun e => R last e)
      = (init ++ [last] ++ l.drop n).filter (fun e => R last e) := by rw [← hl]
    _ = l.drop n := by rw [List.filter_append, hfront, hback, List.nil_append]

end Tree

theorem Tree.compare_irrefl (a : Bytes × Bytes) : ¬ compare a.1 a.1 = .lt := by simp

theorem Tree.compare_asymm (a b : Bytes × Bytes) (h : compare a.1 b.1 = .lt) :
    ¬ compare b.1 a.1 = .lt := by simp [Std.OrientedCmp.gt_of_lt h]

/-- What is left of a range after a page that ended at `last`. -/
def KeyRange.after (reverse : Bool) (range : KeyRange) (last : Bytes) : KeyRange :=
  if reverse then { range with stop := .excluded last } else { range with start := .excluded last }

/-- A page, then the range from its resume key on, are the whole range. -/
theorem Tree.inOrder_after {tree : Tree} {range : KeyRange} {reverse : Bool} {limit : Nat}
    {last : Bytes × Bytes}
    (hlast : ((Tree.inOrder reverse tree range).take limit).getLast? = some last) :
    Tree.inOrder reverse tree range = (Tree.inOrder reverse tree range).take limit ++
      Tree.inOrder reverse tree (range.after reverse last.1) := by
  have hmem : last ∈ Tree.inOrder reverse tree range :=
    List.mem_of_mem_take (List.mem_of_getLast? hlast)
  cases reverse with
  | false =>
    simp only [Tree.inOrder, KeyRange.after, Bool.false_eq_true, if_false] at hlast hmem ⊢
    rw [Tree.inRange_excluded (Tree.mem_inRange.1 hmem).2,
      Tree.filter_after Tree.compare_irrefl Tree.compare_asymm
        (Tree.inRange_ascending tree range) hlast,
      List.take_append_drop]
  | true =>
    simp only [Tree.inOrder, KeyRange.after, if_true] at hlast hmem ⊢
    rw [Tree.inRange_excluded_stop (Tree.mem_inRange.1 (List.mem_reverse.1 hmem)).2,
      ← List.filter_reverse,
      Tree.filter_after Tree.compare_irrefl (fun a b => Tree.compare_asymm b a)
        (List.pairwise_reverse.2 (Tree.inRange_ascending tree range)) hlast,
      List.take_append_drop]

theorem KeyRange.contains_of_after {range : KeyRange} {reverse : Bool} {last key : Bytes}
    (hlast : range.contains last = true) (h : (range.after reverse last).contains key = true) :
    range.contains key = true := by
  -- An entry under the key is one of the rest of the range, hence of the range.
  have hget : ((∅ : Tree).insert key [])[key]? = some [] := Std.ExtTreeMap.getElem?_insert_self
  have hmem : (key, []) ∈ Tree.inRange ((∅ : Tree).insert key []) (range.after reverse last) :=
    Tree.mem_inRange.2 ⟨hget, h⟩
  unfold KeyRange.after at hmem
  split at hmem
  · rw [Tree.inRange_excluded_stop hlast] at hmem
    exact (Tree.mem_inRange.1 (List.mem_of_mem_filter hmem)).2
  · rw [Tree.inRange_excluded hlast] at hmem
    exact (Tree.mem_inRange.1 (List.mem_of_mem_filter hmem)).2

/-- A range shows nothing of a tree but what is under its keys. -/
theorem Tree.inOrder_congr {tree tree' : Tree} {range : KeyRange} {reverse : Bool}
    (h : ∀ key, range.contains key = true → tree[key]? = tree'[key]?) :
    Tree.inOrder reverse tree range = Tree.inOrder reverse tree' range := by
  have same : Tree.inRange tree range = Tree.inRange tree' range := by
    have nodup (t : Tree) : (Tree.inRange t range).Nodup :=
      (Tree.inRange_ascending t range).imp fun {a b} hlt heq => by
        rw [heq] at hlt
        exact Tree.compare_irrefl b hlt
    refine List.Perm.eq_of_pairwise (fun a b _ _ hab hba => absurd hba (Tree.compare_asymm a b hab))
      (Tree.inRange_ascending tree range) (Tree.inRange_ascending tree' range)
      ((List.perm_ext_iff_of_nodup (nodup tree) (nodup tree')).2 fun e => ?_)
    rw [Tree.mem_inRange, Tree.mem_inRange]
    constructor
    · rintro ⟨he, hin⟩
      exact ⟨(h e.1 hin).symm.trans he, hin⟩
    · rintro ⟨he, hin⟩
      exact ⟨(h e.1 hin).trans he, hin⟩
  rw [Tree.inOrder, Tree.inOrder, same]

section Scan
variable {tree : Tree} {request : ScanRequest}

theorem scanTree_last (hpos : 0 < request.limit) (h : (scanTree tree request).resume = none) :
    (scanTree tree request).items =
      (Tree.inOrder request.reverse tree request.range).map (shown request.wantValues) := by
  simp only [scanTree] at h ⊢
  split at h
  · next hlt =>
    rw [List.length_take] at hlt
    rw [List.take_of_length_le (by omega)]
  · next hge =>
    rw [Option.map_eq_none_iff, List.getLast?_eq_none_iff] at h
    rw [h] at hge
    exact absurd hpos hge

/-- A page with a resume key, then the range after that key, are the whole range. The page
holds an entry. -/
theorem scanTree_next {last : Bytes} (h : (scanTree tree request).resume = some last) :
    (Tree.inOrder request.reverse tree request.range).map (shown request.wantValues) =
      (scanTree tree request).items ++ (Tree.inOrder request.reverse tree
        (request.range.after request.reverse last)).map (shown request.wantValues) ∧
    (scanTree tree request).items ≠ [] := by
  simp only [scanTree] at h ⊢
  split at h
  · cases h
  · obtain ⟨e, he, rfl⟩ := Option.map_eq_some_iff.1 h
    constructor
    · rw [← List.map_append, ← Tree.inOrder_after he]
    · intro hnil
      rw [List.map_eq_nil_iff] at hnil
      rw [hnil] at he
      cases he

theorem scanTree_congr {tree tree' : Tree} {request : ScanRequest}
    (h : ∀ key, request.range.contains key = true → tree[key]? = tree'[key]?) :
    scanTree tree request = scanTree tree' request := by
  rw [scanTree, scanTree, Tree.inOrder_congr h]

theorem contains_resume {tree : Tree} {request : ScanRequest} {last : Bytes}
    (h : (scanTree tree request).resume = some last) : request.range.contains last = true := by
  simp only [scanTree] at h
  split at h
  · cases h
  · obtain ⟨e, he, rfl⟩ := Option.map_eq_some_iff.1 h
    have hmem := List.mem_of_mem_take (List.mem_of_getLast? he)
    unfold Tree.inOrder at hmem
    split at hmem
    · exact (Tree.mem_inRange.1 (List.mem_reverse.1 hmem)).2
    · exact (Tree.mem_inRange.1 hmem).2

end Scan

/-! ## Backend calls, run alone -/

section Run
variable {ρ : Type} [WriteLock ρ] {m m' : Machine Tables ρ}

@[simp] theorem run_get {table : Table} {key : Bytes} {r : Except Error (Option Bytes)} :
    Run Served (Backend.get table key) m r m' ↔
      m' = m ∧ ∀ v, r = .ok v → v = m.dev.lookup table key := by
  simp [Backend.get, run_bind, Served]

@[simp] theorem run_getMany {table : Table} {keys : List Bytes}
    {r : Except Error (List (Option Bytes))} :
    Run Served (Backend.getMany table keys) m r m' ↔
      m' = m ∧ ∀ vs, r = .ok vs → vs = keys.map (m.dev.lookup table) := by
  simp [Backend.getMany, run_bind, Served]

@[simp] theorem run_scan {request : ScanRequest} {r : Except Error ScanPage} :
    Run Served (Backend.scan request) m r m' ↔
      m' = m ∧ ∀ page, r = .ok page → page = scanTree (m.dev.get request.table) request := by
  simp [Backend.scan, run_bind, Served]

@[simp] theorem run_commitWith {ops : List Op} {options : CommitOptions} {r : Except Error Unit} :
    Run Served (Backend.commitWith ops options) m r m' ↔
      (r = .ok () ∧ m' = { m with dev := m.dev.commit ops }) ∨ ∃ e, r = .error e ∧ m' = m := by
  simp [Backend.commitWith, run_bind, Served]

@[simp] theorem run_flush {r : Except Error Unit} :
    Run Served Backend.flush m r m' ↔ m' = m := by
  simp [Backend.flush, run_bind, Served]

end Run

/-! ## Backend calls of a backend that works -/

section Answered
variable {ρ α : Type} [WriteLock ρ] {m m' : Machine Tables ρ} {p : Io ρ α} {r : Except Error α}

theorem Answered.served (run : Run Answered p m r m') : Run Served p m r m' :=
  run.mono fun q m x m' h => serve_sound 0 q m x m' h

theorem Answered.one (q : Req) (m : Machine Tables ρ) (x : Resp q) (m₁ : Machine Tables ρ)
    (y : Resp q) (m₂ : Machine Tables ρ) (h₁ : Answered q m x m₁) (h₂ : Answered q m y m₂) :
    x = y ∧ m₁ = m₂ := by
  have h := Option.some.inj (h₁.symm.trans h₂)
  exact ⟨congrArg Prod.fst h, congrArg Prod.snd h⟩

@[simp] theorem answered_get {table : Table} {key : Bytes} {r : Except Error (Option Bytes)} :
    Run Answered (Backend.get table key) m r m' ↔ r = .ok (m.dev.lookup table key) ∧ m' = m := by
  simp [Backend.get, run_bind, Answered, serve, eq_comm]

@[simp] theorem answered_getMany {table : Table} {keys : List Bytes}
    {r : Except Error (List (Option Bytes))} :
    Run Answered (Backend.getMany table keys) m r m' ↔
      r = .ok (keys.map (m.dev.lookup table)) ∧ m' = m := by
  simp [Backend.getMany, run_bind, Answered, serve, eq_comm]

@[simp] theorem answered_scan {request : ScanRequest} {r : Except Error ScanPage} :
    Run Answered (Backend.scan request) m r m' ↔
      r = .ok (scanTree (m.dev.get request.table) request) ∧ m' = m := by
  simp [Backend.scan, run_bind, Answered, serve, eq_comm]

@[simp] theorem answered_commitWith {ops : List Op} {options : CommitOptions}
    {r : Except Error Unit} :
    Run Answered (Backend.commitWith ops options) m r m' ↔
      r = .ok () ∧ m' = { m with dev := m.dev.commit ops } := by
  simp [Backend.commitWith, run_bind, Answered, serve, eq_comm]

end Answered
end Crossbank
