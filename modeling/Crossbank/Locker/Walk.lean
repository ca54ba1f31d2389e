import Crossbank.Locker.Inner

/-!
# What a walk visits

* `Inner.entries` : the records of a locker inside two bounds, by user key;
* `mem_entries` : they are exactly the stored records whose user key is in the bounds;
* `walk_run` : a walk that returns has visited exactly these, in order;
* `walk_eval` : with more pages to follow than records to visit, a walk that is answered ends.
-/

namespace Crossbank
open Async

namespace Inner
variable {T ρ σ : Type} (inner : Inner T)

/-- The records of the locker inside the bounds, by user key, in byte order. -/
def entries (db : Tables) (start stop : Bound Bytes) : List (Bytes × Bytes) :=
  (Tree.inRange db.records (encodeRangeBytes inner.id start stop)).map fun e =>
    (e.1.drop PREFIX_LEN, e.2)

@[simp] theorem drop_encodeBytes (locker : LockerId) (key : Bytes) :
    (encodeBytes locker key).drop PREFIX_LEN = key := by
  rw [encodeBytes, PREFIX_LEN, List.drop_append_of_le_length (by simp),
    List.drop_of_length_le (by simp), List.nil_append]

/-- The records inside the bounds. -/
theorem mem_entries {db : Tables} {start stop : Bound Bytes} {key raw : Bytes} :
    (key, raw) ∈ inner.entries db start stop ↔
      db.lookup .records (inner.encodeKey key) = some raw ∧ inBounds key start stop = true := by
  rw [entries, List.mem_map]
  constructor
  · rintro ⟨e, he, heq⟩
    obtain ⟨hlook, hin⟩ := Tree.mem_inRange.1 he
    obtain ⟨k, hk⟩ := exists_of_contains_encodeRangeBytes hin
    rw [hk, drop_encodeBytes, Prod.mk.injEq] at heq
    obtain ⟨rfl, rfl⟩ := heq
    rw [hk] at hlook hin
    exact ⟨hlook, contains_encodeRangeBytes inner.id start stop k ▸ hin⟩
  · rintro ⟨hlook, hin⟩
    refine ⟨(inner.encodeKey key, raw), Tree.mem_inRange.2 ⟨hlook, ?_⟩, ?_⟩
    · show (encodeRangeBytes inner.id start stop).contains (encodeBytes inner.id key) = true
      rw [contains_encodeRangeBytes, hin]
    · show ((encodeBytes inner.id key).drop PREFIX_LEN, raw) = (key, raw)
      rw [drop_encodeBytes]

theorem entries_ascending (db : Tables) (start stop : Bound Bytes) :
    (inner.entries db start stop).Pairwise fun a b => compare a.1 b.1 = .lt := by
  rw [entries, List.pairwise_map]
  refine (Tree.inRange_ascending db.records _).imp_of_mem fun {a b} ha hb hlt => ?_
  obtain ⟨k, hk⟩ := exists_of_contains_encodeRangeBytes (Tree.mem_inRange.1 ha).2
  obtain ⟨l, hl⟩ := exists_of_contains_encodeRangeBytes (Tree.mem_inRange.1 hb).2
  rw [hk, hl, compare_encodeBytes] at hlt
  rw [hk, hl, drop_encodeBytes, drop_encodeBytes]
  exact hlt

theorem entries_of_isDegenerate {db : Tables} {start stop : Bound Bytes}
    (h : isDegenerate start stop = true) : inner.entries db start stop = [] := by
  rw [List.eq_nil_iff_forall_not_mem]
  rintro ⟨key, raw⟩ hmem
  have h1 := ((mem_entries inner).1 hmem).2
  rw [inBounds_of_isDegenerate h] at h1
  cases h1

/-! ## Pages -/

theorem visitPage_append (visit : σ → Bytes → Option Bytes → Except Error σ)
    (a b : List (Bytes × Option Bytes)) (acc : σ) :
    inner.visitPage visit (a ++ b) acc =
      inner.visitPage visit a acc >>= fun acc => inner.visitPage visit b acc := List.foldlM_append

/-- Visiting stored entries is visiting them by user key. -/
theorem visitPage_shown (visit : σ → Bytes → Option Bytes → Except Error σ) (wantValues : Bool)
    {l : List (Bytes × Bytes)} (own : ∀ e ∈ l, ∃ k, e.1 = encodeBytes inner.id k) (acc : σ) :
    inner.visitPage visit (l.map (shown wantValues)) acc =
      (l.map fun e => (e.1.drop PREFIX_LEN, e.2)).foldlM
        (fun acc e => visit acc e.1 (if wantValues then some e.2 else none)) acc := by
  induction l generalizing acc with
  | nil => rfl
  | cons e l ih =>
    obtain ⟨k, hk⟩ := own e List.mem_cons_self
    have hown := fun e he => own e (List.mem_cons_of_mem _ he)
    simp only [visitPage, List.map_cons, List.foldlM_cons] at ih ⊢
    rw [shown, hk, drop_encodeBytes, decodeBytes_encodeBytes]
    refine congrArg (visit acc k _ >>= ·) (funext fun acc => ?_)
    exact ih hown acc

theorem zoom_scan {τ : Type} {l : Part τ ρ} {request : ScanRequest} :
    (Backend.scan request : Io ρ ScanPage).zoom l = Backend.scan request := by
  unfold Backend.scan
  rw [Prog.zoom_bind, Prog.zoom_ask]
  refine congrArg _ (funext fun x => ?_)
  exact Prog.zoom_ofExcept

/-- A walk touches no memory. -/
theorem zoom_walkPages {τ : Type} {l : Part τ ρ} {reverse wantValues : Bool}
    {visit : σ → Bytes → Option Bytes → Except Error σ} {fuel : Nat} {range : KeyRange} {acc : σ} :
    (inner.walkPages reverse wantValues visit fuel range acc : Io ρ σ).zoom l =
      inner.walkPages reverse wantValues visit fuel range acc := by
  induction fuel generalizing range acc with
  | zero => rfl
  | succ fuel ih =>
    unfold walkPages
    rw [Prog.zoom_bind, zoom_scan]
    refine congrArg _ (funext fun page => ?_)
    rw [Prog.zoom_bind, Prog.zoom_ofExcept]
    refine congrArg _ (funext fun acc => ?_)
    split
    · exact ih
    · rfl

theorem zoom_walk {τ : Type} {l : Part τ ρ} {start stop : Bound Bytes} {reverse wantValues : Bool}
    {visit : σ → Bytes → Option Bytes → Except Error σ} {acc : σ} :
    (inner.walk start stop reverse wantValues visit acc : Io ρ σ).zoom l =
      inner.walk start stop reverse wantValues visit acc := by
  unfold walk
  split
  · rfl
  · exact zoom_walkPages inner

section
variable [WriteLock ρ] {m m' : Machine Tables ρ} {reverse wantValues : Bool}
  {visit : σ → Bytes → Option Bytes → Except Error σ}

theorem walkPages_run {fuel : Nat} {range : KeyRange} {acc acc' : σ}
    (h : Run Served (inner.walkPages reverse wantValues visit fuel range acc) m (.ok acc') m') :
    inner.visitPage visit ((Tree.inOrder reverse m.dev.records range).map (shown wantValues)) acc =
      .ok acc' := by
  induction fuel generalizing range acc m with
  | zero => exact absurd h run_stuck
  | succ fuel ih =>
    obtain ⟨page, m₁, hscan, hvisits⟩ := run_bind_ok.1 h
    obtain ⟨rfl, hpage⟩ := run_scan.1 hscan
    obtain rfl := hpage page rfl
    obtain ⟨acc₁, m₂, hvisit, hrest⟩ := run_bind_ok.1 hvisits
    obtain ⟨hacc, rfl⟩ := run_ofExcept.1 hvisit
    dsimp only at hrest
    split at hrest
    · next last hresume =>
      have hall := (scanTree_next hresume).1
      dsimp only at hall
      rw [show m₂.dev.records = m₂.dev.get .records from rfl, hall, visitPage_append, ← hacc]
      exact ih hrest
    · next hresume =>
      have hall := scanTree_last inner.backend.scanPageSize_pos hresume
      dsimp only at hall
      rw [show m₂.dev.records = m₂.dev.get .records from rfl, ← hall, ← hacc]
      exact (run_pure.1 hrest).1.symm

theorem own_of_mem_inOrder {tree : Tree} {start stop : Bound Bytes} {e : Bytes × Bytes}
    (he : e ∈ Tree.inOrder reverse tree (encodeRangeBytes inner.id start stop)) :
    ∃ k, e.1 = encodeBytes inner.id k := by
  have hin : e ∈ Tree.inRange tree (encodeRangeBytes inner.id start stop) := by
    rw [Tree.inOrder] at he
    split at he
    · exact List.mem_reverse.1 he
    · exact he
  exact exists_of_contains_encodeRangeBytes (Tree.mem_inRange.1 hin).2

def entriesInOrder (reverse : Bool) (db : Tables) (start stop : Bound Bytes) :
    List (Bytes × Bytes) :=
  if reverse then (inner.entries db start stop).reverse else inner.entries db start stop

theorem map_inOrder (db : Tables) (start stop : Bound Bytes) :
    (Tree.inOrder reverse db.records (encodeRangeBytes inner.id start stop)).map
      (fun e => (e.1.drop PREFIX_LEN, e.2)) = inner.entriesInOrder reverse db start stop := by
  rw [entriesInOrder, Tree.inOrder, entries]
  split
  · rw [List.map_reverse]
  · rfl

/-- A walk that returns has visited exactly the records inside its bounds, in order. -/
theorem walk_run {start stop : Bound Bytes} {acc acc' : σ}
    (h : Run Served (inner.walk start stop reverse wantValues visit acc) m (.ok acc') m') :
    (inner.entriesInOrder reverse m.dev start stop).foldlM
      (fun acc e => visit acc e.1 (if wantValues then some e.2 else none)) acc = .ok acc' := by
  rw [walk] at h
  split at h
  · next hdeg =>
    obtain ⟨hacc, -⟩ := run_pure.1 h
    obtain rfl := Except.ok.inj hacc
    rw [entriesInOrder, entries_of_isDegenerate inner hdeg]
    simp only [List.reverse_nil, ite_self]
    rfl
  · rw [← map_inOrder, ← visitPage_shown inner visit wantValues fun e => own_of_mem_inOrder inner]
    exact walkPages_run inner h

/-- The keys that a walk has put in a set. -/
theorem contains_of_visited {db : Tables} {index index' : KeySet}
    (h : (inner.entriesInOrder false db .unbounded .unbounded).foldlM
      (fun (index : KeySet) e => (.ok (index.insert e.1) : Except Error KeySet)) index = .ok index')
    (key : Bytes) : index'.contains key =
      (index.contains key || (db.lookup .records (inner.encodeKey key)).isSome) := by
  have fold (l : List (Bytes × Bytes)) (index : KeySet)
      (h : l.foldlM (fun (index : KeySet) e => (.ok (index.insert e.1) : Except Error KeySet)) index =
        .ok index') : index'.contains key = (index.contains key || l.any (·.1 = key)) := by
    induction l generalizing index with
    | nil =>
      obtain rfl := pure_eq_ok.1 h
      simp
    | cons e l ih =>
      rw [List.foldlM_cons] at h
      rw [ih _ h, Std.ExtTreeSet.contains_insert, List.any_cons, ← Bool.or_assoc]
      congr 1
      rw [Bool.or_comm]
      congr 1
      rw [Bool.eq_iff_iff]
      simp
  rw [fold _ index h, entriesInOrder, if_neg Bool.false_ne_true]
  congr 1
  rw [Bool.eq_iff_iff, List.any_eq_true, Option.isSome_iff_exists]
  constructor
  · rintro ⟨e, he, hk⟩
    obtain rfl := of_decide_eq_true hk
    exact ⟨e.2, ((mem_entries inner).1 he).1⟩
  · rintro ⟨raw, hraw⟩
    exact ⟨(key, raw), (mem_entries inner).2 ⟨hraw, rfl⟩, by simp⟩

theorem walkPages_eval {fuel : Nat} {range : KeyRange} {acc : σ}
    (enough : (Tree.inOrder reverse m.dev.records range).length < fuel) :
    Run Answered (inner.walkPages reverse wantValues visit fuel range acc) m
      (inner.visitPage visit ((Tree.inOrder reverse m.dev.records range).map (shown wantValues)) acc)
      m := by
  induction fuel generalizing range acc with
  | zero => omega
  | succ fuel ih =>
    have hscan : Run Answered
        (Backend.scan ⟨.records, range, reverse, inner.backend.scanPageSize, wantValues⟩) m
        (.ok (scanTree m.dev.records ⟨.records, range, reverse, inner.backend.scanPageSize, wantValues⟩))
        m := answered_scan.2 ⟨rfl, rfl⟩
    rw [walkPages]
    cases hresume : (scanTree m.dev.records ⟨.records, range, reverse,
        inner.backend.scanPageSize, wantValues⟩).resume with
    | some last =>
      obtain ⟨hall, hne⟩ := scanTree_next hresume
      dsimp only at hall
      have hlen := congrArg List.length hall
      rw [List.length_map, List.length_append, List.length_map] at hlen
      have hpos := List.length_pos_iff.2 hne
      rw [hall, visitPage_append]
      refine run_bind.2 (.inl ⟨_, m, hscan, (run_ofExcept.2 ⟨rfl, rfl⟩).seq fun acc' _ => ?_⟩)
      rw [hresume]
      refine ih ?_
      change (Tree.inOrder reverse m.dev.records (range.after reverse last)).length < fuel
      omega
    | none =>
      have hall := scanTree_last inner.backend.scanPageSize_pos hresume
      dsimp only at hall
      rw [← hall]
      refine run_bind.2 (.inl ⟨_, m, hscan, ?_⟩)
      rw [hresume]
      exact (run_map.2 ⟨_, run_ofExcept.2 ⟨rfl, rfl⟩, by cases inner.visitPage _ _ _ <;> rfl⟩)

/-- A walk that is answered ends, when it may follow more pages than there are records. -/
theorem walk_eval {start stop : Bound Bytes} {acc : σ}
    (enough : (inner.entries m.dev start stop).length < inner.backend.walkFuel) :
    Run Answered (inner.walk start stop reverse wantValues visit acc) m
      ((inner.entriesInOrder reverse m.dev start stop).foldlM
        (fun acc e => visit acc e.1 (if wantValues then some e.2 else none)) acc) m := by
  rw [walk]
  split
  · next hdeg =>
    rw [entriesInOrder, entries_of_isDegenerate inner hdeg]
    simp only [List.reverse_nil, ite_self]
    exact run_pure.2 ⟨rfl, rfl⟩
  · rw [← map_inOrder, ← visitPage_shown inner visit wantValues fun e => own_of_mem_inOrder inner]
    refine walkPages_eval inner (lt_of_eq_of_lt ?_ enough)
    rw [entries, List.length_map, Tree.inOrder]
    split
    · exact List.length_reverse
    · rfl

end

end Inner
end Crossbank
