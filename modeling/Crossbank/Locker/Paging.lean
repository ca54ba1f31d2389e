import Crossbank.Async.Total
import Crossbank.Locker.Listing

/-!
# Paging, whatever the backend

* `KeyRange.panics` : the ranges that an ordered map refuses;
* `Pages` : what a page of a scan must be, and `cursorScan` : the page of a cursor that peeks;
* `scanTree_pages`, `cursorScan_pages` : both ways to page are ways to page;
* `walkPages_total` : the pages of a walk;
* `walk_total` : a walk ends, and visits every record inside its bounds once and in order.
-/

namespace Crossbank
open Async

/-- `BTreeMap::range` panics on a range that starts above its end, and on one that excludes the key
it starts and ends at. -/
def KeyRange.panics (range : KeyRange) : Bool :=
  match range.start, range.stop with
  | .unbounded, _ | _, .unbounded => false
  | .included s, .included e | .included s, .excluded e | .excluded s, .included e =>
    compare s e = .gt
  | .excluded s, .excluded e => (compare s e).isGE

namespace KeyRange

/-- A range that holds a key is no such range. -/
theorem not_panics_of_contains {range : KeyRange} {key : Bytes} (h : range.contains key = true) :
    range.panics = false := by
  obtain ⟨start, stop⟩ := range
  rw [contains, Bool.and_eq_true] at h
  obtain ⟨low, high⟩ := h
  cases start with
  | unbounded => rfl
  | included s =>
    cases stop with
    | unbounded => rfl
    | included e =>
      have le : (compare s e).isLE = true := Std.TransCmp.isLE_trans low high
      simp [panics, Ordering.isLE_iff_ne_gt.1 le]
    | excluded e =>
      have lt : compare s e = .lt := Std.TransCmp.lt_of_isLE_of_lt low (of_decide_eq_true high)
      simp [panics, lt]
  | excluded s =>
    cases stop with
    | unbounded => rfl
    | included e =>
      have lt : compare s e = .lt := Std.TransCmp.lt_of_lt_of_isLE (of_decide_eq_true low) high
      simp [panics, lt]
    | excluded e =>
      have lt : compare s e = .lt :=
        Std.TransCmp.lt_trans (of_decide_eq_true low) (of_decide_eq_true high)
      simp [panics, lt]

/-- What is left of a range after one of its keys is no such range either. -/
theorem not_panics_after {range : KeyRange} {last : Bytes} (reverse : Bool)
    (h : range.contains last = true) : (range.after reverse last).panics = false := by
  obtain ⟨start, stop⟩ := range
  rw [contains, Bool.and_eq_true] at h
  obtain ⟨low, high⟩ := h
  cases reverse with
  | false =>
    show (KeyRange.mk (.excluded last) stop).panics = false
    cases stop with
    | unbounded => rfl
    | included e => simpa [panics, Bound.above, Ordering.isLE_iff_ne_gt] using high
    | excluded e =>
      have lt : compare last e = .lt := of_decide_eq_true high
      simp [panics, lt]
  | true =>
    show (KeyRange.mk start (.excluded last)).panics = false
    cases start with
    | unbounded => rfl
    | included s => simpa [panics, Bound.below, Ordering.isLE_iff_ne_gt] using low
    | excluded s =>
      have lt : compare s last = .lt := of_decide_eq_true low
      simp [panics, lt]

end KeyRange

/-- The range of a walk is no such range, unless its bounds are degenerate. -/
theorem not_panics_encodeRangeBytes (id : LockerId) {start stop : Bound Bytes}
    (h : isDegenerate start stop = false) : (encodeRangeBytes id start stop).panics = false := by
  have own (k : Bytes) : (lockerRange id).contains (encodeBytes id k) = true := by simp
  cases start with
  | unbounded =>
    cases stop with
    | unbounded => exact KeyRange.not_panics_of_contains (own [])
    | included e =>
      have inside : (encodeRangeBytes id .unbounded (.included e)).contains (encodeBytes id e) = true := by
        rw [contains_encodeRangeBytes]
        simp [inBounds, Bound.below, Bound.above]
      exact KeyRange.not_panics_of_contains inside
    | excluded e => exact KeyRange.not_panics_after true (own e)
  | included s =>
    cases stop with
    | unbounded =>
      have inside : (encodeRangeBytes id (.included s) .unbounded).contains (encodeBytes id s) = true := by
        rw [contains_encodeRangeBytes]
        simp [inBounds, Bound.below, Bound.above]
      exact KeyRange.not_panics_of_contains inside
    | included e | excluded e =>
      cases order : compare s e <;>
        simp_all [isDegenerate, encodeRangeBytes, encodeBound, KeyRange.panics, compare_encodeBytes]
  | excluded s =>
    cases stop with
    | unbounded => exact KeyRange.not_panics_after false (own s)
    | included e | excluded e =>
      cases order : compare s e <;>
        simp_all [isDegenerate, encodeRangeBytes, encodeBound, KeyRange.panics, compare_encodeBytes]

/-- What a page is. The first entries of the range in the order of the scan, and where to go on:
the last key returned, unless nothing is left. -/
structure Pages (tree : Tree) (request : ScanRequest) (page : ScanPage) : Prop where
  items : page.items = ((Tree.inOrder request.reverse tree request.range).take request.limit).map
    (shown request.wantValues)
  last : ∀ key, page.resume = some key → (page.items.getLast?).map Prod.fst = some key
  exhausted : page.resume = none →
    (Tree.inOrder request.reverse tree request.range).length ≤ request.limit

/-- A full page has a resume key. -/
theorem scanTree_pages (tree : Tree) {request : ScanRequest} (some : 0 < request.limit) :
    Pages tree request (scanTree tree request) where
  items := rfl
  last key h := by
    simp only [scanTree] at h ⊢
    split at h
    · cases h
    · rw [List.getLast?_map, Option.map_map]
      exact h
  exhausted h := by
    have whole := congrArg List.length (scanTree_last some h)
    rw [scanTree, List.length_map, List.length_map, List.length_take] at whole
    omega

/-- The page of a cursor on `rest`, once `items` are on it: a full page peeks one past its end. -/
def cursorLoop (limit : Nat) : List (Bytes × Option Bytes) → List (Bytes × Option Bytes) → ScanPage
  | [], items => { items, resume := none }
  | item :: rest, items =>
    let items := items ++ [item]
    if limit ≤ items.length then
      { items, resume := if rest.isEmpty then none else items.getLast?.map Prod.fst }
    else cursorLoop limit rest items

/-- `IndexedDbBackend::scan`. -/
def cursorScan (tree : Tree) (request : ScanRequest) : ScanPage :=
  cursorLoop request.limit
    ((Tree.inOrder request.reverse tree request.range).map (shown request.wantValues)) []

theorem cursorLoop_eq {limit : Nat} (rest items : List (Bytes × Option Bytes))
    (room : items.length < limit) :
    (cursorLoop limit rest items).items = (items ++ rest).take limit ∧
      (cursorLoop limit rest items).resume = if (items ++ rest).length ≤ limit then none
        else (((items ++ rest).take limit).getLast?).map Prod.fst := by
  induction rest generalizing items with
  | nil =>
    rw [cursorLoop, List.append_nil, List.take_of_length_le (by omega), if_pos (by omega)]
    exact ⟨rfl, rfl⟩
  | cons item rest ih =>
    have more : items ++ item :: rest = (items ++ [item]) ++ rest := by simp
    rw [cursorLoop, more]
    split
    · next full =>
      rw [List.length_append, List.length_singleton] at full
      have page : ((items ++ [item]) ++ rest).take limit = items ++ [item] := by
        rw [List.take_append_of_le_length (by simp; omega), List.take_of_length_le (by simp; omega)]
      rw [page]
      refine ⟨rfl, ?_⟩
      cases rest with
      | nil => simp; omega
      | cons next rest => simp; omega
    · next room' => exact ih _ (by omega)

theorem cursorScan_pages (tree : Tree) {request : ScanRequest} (some : 0 < request.limit) :
    Pages tree request (cursorScan tree request) := by
  obtain ⟨items, resume⟩ := cursorLoop_eq
    ((Tree.inOrder request.reverse tree request.range).map (shown request.wantValues)) [] some
  rw [List.nil_append] at items resume
  refine ⟨items.trans List.map_take.symm, fun key h => ?_, fun h => ?_⟩
  · rw [cursorScan, items]
    rw [cursorScan, resume] at h
    split at h
    · cases h
    · exact h
  · rw [cursorScan, resume] at h
    split at h
    · next le => rwa [List.length_map] at le
    · next more =>
      have last := Option.map_eq_none_iff.1 h
      rw [List.getLast?_eq_none_iff, List.take_eq_nil_iff] at last
      rcases last with none | empty
      · omega
      · rw [empty] at more
        exact absurd (Nat.zero_le _) more

/-- A backend that pages by `rule`. Any call may fail with an error of `fails`. -/
def PagedBy {ρ : Type} (rule : Tree → ScanRequest → ScanPage → Prop) (fails : Error → Prop) :
    (q : Req) → Machine Tables ρ → Resp q → Machine Tables ρ → Prop
  | .scan request, m, x, m' => m' = m ∧ match x with
    | .ok page => rule (m.dev.get request.table) request page
    | .error e => fails e
  | _, _, _, _ => False

/-- A scan of the records that an ordered map does not refuse. -/
def Scannable (q : Req) : Prop :=
  ∃ request, q = .scan request ∧ request.table = .records ∧ request.range.panics = false

namespace Inner
variable {T ρ σ : Type} (inner : Inner T) {rule : Tree → ScanRequest → ScanPage → Prop}
  {fails : Error → Prop} {m : Machine Tables ρ} {reverse wantValues : Bool}
  {visit : σ → Bytes → Option Bytes → Except Error σ}

/-- A walk leaves the store alone, and ends with what it visits or with the failure of a scan. -/
def Visited (m : Machine Tables ρ) (fails : Error → Prop) (visited : Except Error σ)
    (r : Except Error σ) (m' : Machine Tables ρ) : Prop :=
  m' = m ∧ (r = visited ∨ ∃ e, fails e ∧ r = .error e)

theorem scan_total {request : ScanRequest}
    (follows : ∀ page, rule (m.dev.get request.table) request page →
      Pages (m.dev.get request.table) request page)
    (scannable : Scannable (.scan request)) :
    (Backend.scan request : Io ρ ScanPage).Total (PagedBy rule fails) Scannable m fun r m' =>
      m' = m ∧ ((∃ e, fails e ∧ r = .error e) ∨
        ∃ page, r = .ok page ∧ Pages (m.dev.get request.table) request page) := by
  refine ⟨scannable, fun x m' hx => ?_⟩
  obtain ⟨rfl, answer⟩ := hx
  show (Prog.ofExcept x).Total _ _ m' _
  rw [Prog.total_ofExcept]
  cases x with
  | ok page => exact ⟨rfl, .inr ⟨page, rfl, follows page answer⟩⟩
  | error e => exact ⟨rfl, .inl ⟨e, answer, rfl⟩⟩

/-- A page with a resume key is the first part of the range, and the key is its last one. -/
theorem page_next {tree : Tree} {request : ScanRequest} {page : ScanPage} {key : Bytes}
    (pages : Pages tree request page) (hresume : page.resume = some key) :
    ∃ last, ((Tree.inOrder request.reverse tree request.range).take request.limit).getLast? =
        some last ∧ last.1 = key ∧ Tree.inOrder request.reverse tree request.range =
          (Tree.inOrder request.reverse tree request.range).take request.limit ++
            Tree.inOrder request.reverse tree (request.range.after request.reverse last.1) := by
  have hlast := pages.last key hresume
  rw [pages.items, List.getLast?_map, Option.map_map] at hlast
  obtain ⟨last, hend, rfl⟩ := Option.map_eq_some_iff.1 hlast
  exact ⟨last, hend, rfl, Tree.inOrder_after hend⟩

theorem mem_of_mem_inOrder {tree : Tree} {range : KeyRange} {e : Bytes × Bytes}
    (h : e ∈ Tree.inOrder reverse tree range) : range.contains e.1 = true := by
  rw [Tree.inOrder] at h
  split at h
  · exact (Tree.mem_inRange.1 (List.mem_reverse.1 h)).2
  · exact (Tree.mem_inRange.1 h).2

/-- The pages of a walk. The induction is on the pages that may still be followed; every page
that is not the last leaves fewer records to visit. -/
theorem walkPages_total
    (follows : ∀ tree request page, 0 < request.limit → rule tree request page →
      Pages tree request page)
    {fuel : Nat} {range : KeyRange} {acc : σ} (sound : range.panics = false)
    (enough : (Tree.inOrder reverse m.dev.records range).length < fuel) :
    (inner.walkPages reverse wantValues visit fuel range acc : Io ρ σ).Total (PagedBy rule fails)
      Scannable m (Visited m fails
        (inner.visitPage visit ((Tree.inOrder reverse m.dev.records range).map (shown wantValues))
          acc)) := by
  induction fuel generalizing range acc with
  | zero => omega
  | succ fuel ih =>
    have limit := inner.backend.scanPageSize_pos
    have scanned : (Backend.scan ⟨.records, range, reverse, inner.backend.scanPageSize, wantValues⟩ :
        Io ρ ScanPage).Total (PagedBy rule fails) Scannable m _ :=
      scan_total (follows _ _ · limit) ⟨_, rfl, rfl, sound⟩
    refine scanned.bind (fun page m₁ hpage => ?_) fun e m₁ hfail => ?_
    · obtain ⟨rfl, ⟨e, -, h⟩ | ⟨page', h, pages⟩⟩ := hpage
      · cases h
      obtain rfl := Except.ok.inj h
      have items : page.items = ((Tree.inOrder reverse m₁.dev.records range).take
          inner.backend.scanPageSize).map (shown wantValues) := pages.items
      have visits : (Prog.ofExcept (inner.visitPage visit page.items acc) : Io ρ σ).Total
          (PagedBy rule fails) Scannable m₁ fun r m' =>
            m' = m₁ ∧ r = inner.visitPage visit page.items acc :=
        Prog.total_ofExcept.2 ⟨rfl, rfl⟩
      refine visits.bind (fun acc₁ m₂ hvisit => ?_) fun e m₂ hvisit => ?_
      · obtain ⟨rfl, hvisit⟩ := hvisit
        cases hresume : page.resume with
        | some key =>
          obtain ⟨last, hlast, rfl, split⟩ : ∃ last, ((Tree.inOrder reverse m₂.dev.records range).take
              inner.backend.scanPageSize).getLast? = some last ∧ last.1 = key ∧
              Tree.inOrder reverse m₂.dev.records range =
                (Tree.inOrder reverse m₂.dev.records range).take inner.backend.scanPageSize ++
                  Tree.inOrder reverse m₂.dev.records (range.after reverse last.1) :=
            page_next pages hresume
          have fewer := congrArg List.length split
          rw [List.length_append] at fewer
          have some := List.length_pos_of_mem (List.mem_of_getLast? hlast)
          have inside := mem_of_mem_inOrder (List.mem_of_mem_take (List.mem_of_getLast? hlast))
          refine (ih (KeyRange.not_panics_after reverse inside) (by omega)).mono fun r m' hr => ?_
          refine ⟨hr.1, hr.2.imp_left fun h => h.trans ?_⟩
          rw [split, List.map_append, visitPage_append, ← items, ← hvisit]
          rfl
        | none =>
          have whole : (Tree.inOrder reverse m₂.dev.records range).length ≤
              inner.backend.scanPageSize := pages.exhausted hresume
          refine ⟨rfl, .inl ?_⟩
          rw [hvisit, items, List.take_of_length_le whole]
      · obtain ⟨rfl, hvisit⟩ := hvisit
        refine ⟨rfl, .inl ?_⟩
        -- A visit that fails on the page fails on the whole range.
        rw [← List.take_append_drop inner.backend.scanPageSize
          (Tree.inOrder reverse m₂.dev.records range), List.map_append, visitPage_append, ← items,
          ← hvisit]
        rfl
    · obtain ⟨rfl, ⟨e', hfails, h⟩ | ⟨page, h, -⟩⟩ := hfail
      · exact ⟨rfl, .inr ⟨e', hfails, congrArg Except.error (Except.error.inj h)⟩⟩
      · cases h

/-- A walk ends, and visits every record of the locker inside its bounds once, in order. The
backend pages as it likes, as long as its pages are pages; what it is asked to scan is never a range
that an ordered map refuses. -/
theorem walk_total
    (follows : ∀ tree request page, 0 < request.limit → rule tree request page →
      Pages tree request page)
    (start stop : Bound Bytes) (acc : σ)
    (enough : (inner.entries m.dev start stop).length < inner.backend.walkFuel) :
    (inner.walk start stop reverse wantValues visit acc : Io ρ σ).Total (PagedBy rule fails)
      Scannable m (Visited m fails
        ((inner.entriesInOrder reverse m.dev start stop).foldlM
          (fun acc e => visit acc e.1 (if wantValues then some e.2 else none)) acc)) ∧
    (inner.entriesInOrder reverse m.dev start stop).Pairwise (fun a b => walksBefore reverse a.1 b.1) ∧
    ∀ key raw, (key, raw) ∈ inner.entriesInOrder reverse m.dev start stop ↔
      m.dev.lookup .records (inner.encodeKey key) = some raw ∧ inBounds key start stop = true := by
  refine ⟨?_, ?_, fun key raw => ?_⟩
  · rw [walk]
    split
    · next hdeg =>
      refine ⟨rfl, .inl ?_⟩
      rw [entriesInOrder, entries_of_isDegenerate inner hdeg]
      simp only [List.reverse_nil, ite_self]
      rfl
    · next hdeg =>
      rw [← map_inOrder, ← visitPage_shown inner visit wantValues fun e => own_of_mem_inOrder inner]
      refine walkPages_total inner follows
        (not_panics_encodeRangeBytes inner.id (Bool.eq_false_iff.2 hdeg)) (lt_of_eq_of_lt ?_ enough)
      rw [entries, List.length_map, Tree.inOrder]
      split
      · exact List.length_reverse
      · rfl
  · rw [entriesInOrder]
    cases reverse with
    | true => exact List.pairwise_reverse.2 (inner.entries_ascending m.dev start stop)
    | false => exact inner.entries_ascending m.dev start stop
  · rw [← inner.mem_entries, entriesInOrder]
    split
    · exact List.mem_reverse
    · exact Iff.rfl

/-- A locker of a backend that returns one record a page. -/
def singly : Inner Bytes := { plain with backend := ⟨1, 64, by decide⟩ }

/-- A store with three keys, each a prefix of the next. -/
def prefixKeys : Machine Tables Unit :=
  ⟨Tables.empty.commit [.put .records (singly.encodeKey [1]) [7],
    .put .records (singly.encodeKey [1, 0]) [8], .put .records (singly.encodeKey [1, 0, 0]) [9]], ()⟩

/-- A backend that pages in either of the two ways. -/
def EitherWay (tree : Tree) (request : ScanRequest) (page : ScanPage) : Prop :=
  page = scanTree tree request ∨ page = cursorScan tree request

theorem walk_total_prefixKeys :
    (singly.walk (.included [1]) .unbounded true false
      (fun keys key _ => .ok (keys ++ [key])) [] : Io Unit (List Bytes)).Total
      (PagedBy EitherWay fun _ => False) Scannable prefixKeys
      (Visited prefixKeys (fun _ => False) (.ok [[1, 0, 0], [1, 0], [1]])) := by
  have visited : (singly.entriesInOrder true prefixKeys.dev (.included [1]) .unbounded).foldlM
      (fun keys e => (.ok (keys ++ [e.1]) : Except Error (List Bytes))) [] =
        .ok [[1, 0, 0], [1, 0], [1]] := by
    decide
  rw [← visited]
  exact (walk_total singly
    (fun tree request page some h => h.elim (· ▸ scanTree_pages tree some)
      (· ▸ cursorScan_pages tree some)) (.included [1]) .unbounded [] (by decide)).1

end Inner
end Crossbank
