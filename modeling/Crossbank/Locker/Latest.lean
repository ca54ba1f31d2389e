import Crossbank.Locker.Listing
import Mathlib.Data.Set.Card

/-!
# The latest entries

`latest` cuts a descending walk to its first keys and drops those it cannot spell afterwards.

* `take_filterMap_iff` : when cutting and dropping commute;
* `mem_take_iff` : what is among the first of a descending list;
* `Inner.holds`, `Inner.above` : the keys of a locker, and those after a key;
* `latest_iff` : when `latest` is the head of the reverse listing.
-/

namespace Crossbank
open Async

/-- Cutting a list before dropping elements. It is the same as cutting it afterwards exactly when
nothing is dropped before the cut, or nothing is left after it. -/
theorem take_filterMap_iff {α β : Type} (f : α → Option β) (l : List α) (n : Nat) :
    (l.take n).filterMap f = (l.filterMap f).take n ↔
      (∀ a ∈ l.take n, (f a).isSome) ∨ ∀ a ∈ l.drop n, f a = none := by
  have short : ((l.take n).filterMap f).length ≤ (l.take n).length := List.length_filterMap_le f _
  have cut : (l.take n).length ≤ n := List.length_take_le n l
  have whole : (l.filterMap f).take n = (l.take n).filterMap f ++
      ((l.drop n).filterMap f).take (n - ((l.take n).filterMap f).length) := by
    nth_rewrite 1 [← List.take_append_drop n l]
    rw [List.filterMap_append, List.take_append, List.take_of_length_le (by omega)]
  rw [whole, List.self_eq_append_right, List.take_eq_nil_iff, ← List.filterMap_eq_nil_iff]
  refine or_congr_left' fun rest => ?_
  have more : (l.take n).length = n := by
    rw [List.length_take_of_le]
    by_contra h
    exact rest (by rw [List.drop_of_length_le (by omega), List.filterMap_nil])
  rw [← List.filterMap_length_eq_length]
  omega

/-- The first of a descending list are the elements with fewer than that many greater ones. -/
theorem mem_take_iff {keys : List Bytes} (descending : keys.Pairwise fun a b => compare b a = .lt)
    {key : Bytes} (own : key ∈ keys) (n : Nat) :
    key ∈ keys.take n ↔ (keys.filter fun k => compare key k = .lt).length < n := by
  induction keys generalizing n with
  | nil => cases own
  | cons a rest ih =>
    have below : ∀ b ∈ rest, compare b a = .lt := fun b hb =>
      List.rel_of_pairwise_cons descending hb
    cases n with
    | zero => simp
    | succ n =>
      rw [List.take_succ_cons, List.mem_cons, List.filter_cons]
      by_cases first : key = a
      · subst first
        have greatest : rest.filter (fun k => compare key k = .lt) = [] := by
          refine List.filter_eq_nil_iff.2 fun b hb hlt => ?_
          exact Std.OrientedCmp.not_lt_of_lt (below b hb) (of_decide_eq_true hlt)
        simp [greatest]
      · have later : key ∈ rest := (List.mem_cons.1 own).resolve_left first
        rw [if_pos (decide_eq_true (below key later)), List.length_cons]
        simp only [first, false_or]
        rw [ih descending.of_cons later]
        omega

theorem nodup_of_descending {keys : List Bytes}
    (descending : keys.Pairwise fun a b => compare b a = .lt) : keys.Nodup :=
  descending.imp fun {a b} hlt heq => by
    have same : compare b a = .eq := heq ▸ Std.ReflCmp.compare_self
    cases same.symm.trans hlt

namespace Inner
variable {T : Type} (inner : Inner T)

/-- Whether a locker holds a key, for a handle with staged writes. -/
def holds (db : Tables) (staged : List Pending) (key : Bytes) : Prop :=
  (inner.sourceOf db staged key).isSome

def above (db : Tables) (staged : List Pending) (key : Bytes) : Set Bytes :=
  {k | inner.holds db staged k ∧ compare key k = .lt}

/-- No binary key is among the greatest `n` keys of a locker, or no other key comes before them. -/
def Spelled (db : Tables) (staged : List Pending) (n : Nat) : Prop :=
  (∀ key, inner.holds db staged key → (inner.above db staged key).ncard < n →
    (fromUtf8 key).isSome) ∨
  ∀ key, inner.holds db staged key → n ≤ (inner.above db staged key).ncard → fromUtf8 key = none

end Inner

namespace LazyLocker
variable {T : Type} (inner : Inner T) {m m' : Machine Tables (Ram T)}

theorem rangeRev_run {full : List (String × T)}
    (h : Run Served (rangeRev inner .unbounded .unbounded) m (.ok full) m') :
    ∃ entries, List.Forall₂ (Decodes inner m.dev)
      (sources inner m.dev m.mem.res.staged .unbounded .unbounded true) entries ∧
      full = utf8Entries entries := by
  obtain ⟨entries, m₁, hcollect, hrest⟩ := run_bind_ok.1 h
  exact ⟨entries, collect_run inner hcollect, Except.ok.inj (run_pure.1 hrest).1⟩

theorem latest_run {entries : List (Bytes × T)} {limit : Nat} {out : List (String × T)}
    (decoded : List.Forall₂ (Decodes inner m.dev)
      (sources inner m.dev m.mem.res.staged .unbounded .unbounded true) entries)
    (h : Run Served (latest inner limit) m (.ok out) m') : out = utf8Entries (entries.take limit) := by
  obtain ⟨some, m₁, hcollect, hrest⟩ := run_bind_ok.1 h
  have same := (decodes_rightUnique inner m.dev).forall₂ (collect_run inner hcollect)
    (forall₂_atMost (.some limit) decoded)
  rw [Except.ok.inj (run_pure.1 hrest).1, same, atMost]

theorem latest_eval {entries : List (Bytes × T)} (limit : Nat)
    (enough : (inner.entries m.dev .unbounded .unbounded).length < inner.backend.walkFuel)
    (decoded : List.Forall₂ (Decodes inner m.dev)
      (sources inner m.dev m.mem.res.staged .unbounded .unbounded true) entries) :
    Run Answered (latest inner limit) m (.ok (utf8Entries (entries.take limit))) m := by
  have collected := collect_eval inner enough (forall₂_atMost (.some limit) decoded)
  exact run_bind_ok.2 ⟨_, m, collected, run_pure.2 ⟨rfl, rfl⟩⟩

/-- The keys of a listing, from the greatest down. -/
theorem keys_of_sources {db : Tables} {staged : List Pending} {entries : List (Bytes × T)}
    (decoded : List.Forall₂ (Decodes inner db)
      (sources inner db staged .unbounded .unbounded true) entries) :
    (entries.map Prod.fst).Pairwise (fun a b => compare b a = .lt) ∧
      ∀ key, key ∈ entries.map Prod.fst ↔ inner.holds db staged key := by
  rw [← keys_of_decodes inner decoded]
  refine ⟨List.pairwise_map.2 (sources_ordered inner db staged .unbounded .unbounded true), ?_⟩
  intro key
  rw [List.mem_map, Inner.holds, Option.isSome_iff_exists]
  constructor
  · rintro ⟨⟨k, source⟩, hmem, rfl⟩
    exact ⟨source, ((mem_sources inner).1 hmem).2⟩
  · rintro ⟨source, hsource⟩
    exact ⟨(key, source), (mem_sources inner).2 ⟨rfl, hsource⟩, rfl⟩

/-- The first keys of a listing are those with few keys above them. -/
theorem mem_take_keys {db : Tables} {staged : List Pending} {entries : List (Bytes × T)}
    (decoded : List.Forall₂ (Decodes inner db)
      (sources inner db staged .unbounded .unbounded true) entries) {key : Bytes}
    (own : inner.holds db staged key) (n : Nat) :
    key ∈ (entries.map Prod.fst).take n ↔ (inner.above db staged key).ncard < n := by
  obtain ⟨descending, keys⟩ := keys_of_sources inner decoded
  rw [mem_take_iff descending ((keys key).2 own)]
  have above : inner.above db staged key =
      (((entries.map Prod.fst).filter fun k => compare key k = .lt).toFinset : Set Bytes) := by
    ext k
    simp only [Inner.above, Set.mem_ofPred_eq, List.coe_toFinset, List.mem_filter, keys,
      decide_eq_true_eq]
  rw [above, Set.ncard_coe_finset,
    List.toFinset_card_of_nodup ((nodup_of_descending descending).filter _)]

/-- `latest` answers the first `limit` of the entries that the reverse listing answers. -/
def LatestIsHead (limit : Nat) (m : Machine Tables (Ram T)) (full : List (String × T)) : Prop :=
  (∀ out m', Run Served (latest inner limit) m (.ok out) m' → out = full.take limit) ∧
    Run Answered (latest inner limit) m (.ok (full.take limit)) m

/-- When `latest` is the head of the reverse listing. -/
theorem latest_iff (limit : Nat) {full : List (String × T)}
    (enough : (inner.entries m.dev .unbounded .unbounded).length < inner.backend.walkFuel)
    (listed : Run Served (rangeRev inner .unbounded .unbounded) m (.ok full) m') :
    LatestIsHead inner limit m full ↔ inner.Spelled m.dev m.mem.res.staged limit := by
  obtain ⟨entries, decoded, rfl⟩ := rangeRev_run inner listed
  have ran := latest_eval inner limit enough decoded
  have head : LatestIsHead inner limit m (utf8Entries entries) ↔
      utf8Entries (entries.take limit) = (utf8Entries entries).take limit := by
    constructor
    · intro h
      exact h.1 _ _ (Answered.served ran)
    · intro h
      exact ⟨fun out m' run => (latest_run inner decoded run).trans h, h ▸ ran⟩
  obtain ⟨descending, keys⟩ := keys_of_sources inner decoded
  have apart {key : Bytes} (own : inner.holds m.dev m.mem.res.staged key) :
      key ∈ (entries.map Prod.fst).drop limit ↔
        limit ≤ (inner.above m.dev m.mem.res.staged key).ncard := by
    rw [← not_lt, ← mem_take_keys inner decoded own]
    have once := nodup_of_descending descending
    rw [← List.take_append_drop limit (entries.map Prod.fst)] at once
    have either := (keys key).2 own
    rw [← List.take_append_drop limit (entries.map Prod.fst), List.mem_append] at either
    exact ⟨fun late early => (List.disjoint_of_nodup_append once) early late, either.resolve_left⟩
  rw [head, utf8Entries, utf8Entries, take_filterMap_iff, Inner.Spelled]
  refine or_congr ⟨fun h key own few => ?_, fun h e hmem => ?_⟩
    ⟨fun h key own many => ?_, fun h e hmem => ?_⟩
  · have early := (mem_take_keys inner decoded own limit).2 few
    rw [← List.map_take, List.mem_map] at early
    obtain ⟨e, he, rfl⟩ := early
    simpa using h e he
  · have own := (keys e.1).1 (List.mem_map_of_mem (List.mem_of_mem_take hmem))
    have early : e.1 ∈ (entries.map Prod.fst).take limit := by
      rw [← List.map_take]
      exact List.mem_map_of_mem hmem
    simpa using h e.1 own ((mem_take_keys inner decoded own limit).1 early)
  · have late := (apart own).2 many
    rw [← List.map_drop, List.mem_map] at late
    obtain ⟨e, he, rfl⟩ := late
    simpa using h e he
  · have own := (keys e.1).1 (List.mem_map_of_mem (List.mem_of_mem_drop hmem))
    have late : e.1 ∈ (entries.map Prod.fst).drop limit := by
      rw [← List.map_drop]
      exact List.mem_map_of_mem hmem
    simpa using h e.1 own ((apart own).1 late)

/-- A binary key after the key `a`, both with the value `[7]`. -/
def binaryAbove : Machine Tables (Ram Bytes) :=
  ⟨Tables.empty.commit [.put .records (Inner.plain.encodeKey [97]) [67, 66, 78, 75, 1, 0, 1, 7],
      .put .records (Inner.plain.encodeKey [255]) [67, 66, 78, 75, 1, 0, 1, 7]],
    .opened .fresh (Resident.new .lazy (some ∅) none) ∅⟩

/-- The value that a call on that locker answers. -/
theorem binaryAbove_run {α : Type} {call : Io (Ram Bytes) α} {out : α}
    (ended : (call.eval (serve 0) binaryAbove).map (fun x => x.1.toOption) = some (some out)) :
    ∃ m', Run Served call binaryAbove (.ok out) m' := by
  obtain ⟨⟨r, m'⟩, hx, hr⟩ := Option.map_eq_some_iff.1 ended
  cases r with
  | error e => cases hr
  | ok found =>
    obtain rfl := Option.some.inj hr
    exact ⟨m', Prog.eval_run (serve_sound 0) hx⟩

theorem binaryAbove_listed : ∃ m', Run Served (rangeRev Inner.plain .unbounded .unbounded) binaryAbove
    (.ok [("a", [7])]) m' := binaryAbove_run (by decide)

theorem latest_iff_binaryAbove : LatestIsHead Inner.plain 1 binaryAbove [("a", [7])] ↔
    Inner.plain.Spelled binaryAbove.dev binaryAbove.mem.res.staged 1 := by
  obtain ⟨m', listed⟩ := binaryAbove_listed
  exact latest_iff Inner.plain 1 (by decide) listed

/-- The latest entry of that locker is lost. -/
theorem latest_loses : ¬ ∀ (T : Type) (inner : Inner T) (m m' : Machine Tables (Ram T))
    (limit : Nat) (full : List (String × T)),
    (inner.entries m.dev .unbounded .unbounded).length < inner.backend.walkFuel →
      Run Served (rangeRev inner .unbounded .unbounded) m (.ok full) m' →
        LatestIsHead inner limit m full := by
  intro head
  obtain ⟨m', listed⟩ := binaryAbove_listed
  obtain ⟨m'', answered⟩ : ∃ m', Run Served (latest Inner.plain 1) binaryAbove (.ok []) m' :=
    binaryAbove_run (by decide)
  have lost := (head Bytes Inner.plain binaryAbove m' 1 _ (by decide) listed).1 [] m'' answered
  cases lost

end LazyLocker
end Crossbank
