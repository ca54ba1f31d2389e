import Crossbank.Locker.Replay
import Crossbank.Locker.TxRead

/-!
# Listings

A listing walks storage, folds in what is staged, and decodes.

* `Inner.valueOfSource`, `Inner.valueMap` : the map a locker stands for, the staged batch replayed on
  what is stored;
* `Listing` : the entries of a map inside two bounds, in the order of a walk;
* `decodeEntries_run`, `decodeEntries_eval` : what the decoding of a list of sources ends with;
* `sources` : the sources a listing decodes; `collect_run`, `collect_eval` : a listing
  decodes the first of them;
* `collect_lists` : a listing is the map it claims to list.
-/

namespace Crossbank
open Async

def atMost {α : Type} (limit : Option Nat) (l : List α) : List α :=
  match limit with
  | some limit => l.take limit
  | none => l

def walksBefore (reverse : Bool) (a b : Bytes) : Prop :=
  (if reverse then compare b a else compare a b) = .lt

namespace Inner
variable {T : Type} (inner : Inner T)

def valueOfRecord (db : Tables) (raw : Bytes) : Except Error T := do
  let payload ← inner.payloadOf db raw
  let flag ← isRaw raw
  inner.valueOf flag payload

def valueOfSource (db : Tables) : Source → Except Error T
  | .stored bytes => inner.valueOfRecord db bytes
  | .staged payload => inner.value.ofPayload payload

/-- The map a locker stands for: the staged batch replayed on the stored records. -/
def valueMap (db : Tables) (staged : List Pending) : Bytes → Option (Except Error T) :=
  replay inner.value.ofPayload staged fun key =>
    (db.lookup .records (inner.encodeKey key)).map (inner.valueOfRecord db)

def sourceOf (db : Tables) (staged : List Pending) (key : Bytes) : Option Source :=
  match stagedView staged key with
  | some v => v.map Source.staged
  | none => (db.lookup .records (inner.encodeKey key)).map Source.stored

/-- The source of a key holds its current value. -/
theorem valueMap_eq (db : Tables) (staged : List Pending) (key : Bytes) :
    inner.valueMap db staged key = (inner.sourceOf db staged key).map (inner.valueOfSource db) := by
  rw [valueMap, replay_eq_stagedView, sourceOf]
  cases stagedView staged key with
  | some v =>
    cases v with
    | some payload => rfl
    | none => rfl
  | none =>
    cases db.lookup .records (inner.encodeKey key) with
    | some raw => rfl
    | none => rfl

end Inner

/-- The entries of a map inside two bounds: all of them, once each, in the order of a walk. -/
structure Listing {T : Type} (map : Bytes → Option (Except Error T)) (start stop : Bound Bytes)
    (reverse : Bool) (entries : List (Bytes × T)) : Prop where
  ordered : entries.Pairwise fun a b => walksBefore reverse a.1 b.1
  exact : ∀ key v, (key, v) ∈ entries ↔ inBounds key start stop = true ∧ map key = some (.ok v)

namespace LazyLocker
variable {T : Type} (inner : Inner T) {m m' : Machine Tables (Ram T)}

/-! ## Decoding -/

theorem decodeRecord_run {raw : Bytes} {v : T}
    (h : Run Served (inner.decodeRecord raw : Io (Ram T) T) m (.ok v) m') :
    inner.valueOfRecord m.dev raw = .ok v ∧ m' = m := by
  obtain rfl := (reads_decodeRecord inner raw).run h
  obtain ⟨payload, m₁, hload, hrest⟩ := run_bind_ok.1 h
  have hpayload := inner.loadPayload_run hload
  obtain rfl := (reads_loadPayload inner raw).run hload
  obtain ⟨flag, m₂, hflag, hvalue⟩ := run_bind_ok.1 hrest
  obtain ⟨hraw, rfl⟩ := run_ofExcept.1 hflag
  obtain ⟨hv, -⟩ := run_ofExcept.1 hvalue
  refine ⟨?_, rfl⟩
  rw [Inner.valueOfRecord, hpayload, ← hraw]
  exact hv.symm

theorem decodeRecord_eval (raw : Bytes) :
    Run Answered (inner.decodeRecord raw) m (inner.valueOfRecord m.dev raw) m := by
  refine (inner.loadPayload_eval raw).seq fun payload _ => ?_
  exact Run.seq (run_ofExcept.2 ⟨rfl, rfl⟩) fun flag _ => run_ofExcept.2 ⟨rfl, rfl⟩

def Decodes (db : Tables) (item : Bytes × Source) (entry : Bytes × T) : Prop :=
  item.1 = entry.1 ∧ inner.valueOfSource db item.2 = .ok entry.2

theorem decodeEntries_run {items : List (Bytes × Source)} {out : List (Bytes × T)}
    (h : Run Served (decodeEntries inner items) m (.ok out) m') :
    List.Forall₂ (Decodes inner m.dev) items out := by
  induction items generalizing m m' out with
  | nil =>
    obtain rfl := Except.ok.inj (run_pure.1 h).1
    exact .nil
  | cons item rest ih =>
    obtain ⟨key, source⟩ := item
    cases source with
    | stored bytes =>
      obtain ⟨v, m₁, hv, h₁⟩ := run_bind_ok.1 h
      obtain ⟨hvalue, rfl⟩ := decodeRecord_run inner hv
      obtain ⟨more, m₂, hmore, h₂⟩ := run_bind_ok.1 h₁
      obtain rfl := Except.ok.inj (run_pure.1 h₂).1
      exact .cons ⟨rfl, hvalue⟩ (ih hmore)
    | staged payload =>
      obtain ⟨v, m₁, hv, h₁⟩ := run_bind_ok.1 h
      obtain ⟨hvalue, rfl⟩ := run_ofExcept.1 hv
      obtain ⟨more, m₂, hmore, h₂⟩ := run_bind_ok.1 h₁
      obtain rfl := Except.ok.inj (run_pure.1 h₂).1
      exact .cons ⟨rfl, hvalue.symm⟩ (ih hmore)

theorem decodeEntries_eval {items : List (Bytes × Source)} {out : List (Bytes × T)}
    (h : List.Forall₂ (Decodes inner m.dev) items out) :
    Run Answered (decodeEntries inner items) m (.ok out) m := by
  induction h with
  | nil => exact run_pure.2 ⟨rfl, rfl⟩
  | @cons item entry items out first _ ih =>
    obtain ⟨key, source⟩ := item
    obtain ⟨key', v⟩ := entry
    obtain ⟨rfl, hv⟩ := first
    have more : Run Answered (do
        let more ← decodeEntries inner items
        pure ((key, v) :: more) : Io (Ram T) _) m (.ok ((key, v) :: out)) m :=
      run_bind_ok.2 ⟨out, m, ih, run_pure.2 ⟨rfl, rfl⟩⟩
    cases source with
    | stored bytes =>
      have now := decodeRecord_eval inner bytes (m := m)
      rw [show inner.valueOfRecord m.dev bytes = .ok v from hv] at now
      exact run_bind_ok.2 ⟨v, m, now, more⟩
    | staged payload => exact run_bind_ok.2 ⟨v, m, run_ofExcept.2 ⟨hv.symm, rfl⟩, more⟩

/-! ## Sources -/

/-- A walk keeps the first records, up to the cap. -/
theorem foldlM_collectVisit (cap : Option Nat) (entries stored : List (Bytes × Bytes)) :
    entries.foldlM (fun acc e => collectVisit cap acc e.1 (some e.2)) stored =
      .ok (stored ++ atMost (cap.map (· - stored.length)) entries) := by
  induction entries generalizing stored with
  | nil =>
    cases cap with
    | none => simp [atMost, pure, Except.pure]
    | some cap => simp [atMost, pure, Except.pure]
  | cons e rest ih =>
    rw [List.foldlM_cons]
    cases cap with
    | none =>
      refine (ih (stored ++ [e])).trans ?_
      simp [atMost]
    | some cap =>
      by_cases full : cap ≤ stored.length
      · have same : collectVisit (some cap) stored e.1 (some e.2) = .ok stored := by
          simp [collectVisit, full]
        rw [same]
        refine (ih stored).trans ?_
        simp [atMost, Nat.sub_eq_zero_of_le full]
      · have more : collectVisit (some cap) stored e.1 (some e.2) = .ok (stored ++ [e]) := by
          simp [collectVisit, full]
        rw [more]
        refine (ih (stored ++ [e])).trans ?_
        have room : cap - stored.length = (cap - (stored.length + 1)) + 1 := by omega
        simp [atMost, room]

def sources (db : Tables) (staged : List Pending) (start stop : Bound Bytes) (reverse : Bool) :
    List (Bytes × Source) :=
  if staged = [] then (inner.entriesInOrder reverse db start stop).map fun e => (e.1, .stored e.2)
  else
    let items := (overlay staged start stop (inner.entriesInOrder reverse db start stop)).toList
    if reverse then items.reverse else items

theorem collect_run {start stop : Bound Bytes} {reverse : Bool} {limit : Option Nat}
    {out : List (Bytes × T)}
    (h : Run Served (collect inner start stop reverse limit) m (.ok out) m') :
    List.Forall₂ (Decodes inner m.dev)
      (atMost limit (sources inner m.dev m.mem.res.staged start stop reverse)) out := by
  rw [collect, run_read_bind] at h
  obtain ⟨stored, m₁, hwalk, hrest⟩ := run_bind_ok.1 h
  have visited := inner.walk_run hwalk
  obtain rfl : m = m₁ := ((reads_walk inner _ _ _ _ _ _).run hwalk).symm
  simp only [if_true] at visited
  rw [foldlM_collectVisit] at visited
  obtain rfl := Except.ok.inj visited
  rw [sources]
  cases hstaged : m.mem.res.staged with
  | nil =>
    rw [hstaged] at hrest
    have decoded := decodeEntries_run inner hrest
    cases limit with
    | none => simpa [atMost] using decoded
    | some limit => simpa [atMost, List.map_take] using decoded
  | cons entry more =>
    rw [hstaged] at hrest
    have decoded := decodeEntries_run inner hrest
    cases limit with
    | none => simpa [atMost] using decoded
    | some limit => simpa [atMost] using decoded

theorem collect_eval {start stop : Bound Bytes} {reverse : Bool} {limit : Option Nat}
    {out : List (Bytes × T)}
    (enough : (inner.entries m.dev start stop).length < inner.backend.walkFuel)
    (h : List.Forall₂ (Decodes inner m.dev)
      (atMost limit (sources inner m.dev m.mem.res.staged start stop reverse)) out) :
    Run Answered (collect inner start stop reverse limit) m (.ok out) m := by
  rw [collect, run_read_bind]
  have walked (cap : Option Nat) : Run Answered
      (inner.walk start stop reverse true (collectVisit cap) []) m
      (.ok (atMost (cap.map (· - 0)) (inner.entriesInOrder reverse m.dev start stop))) m := by
    have ended : Run Answered (inner.walk start stop reverse true (collectVisit cap) []) m
        ((inner.entriesInOrder reverse m.dev start stop).foldlM
          (fun acc e => collectVisit cap acc e.1 (some e.2)) []) m := inner.walk_eval enough
    rwa [foldlM_collectVisit] at ended
  refine run_bind_ok.2 ⟨_, m, walked _, ?_⟩
  rw [sources] at h
  cases hstaged : m.mem.res.staged with
  | nil =>
    rw [hstaged] at h
    refine decodeEntries_eval inner ?_
    cases limit with
    | none => simpa [atMost] using h
    | some limit => simpa [atMost, List.map_take] using h
  | cons entry more =>
    rw [hstaged] at h
    refine decodeEntries_eval inner ?_
    cases limit with
    | none => simpa [atMost] using h
    | some limit => simpa [atMost] using h

/-! ## The map -/

theorem mem_sources {db : Tables} {staged : List Pending} {start stop : Bound Bytes}
    {reverse : Bool} {key : Bytes} {source : Source} :
    (key, source) ∈ sources inner db staged start stop reverse ↔
      inBounds key start stop = true ∧ inner.sourceOf db staged key = some source := by
  have walked {key raw : Bytes} : (key, raw) ∈ inner.entriesInOrder reverse db start stop ↔
      db.lookup .records (inner.encodeKey key) = some raw ∧ inBounds key start stop = true := by
    rw [← inner.mem_entries, Inner.entriesInOrder]
    split
    · exact List.mem_reverse
    · exact Iff.rfl
  rw [sources]
  split
  · next hstaged =>
    subst hstaged
    rw [List.mem_map, Inner.sourceOf, stagedView_nil, Option.map_eq_some_iff]
    constructor
    · rintro ⟨⟨k, raw⟩, he, heq⟩
      obtain ⟨rfl, rfl⟩ := Prod.mk.inj heq
      obtain ⟨hraw, inside⟩ := walked.1 he
      exact ⟨inside, raw, hraw, rfl⟩
    · rintro ⟨inside, raw, hraw, rfl⟩
      exact ⟨(key, raw), walked.2 ⟨hraw, inside⟩, rfl⟩
  · have listed : (key, source) ∈ (overlay staged start stop
        (inner.entriesInOrder reverse db start stop)).toList ↔ inBounds key start stop = true ∧
          inner.sourceOf db staged key = some source := by
      rw [Std.ExtTreeMap.mem_toList_iff_getElem?_eq_some]
      by_cases inside : inBounds key start stop = true
      · rw [getElem?_overlay (r := fun key => db.lookup .records (inner.encodeKey key))
          (fun e he => (walked.1 he).1) (fun raw hraw hin => walked.2 ⟨hraw, hin⟩) inside]
        simp only [inside, true_and]
        exact Iff.rfl
      · rw [getElem?_overlay_of_not_inBounds (fun e he => (walked.1 he).2)
          (Bool.eq_false_iff.2 inside)]
        simp [inside]
    dsimp only
    split
    · rw [List.mem_reverse]
      exact listed
    · exact listed

theorem sources_ordered (db : Tables) (staged : List Pending) (start stop : Bound Bytes)
    (reverse : Bool) :
    (sources inner db staged start stop reverse).Pairwise fun a b => walksBefore reverse a.1 b.1 := by
  have ordered {α : Type} {l : List (Bytes × α)}
      (ascending : l.Pairwise fun a b => compare a.1 b.1 = .lt) :
      (if reverse then l.reverse else l).Pairwise fun a b => walksBefore reverse a.1 b.1 := by
    cases reverse with
    | true => exact List.pairwise_reverse.2 ascending
    | false => exact ascending
  rw [sources]
  split
  · exact List.pairwise_map.2 (ordered (inner.entries_ascending db start stop))
  · exact ordered Std.ExtTreeMap.ordered_keys_toList

theorem decodes_rightUnique (db : Tables) : Relator.RightUnique (Decodes inner db) := by
  rintro item ⟨key, v⟩ ⟨key', v'⟩ ⟨rfl, hv⟩ ⟨hkey, hv'⟩
  obtain rfl := hkey
  obtain rfl := Except.ok.inj (hv.symm.trans hv')
  rfl

theorem mem_of_decodes {db : Tables} {items : List (Bytes × Source)} {out : List (Bytes × T)}
    (decoded : List.Forall₂ (Decodes inner db) items out) (key : Bytes) (v : T) :
    (key, v) ∈ out ↔ ∃ source, (key, source) ∈ items ∧ inner.valueOfSource db source = .ok v := by
  induction decoded with
  | nil => simp
  | @cons item entry items out first _ ih =>
    obtain ⟨k, source⟩ := item
    obtain ⟨k', v'⟩ := entry
    obtain ⟨rfl, hv⟩ : k = k' ∧ inner.valueOfSource db source = .ok v' := first
    rw [List.mem_cons, ih]
    constructor
    · rintro (heq | ⟨source', hmem, hv'⟩)
      · obtain ⟨rfl, rfl⟩ := Prod.mk.inj heq
        exact ⟨source, List.mem_cons_self, hv⟩
      · exact ⟨source', List.mem_cons_of_mem _ hmem, hv'⟩
    · rintro ⟨source', hmem, hv'⟩
      rcases List.mem_cons.1 hmem with heq | hmem
      · obtain ⟨rfl, rfl⟩ := Prod.mk.inj heq
        obtain rfl := Except.ok.inj (hv.symm.trans hv')
        exact .inl rfl
      · exact .inr ⟨source', hmem, hv'⟩

theorem keys_of_decodes {db : Tables} {items : List (Bytes × Source)} {out : List (Bytes × T)}
    (decoded : List.Forall₂ (Decodes inner db) items out) :
    items.map Prod.fst = out.map Prod.fst := by
  induction decoded with
  | nil => rfl
  | cons first _ ih => rw [List.map_cons, List.map_cons, first.1, ih]

/-- The decoded sources are the map. -/
theorem listing_of_decodes {db : Tables} {staged : List Pending} {start stop : Bound Bytes}
    {reverse : Bool} {full : List (Bytes × T)}
    (decoded : List.Forall₂ (Decodes inner db) (sources inner db staged start stop reverse) full) :
    Listing (inner.valueMap db staged) start stop reverse full where
  ordered := by
    have ordered := sources_ordered inner db staged start stop reverse
    rw [← List.pairwise_map (f := Prod.fst) (R := walksBefore reverse)] at ordered ⊢
    rwa [← keys_of_decodes inner decoded]
  exact key v := by
    rw [mem_of_decodes inner decoded]
    constructor
    · rintro ⟨source, hmem, hv⟩
      obtain ⟨inside, hsource⟩ := (mem_sources inner).1 hmem
      refine ⟨inside, ?_⟩
      rw [inner.valueMap_eq, hsource, Option.map_some, hv]
    · rintro ⟨inside, hmap⟩
      rw [inner.valueMap_eq] at hmap
      obtain ⟨source, hsource, hv⟩ := Option.map_eq_some_iff.1 hmap
      exact ⟨source, (mem_sources inner).2 ⟨inside, hsource⟩, hv⟩

theorem exists_decoded {db : Tables} {items : List (Bytes × Source)}
    (h : ∀ item ∈ items, ∃ v, inner.valueOfSource db item.2 = .ok v) :
    ∃ full, List.Forall₂ (Decodes inner db) items full := by
  induction items with
  | nil => exact ⟨[], .nil⟩
  | cons item rest ih =>
    obtain ⟨v, hv⟩ := h item List.mem_cons_self
    obtain ⟨full, hfull⟩ := ih fun item hmem => h item (List.mem_cons_of_mem _ hmem)
    exact ⟨(item.1, v) :: full, .cons ⟨rfl, hv⟩ hfull⟩

theorem forall₂_atMost {α β : Type} {R : α → β → Prop} {l : List α} {l' : List β}
    (limit : Option Nat) (h : List.Forall₂ R l l') :
    List.Forall₂ R (atMost limit l) (atMost limit l') := by
  cases limit with
  | none => exact h
  | some limit => exact List.forall₂_take limit h

/-- A listing is the map it claims to list. On a store whose records decode, with a staged batch
whose payloads do, what `collect` answers is the first `limit` of the entries that the map holds in
the range, and it does answer when the backend does. -/
theorem collect_lists (start stop : Bound Bytes) (reverse : Bool) (limit : Option Nat)
    (m : Machine Tables (Ram T))
    (records : ∀ key raw, m.dev.lookup .records (inner.encodeKey key) = some raw →
      ∃ v, inner.valueOfRecord m.dev raw = .ok v)
    (payloads : ∀ key payload, .put key payload ∈ m.mem.res.staged →
      ∃ v, inner.value.ofPayload payload = .ok v) :
    ∃ full, Listing (inner.valueMap m.dev m.mem.res.staged) start stop reverse full ∧
      (∀ out m', Run Served (collect inner start stop reverse limit) m (.ok out) m' →
        out = atMost limit full) ∧
      ((inner.entries m.dev start stop).length < inner.backend.walkFuel →
        Run Answered (collect inner start stop reverse limit) m (.ok (atMost limit full)) m) := by
  have decodes : ∀ item ∈ sources inner m.dev m.mem.res.staged start stop reverse,
      ∃ v, inner.valueOfSource m.dev item.2 = .ok v := by
    rintro ⟨key, source⟩ hmem
    have hsource := ((mem_sources inner).1 hmem).2
    rw [Inner.sourceOf] at hsource
    split at hsource
    · next v hview =>
      obtain ⟨payload, rfl, rfl⟩ := Option.map_eq_some_iff.1 hsource
      exact payloads key payload (mem_of_stagedView hview)
    · obtain ⟨raw, hraw, rfl⟩ := Option.map_eq_some_iff.1 hsource
      exact records key raw hraw
  obtain ⟨full, hfull⟩ := exists_decoded inner decodes
  have first := forall₂_atMost limit hfull
  refine ⟨full, listing_of_decodes inner hfull, fun out m' run => ?_, fun enough => ?_⟩
  · exact (decodes_rightUnique inner m.dev).forall₂ (collect_run inner run) first
  · exact collect_eval inner enough first

/-- `[7]` is stored under `[1]`; a put of `[5]` under `[2]` is staged after a delete of `[3]`. -/
def stagedListing : Machine Tables (Ram Bytes) :=
  ⟨Tables.empty.commit [.put .records (Inner.plain.encodeKey [1]) [67, 66, 78, 75, 1, 0, 1, 7]],
    .opened .fresh { Resident.new .lazy (some ∅) none with staged := [.delete [3], .put [2] [1, 5]] } ∅⟩

/-- The latest entry of that locker is the staged one. -/
theorem collect_lists_staged : ∃ full : List (Bytes × Bytes),
    Listing (Inner.plain.valueMap stagedListing.dev stagedListing.mem.res.staged) .unbounded .unbounded
      true full ∧ full.take 1 = [([2], [5])] := by
  have stored {key raw : Bytes}
      (h : stagedListing.dev.lookup .records (Inner.plain.encodeKey key) = some raw) :
      raw = [67, 66, 78, 75, 1, 0, 1, 7] := by
    rw [stagedListing, Tables.lookup_commit] at h
    simp only [written_cons, written_nil, Op.written, Option.none_or] at h
    split at h
    · exact (Option.some.inj h).symm
    · cases h
  obtain ⟨full, listing, only, -⟩ := collect_lists Inner.plain .unbounded .unbounded true (some 1)
    stagedListing (fun key raw h => ⟨[7], by rw [stored h]; decide⟩) (fun key payload h => by
      simp only [stagedListing, Ram.opened, List.mem_cons, Pending.put.injEq, reduceCtorEq,
        false_or, List.not_mem_nil, or_false] at h
      exact ⟨[5], by rw [h.2]; decide⟩)
  obtain ⟨x, hx⟩ : ∃ x, (collect Inner.plain .unbounded .unbounded true (some 1)).eval (serve 0)
      stagedListing = some x := Option.isSome_iff_exists.1 (by decide)
  have ended : ((collect Inner.plain .unbounded .unbounded true (some 1)).eval (serve 0)
      stagedListing).map (fun x => x.1.toOption) = some (some [([2], [5])]) := by decide
  rw [hx] at ended
  obtain ⟨r, m'⟩ := x
  cases r with
  | error e => cases ended
  | ok out =>
    obtain rfl := Option.some.inj (Option.some.inj ended)
    exact ⟨full, listing, (only _ _ (Prog.eval_run (serve_sound 0) hx)).symm⟩

end LazyLocker
end Crossbank
