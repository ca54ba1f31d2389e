import Crossbank.Async.Stepwise
import Crossbank.Coherence.Eager
import Crossbank.Locker.Paging

/-!
# An eager locker that opens while other tabs commit

An open reads the locker page by page, and commits of other tabs land between the pages. The tab hears
of them from when it is open.

* `EagerOpening`, `OpenStep`, `eagerOpening` : an open under way, a step of it, and what it ends with;
* `Drifting` : the answers of a store that changes, but not under one key;
* `walkPages_drifting` : of that key, the pages of a walk show what the store holds throughout;
* `Shows` : what the open under way will hold of the key; `shows_begun`, `Shows.step`, `Shows.ends` :
  it will from the start, it still will after a step, and in the end it does.
-/

namespace Crossbank
open Async

/-! ## What pages show of one key -/

namespace Inner
variable {T ρ σ : Type} (inner : Inner T)

/-- What a store answers that holds the record under the key. -/
def Drifting [WriteLock ρ] (key : Bytes) (record : Option Bytes) (q : Req) (m : Machine Unit ρ)
    (x : Resp q) (m' : Machine Unit ρ) : Prop :=
  ∃ db : Tables, db.lookup .records (inner.encodeKey key) = record ∧
    Served q ⟨db, m.mem⟩ x ⟨db, m'.mem⟩

/-- The records that a walk has seen: in order, of the range, and of one key the record itself. -/
structure Seen (range : KeyRange) (key : Bytes) (record : Option Bytes) (seen : List (Bytes × Bytes)) :
    Prop where
  ascending : seen.Pairwise fun a b => compare a.1 b.1 = .lt
  inside : ∀ e ∈ seen, range.contains e.1 = true
  holds : range.contains (inner.encodeKey key) = true →
    ∀ raw, (inner.encodeKey key, raw) ∈ seen ↔ record = some raw

variable {inner} {key : Bytes} {record : Option Bytes} {range : KeyRange}

theorem seen_inRange {db : Tables} (holds : db.lookup .records (inner.encodeKey key) = record) :
    Seen inner range key record (Tree.inRange db.records range) where
  ascending := Tree.inRange_ascending db.records range
  inside e he := (Tree.mem_inRange.1 he).2
  holds hrange raw := by
    have hmem : (inner.encodeKey key, raw) ∈ Tree.inRange db.records range ↔ _ := Tree.mem_inRange
    rw [hmem, ← holds]
    exact ⟨fun h => h.1, fun h => ⟨h, hrange⟩⟩

/-- A page, and what is seen of the rest of the range in other stores. -/
theorem Seen.page {db : Tables} (holds : db.lookup .records (inner.encodeKey key) = record)
    {page rest : List (Bytes × Bytes)} {last : Bytes × Bytes} (hlast : page.getLast? = some last)
    (split : Tree.inRange db.records range =
      page ++ Tree.inRange db.records (range.after false last.1))
    (tail : Seen inner (range.after false last.1) key record rest) :
    Seen inner range key record (page ++ rest) := by
  have whole : Seen inner range key record (Tree.inRange db.records range) := seen_inRange holds
  have hpage {e : Bytes × Bytes} (he : e ∈ page) : e ∈ Tree.inRange db.records range := by
    rw [split]
    exact List.mem_append_left _ he
  have hinside := whole.inside last (hpage (List.mem_of_getLast? hlast))
  have ascending : page.Pairwise fun a b => compare a.1 b.1 = .lt := by
    have hwhole := whole.ascending
    rw [split] at hwhole
    exact (List.pairwise_append.1 hwhole).1
  refine ⟨List.pairwise_append.2 ⟨ascending, tail.ascending, fun a ha b hb => ?_⟩, fun e he => ?_,
    fun hrange raw => ?_⟩
  · -- What follows is above the last record of the page.
    have hafter := tail.inside b hb
    rw [KeyRange.contains, Bool.and_eq_true] at hafter
    have hlt : compare last.1 b.1 = .lt := of_decide_eq_true hafter.1
    obtain ⟨init, rfl⟩ := List.getLast?_eq_some_iff.1 hlast
    rcases List.mem_append.1 ha with ha | ha
    · have hle := (List.pairwise_append.1 ascending).2.2 a ha last List.mem_cons_self
      exact Std.TransCmp.lt_trans hle hlt
    · obtain rfl := List.mem_singleton.1 ha
      exact hlt
  · rcases List.mem_append.1 he with he | he
    · exact whole.inside e (hpage he)
    · exact KeyRange.contains_of_after hinside (tail.inside e he)
  · rw [List.mem_append]
    by_cases hk : (range.after false last.1).contains (inner.encodeKey key) = true
    · rw [tail.holds hk]
      exact or_iff_right_of_imp fun h => (whole.holds hrange raw).1 (hpage h)
    · have hrest : (inner.encodeKey key, raw) ∉ rest := fun h => hk (tail.inside _ h)
      have hleft : (inner.encodeKey key, raw) ∉ Tree.inRange db.records (range.after false last.1) :=
        fun h => hk (Tree.mem_inRange.1 h).2
      rw [← whole.holds hrange, split, List.mem_append]
      exact or_congr_right (iff_of_false hrest hleft)

/-- By user key, the records that are seen of a whole locker. -/
theorem Seen.byUserKey {seen : List (Bytes × Bytes)}
    (h : Seen inner (encodeRangeBytes inner.id .unbounded .unbounded) key record seen) :
    (seen.map fun e => (e.1.drop PREFIX_LEN, e.2)).Pairwise (fun a b => compare a.1 b.1 = .lt) ∧
      ((seen.map fun e => (e.1.drop PREFIX_LEN, e.2)).find? (·.1 = key)).map Prod.snd = record := by
  have own (e : Bytes × Bytes) (he : e ∈ seen) : ∃ k, e.1 = encodeBytes inner.id k :=
    exists_of_contains_encodeRangeBytes (h.inside e he)
  constructor
  · rw [List.pairwise_map]
    refine h.ascending.imp_of_mem fun {a b} ha hb hlt => ?_
    obtain ⟨k, hk⟩ := own a ha
    obtain ⟨l, hl⟩ := own b hb
    rw [hk, hl, compare_encodeBytes] at hlt
    rw [hk, hl, drop_encodeBytes, drop_encodeBytes]
    exact hlt
  · have hrange : (encodeRangeBytes inner.id .unbounded .unbounded).contains (inner.encodeKey key) =
        true := by
      show (encodeRangeBytes inner.id .unbounded .unbounded).contains (encodeBytes inner.id key) = true
      rw [contains_encodeRangeBytes]
      rfl
    have holds := h.holds hrange
    cases hf : (seen.map fun e => (e.1.drop PREFIX_LEN, e.2)).find? (·.1 = key) with
    | some found =>
      obtain ⟨e, he, rfl⟩ := List.mem_map.1 (List.mem_of_find?_eq_some hf)
      obtain ⟨k, hk⟩ := own e he
      have heq := List.find?_some hf
      rw [hk, drop_encodeBytes, decide_eq_true_eq] at heq
      subst heq
      exact ((holds e.2).1 (by rw [← show e.1 = inner.encodeKey k from hk]; exact he)).symm
    | none =>
      cases record with
      | none => rfl
      | some raw =>
        have hmem : (key, raw) ∈ seen.map fun e => (e.1.drop PREFIX_LEN, e.2) := by
          refine List.mem_map.2 ⟨_, (holds raw).2 rfl, ?_⟩
          show ((encodeBytes inner.id key).drop PREFIX_LEN, raw) = (key, raw)
          rw [drop_encodeBytes]
        exact absurd (List.find?_eq_none.1 hf _ hmem) (by simp)

section
variable [WriteLock ρ] {m m' : Machine Unit ρ} {visit : σ → Bytes → Option Bytes → Except Error σ}

theorem scan_drifting {request : ScanRequest} {page : ScanPage}
    (h : Run (Drifting inner key record) (Backend.scan request) m (.ok page) m') :
    ∃ db : Tables, db.lookup .records (inner.encodeKey key) = record ∧
      page = scanTree (db.get request.table) request := by
  obtain ⟨x, m₁, hask, hx⟩ := run_bind_ok.1 h
  obtain ⟨y, ⟨db, holds, -, hpages⟩, hy⟩ := run_ask.1 hask
  obtain rfl := Except.ok.inj hy
  exact ⟨db, holds, hpages page (run_ofExcept.1 hx).1.symm⟩

/-- The pages of a walk, each of a store that holds the record under the key. -/
theorem walkPages_drifting {fuel : Nat} {range : KeyRange} {acc acc' : σ}
    (h : Run (Drifting inner key record) (inner.walkPages false true visit fuel range acc) m (.ok acc')
      m') : ∃ seen, Seen inner range key record seen ∧
        inner.visitPage visit (seen.map (shown true)) acc = .ok acc' := by
  induction fuel generalizing range acc m with
  | zero => exact absurd h run_stuck
  | succ fuel ih =>
    obtain ⟨page, m₁, hscan, hvisits⟩ := run_bind_ok.1 h
    obtain ⟨acc₁, m₂, hvisit, hrest⟩ := run_bind_ok.1 hvisits
    obtain ⟨hacc, rfl⟩ := run_ofExcept.1 hvisit
    obtain ⟨db, holds, hpage⟩ := scan_drifting hscan
    have pages : Pages db.records
        ⟨.records, range, false, inner.backend.scanPageSize, true⟩ page := by
      rw [hpage]
      exact scanTree_pages db.records inner.backend.scanPageSize_pos
    cases hresume : page.resume with
    | some next =>
      rw [hresume] at hrest
      obtain ⟨last, hlast, rfl, split⟩ := page_next pages hresume
      obtain ⟨seen, hseen, hrest⟩ := ih hrest
      refine ⟨_, hseen.page holds hlast split, ?_⟩
      rw [List.map_append, visitPage_append, ← pages.items, ← hacc]
      exact hrest
    | none =>
      rw [hresume] at hrest
      have whole := pages.exhausted hresume
      refine ⟨_, seen_inRange holds, ?_⟩
      have items := pages.items
      rw [List.take_of_length_le whole] at items
      rw [show Tree.inRange db.records range = Tree.inOrder false db.records range from rfl, ← items,
        ← hacc]
      exact (run_pure.1 hrest).1.symm

end

end Inner

/-! ## An open under way -/

namespace EagerTabs
section
variable {T : Type}

abbrev Loaded (T : Type) := Std.ExtTreeMap Bytes T compare × Resident

/-- An open under way: the name of the tab's bank, what is left of the open, and the cursors of the
bank. -/
structure EagerOpening (T : Type) where
  instanceId : UInt32
  rest : Io Shared (Loaded T)
  shared : Shared

/-- An access to memory, or a request that the store answers. -/
inductive OpenStep (db : Tables) : EagerOpening T → EagerOpening T → Prop
  | ram {me : UInt32} {f : Shared → Shared} {k : Shared → Io Shared (Loaded T)} {s : Shared} :
      OpenStep db ⟨me, .ram f k, s⟩ ⟨me, k s, f s⟩
  | io {me : UInt32} {q : Req} {d : Shared → Shared} {k : Resp q → Io Shared (Loaded T)}
      {s s' : Shared} {x : Resp q} (answer : Served q ⟨db, s⟩ x ⟨db, s'⟩) :
      OpenStep db ⟨me, .await q d k, s⟩ ⟨me, k x, s'⟩

/-- The locker hears of other tabs from when the open has returned: only then is its sink registered. -/
def eagerOpening (inner : Inner T) : Opening Tables (Tab T) (EagerOpening T) where
  begins o := o.rest = EagerLocker.openLocker inner
  step := OpenStep
  ends o tab := ∃ values res, o.rest = .ret (values, res) ∧
    tab = ⟨.opened o.shared res values, .fresh, o.instanceId, 0⟩

/-- The open after its next request is answered. -/
def EagerOpening.answered (db : Tables) (o : EagerOpening T) : EagerOpening T :=
  match o.rest with
  | .await q _ k =>
    match serve 0 q ⟨db, o.shared⟩ with
    | some (x, m) => ⟨o.instanceId, k x, m.mem⟩
    | none => o
  | _ => o

def EagerOpening.tab? (o : EagerOpening T) : Option (Tab T) :=
  match o.rest with
  | .ret (values, res) => some ⟨.opened o.shared res values, .fresh, o.instanceId, 0⟩
  | _ => none

/-- Whatever becomes of the other keys, of this one the open under way will hold what the record says. -/
def Shows (inner : Inner T) (key : Bytes) (record : Option Bytes) (o : EagerOpening T) : Prop :=
  ∀ values res m', Run (inner.Drifting key record) o.rest ⟨(), o.shared⟩ (.ok (values, res)) m' →
    values[key]? = record.bind fun raw => (inner.value.decode inner.chain raw).toOption

variable {inner : Inner T} {key : Bytes} {record : Option Bytes} {o o' : EagerOpening T} {db : Tables}

theorem gives_openLocker : (EagerLocker.openLocker inner : Io Shared (Loaded T)).Gives
    fun loaded => loaded.2.staged = [] := by
  unfold EagerLocker.openLocker
  split
  · trivial
  · refine Prog.Gives.next fun acc => ?_
    split
    · trivial
    · obtain ⟨c, hc⟩ := EagerLocker.corrupt_frame acc.corrupt (Resident.new .eager none none)
      show (acc.corrupt.foldl (fun (r : Resident) key => r.noteCorrupt key) _).staged = []
      rw [hc]
      rfl

theorem OpenStep.gives {F : Loaded T → Prop} (next : OpenStep db o o') (h : o.rest.Gives F) :
    o'.rest.Gives F := by
  cases next with
  | ram => exact h _
  | io => exact h _

/-- An open holds the record of a key that no other tab commits while it goes on. -/
theorem shows_begun (begun : (eagerOpening inner).begins o) : Shows inner key record o := by
  intro values res m' run
  rw [show o.rest = EagerLocker.openLocker inner from begun] at run
  unfold EagerLocker.openLocker at run
  split at run
  · cases (run_fail.1 run).1
  · obtain ⟨acc, m₁, hwalk, h₁⟩ := run_bind_ok.1 run
    split at h₁
    · cases (run_fail.1 h₁).1
    · next whole =>
      obtain ⟨rfl, -⟩ := Prod.mk.inj (Except.ok.inj (run_pure.1 h₁).1)
      unfold Inner.walk at hwalk
      rw [if_neg (by decide)] at hwalk
      obtain ⟨seen, hseen, hvisit⟩ := Inner.walkPages_drifting hwalk
      rw [Inner.visitPage_shown inner _ true fun e he =>
        exists_of_contains_encodeRangeBytes (hseen.inside e he)] at hvisit
      obtain ⟨ascending, hfind⟩ := hseen.byUserKey
      exact EagerLocker.loaded_value (EagerLocker.nodup_of_ascending ascending) hvisit
        (by simpa using whole) hfind

theorem Shows.step (h : Shows inner key (db.lookup .records (inner.encodeKey key)) o)
    (next : OpenStep db o o') : Shows inner key (db.lookup .records (inner.encodeKey key)) o' := by
  cases next with
  | ram => exact fun values res m' run => h values res m' run
  | io answer => exact fun values res m' run => h values res m' ⟨_, _, ⟨db, rfl, answer⟩, run⟩

theorem openStep_answered {request : ScanRequest} {d : Shared → Shared}
    {k : Resp (.scan request) → Io Shared (Loaded T)} (asks : o.rest = .await (.scan request) d k) :
    OpenStep db o (o.answered db) := by
  obtain ⟨me, rest, s⟩ := o
  obtain rfl : rest = .await (.scan request) d k := asks
  exact .io (serve_sound 0 _ _ _ _ rfl)

@[simp] theorem EagerOpening.instanceId_answered : (o.answered db).instanceId = o.instanceId := by
  unfold EagerOpening.answered
  split
  · split
    · rfl
    · rfl
  · rfl

theorem ends_of_tab? {tab : Tab T} (h : o.tab? = some tab) : (eagerOpening inner).ends o tab := by
  unfold EagerOpening.tab? at h
  split at h
  · next values res hrest => exact ⟨values, res, hrest, (Option.some.inj h).symm⟩
  · cases h

theorem Shows.ends (h : Shows inner key record o) {values : Std.ExtTreeMap Bytes T compare}
    {res : Resident} (ended : o.rest = .ret (values, res)) :
    values[key]? = record.bind fun raw => (inner.value.decode inner.chain raw).toOption := by
  refine h values res ⟨(), o.shared⟩ ?_
  rw [ended]
  exact ⟨rfl, rfl⟩

end
end EagerTabs
end Crossbank
