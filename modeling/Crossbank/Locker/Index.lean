import Crossbank.Locker.Listing
import Crossbank.Locker.Priors

/-!
# What the index answers is what is stored

`keys`, `len` and `contains_key` of a lazy locker never touch the backend.

* `getBy_isSome` : a get finds something exactly where something is stored;
* `keysBytes_eq` : an index that holds the stored keys lists them in the order of a walk;
* `index_exact` : the index, the gets and the listings of an immediate locker tell one story.
-/

namespace Crossbank
open Async

namespace LazyLocker
variable {T : Type} {inner : Inner T} {m m' : Machine Tables (Ram T)} {key : Bytes} {v : Option T}

theorem loadValue_isSome (h : Run Served (inner.loadValue key) m (.ok v) m') :
    v.isSome = (m.dev.lookup .records (inner.encodeKey key)).isSome := by
  obtain ⟨found, m₁, hfetch, hrest⟩ := run_bind_ok.1 h
  obtain ⟨rfl, hfound⟩ := run_get.1 hfetch
  obtain rfl := hfound found rfl
  cases hraw : m₁.dev.lookup .records (inner.encodeKey key) with
  | none =>
    rw [hraw] at hrest
    obtain ⟨hv, -⟩ := run_pure.1 hrest
    rw [Except.ok.inj hv]
    rfl
  | some raw =>
    rw [hraw] at hrest
    obtain ⟨w, m₂, -, hret⟩ := run_bind_ok.1 hrest
    obtain ⟨hv, -⟩ := run_pure.1 hret
    rw [Except.ok.inj hv]
    rfl

/-- A get finds something exactly where something is stored, with nothing staged. -/
theorem getBy_isSome (idle : Idle m.mem) (h : Run Served (getBy inner key) m (.ok v) m') :
    v.isSome = (m.dev.lookup .records (inner.encodeKey key)).isSome := by
  obtain ⟨_, m₁, hopen, h₁⟩ := run_bind_ok.1 h
  obtain ⟨-, rfl⟩ := run_ensureOpen.1 hopen
  have hnil : m₁.mem.res.staged = [] := idle
  rw [run_read_bind, hnil, stagedView_nil] at h₁
  obtain ⟨found, m₂, hload, h₂⟩ := run_bind_ok.1 h₁
  have same : v = found := by
    dsimp only at h₂
    split at h₂
    · obtain ⟨_, m₃, -, hret⟩ := run_bind_ok.1 h₂
      exact Except.ok.inj (run_pure.1 hret).1
    · exact Except.ok.inj (run_pure.1 h₂).1
  rw [same]
  obtain ⟨r, m₃, hvalue, hnote⟩ := run_attempt_bind.1 hload
  cases r with
  | ok w =>
    obtain ⟨hw, -⟩ := run_pure.1 hnote
    rw [Except.ok.inj hw]
    exact loadValue_isSome hvalue
  | error e =>
    dsimp only at hnote
    split at hnote
    · rw [run_update_bind] at hnote
      cases (run_fail.1 hnote).1
    · cases (run_fail.1 hnote).1

/-- An index that holds the stored keys lists them in the order of a walk. -/
theorem keysBytes_eq (charted : Charted inner m) :
    keysBytes m.mem = (inner.entries m.dev .unbounded .unbounded).map Prod.fst := by
  obtain ⟨⟨index, hindex, stored⟩, -⟩ := charted
  have hkeys : keysBytes m.mem = index.toList := by
    rw [keysBytes, LazyLocker.index, hindex, Option.getD_some]
  rw [hkeys]
  have below : index.toList.Pairwise fun a b => compare a b = .lt :=
    Std.ExtTreeSet.ordered_toList
  have walked : ((inner.entries m.dev .unbounded .unbounded).map Prod.fst).Pairwise
      fun a b => compare a b = .lt :=
    List.pairwise_map.2 (inner.entries_ascending m.dev .unbounded .unbounded)
  have distinct {l : List Bytes} (h : l.Pairwise fun a b => compare a b = .lt) : l.Nodup :=
    h.imp fun {a b} hlt => by
      rintro rfl
      simp at hlt
  have perm : index.toList.Perm ((inner.entries m.dev .unbounded .unbounded).map Prod.fst) := by
    apply (List.perm_ext_iff_of_nodup (distinct below) (distinct walked)).2
    intro key
    rw [Std.ExtTreeSet.mem_toList, stored, Option.isSome_iff_exists, List.mem_map]
    constructor
    · rintro ⟨raw, hraw⟩
      exact ⟨(key, raw), inner.mem_entries.2 ⟨hraw, rfl⟩, rfl⟩
    · rintro ⟨e, he, rfl⟩
      exact ⟨e.2, (inner.mem_entries.1 he).1⟩
  apply perm.eq_of_pairwise _ below walked
  intro a b _ _ hab hba
  exact absurd hba (Std.OrientedCmp.not_lt_of_lt hab)

/-- The index, the gets and the listings of an immediate locker tell one story: after any calls,
streamed writes and evictions included, whichever requests of the backend failed, the keys that the
index lists are the keys that are stored, in order; a get that answers finds something exactly for
these; and a full listing, either way round, is of these. -/
theorem index_exact (alone : Alone inner m) (immediate : isDeferred inner = false) :
    keysBytes m.mem = (inner.entries m.dev .unbounded .unbounded).map Prod.fst ∧
    (∀ key v m', Run Served (getBy inner key) m (.ok v) m' → v.isSome = containsKeyBy key m.mem) ∧
    ∀ reverse out m', Run Served (collect inner .unbounded .unbounded reverse none) m (.ok out) m' →
      out.map Prod.fst = if reverse then (keysBytes m.mem).reverse else keysBytes m.mem := by
  have charted := alone.charted immediate
  have idle : Idle m.mem := alone.reached.idle immediate
  have listed := keysBytes_eq charted
  refine ⟨listed, fun key v m' h => ?_, fun reverse out m' h => ?_⟩
  · rw [getBy_isSome idle h]
    obtain ⟨⟨index, hindex, stored⟩, -⟩ := charted
    rw [containsKeyBy, LazyLocker.index, hindex, Option.getD_some, Bool.eq_iff_iff,
      Std.ExtTreeSet.contains_iff_mem]
    exact (stored key).symm
  · have decoded := collect_run inner h
    have hnil : m.mem.res.staged = [] := idle
    rw [sources, hnil, if_pos rfl] at decoded
    rw [← keys_of_decodes inner decoded, listed]
    cases reverse with
    | true =>
      simp [atMost, Inner.entriesInOrder, Function.comp_def]
    | false =>
      simp [atMost, Inner.entriesInOrder, Function.comp_def]

/-- After a put on a new store the index lists its key. -/
theorem index_exact_put : ∃ m : Machine Tables (Ram Bytes), keysBytes m.mem = [ascii "k"] ∧
    keysBytes m.mem = (Inner.plain.entries m.dev .unbounded .unbounded).map Prod.fst ∧
    (∀ key v m', Run Served (getBy Inner.plain key) m (.ok v) m' →
      v.isSome = containsKeyBy key m.mem) ∧
    ∀ reverse out m', Run Served (collect Inner.plain .unbounded .unbounded reverse none) m (.ok out) m' →
      out.map Prod.fst = if reverse then (keysBytes m.mem).reverse else keysBytes m.mem := by
  have h : ((putBy Inner.plain (ascii "k") [1]).eval (serve 0) openedEmpty).map
      (fun x => keysBytes x.2.mem) = some [ascii "k"] := by decide
  obtain ⟨⟨r, m⟩, heval, hkeys⟩ := Option.map_eq_some_iff.1 h
  have opening : (openLocker Inner.plain).eval (serve 0) ⟨.empty, .fresh⟩ =
      some (.ok (.new .lazy (some ∅) none), ⟨.empty, .fresh⟩) := by rfl
  have alone : Alone Inner.plain openedEmpty := .opened (Prog.eval_run (serve_sound 0) opening)
  have put : Alone Inner.plain m :=
    .called alone (.put (ascii "k") [1]) (by simp) (Prog.eval_run (serve_sound 0) heval)
  exact ⟨m, hkeys, index_exact put rfl⟩

end LazyLocker
end Crossbank
