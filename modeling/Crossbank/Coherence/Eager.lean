import Crossbank.Coherence.Tabs
import Crossbank.Locker.Held
import Crossbank.Locker.Mirroring

/-!
# An eager locker open in several tabs

* `EagerSink.apply` : another tab's news, applied to the values that are resident;
* `EagerWrite`, `EagerCommit` : the commits of an eager locker's calls;
* `eagerCalls` : what the locker does with them;
* `Outranks`, `Absorbed` : what a tab's log says of its own commits, and of the news it was delivered;
* `kept_of_reaches` : news leaves alone what the tab has committed since, if the log outranks it.
-/

namespace Crossbank
open Async

/-! ## News -/

namespace EagerSink
variable {T : Type} (inner : Inner T)

/-- The value that a change leaves resident, if this tab can hold it. -/
def decoded (change : Change) : Option T :=
  match change.deleted, change.value with
  | true, _ => none
  | false, some sealed => (inner.value.decode inner.chain sealed).toOption
  | false, none => none

def eventOf (change : Change) : Notice :=
  match decoded inner change, change.deleted with
  | some _, _ => .put change.key
  | none, true => .deleted change.key
  | none, false => .stale change.key

/-- One change, unless this tab's own commit of the key is at least as new. -/
def applyChange (epoch : UInt64) (tab : Tab T) (change : Change) : Tab T :=
  if tab.epochs.own[change.key]?.any (epoch ≤ ·) then tab
  else
    let values := match decoded inner change with
      | some value => tab.ram.values.insert change.key value
      | none => tab.ram.values.erase change.key
    -- A stale key is still stored: it has to count as present.
    let note := match eventOf inner change with
      | .stale key => Resident.noteDropped key
      | _ => Resident.forgetDropped change.key
    { tab with ram := ({ tab.ram with values := values }.mapRes note).announce (eventOf inner change) }

/-- Another tab cleared the locker: nothing this tab wrote outranks anything. -/
def applyClear (tab : Tab T) : Tab T :=
  { tab with
    ram := ({ tab.ram with values := ∅ }.mapRes Resident.forgetAllDropped).announce .cleared
    epochs := tab.epochs.forgetLocal }

/-- Apply another tab's news, unless this tab has absorbed some that is at least as new. -/
def apply (a : Announcement) (tab : Tab T) : Tab T :=
  if tab.ram.closed then tab
  else if a.epoch ≤ tab.epochs.applied then tab
  else
    let tab := { tab with epochs := tab.epochs.noteApplied a.epoch }
    let tab := if a.cleared then applyClear tab else tab
    a.changes.foldl (applyChange inner a.epoch) tab

end EagerSink

/-! ## Commits -/

/-- The write of a call. Whether a key was held that it removes, is for the event alone. -/
inductive EagerWrite (T : Type) where
  | alone (entry : Staged T) (held : Bool)
  | transact (entries : List (Staged T))
  | flush

/-- A commit: the call's write, and the staged batch that rides along. -/
structure EagerCommit (T : Type) where
  write : EagerWrite T
  before : List Pending

namespace EagerWrite
variable {T : Type}

def entries : EagerWrite T → List (Staged T)
  | alone entry _ => [entry]
  | transact entries => entries
  | flush => []

/-- A put, a delete or a clear that is committed at once takes no lock. -/
def locks : EagerWrite T → Bool
  | alone .. => false
  | transact _ | flush => true

end EagerWrite

section
variable {T : Type} (inner : Inner T)

def mirror (entry : Staged T) (held : Bool) (ram : Ram T) : Ram T :=
  match entry with
  | .put key _ value =>
    ({ ram with values := ram.values.insert key value }.mapRes (Resident.forgetDropped key)).announce
      (.put key)
  | .delete key =>
    let ram := { ram with values := ram.values.erase key }.mapRes (Resident.forgetDropped key)
    if held then ram.announce (.deleted key) else ram
  | .clear => ({ ram with values := ∅ }.mapRes Resident.forgetAllDropped).announce .cleared

/-- What memory becomes when a commit has landed. A flush has nothing left to mirror. -/
def settleEager (c : EagerCommit T) (ram : Ram T) : Ram T :=
  match c.write with
  | .alone entry held => mirror entry held ram
  | .transact entries =>
    let (ram, news) := entries.foldl EagerLocker.mirrorEntry (ram, [])
    dropDrained { ram with events := ram.events ++ news }
  | .flush => dropDrained ram

theorem run_mirror {sem : (q : Req) → Machine Tables (Ram T) → Resp q → Machine Tables (Ram T) → Prop}
    {m m' : Machine Tables (Ram T)} {r : Except Error Unit} (entry : Staged T) (held : Bool) :
    Run sem (match entry with
      | .put key _ value => EagerLocker.mirrorPut key value
      | .delete key => EagerLocker.mirrorDelete key held
      | .clear => EagerLocker.mirrorClear) m r m' ↔ r = .ok () ∧ m' = ⟨m.dev, mirror entry held m.mem⟩ := by
  cases entry with
  | put | clear => exact Iff.rfl
  | delete key => cases held <;> exact Iff.rfl

/-- A deferred write is staged, and mirrored at once. -/
def stageEager (entry : Staged T) (held : Bool) (ram : Ram T) : Ram T :=
  mirror entry held (ram.mapRes fun r => { r with staged := r.staged ++ [entry.pending] })

/-- An eager locker. What it stages it may stage at any time; a transaction or a flush waits for the
others that hold the write lock. An open is one act here; in `eagerTabs` it goes page by page. -/
def eagerCalls : LockerCalls T (EagerCommit T) where
  inner := inner
  alone ram _ ram' := isDeferred inner = true ∧ ∃ entry held, entry.Serialised inner ∧
    ram' = stageEager entry held ram
  may ram under c ops := (c.write.locks = true → ∀ c', under c' → c'.write.locks = false) ∧
    (c.write.locks = false → isDeferred inner = false) ∧
    c.before = (if c.write.locks then ram.res.staged else []) ∧
    (∀ entry ∈ c.write.entries, entry.Serialised inner) ∧
    Lays inner ops (mergeBatches c.before c.write.entries)
  send c ram := if c.write.locks then ram.mapRes .drain else ram
  fail c ram := if c.write.locks then ram.mapRes (.putBack c.before) else ram
  settle c ram := settleEager c ram
  sink := EagerSink.apply inner
  opens db ram := ram.closed = false ∧ ram.res.staged = [] ∧
    ∀ key, Mirrored inner db [] key ram.values[key]?

end

/-! ## What a log says -/

abbrev TabLog (C : Type) := List (LogEntry (TabCommit C) Announcement)

section
variable {C : Type} (me : UInt32) (log : TabLog C) (key : Bytes)

/-- Of the news of other tabs that was delivered, some was as new. `me` is this tab's name. -/
def Absorbed (epoch : UInt64) : Prop :=
  ∃ sent, .heard sent ∈ log ∧ sent.news.instanceId ≠ me ∧ epoch ≤ sent.news.epoch

/-- The news of the tab's own commit speaks of the key. -/
def Wrote (commit : TabCommit C) (news : Announcement) : Prop :=
  commit.news = some news ∧ ∃ change ∈ news.changes, change.key = key

/-- After `log`, the entry ends what the tab's commits of the key before it are worth: a commit that
clears or writes the key, or a clear of another tab that has not been absorbed. -/
def Resets : LogEntry (TabCommit C) Announcement → Prop
  | .opened _ => True
  | .made _ commit => ∃ news, commit.news = some news ∧
      (news.cleared = true ∨ ∃ change ∈ news.changes, change.key = key)
  | .heard sent => sent.news.instanceId ≠ me ∧ sent.news.cleared = true ∧
      ¬ Absorbed me log sent.news.epoch

/-- The tab's own last commit of the key is at least as new: it did not clear, and nothing has
cleared since. -/
def Outranks (epoch : UInt64) : Prop :=
  ∃ before t commit after news, log = before ++ .made t commit :: after ∧ Wrote key commit news ∧
    news.cleared = false ∧ epoch ≤ news.epoch ∧ ∀ mid entry rest, after = mid ++ entry :: rest →
      ¬ Resets me (before ++ .made t commit :: mid) key entry

/-- The tab has written at most `EPOCH_MEMORY` keys. -/
def Few : Prop :=
  ∃ keys : List Bytes, keys.length ≤ EPOCH_MEMORY ∧ ∀ t commit news, .made t commit ∈ log →
    commit.news = some news → ∀ change ∈ news.changes, change.key ∈ keys

/-- What the tab remembers is what its log says. -/
structure Epochs.Follows (e : Epochs) : Prop where
  made : ∀ key, key ∈ e.own → ∃ t commit news, .made t commit ∈ log ∧ Wrote key commit news
  absorbed : ∀ epoch, Absorbed me log epoch → epoch ≤ e.applied
  own : Few log → ∀ key epoch, Outranks me log key epoch →
    ∃ mine, e.own[key]? = some mine ∧ epoch ≤ mine

end

section
variable {C : Type} {me : UInt32} {log : TabLog C} {key : Bytes} {epoch : UInt64} {e : Epochs}
  {entry : LogEntry (TabCommit C) Announcement} {sent : Sent Announcement}

theorem outranks_concat (h : Outranks me (log ++ [entry]) key epoch) :
    (∃ t commit news, entry = .made t commit ∧ Wrote key commit news ∧ news.cleared = false ∧
      epoch ≤ news.epoch) ∨ (Outranks me log key epoch ∧ ¬ Resets me log key entry) := by
  obtain ⟨before, t, commit, after, news, hlog, wrote, hclear, hle, hsince⟩ := h
  rcases List.eq_nil_or_concat after with rfl | ⟨rest, last, rfl⟩
  · obtain ⟨-, heq⟩ := List.append_inj' hlog rfl
    exact .inl ⟨t, commit, news, by simpa using heq, wrote, hclear, hle⟩
  · rw [List.concat_eq_append] at hlog hsince
    have hsplit : log ++ [entry] = (before ++ .made t commit :: rest) ++ [last] := by
      rw [hlog, List.append_assoc, List.cons_append]
    obtain ⟨rfl, heq⟩ := List.append_inj' hsplit rfl
    obtain rfl : entry = last := by simpa using heq
    refine .inr ⟨⟨before, t, commit, rest, news, rfl, wrote, hclear, hle, fun mid other more hmid => ?_⟩,
      hsince rest entry [] rfl⟩
    exact hsince mid other (more ++ [entry]) (by rw [hmid, List.append_assoc, List.cons_append])

theorem Few.of_append {more : TabLog C} (h : Few (log ++ more)) : Few log := by
  obtain ⟨keys, hlen, hall⟩ := h
  exact ⟨keys, hlen, fun t commit news hm => hall t commit news (List.mem_append_left _ hm)⟩

theorem absorbed_concat_made {t : Nat} {commit : TabCommit C}
    (h : Absorbed me (log ++ [.made t commit]) epoch) : Absorbed me log epoch := by
  obtain ⟨sent, hs, hne, hle⟩ := h
  refine ⟨sent, ?_, hne, hle⟩
  simpa using hs

theorem absorbed_concat_heard (h : Absorbed me (log ++ [.heard sent]) epoch) :
    Absorbed me log epoch ∨ (sent.news.instanceId ≠ me ∧ epoch ≤ sent.news.epoch) := by
  obtain ⟨other, ho, hne, hle⟩ := h
  rcases List.mem_append.1 ho with ho | ho
  · exact .inl ⟨other, ho, hne, hle⟩
  · obtain rfl : other = sent := by simpa using ho
    exact .inr ⟨hne, hle⟩

/-! ## What a tab remembers -/

theorem getElem?_noteAll (keys : List Bytes) (own : Std.ExtTreeMap Bytes UInt64 compare) :
    (keys.foldl (fun own key => own.insert key epoch) own)[key]? =
      if key ∈ keys then some epoch else own[key]? := by
  induction keys generalizing own with
  | nil => simp
  | cons first rest ih =>
    rw [List.foldl_cons, ih]
    by_cases hrest : key ∈ rest
    · simp [hrest]
    · by_cases hk : first = key
      · simp [hrest, hk]
      · simp [hrest, hk, Ne.symm hk, Std.ExtTreeMap.getElem?_insert]

theorem mem_noteAll (keys : List Bytes) (own : Std.ExtTreeMap Bytes UInt64 compare) :
    key ∈ keys.foldl (fun own key => own.insert key epoch) own ↔ key ∈ keys ∨ key ∈ own := by
  rw [← Std.ExtTreeMap.isSome_getElem?_iff_mem, getElem?_noteAll]
  by_cases hkey : key ∈ keys
  · simp [hkey]
  · simp [hkey]

theorem size_le_of_mem {own : Std.ExtTreeMap Bytes UInt64 compare} {keys : List Bytes}
    (h : ∀ key, key ∈ own → key ∈ keys) : own.size ≤ keys.length := by
  rw [← Std.ExtTreeMap.length_keys]
  refine (List.subperm_of_subset Std.ExtTreeMap.nodup_keys fun key hkey => ?_).length_le
  exact h key (Std.ExtTreeMap.mem_keys.1 hkey)

/-- A commit notes its keys, unless that makes them too many, and notes none if it cleared. -/
theorem own_noteCommit {news : Announcement} {keys : List Bytes} (few : keys.length ≤ EPOCH_MEMORY)
    (own : ∀ key, key ∈ e.own → key ∈ keys) (changes : ∀ change ∈ news.changes, change.key ∈ keys)
    (kept : news.cleared = false) (key : Bytes) : (e.noteCommit (some news)).own[key]? =
      if key ∈ news.changes.map Change.key then some news.epoch else e.own[key]? := by
  have hsize : ((news.changes.map Change.key).foldl (fun own key => own.insert key news.epoch)
      e.own).size ≤ EPOCH_MEMORY := by
    refine (size_le_of_mem fun key hkey => ?_).trans few
    rcases (mem_noteAll _ _).1 hkey with hkey | hkey
    · obtain ⟨change, hc, rfl⟩ := List.mem_map.1 hkey
      exact changes change hc
    · exact own key hkey
  unfold Epochs.noteCommit Epochs.noteLocal
  dsimp only
  rw [kept, if_neg (by simp), if_neg (Nat.not_lt.2 hsize), getElem?_noteAll]

theorem mem_noteCommit {news : Announcement} (h : key ∈ (e.noteCommit (some news)).own) :
    key ∈ e.own ∨ ∃ change ∈ news.changes, change.key = key := by
  unfold Epochs.noteCommit Epochs.noteLocal Epochs.forgetLocal at h
  dsimp only at h
  split at h
  · simp at h
  · dsimp only at h
    split at h
    · simp at h
    · rcases (mem_noteAll _ _).1 h with h | h
      · exact .inr (List.mem_map.1 h)
      · exact .inl h

theorem applied_noteCommit (news : Option Announcement) : (e.noteCommit news).applied = e.applied := by
  unfold Epochs.noteCommit
  cases news with
  | none => rfl
  | some news =>
    dsimp only
    split <;> rfl

theorem le_noteApplied {other : UInt64} (h : epoch ≤ e.applied ∨ epoch ≤ other) :
    epoch ≤ (e.noteApplied other).applied := by
  show epoch ≤ if e.applied ≤ other then other else e.applied
  simp only [UInt64.le_iff_toNat_le] at h ⊢
  split <;> omega

namespace Epochs.Follows

theorem fresh (n : Nat) : Epochs.Follows me ([.opened n] : TabLog C) .fresh := by
  refine ⟨fun key hkey => ?_, fun epoch ⟨sent, hs, _⟩ => ?_, fun _ key epoch h => ?_⟩
  · exact absurd hkey (by simp [Epochs.fresh])
  · simp at hs
  · obtain ⟨before, t, commit, after, news, hlog, -⟩ := h
    cases before with
    | nil => simp at hlog
    | cons first rest => simp at hlog

theorem settle (h : e.Follows me log) (t : Nat) (commit : TabCommit C) :
    (e.noteCommit commit.news).Follows me (log ++ [.made t commit]) := by
  have old {key : Bytes} (hkey : key ∈ e.own) :
      ∃ t' commit' news, .made t' commit' ∈ log ++ [.made t commit] ∧ Wrote key commit' news := by
    obtain ⟨t', commit', news, hm, wrote⟩ := h.made key hkey
    exact ⟨t', commit', news, List.mem_append_left _ hm, wrote⟩
  refine ⟨fun key hkey => ?_, fun epoch habs => ?_, fun few key epoch hout => ?_⟩
  · cases hnews : commit.news with
    | none =>
      rw [hnews] at hkey
      exact old hkey
    | some news =>
      rw [hnews] at hkey
      rcases mem_noteCommit hkey with hkey | hchange
      · exact old hkey
      · exact ⟨t, commit, news, by simp, hnews, hchange⟩
  · rw [applied_noteCommit]
    exact h.absorbed epoch (absorbed_concat_made habs)
  · obtain ⟨keys, hlen, hall⟩ := few
    have hown (key : Bytes) (hkey : key ∈ e.own) : key ∈ keys := by
      obtain ⟨t', commit', news, hm, hnews, change, hc, rfl⟩ := h.made key hkey
      exact hall t' commit' news (List.mem_append_left _ hm) hnews change hc
    rcases outranks_concat hout with ⟨t', commit', news, heq, ⟨hnews, change, hc, rfl⟩, hclear, hle⟩ | ⟨hold, hreset⟩
    · obtain ⟨rfl, rfl⟩ := LogEntry.made.inj heq
      refine ⟨news.epoch, ?_, hle⟩
      rw [hnews, own_noteCommit hlen hown (fun change hc => hall t commit news (by simp) hnews change hc)
        hclear, if_pos (List.mem_map_of_mem hc)]
    · obtain ⟨mine, hmine, hle⟩ := h.own ⟨keys, hlen, fun t' commit' news hm =>
        hall t' commit' news (List.mem_append_left _ hm)⟩ key epoch hold
      refine ⟨mine, ?_, hle⟩
      cases hnews : commit.news with
      | none => exact hmine
      | some news =>
        have hkept : news.cleared = false := by
          rw [← Bool.not_eq_true]
          exact fun hclear => hreset ⟨news, hnews, .inl hclear⟩
        rw [own_noteCommit hlen hown (fun change hc => hall t commit news (by simp) hnews change hc)
          hkept, if_neg]
        · exact hmine
        · intro hkey
          obtain ⟨change, hc, hk⟩ := List.mem_map.1 hkey
          exact hreset ⟨news, hnews, .inr ⟨change, hc, hk⟩⟩

theorem drop (h : e.Follows me log)
    (old : sent.news.instanceId = me ∨ sent.news.epoch ≤ e.applied) :
    e.Follows me (log ++ [.heard sent]) := by
  refine ⟨fun key hkey => ?_, fun epoch habs => ?_, fun few key epoch hout => ?_⟩
  · obtain ⟨t, commit, news, hm, wrote⟩ := h.made key hkey
    exact ⟨t, commit, news, List.mem_append_left _ hm, wrote⟩
  · rcases absorbed_concat_heard habs with habs | ⟨hne, hle⟩
    · exact h.absorbed epoch habs
    · exact UInt64.le_trans hle (old.resolve_left hne)
  · rcases outranks_concat hout with ⟨t, commit, news, heq, -⟩ | ⟨hold, -⟩
    · cases heq
    · exact h.own few.of_append key epoch hold

theorem take (h : e.Follows me log) (other : sent.news.instanceId ≠ me)
    (fresh : ¬ sent.news.epoch ≤ e.applied) :
    (if sent.news.cleared then (e.noteApplied sent.news.epoch).forgetLocal
      else e.noteApplied sent.news.epoch).Follows me (log ++ [.heard sent]) := by
  have happlied : (if sent.news.cleared then (e.noteApplied sent.news.epoch).forgetLocal
      else e.noteApplied sent.news.epoch).applied = (e.noteApplied sent.news.epoch).applied := by
    split <;> rfl
  refine ⟨fun key hkey => ?_, fun epoch habs => ?_, fun few key epoch hout => ?_⟩
  · split at hkey
    · simp [Epochs.forgetLocal] at hkey
    · obtain ⟨t, commit, news, hm, wrote⟩ := h.made key hkey
      exact ⟨t, commit, news, List.mem_append_left _ hm, wrote⟩
  · rw [happlied]
    rcases absorbed_concat_heard habs with habs | ⟨-, hle⟩
    · exact le_noteApplied (.inl (h.absorbed epoch habs))
    · exact le_noteApplied (.inr hle)
  · rcases outranks_concat hout with ⟨t, commit, news, heq, -⟩ | ⟨hold, hreset⟩
    · cases heq
    · rw [if_neg]
      · exact h.own few.of_append key epoch hold
      · exact fun hclear => hreset ⟨other, hclear, fun habs => fresh (h.absorbed _ habs)⟩

end Epochs.Follows

end

/-! ## What news leaves alone -/

/-- The value of the key stays, and the key is stale if it was. -/
def Kept {T : Type} (key : Bytes) (ram ram' : Ram T) : Prop :=
  ram'.values[key]? = ram.values[key]? ∧
    ram'.res.dropped.contains key = ram.res.dropped.contains key

section
variable {T : Type} {inner : Inner T} {tab : Tab T} {a : Announcement} {key : Bytes}
  {epoch mine : UInt64}

theorem frame_applyChange (inner : Inner T) (epoch : UInt64) (changes : List Change) (tab : Tab T) :
    (changes.foldl (EagerSink.applyChange inner epoch) tab).epochs = tab.epochs ∧
      (changes.foldl (EagerSink.applyChange inner epoch) tab).instanceId = tab.instanceId ∧
      (changes.foldl (EagerSink.applyChange inner epoch) tab).ram.closed = tab.ram.closed := by
  induction changes generalizing tab with
  | nil => exact ⟨rfl, rfl, rfl⟩
  | cons change rest ih =>
    obtain ⟨hepochs, hid, hclosed⟩ := ih (EagerSink.applyChange inner epoch tab change)
    rw [List.foldl_cons, hepochs, hid, hclosed]
    unfold EagerSink.applyChange
    split <;> exact ⟨rfl, rfl, rfl⟩

theorem kept_applyChange_of_ne {change : Change} (other : change.key ≠ key) :
    Kept key tab.ram (EagerSink.applyChange inner epoch tab change).ram := by
  unfold EagerSink.applyChange
  split
  · exact ⟨rfl, rfl⟩
  · refine ⟨?_, ?_⟩
    · change (match EagerSink.decoded inner change with
        | some value => tab.ram.values.insert change.key value
        | none => tab.ram.values.erase change.key)[key]? = _
      cases EagerSink.decoded inner change with
      | some value => simp [Std.ExtTreeMap.getElem?_insert, other]
      | none => simp [Std.ExtTreeMap.getElem?_erase, other]
    · unfold EagerSink.eventOf
      cases EagerSink.decoded inner change with
      | some value => simp [Ram.announce, Ram.mapRes, Resident.forgetDropped, other]
      | none =>
        cases change.deleted with
        | true => simp [Ram.announce, Ram.mapRes, Resident.forgetDropped, other]
        | false => simp [Ram.announce, Ram.mapRes, Resident.noteDropped, other]

/-- The tab's own commit outranks the news, change by change. -/
theorem kept_applyChanges (changes : List Change) (own : tab.epochs.own[key]? = some mine)
    (newer : epoch ≤ mine) :
    Kept key tab.ram (changes.foldl (EagerSink.applyChange inner epoch) tab).ram := by
  induction changes generalizing tab with
  | nil => exact ⟨rfl, rfl⟩
  | cons change rest ih =>
    have hepochs : (EagerSink.applyChange inner epoch tab change).epochs = tab.epochs :=
      (frame_applyChange inner epoch [change] tab).1
    have hrest : Kept key (EagerSink.applyChange inner epoch tab change).ram _ := ih (hepochs ▸ own)
    have hfirst : Kept key tab.ram (EagerSink.applyChange inner epoch tab change).ram := by
      by_cases hk : change.key = key
      · unfold EagerSink.applyChange
        rw [if_pos (by rw [hk, own]; simpa using newer)]
        exact ⟨rfl, rfl⟩
      · exact kept_applyChange_of_ne hk
    exact ⟨hrest.1.trans hfirst.1, hrest.2.trans hfirst.2⟩

/-- News that does not speak of the key. -/
theorem kept_of_untold (untold : a.tells key = false) :
    Kept key tab.ram (EagerSink.apply inner a tab).ram := by
  obtain ⟨hclear, hlast⟩ : a.cleared = false ∧ ((⟨a.cleared, a.changes⟩ : News).last key).isSome = false :=
    Bool.or_eq_false_iff.1 untold
  have hother (change : Change) (hc : change ∈ a.changes) : change.key ≠ key := by
    have hnone : (⟨a.cleared, a.changes⟩ : News).last key = none :=
      Option.not_isSome_iff_eq_none.1 (by rw [hlast]; simp)
    simpa using List.find?_eq_none.1 hnone change (List.mem_reverse.2 hc)
  have hfold (changes : List Change) (hall : ∀ change ∈ changes, change.key ≠ key) (tab : Tab T) :
      Kept key tab.ram (changes.foldl (EagerSink.applyChange inner a.epoch) tab).ram := by
    induction changes generalizing tab with
    | nil => exact ⟨rfl, rfl⟩
    | cons change rest ih =>
      have hrest := ih (fun other ho => hall other (List.mem_cons_of_mem _ ho))
        (EagerSink.applyChange inner a.epoch tab change)
      have hfirst : Kept key tab.ram (EagerSink.applyChange inner a.epoch tab change).ram :=
        kept_applyChange_of_ne (hall change List.mem_cons_self)
      exact ⟨hrest.1.trans hfirst.1, hrest.2.trans hfirst.2⟩
  unfold EagerSink.apply
  split
  · exact ⟨rfl, rfl⟩
  · split
    · exact ⟨rfl, rfl⟩
    · dsimp only
      rw [hclear, if_neg (by simp)]
      exact hfold a.changes hother _

/-- News that is absorbed already, or that the tab's own commit of the key outranks. -/
theorem kept_apply (old : a.epoch ≤ tab.epochs.applied ∨
    (a.cleared = false ∧ ∃ mine, tab.epochs.own[key]? = some mine ∧ a.epoch ≤ mine)) :
    Kept key tab.ram (EagerSink.apply inner a tab).ram := by
  unfold EagerSink.apply
  split
  · exact ⟨rfl, rfl⟩
  · split
    · exact ⟨rfl, rfl⟩
    · next hnew =>
      obtain ⟨hclear, mine, hown, hle⟩ := old.resolve_left hnew
      dsimp only
      rw [hclear, if_neg (by simp)]
      exact kept_applyChanges a.changes hown hle

end

abbrev EagerWorld (ι T : Type) :=
  World ι Bytes Tables (Tab T) (TabCommit (EagerCommit T)) Announcement

namespace EagerTabs

section
variable {ι T : Type} (inner : Inner T) (w : EagerWorld ι T) (i : ι) (key : Bytes)

def Puts (commit : TabCommit (EagerCommit T)) : Prop :=
  ∃ record, written commit.ops .records (inner.encodeKey key) = some (some record)

/-- A commit of the tab that put the key has landed since `t`. -/
def CommittedSince (t : Nat) : Prop :=
  (∃ t' commit, .made t' commit ∈ w.log i ∧ t < t' ∧ Puts inner key commit) ∨
  ∃ n commit t', w.flights i n = some ⟨commit, some t'⟩ ∧ t < t' ∧ Puts inner key commit

/-- The news is outranked in the tab, for the key: the tab drops it whole, or it clears nothing and
the tab's own last commit of the key is at least as new. -/
def Outranked (news : Announcement) : Prop :=
  news.instanceId = (w.tabs i).instanceId ∨ Absorbed (w.tabs i).instanceId (w.log i) news.epoch ∨
    (news.cleared = false ∧ Outranks (w.tabs i).instanceId (w.log i) key news.epoch)

/-- The first news from one tab to another is outranked, for every key that it speaks of and that
the other tab has committed since. -/
def Guards (a b : ι) : Prop :=
  ∀ sent rest, w.mail a b = sent :: rest → ∀ key, sent.news.tells key = true →
    CommittedSince inner w b key sent.landed → Outranked w b key sent.news

structure JustOpened : Prop where
  flights : ∀ i n, w.flights i n = none
  mail : ∀ a b, w.mail a b = []
  log : ∀ i, w.log i = [.opened w.landings]
  tabs : ∀ i, (eagerCalls inner).protocol.opens w.store (w.tabs i)

def Remembers : Prop :=
  ∀ i, (w.tabs i).ram.closed = false ∧
    (w.tabs i).epochs.Follows (w.tabs i).instanceId (w.log i)

end

section
variable {ι T : Type} [DecidableEq ι] {inner : Inner T} {w w₀ : EagerWorld ι T}

omit [DecidableEq ι] in
theorem closed_mirror (entry : Staged T) (held : Bool) (ram : Ram T) :
    (mirror entry held ram).closed = ram.closed := by
  cases entry with
  | put | clear => rfl
  | delete key => cases held <;> rfl

omit [DecidableEq ι] in
theorem closed_settleEager (c : EagerCommit T) (ram : Ram T) :
    (settleEager c ram).closed = ram.closed := by
  unfold settleEager
  cases c.write with
  | alone entry held => exact closed_mirror entry held ram
  | flush => rfl
  | transact entries =>
    have hfold (state : Ram T × List Notice) :
        (entries.foldl EagerLocker.mirrorEntry state).1.closed = state.1.closed := by
      induction entries generalizing state with
      | nil => rfl
      | cons entry rest ih =>
        rw [List.foldl_cons, ih]
        cases entry <;> rfl
    exact hfold (ram, [])

theorem Remembers.tab (h : Remembers w) {i : ι} {tab : Tab T}
    (closed : tab.ram.closed = (w.tabs i).ram.closed) (epochs : tab.epochs = (w.tabs i).epochs)
    (id : tab.instanceId = (w.tabs i).instanceId) : Remembers (w.setTab i tab) := by
  intro j
  by_cases hj : j = i
  · subst hj
    rw [show (w.setTab j tab).tabs j = tab from if_pos rfl, closed, epochs, id]
    exact h j
  · rw [show (w.setTab i tab).tabs j = w.tabs j from if_neg hj]
    exact h j

theorem Remembers.note (h : Remembers w) {i : ι} {tab : Tab T}
    {entry : LogEntry (TabCommit (EagerCommit T)) Announcement} (closed : tab.ram.closed = false)
    (follows : tab.epochs.Follows tab.instanceId (w.log i ++ [entry])) :
    Remembers ((w.setTab i tab).note i entry) := by
  intro j
  by_cases hj : j = i
  · subst hj
    rw [show ((w.setTab j tab).note j entry).tabs j = tab from if_pos rfl,
      show ((w.setTab j tab).note j entry).log j = w.log j ++ [entry] from if_pos rfl]
    exact ⟨closed, follows⟩
  · rw [show ((w.setTab i tab).note i entry).tabs j = w.tabs j from if_neg hj,
      show ((w.setTab i tab).note i entry).log j = w.log j from if_neg hj]
    exact h j

theorem follows_hear {tab : Tab T} {log : TabLog (EagerCommit T)} (sent : Sent Announcement)
    (isOpen : tab.ram.closed = false) (h : tab.epochs.Follows tab.instanceId log) :
    ((eagerCalls inner).protocol.hear sent.news tab).ram.closed = false ∧
      ((eagerCalls inner).protocol.hear sent.news tab).epochs.Follows
        ((eagerCalls inner).protocol.hear sent.news tab).instanceId (log ++ [.heard sent]) := by
  change (if sent.news.instanceId = tab.instanceId then tab else EagerSink.apply inner sent.news
    tab).ram.closed = false ∧ (if sent.news.instanceId = tab.instanceId then tab else
    EagerSink.apply inner sent.news tab).epochs.Follows (if sent.news.instanceId = tab.instanceId then
    tab else EagerSink.apply inner sent.news tab).instanceId _
  split
  · next hsame => exact ⟨isOpen, h.drop (.inl hsame)⟩
  · next hother =>
    unfold EagerSink.apply
    rw [if_neg (by simp [isOpen])]
    split
    · next hold => exact ⟨isOpen, h.drop (.inr hold)⟩
    · next hnew =>
      have htake := h.take hother hnew
      dsimp only
      obtain ⟨hepochs, hid, hclosed⟩ := frame_applyChange inner sent.news.epoch sent.news.changes
        (if sent.news.cleared then EagerSink.applyClear { tab with
          epochs := tab.epochs.noteApplied sent.news.epoch }
        else { tab with epochs := tab.epochs.noteApplied sent.news.epoch })
      rw [hepochs, hid, hclosed]
      cases hc : sent.news.cleared with
      | true =>
        rw [hc] at htake
        exact ⟨isOpen, htake⟩
      | false =>
        rw [hc] at htake
        exact ⟨isOpen, htake⟩

theorem Remembers.step {act : Act ι (Tab T) (TabCommit (EagerCommit T))} {w' : EagerWorld ι T}
    (h : Remembers w) (next : (eagerCalls inner).protocol.Step w act w') : Remembers w' := by
  cases act with
  | alone i memory =>
    obtain ⟨halone, rfl⟩ := next
    rcases halone with rfl | ⟨ram, ⟨-, entry, held, -, rfl⟩, rfl⟩
    · exact h.tab rfl rfl rfl
    · exact h.tab (closed_mirror entry held _) rfl rfl
  | send i n commit =>
    obtain ⟨-, -, rfl⟩ := next
    refine h.tab ?_ rfl rfl
    change (if commit.call.write.locks then (w.tabs i).ram.mapRes .drain
      else (w.tabs i).ram).closed = _
    split <;> rfl
  | land i n =>
    obtain ⟨commit, -, rfl⟩ := next
    exact h
  | fail i n =>
    obtain ⟨commit, -, rfl⟩ := next
    refine h.tab ?_ rfl rfl
    change (if commit.call.write.locks then (w.tabs i).ram.mapRes (.putBack commit.call.before)
      else (w.tabs i).ram).closed = _
    split <;> rfl
  | settle i n =>
    obtain ⟨commit, t, -, rfl⟩ := next
    obtain ⟨hopen, hfollows⟩ := h i
    exact h.note ((closed_settleEager commit.call _).trans hopen) (hfollows.settle t commit)
  | deliver a b =>
    obtain ⟨sent, rest, -, rfl⟩ := next
    obtain ⟨hopen, hfollows⟩ := h b
    obtain ⟨hclosed, hheard⟩ := follows_hear sent hopen hfollows
    exact h.note hclosed hheard
  | reload i memory =>
    obtain ⟨⟨⟨hopen, -⟩, hepochs, -⟩, rfl⟩ := next
    intro j
    by_cases hj : j = i
    · subst hj
      rw [show (w.restart j memory).tabs j = memory from if_pos rfl,
        show (w.restart j memory).log j = [.opened w.landings] from if_pos rfl, hepochs]
      exact ⟨hopen, .fresh _⟩
    · rw [show (w.restart i memory).tabs j = w.tabs j from if_neg hj,
        show (w.restart i memory).log j = w.log j from if_neg hj]
      exact h j

omit [DecidableEq ι] in
theorem JustOpened.remembers (h : JustOpened inner w₀) : Remembers w₀ := by
  intro i
  obtain ⟨⟨hopen, -⟩, hepochs, -⟩ := h.tabs i
  rw [h.log, hepochs]
  exact ⟨hopen, .fresh _⟩

omit [DecidableEq ι] in
/-- News that is outranked in a tab that has written few keys leaves the key alone. -/
theorem kept_of_outranked {i : ι} {key : Bytes} {news : Announcement} (h : Remembers w)
    (few : Few (w.log i)) (out : Outranked w i key news) :
    Kept key (w.tabs i).ram ((eagerCalls inner).protocol.hear news (w.tabs i)).ram := by
  obtain ⟨-, hfollows⟩ := h i
  change Kept key (w.tabs i).ram (if news.instanceId = (w.tabs i).instanceId then w.tabs i
    else EagerSink.apply inner news (w.tabs i)).ram
  split
  · exact ⟨rfl, rfl⟩
  · next hother =>
    refine kept_apply ?_
    rcases out.resolve_left hother with habs | ⟨hclear, hout⟩
    · exact .inl (hfollows.absorbed _ habs)
    · exact .inr ⟨hclear, hfollows.own few key _ hout⟩

/-- News leaves alone what the tab has committed since: however the tabs have run since they
were opened, news that is outranked, for the keys that it speaks of and that the tab has committed
since, changes the value of none that the tab has committed since, and marks none stale. -/
theorem kept_of_reaches (opened : JustOpened inner w₀)
    (run : Reaches (eagerCalls inner).protocol (fun _ _ => True) w₀ w) {a b : ι} {w' : EagerWorld ι T}
    (guards : Guards inner w a b) (few : Few (w.log b))
    (next : (eagerCalls inner).protocol.Step w (.deliver a b) w') {sent : Sent Announcement}
    {rest : List (Sent Announcement)} (first : w.mail a b = sent :: rest) {key : Bytes}
    (since : CommittedSince inner w b key sent.landed) : Kept key (w.tabs b).ram (w'.tabs b).ram := by
  have hremembers : Remembers w := run.invariant opened.remembers fun _ _ _ hv _ hstep => hv.step hstep
  obtain ⟨sent', rest', hfirst, rfl⟩ := next
  obtain ⟨rfl, rfl⟩ := List.cons.inj (first.symm.trans hfirst)
  change Kept key (w.tabs b).ram (if b = b then _ else w.tabs b).ram
  rw [if_pos rfl]
  cases htold : sent.news.tells key with
  | true => exact kept_of_outranked hremembers few (guards sent rest first key htold since)
  | false =>
    change Kept key (w.tabs b).ram (if sent.news.instanceId = (w.tabs b).instanceId then w.tabs b
      else EagerSink.apply inner sent.news (w.tabs b)).ram
    split
    · exact ⟨rfl, rfl⟩
    · exact kept_of_untold htold

end

/-- Two tabs, in which the locker has just been opened over an empty store. -/
def twoTabs : EagerWorld Bool Bytes where
  store := .empty
  landings := 0
  lastWrite _ := none
  tabs i := ⟨.opened .fresh (.new .eager none none) ∅, .fresh, if i then 1 else 2, 0⟩
  flights _ _ := none
  mail _ _ := []
  log _ := [.opened 0]

theorem justOpened_twoTabs : JustOpened Inner.plain twoTabs :=
  ⟨fun _ _ => rfl, fun _ _ => rfl, fun _ => rfl,
    fun _ => ⟨⟨rfl, rfl, fun _ => Std.ExtTreeMap.getElem?_empty⟩, rfl, rfl⟩⟩

def putK (byte : UInt8) (tab : Tab Bytes) : TabCommit (EagerCommit Bytes) :=
  let ops := [.put .records (Inner.plain.encodeKey [107]) [67, 66, 78, 75, 1, 0, 1, byte]]
  ⟨⟨.alone (.put [107] [1, byte] [byte]) false, []⟩, ops, (tab.prepare Inner.plain.id ops).1⟩

theorem may_putK {w : EagerWorld Bool Bytes} {i : Bool} (byte : UInt8) :
    (eagerCalls Inner.plain).protocol.may (w.tabs i) (w.flights i) (putK byte (w.tabs i)) := by
  refine ⟨⟨fun h => (by cases h), fun _ => rfl, rfl, fun entry he => ?_, EagerLocker.lays_put rfl⟩,
    fun op hop => ?_, rfl⟩
  · obtain rfl := List.mem_singleton.1 he
    rfl
  · obtain rfl := List.mem_singleton.1 hop
    trivial

/-- One tab puts the key, and then the other does. -/
def first : EagerWorld Bool Bytes :=
  twoTabs.made (eagerCalls Inner.plain).protocol false (putK 2 (twoTabs.tabs false))

def second : EagerWorld Bool Bytes :=
  first.made (eagerCalls Inner.plain).protocol true (putK 1 (first.tabs true))

/-- The same, where the one has committed in another locker of its bank before. -/
def busy : EagerWorld Bool Bytes :=
  twoTabs.setTab false { twoTabs.tabs false with epoch := 1 }

def busyFirst : EagerWorld Bool Bytes :=
  busy.made (eagerCalls Inner.plain).protocol false (putK 2 (busy.tabs false))

def busySecond : EagerWorld Bool Bytes :=
  busyFirst.made (eagerCalls Inner.plain).protocol true (putK 1 (busyFirst.tabs true))

theorem reaches_second : Reaches (eagerCalls Inner.plain).protocol (fun _ _ => True) twoTabs second := by
  have hfirst : Reaches (eagerCalls Inner.plain).protocol (fun _ _ => True) twoTabs first :=
    Reaches.start.made rfl (may_putK 2) trivial trivial trivial
  have hfree : first.flights true 0 = none := congrFun (congrFun (World.flights_made rfl) true) 0
  exact hfirst.made hfree (may_putK 1) trivial trivial trivial

theorem reaches_busySecond :
    Reaches (eagerCalls Inner.plain).protocol (fun _ _ => True) twoTabs busySecond := by
  have hstep : (eagerCalls Inner.plain).protocol.Step twoTabs (.alone false (busy.tabs false)) busy :=
    ⟨.inl rfl, rfl⟩
  have hbusy : Reaches (eagerCalls Inner.plain).protocol (fun _ _ => True) twoTabs busy :=
    Reaches.start.step trivial hstep
  have hfirst : Reaches (eagerCalls Inner.plain).protocol (fun _ _ => True) twoTabs busyFirst :=
    hbusy.made rfl (may_putK 2) trivial trivial trivial
  have hfree : busyFirst.flights true 0 = none := congrFun (congrFun (World.flights_made rfl) true) 0
  exact hfirst.made hfree (may_putK 1) trivial trivial trivial

/-- The news of the put that came first, as a tab posts it at an epoch. -/
def newsK (epoch : UInt64) : Sent Announcement :=
  ⟨0, 2, 0, epoch, false, [.ofPut [107] [67, 66, 78, 75, 1, 0, 1, 2]]⟩

theorem mail_second : second.mail false true = [newsK 1] := by
  decide

theorem mail_busySecond : busySecond.mail false true = [newsK 2] := by
  decide

def ownK : TabCommit (EagerCommit Bytes) := putK 1 (first.tabs true)

theorem news_ownK : ownK.news = some ⟨1, 0, 1, false, [.ofPut [107] [67, 66, 78, 75, 1, 0, 1, 1]]⟩ := by
  decide

theorem log_second : second.log true = [.opened 0, .made 1 ownK] := rfl

theorem log_busySecond : busySecond.log true = [.opened 0, .made 1 ownK] := rfl

section
variable {w : EagerWorld Bool Bytes} (log : w.log true = [.opened 0, .made 1 ownK])
include log

theorem few_ownK : Few (w.log true) := by
  refine ⟨[[107]], by decide, fun t commit news hm hnews change hc => ?_⟩
  rw [log] at hm
  obtain ⟨-, rfl⟩ : t = 1 ∧ commit = ownK := by simpa using hm
  rw [news_ownK] at hnews
  obtain rfl := Option.some.inj hnews
  obtain rfl := List.mem_singleton.1 hc
  exact List.mem_singleton.2 rfl

theorem since_ownK : CommittedSince Inner.plain w true [107] 0 := by
  refine .inl ⟨1, ownK, by simp [log], by decide, [67, 66, 78, 75, 1, 0, 1, 1], ?_⟩
  decide

end

/-- The put that came last outranks the one that came first, whose epoch is no higher. -/
theorem guards_second : Guards Inner.plain second false true := by
  intro sent rest hmail key told since
  rw [mail_second] at hmail
  obtain ⟨rfl, -⟩ := List.cons.inj hmail
  refine .inr (.inr ⟨rfl, [.opened 0], 1, ownK, [], _, log_second, ⟨news_ownK, ?_⟩, rfl, by decide, ?_⟩)
  · refine ⟨_, List.mem_singleton.2 rfl, ?_⟩
    by_contra hk
    have hk : ¬ ([107] : Bytes) = key := hk
    simp [Announcement.tells, News.last, newsK, hk] at told
  · intro mid entry more h
    cases mid <;> cases h

theorem kept_second : Kept [107] (second.tabs true).ram
    ((second.told (eagerCalls Inner.plain).protocol false true).tabs true).ram := by
  have hnext : (eagerCalls Inner.plain).protocol.Step second (.deliver false true)
      (second.told (eagerCalls Inner.plain).protocol false true) := by
    refine ⟨newsK 1, [], mail_second, ?_⟩
    rw [World.told, mail_second]
  exact kept_of_reaches justOpened_twoTabs reaches_second guards_second (few_ownK log_second) hnext
    mail_second (since_ownK log_second)

/-- The put that came last is undone by the one that came first, whose epoch is higher. -/
theorem not_kept_busySecond : JustOpened Inner.plain twoTabs ∧
    Reaches (eagerCalls Inner.plain).protocol (fun _ _ => True) twoTabs busySecond ∧
    Few (busySecond.log true) ∧ busySecond.mail false true = [newsK 2] ∧
    CommittedSince Inner.plain busySecond true [107] (newsK 2).landed ∧
    ¬ Kept [107] (busySecond.tabs true).ram
      ((busySecond.told (eagerCalls Inner.plain).protocol false true).tabs true).ram := by
  refine ⟨justOpened_twoTabs, reaches_busySecond, few_ownK log_busySecond, mail_busySecond,
    since_ownK log_busySecond, ?_⟩
  intro hkept
  exact absurd hkept.1 (by decide)

end EagerTabs
end Crossbank
