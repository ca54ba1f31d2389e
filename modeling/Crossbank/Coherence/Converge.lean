import Crossbank.Coherence.Loading
import Crossbank.Locker.Collapse
import Crossbank.Locker.TxRead

/-!
# Eager lockers that converge

* `Takes` : what a tab takes in of the news, by its epochs; `shows_apply` : what is resident then;
* `Fresh`, `Current` : what a tab has taken note of, by when it landed;
* `Sees`, `Loads` : what holds of a tab that is open, and of one that opens;
* `InStep` : the acts in which a tab takes in what is newer than all it has taken note of, and no more;
* `converged_of_reaches` : in a run of such acts every tab that is open holds what is stored, once
  no commit is under way and no news on its way.
-/

namespace Crossbank
open Async
namespace EagerTabs

/-! ## What news leaves resident -/

/-- The tab takes in what the news says of the key: its epoch is higher than the highest absorbed, and,
unless it clears, than that of the tab's own last commit of the key. -/
def Takes {T : Type} (news : Announcement) (tab : Tab T) (key : Bytes) : Prop :=
  news.instanceId ≠ tab.instanceId ∧ ¬ news.epoch ≤ tab.epochs.applied ∧
    (news.cleared = true ∨ tab.epochs.own[key]?.any (news.epoch ≤ ·) = false)

section
variable {T : Type} (inner : Inner T) {tab : Tab T} {key : Bytes} {epoch : UInt64}

theorem values_applyChange {change : Change}
    (free : tab.epochs.own[change.key]?.any (epoch ≤ ·) = false) :
    (EagerSink.applyChange inner epoch tab change).ram.values =
      match EagerSink.decoded inner change with
      | some value => tab.ram.values.insert change.key value
      | none => tab.ram.values.erase change.key := by
  unfold EagerSink.applyChange
  rw [if_neg (by simp [free])]
  rfl

/-- The last change of a key stands. -/
theorem shows_applyChanges (changes : List Change) (cleared : Bool)
    (free : tab.epochs.own[key]?.any (epoch ≤ ·) = false) :
    match (⟨cleared, changes⟩ : News).last key with
    | none => Kept key tab.ram (changes.foldl (EagerSink.applyChange inner epoch) tab).ram
    | some change =>
      (changes.foldl (EagerSink.applyChange inner epoch) tab).ram.values[key]? =
        EagerSink.decoded inner change ∧
      (EagerSink.decoded inner change = none → change.deleted = false →
        (changes.foldl (EagerSink.applyChange inner epoch) tab).ram.res.dropped.contains key = true) := by
  induction changes using List.reverseRecOn with
  | nil => exact ⟨rfl, rfl⟩
  | append_singleton changes change ih =>
    have hlast : (⟨cleared, changes ++ [change]⟩ : News).last key =
        if change.key = key then some change else (⟨cleared, changes⟩ : News).last key := by
      show ((⟨cleared, changes⟩ : News).push change).last key = _
      rw [News.last_push]
    rw [hlast, List.foldl_append, List.foldl_cons, List.foldl_nil]
    generalize htab : changes.foldl (EagerSink.applyChange inner epoch) tab = before at ih ⊢
    by_cases hk : change.key = key
    · rw [if_pos hk]
      have hepochs : before.epochs = tab.epochs := htab ▸ (frame_applyChange inner epoch changes tab).1
      dsimp only
      refine ⟨?_, fun hnone hdeleted => ?_⟩
      · rw [values_applyChange inner (by rw [hk, hepochs, free])]
        cases EagerSink.decoded inner change with
        | some value => simp [hk]
        | none => simp [hk]
      · unfold EagerSink.applyChange EagerSink.eventOf
        rw [if_neg (by rw [hk, hepochs, free]; simp), hnone, hdeleted]
        simp [Ram.announce, Ram.mapRes, Resident.noteDropped, hk]
    · rw [if_neg hk]
      have hone : Kept key before.ram (EagerSink.applyChange inner epoch before change).ram :=
        kept_applyChange_of_ne hk
      cases hl : (⟨cleared, changes⟩ : News).last key with
      | none =>
        rw [hl] at ih
        exact ⟨hone.1.trans ih.1, hone.2.trans ih.2⟩
      | some last =>
        rw [hl] at ih
        exact ⟨hone.1.trans ih.1, fun hnone hdeleted => hone.2.trans (ih.2 hnone hdeleted)⟩

/-- What is resident of a key once the news of its record is taken in: its value, unless the key is
stale. -/
theorem shows_apply {news : Announcement} {record : Option Bytes} (isOpen : tab.ram.closed = false)
    (takes : Takes news tab key) (tells : (⟨news.cleared, news.changes⟩ : News).Tells key (some record)) :
    (EagerSink.apply inner news tab).ram.res.dropped.contains key = true ∨
      (EagerSink.apply inner news tab).ram.values[key]? =
        record.bind fun raw => (inner.value.decode inner.chain raw).toOption := by
  obtain ⟨-, hnew, hown⟩ := takes
  unfold EagerSink.apply
  rw [if_neg (by simp [isOpen]), if_neg hnew]
  dsimp only
  generalize htab : (if news.cleared then EagerSink.applyClear { tab with
      epochs := tab.epochs.noteApplied news.epoch }
    else { tab with epochs := tab.epochs.noteApplied news.epoch }) = start
  have hfree : start.epochs.own[key]?.any (news.epoch ≤ ·) = false := by
    rw [← htab]
    cases hc : news.cleared with
    | true => simp [EagerSink.applyClear, Epochs.forgetLocal]
    | false =>
      rw [hc] at hown
      exact hown.resolve_left (by simp)
  have hshows := shows_applyChanges inner news.changes news.cleared hfree
  cases record with
  | none =>
    refine .inr ?_
    rcases tells with ⟨hclear, hlast⟩ | hlast
    · rw [hlast] at hshows
      refine hshows.1.trans ?_
      rw [← htab, show news.cleared = true from hclear]
      exact Std.ExtTreeMap.getElem?_empty
    · rw [hlast] at hshows
      exact hshows.1
  | some raw =>
    rw [show (⟨news.cleared, news.changes⟩ : News).last key = some (.ofPut key raw) from tells] at hshows
    obtain ⟨hvalue, hstale⟩ := hshows
    by_cases hfits : raw.length ≤ INLINE_LIMIT ∧ isPointer raw = false
    · have hdecoded : EagerSink.decoded inner (.ofPut key raw) =
          (inner.value.decode inner.chain raw).toOption := by
        simp [EagerSink.decoded, Change.ofPut, hfits]
      exact .inr (hvalue.trans hdecoded)
    · have hdecoded : EagerSink.decoded inner (.ofPut key raw) = none := by
        unfold EagerSink.decoded Change.ofPut
        dsimp only
        rw [if_neg hfits]
      exact .inl (hstale hdecoded rfl)

variable {inner} in
theorem kept_of_not_takes {news : Announcement}
    (untaken : news.tells key = true → ¬ Takes news tab key) :
    Kept key tab.ram ((eagerCalls inner).protocol.hear news tab).ram := by
  change Kept key tab.ram (if news.instanceId = tab.instanceId then tab
    else EagerSink.apply inner news tab).ram
  split
  · exact ⟨rfl, rfl⟩
  · next hother =>
    cases htold : news.tells key with
    | false => exact kept_of_untold htold
    | true =>
      have htaken := untaken htold
      refine kept_apply ?_
      by_cases hold : news.epoch ≤ tab.epochs.applied
      · exact .inl hold
      · have hrest : ¬ (news.cleared = true ∨ tab.epochs.own[key]?.any (news.epoch ≤ ·) = false) :=
          fun hrest => htaken ⟨hother, hold, hrest⟩
        rw [not_or, Bool.not_eq_true, Bool.not_eq_false, Option.any_eq_true] at hrest
        obtain ⟨hclear, mine, hmine, hle⟩ := hrest
        exact .inr ⟨hclear, mine, hmine, by simpa using hle⟩

theorem frame_hear (news : Announcement) (tab : Tab T) :
    ((eagerCalls inner).protocol.hear news tab).ram.res.staged = tab.ram.res.staged ∧
      ((eagerCalls inner).protocol.hear news tab).ram.closed = tab.ram.closed := by
  have hchange (change : Change) (tab : Tab T) :
      (EagerSink.applyChange inner news.epoch tab change).ram.res.staged = tab.ram.res.staged := by
    unfold EagerSink.applyChange
    split
    · rfl
    · dsimp only [Ram.announce, Ram.mapRes]
      split <;> rfl
  have hfold (changes : List Change) (tab : Tab T) :
      (changes.foldl (EagerSink.applyChange inner news.epoch) tab).ram.res.staged =
        tab.ram.res.staged := by
    induction changes generalizing tab with
    | nil => rfl
    | cons change rest ih => rw [List.foldl_cons, ih, hchange]
  change (if news.instanceId = tab.instanceId then tab
    else EagerSink.apply inner news tab).ram.res.staged = _ ∧ (if news.instanceId = tab.instanceId
    then tab else EagerSink.apply inner news tab).ram.closed = _
  split
  · exact ⟨rfl, rfl⟩
  · unfold EagerSink.apply
    split
    · exact ⟨rfl, rfl⟩
    · split
      · exact ⟨rfl, rfl⟩
      · dsimp only
        refine ⟨(hfold _ _).trans ?_, (frame_applyChange inner _ _ _).2.2.trans ?_⟩
        · split <;> rfl
        · split <;> rfl

end

/-! ## What settling leaves resident -/

section
variable {T : Type} {inner : Inner T} {key : Bytes}

/-- What is held of a key is what was last written to it. -/
def Matches (inner : Inner T) (write : Option Bytes) (held : Option T) : Prop :=
  match write with
  | none => held = none
  | some payload => ∃ v, held = some v ∧ inner.value.payload v = .ok payload

theorem values_mirror {entry : Staged T} (serialised : entry.Serialised inner) (held : Bool)
    (ram : Ram T) : Follows inner entry.pending ram.values (mirror entry held ram).values := by
  cases entry with
  | put key payload value => exact EagerLocker.follows_put serialised _
  | delete key =>
    cases held with
    | true => exact EagerLocker.follows_delete key _
    | false => exact EagerLocker.follows_delete key _
  | clear => exact EagerLocker.follows_clear _

/-- Settling mirrors the writes of the call. -/
theorem values_settleEager {c : EagerCommit T} (ram : Ram T)
    (serialised : ∀ entry ∈ c.write.entries, entry.Serialised inner) (key : Bytes) :
    match stagedView (c.write.entries.map Staged.pending) key with
    | none => (settleEager c ram).values[key]? = ram.values[key]?
    | some write => Matches inner write (settleEager c ram).values[key]? := by
  unfold settleEager
  unfold EagerWrite.entries at serialised ⊢
  cases hw : c.write with
  | alone entry held =>
    rw [hw] at serialised
    have hfollows := values_mirror (serialised entry (List.mem_singleton.2 rfl)) held ram key
    dsimp only
    rw [List.map_singleton, stagedView_one]
    cases heffect : entry.pending.effect key with
    | none =>
      rw [heffect] at hfollows
      exact hfollows
    | some write =>
      rw [heffect] at hfollows
      cases write <;> exact hfollows
  | transact entries =>
    rw [hw] at serialised
    have hfollows := EagerLocker.followsAll_foldl entries ram [] serialised key
    rw [mergeBatches, List.nil_append] at hfollows
    dsimp only
    cases hview : stagedView (entries.map Staged.pending) key with
    | none =>
      rw [hview] at hfollows
      exact hfollows
    | some write =>
      rw [hview] at hfollows
      cases write <;> exact hfollows
  | flush => rfl

theorem dropped_forgetDropped {key other : Bytes} (ne : other ≠ key) (r : Resident) :
    (r.forgetDropped other).dropped.contains key = r.dropped.contains key := by
  simp [Resident.forgetDropped, ne]

theorem dropped_mirror {entry : Staged T} (unwritten : entry.pending.effect key = none) (held : Bool)
    (ram : Ram T) : (mirror entry held ram).res.dropped.contains key = ram.res.dropped.contains key := by
  cases entry with
  | put other payload value =>
    exact dropped_forgetDropped (by simpa [Staged.pending, Pending.effect] using unwritten) ram.res
  | delete other =>
    have hne : other ≠ key := by simpa [Staged.pending, Pending.effect] using unwritten
    cases held with
    | true => exact dropped_forgetDropped hne ram.res
    | false => exact dropped_forgetDropped hne ram.res
  | clear => cases unwritten

theorem staged_mirror (entry : Staged T) (held : Bool) (ram : Ram T) :
    (mirror entry held ram).res.staged = ram.res.staged := by
  cases entry with
  | put | clear => rfl
  | delete other => cases held <;> rfl

theorem dropped_settleEager {c : EagerCommit T} (ram : Ram T)
    (unwritten : stagedView (c.write.entries.map Staged.pending) key = none) :
    (settleEager c ram).res.dropped.contains key = ram.res.dropped.contains key := by
  unfold settleEager
  unfold EagerWrite.entries at unwritten
  cases hw : c.write with
  | flush => rfl
  | alone entry held =>
    rw [hw] at unwritten
    dsimp only at unwritten ⊢
    rw [List.map_singleton, stagedView_one] at unwritten
    exact dropped_mirror unwritten held ram
  | transact entries =>
    rw [hw] at unwritten
    dsimp only at unwritten ⊢
    have hfold (state : Ram T × List Notice) :
        (entries.foldl EagerLocker.mirrorEntry state).1.res.dropped.contains key =
          state.1.res.dropped.contains key := by
      clear hw
      induction entries using List.reverseRecOn with
      | nil => rfl
      | append_singleton entries last ih =>
        rw [List.map_append, List.map_singleton, stagedView_concat, Option.or_eq_none_iff] at unwritten
        rw [List.foldl_append, List.foldl_cons, List.foldl_nil, ← ih unwritten.2]
        generalize entries.foldl EagerLocker.mirrorEntry state = before
        obtain ⟨ram', news⟩ := before
        cases last with
        | put other payload value => rfl
        | delete other =>
          exact dropped_forgetDropped (by simpa [Staged.pending, Pending.effect] using unwritten.1) _
        | clear => exact absurd unwritten.1 (by simp [Staged.pending, Pending.effect])
    exact hfold (ram, [])

theorem staged_settleEager (c : EagerCommit T) (ram : Ram T) :
    (settleEager c ram).res.staged = ram.res.staged := by
  unfold settleEager
  cases c.write with
  | alone entry held => exact staged_mirror entry held ram
  | flush => rfl
  | transact entries =>
    have hfold (state : Ram T × List Notice) :
        (entries.foldl EagerLocker.mirrorEntry state).1.res.staged = state.1.res.staged := by
      induction entries generalizing state with
      | nil => rfl
      | cons entry rest ih =>
        rw [List.foldl_cons, ih]
        cases entry <;> rfl
    exact hfold (ram, [])

end

/-! ## What a tab has taken note of -/

section
variable {C : Type}

/-- When an entry dates from: after all that had landed before it. -/
def date : LogEntry (TabCommit C) Announcement → Nat
  | .opened n => n
  | .made t _ => t + 1
  | .heard sent => sent.landed + 1

/-- The entry tells of the key. A tab that opens reads every key. -/
def Touches {T : Type} (inner : Inner T) (key : Bytes) : LogEntry (TabCommit C) Announcement → Prop
  | .opened _ => True
  | .made _ commit => (written commit.ops .records (inner.encodeKey key)).isSome = true
  | .heard sent => sent.news.tells key = true

/-- What landed at `t` is newer than all that the log tells of the key. -/
def Fresh {T : Type} (inner : Inner T) (log : TabLog C) (key : Bytes) (t : Nat) : Prop :=
  ∀ entry ∈ log, Touches inner key entry → date entry ≤ t

/-- The log tells of the last commit on the key. -/
def Current {T : Type} (inner : Inner T) (last : Nat) (log : TabLog C) (key : Bytes) : Prop :=
  ∃ entry ∈ log, Touches inner key entry ∧ last ≤ date entry

end

/-- News that is no newer than what the tab has taken note of already makes no log current. -/
theorem Current.of_stale {C T : Type} {inner : Inner T} {last : Nat} {log : TabLog C} {key : Bytes}
    {sent : Sent Announcement} (current : Current inner last (log ++ [.heard sent]) key)
    (stale : sent.news.tells key = true → ¬ Fresh inner log key sent.landed) :
    Current inner last log key := by
  obtain ⟨entry, hentry, htouch, hlast⟩ := current
  rcases List.mem_append.1 hentry with hold | hnew
  · exact ⟨entry, hold, htouch, hlast⟩
  · obtain rfl := List.mem_singleton.1 hnew
    have hstale := stale htouch
    unfold Fresh at hstale
    push Not at hstale
    obtain ⟨newer, hnewer, htouches, hlt⟩ := hstale
    have hdate : last ≤ sent.landed + 1 := hlast
    exact ⟨newer, hnewer, htouches, by omega⟩

section
variable {T : Type} (inner : Inner T)

abbrev EagerFlights (T : Type) := Nat → Option (Flight (TabCommit (EagerCommit T)))

def ownWrites (commit : TabCommit (EagerCommit T)) : List Pending :=
  commit.call.write.entries.map Staged.pending

/-- Nothing is staged under the key, or under way from there to storage. -/
def Unstaged (flights : EagerFlights T) (ram : Ram T) (key : Bytes) : Prop :=
  stagedView ram.res.staged key = none ∧
    ∀ n flight, flights n = some flight → stagedView flight.commit.call.before key = none

structure Sound (commit : TabCommit (EagerCommit T)) : Prop where
  lays : Lays inner commit.ops (commit.call.before ++ ownWrites commit)
  serialised : ∀ entry ∈ commit.call.write.entries, entry.Serialised inner
  alone : commit.call.write.locks = false → isDeferred inner = false ∧ commit.call.before = []
  told : ∀ news, commit.news = some news → ∀ key, (⟨news.cleared, news.changes⟩ : News).Tells key
    (written commit.ops .records (inner.encodeKey key))
  silent : commit.news = none → ∀ key, written commit.ops .records (inner.encodeKey key) = none

/-- What holds in a tab, beside what is stored and when each key was last written: of a key that is
staged it holds what is staged, and of any other that its log is current on, what is stored. -/
structure Sees (db : Tables) (last : Bytes → Nat) (flights : EagerFlights T)
    (log : TabLog (EagerCommit T)) (ram : Ram T) : Prop where
  isOpen : ram.closed = false
  rooted : ∃ n, .opened n ∈ log
  lone : ∀ n m f g, flights n = some f → flights m = some g →
    f.commit.call.write.locks = true → g.commit.call.write.locks = true → n = m
  immediate : isDeferred inner = false → ram.res.staged = [] ∧
    ∀ n flight, flights n = some flight → flight.commit.call.before = []
  sound : ∀ n flight, flights n = some flight → Sound inner flight.commit
  staged : ∀ key write, stagedView ram.res.staged key = some write → Matches inner write ram.values[key]?
  drained : ∀ n flight key write, flights n = some flight →
    stagedView flight.commit.call.before key = some write → stagedView ram.res.staged key = none →
    Matches inner write ram.values[key]?
  reflects : ∀ key, Current inner (last key) log key → Unstaged flights ram key →
    ram.res.dropped.contains key = true ∨ Mirrored inner db [] key ram.values[key]?

end

section
variable {T : Type} {inner : Inner T} {tab : Tab T} {flights : EagerFlights T}
  {commit : TabCommit (EagerCommit T)}

theorem sound_of_may (may : (eagerCalls inner).protocol.may tab flights commit) : Sound inner commit := by
  have htold (news : Announcement) (hnews : commit.news = some news) (key : Bytes) :
      (⟨news.cleared, news.changes⟩ : News).Tells key
        (written commit.ops .records (inner.encodeKey key)) := tells_of_may may hnews key
  have hsilent (hnews : commit.news = none) (key : Bytes) :
      written commit.ops .records (inner.encodeKey key) = none := written_of_silent may hnews key
  obtain ⟨⟨-, halone, hbefore, hserialised, hlays⟩, -, -⟩ := may
  refine ⟨hlays, hserialised, fun hlocks => ⟨halone hlocks, ?_⟩, htold, hsilent⟩
  rw [hbefore, hlocks]
  rfl

/-- Only a call that holds the lock has drained anything. -/
theorem Sound.locks (sound : Sound inner commit) {key : Bytes} {write : Option Bytes}
    (drained : stagedView commit.call.before key = some write) : commit.call.write.locks = true := by
  by_contra hlocks
  rw [(sound.alone (by simpa using hlocks)).2] at drained
  cases drained

theorem Sound.written_eq_none (sound : Sound inner commit) {key : Bytes} :
    written commit.ops .records (inner.encodeKey key) = none ↔
      stagedView (commit.call.before ++ ownWrites commit) key = none := by
  have hlays := sound.lays key
  cases hview : stagedView (commit.call.before ++ ownWrites commit) key with
  | none =>
    rw [hview] at hlays
    exact ⟨fun _ => rfl, fun _ => hlays⟩
  | some write =>
    rw [hview] at hlays
    cases write with
    | none => simp [hlays]
    | some payload =>
      obtain ⟨sealed, -, hw⟩ := hlays
      simp [hw]

end

namespace Sees

section
variable {T : Type} {inner : Inner T} {db db' : Tables} {last last' : Bytes → Nat}
  {flights : EagerFlights T} {log : TabLog (EagerCommit T)} {ram : Ram T} {n : Nat} {t : Nat}
  {commit : TabCommit (EagerCommit T)}

theorem land (h : Sees inner db last flights log ram) {flights' : EagerFlights T}
    (same : ∀ m, (flights' m).map Flight.commit = (flights m).map Flight.commit)
    (moved : ∀ key, Current inner (last' key) log key → Current inner (last key) log key ∧
      db'.lookup .records (inner.encodeKey key) = db.lookup .records (inner.encodeKey key)) :
    Sees inner db' last' flights' log ram := by
  have hback {m : Nat} {flight : Flight (TabCommit (EagerCommit T))} (hf : flights' m = some flight) :
      ∃ old, flights m = some old ∧ old.commit = flight.commit := by
    refine Option.map_eq_some_iff.1 ?_
    rw [← same, hf]
    rfl
  have hforth {m : Nat} {flight : Flight (TabCommit (EagerCommit T))} (hf : flights m = some flight) :
      ∃ new, flights' m = some new ∧ new.commit = flight.commit := by
    refine Option.map_eq_some_iff.1 ?_
    rw [same, hf]
    rfl
  refine ⟨h.isOpen, h.rooted, fun a b f g hf hg hfl hgl => ?_, fun himm => ?_, fun m flight hf => ?_,
    h.staged, fun m flight key write hf hput hnone => ?_, fun key current unstaged => ?_⟩
  · obtain ⟨f', hf', hfc⟩ := hback hf
    obtain ⟨g', hg', hgc⟩ := hback hg
    exact h.lone a b f' g' hf' hg' (by rw [hfc]; exact hfl) (by rw [hgc]; exact hgl)
  · obtain ⟨hnil, hbefores⟩ := h.immediate himm
    refine ⟨hnil, fun m flight hf => ?_⟩
    obtain ⟨old, hold, hc⟩ := hback hf
    rw [← hc]
    exact hbefores m old hold
  · obtain ⟨old, hold, hc⟩ := hback hf
    rw [← hc]
    exact h.sound m old hold
  · obtain ⟨old, hold, hc⟩ := hback hf
    exact h.drained m old key write hold (by rw [hc]; exact hput) hnone
  · obtain ⟨hbefore, hlookup⟩ := moved key current
    refine (h.reflects key hbefore ⟨unstaged.1, fun m flight hf => ?_⟩).imp_right fun hm => ?_
    · obtain ⟨new, hnew, hc⟩ := hforth hf
      rw [← hc]
      exact unstaged.2 m new hnew
    · unfold Mirrored at hm ⊢
      rw [hlookup]
      exact hm

theorem stage (h : Sees inner db last flights log ram) (deferred : isDeferred inner = true)
    {entry : Staged T} (serialised : entry.Serialised inner) (held : Bool) :
    Sees inner db last flights log (stageEager entry held ram) := by
  let ram₁ : Ram T := ram.mapRes fun r => { r with staged := r.staged ++ [entry.pending] }
  have hvalues : Follows inner entry.pending ram.values (mirror entry held ram₁).values :=
    values_mirror serialised held ram₁
  have hview (key : Bytes) : stagedView (mirror entry held ram₁).res.staged key =
      (entry.pending.effect key).or (stagedView ram.res.staged key) := by
    rw [staged_mirror]
    exact stagedView_concat _ _ _
  have hkeep (key : Bytes) (heffect : entry.pending.effect key = none) :
      (mirror entry held ram₁).values[key]? = ram.values[key]? := by
    have hkey := hvalues key
    rw [heffect] at hkey
    exact hkey
  refine ⟨(closed_mirror entry held ram₁).trans h.isOpen, h.rooted, h.lone, fun himm => ?_, h.sound,
    fun key write hput => ?_, fun n flight key write hf hput hnone => ?_,
    fun key current unstaged => ?_⟩
  · rw [himm] at deferred
    cases deferred
  · change stagedView (mirror entry held ram₁).res.staged key = some write at hput
    change Matches inner write (mirror entry held ram₁).values[key]?
    rw [hview] at hput
    cases heffect : entry.pending.effect key with
    | none =>
      rw [heffect, Option.none_or] at hput
      rw [hkeep key heffect]
      exact h.staged key write hput
    | some write' =>
      rw [heffect, Option.some_or] at hput
      obtain rfl := Option.some.inj hput
      have hkey := hvalues key
      rw [heffect] at hkey
      cases write' <;> exact hkey
  · change stagedView (mirror entry held ram₁).res.staged key = none at hnone
    change Matches inner write (mirror entry held ram₁).values[key]?
    rw [hview, Option.or_eq_none_iff] at hnone
    rw [hkeep key hnone.1]
    exact h.drained n flight key write hf hput hnone.2
  · obtain ⟨hnone, hflights⟩ := unstaged
    change stagedView (mirror entry held ram₁).res.staged key = none at hnone
    change (mirror entry held ram₁).res.dropped.contains key = true ∨
      Mirrored inner db [] key (mirror entry held ram₁).values[key]?
    rw [hview, Option.or_eq_none_iff] at hnone
    rw [hkeep key hnone.1, dropped_mirror hnone.1]
    exact h.reflects key current ⟨hnone.2, hflights⟩

/-- What memory keeps beside the values and what is staged. -/
theorem calm (h : Sees inner db last flights log ram) {ram' : Ram T} (closed : ram'.closed = ram.closed)
    (values : ram'.values = ram.values) (staged : ram'.res.staged = ram.res.staged)
    (dropped : ram'.res.dropped = ram.res.dropped) : Sees inner db last flights log ram' := by
  refine ⟨closed.trans h.isOpen, h.rooted, h.lone, ?_, h.sound, ?_, ?_, ?_⟩
  · rw [staged]
    exact h.immediate
  · rw [staged, values]
    exact h.staged
  · rw [staged, values]
    exact h.drained
  · unfold Unstaged
    rw [staged, values, dropped]
    exact h.reflects

theorem send {tab : Tab T} (h : Sees inner db last flights log tab.ram) (fresh : flights n = none)
    (may : (eagerCalls inner).protocol.may tab flights commit) :
    Sees inner db last (fun m => if m = n then some ⟨commit, none⟩ else flights m) log
      ((eagerCalls inner).protocol.send commit tab).ram := by
  have hsound := sound_of_may may
  obtain ⟨⟨hlock, -, hbefore, -, -⟩, -, -⟩ := may
  have hflight {m : Nat} {flight : Flight (TabCommit (EagerCommit T))}
      (hf : (if m = n then some ⟨commit, none⟩ else flights m) = some flight) :
      (m = n ∧ flight.commit = commit) ∨ (m ≠ n ∧ flights m = some flight) := by
    split at hf
    · next hm =>
      obtain rfl := Option.some.inj hf
      exact .inl ⟨hm, rfl⟩
    · next hm => exact .inr ⟨hm, hf⟩
  have hother {m : Nat} {flight : Flight (TabCommit (EagerCommit T))} (hf : flights m = some flight)
      (locks : commit.call.write.locks = true) : flight.commit.call.write.locks = false :=
    hlock locks _ ⟨m, flight, hf, rfl⟩
  obtain ⟨hclosed, hvalues, hdropped, hstaged⟩ :
      ((eagerCalls inner).protocol.send commit tab).ram.closed = tab.ram.closed ∧
      ((eagerCalls inner).protocol.send commit tab).ram.values = tab.ram.values ∧
      ((eagerCalls inner).protocol.send commit tab).ram.res.dropped = tab.ram.res.dropped ∧
      ((eagerCalls inner).protocol.send commit tab).ram.res.staged =
        if commit.call.write.locks then [] else tab.ram.res.staged := by
    change (if commit.call.write.locks then tab.ram.mapRes .drain else tab.ram).closed = _ ∧
      (if commit.call.write.locks then tab.ram.mapRes .drain else tab.ram).values = _ ∧
      (if commit.call.write.locks then tab.ram.mapRes .drain else tab.ram).res.dropped = _ ∧
      (if commit.call.write.locks then tab.ram.mapRes .drain else tab.ram).res.staged = _
    split <;> exact ⟨rfl, rfl, rfl, rfl⟩
  refine ⟨hclosed.trans h.isOpen, h.rooted, fun a b f g hf hg hfl hgl => ?_, fun himm => ?_,
    fun m flight hf => ?_, fun key write hput => ?_, fun m flight key write hf hput hnone => ?_,
    fun key current unstaged => ?_⟩
  · rcases hflight hf with ⟨rfl, hfc⟩ | ⟨-, hfo⟩
    · rcases hflight hg with ⟨rfl, -⟩ | ⟨-, hgo⟩
      · rfl
      · rw [hother hgo (hfc ▸ hfl)] at hgl
        cases hgl
    · rcases hflight hg with ⟨rfl, hgc⟩ | ⟨-, hgo⟩
      · rw [hother hfo (hgc ▸ hgl)] at hfl
        cases hfl
      · exact h.lone a b f g hfo hgo hfl hgl
  · obtain ⟨hnil, hbefores⟩ := h.immediate himm
    rw [hnil, ite_self] at hstaged hbefore
    refine ⟨hstaged, fun m flight hf => ?_⟩
    rcases hflight hf with ⟨-, hc⟩ | ⟨-, hf⟩
    · rw [hc, hbefore]
    · exact hbefores m flight hf
  · rcases hflight hf with ⟨-, hc⟩ | ⟨-, hf⟩
    · exact hc ▸ hsound
    · exact h.sound m flight hf
  · rw [hstaged] at hput
    rw [hvalues]
    split at hput
    · cases hput
    · exact h.staged key write hput
  · rw [hvalues]
    rcases hflight hf with ⟨-, hc⟩ | ⟨-, hf⟩
    · rw [hc, hbefore] at hput
      split at hput
      · exact h.staged key write hput
      · cases hput
    · have hlocks := (h.sound m flight hf).locks hput
      have hown : commit.call.write.locks = false := by
        by_contra hl
        rw [hother hf (by simpa using hl)] at hlocks
        cases hlocks
      rw [hstaged, hown] at hnone
      exact h.drained m flight key write hf hput hnone
  · obtain ⟨hnone, hflights⟩ := unstaged
    rw [hvalues, hdropped]
    have hdrained := hflights n ⟨commit, none⟩ (if_pos rfl)
    dsimp only at hdrained
    refine h.reflects key current ⟨?_, fun m flight hf => hflights m flight ?_⟩
    · rw [hstaged] at hnone
      rw [hbefore] at hdrained
      split at hnone
      · next hl =>
        rw [if_pos hl] at hdrained
        exact hdrained
      · exact hnone
    · refine (if_neg ?_).trans hf
      rintro rfl
      rw [fresh] at hf
      cases hf

theorem fail {tab : Tab T} (h : Sees inner db last flights log tab.ram)
    (sent : flights n = some ⟨commit, none⟩) :
    Sees inner db last (fun m => if m = n then none else flights m) log
      ((eagerCalls inner).protocol.fail commit tab).ram := by
  have hsound : Sound inner commit := h.sound n _ sent
  have hflight {m : Nat} {flight : Flight (TabCommit (EagerCommit T))}
      (hf : (if m = n then none else flights m) = some flight) : flights m = some flight := by
    split at hf
    · cases hf
    · exact hf
  obtain ⟨hclosed, hvalues, hdropped, hstaged⟩ :
      ((eagerCalls inner).protocol.fail commit tab).ram.closed = tab.ram.closed ∧
      ((eagerCalls inner).protocol.fail commit tab).ram.values = tab.ram.values ∧
      ((eagerCalls inner).protocol.fail commit tab).ram.res.dropped = tab.ram.res.dropped ∧
      ((eagerCalls inner).protocol.fail commit tab).ram.res.staged =
        commit.call.before ++ tab.ram.res.staged := by
    let ram' : Ram T := if commit.call.write.locks then tab.ram.mapRes (.putBack commit.call.before)
      else tab.ram
    change ram'.closed = _ ∧ ram'.values = _ ∧ ram'.res.dropped = _ ∧ ram'.res.staged = _
    by_cases hl : commit.call.write.locks = true
    · rw [show ram' = tab.ram.mapRes (.putBack commit.call.before) from if_pos hl]
      exact ⟨rfl, rfl, rfl, rfl⟩
    · rw [show ram' = tab.ram from if_neg hl, (hsound.alone (by simpa using hl)).2]
      exact ⟨rfl, rfl, rfl, rfl⟩
  refine ⟨hclosed.trans h.isOpen, h.rooted,
    fun a b f g hf hg => h.lone a b f g (hflight hf) (hflight hg), fun himm => ?_,
    fun m flight hf => h.sound m flight (hflight hf), fun key write hput => ?_,
    fun m flight key write hf hput hnone => ?_, fun key current unstaged => ?_⟩
  · obtain ⟨hnil, hbefores⟩ := h.immediate himm
    refine ⟨?_, fun m flight hf => hbefores m flight (hflight hf)⟩
    rw [hstaged, hnil, show commit.call.before = [] from hbefores n _ sent]
    rfl
  · rw [hvalues]
    rw [hstaged, stagedView_append] at hput
    cases hview : stagedView tab.ram.res.staged key with
    | none =>
      rw [hview, Option.none_or] at hput
      exact h.drained n _ key write sent hput hview
    | some write' =>
      rw [hview, Option.some_or] at hput
      obtain rfl := Option.some.inj hput
      exact h.staged key write' hview
  · rw [hstaged, stagedView_append, Option.or_eq_none_iff] at hnone
    rw [hvalues]
    exact h.drained m flight key write (hflight hf) hput hnone.1
  · obtain ⟨hnone, hflights⟩ := unstaged
    rw [hstaged, stagedView_append, Option.or_eq_none_iff] at hnone
    rw [hvalues, hdropped]
    refine h.reflects key current ⟨hnone.1, fun m flight hf => ?_⟩
    by_cases hm : m = n
    · subst hm
      rw [sent] at hf
      obtain rfl := Option.some.inj hf
      exact hnone.2
    · exact hflights m flight ((if_neg hm).trans hf)

theorem mirrored_of_matches {key : Bytes} {write : Option Bytes} {held : Option T}
    (faithful : inner.chain.Faithful) (inverts : inner.value.Inverts)
    (lays : match write with
      | none => db.lookup .records (inner.encodeKey key) = none
      | some payload => ∃ sealed, inner.chain.sealSlice payload = .ok sealed ∧
        db.lookup .records (inner.encodeKey key) = some sealed) (held_ : Matches inner write held) :
    Mirrored inner db [] key held := by
  cases write with
  | none =>
    unfold Mirrored
    rw [stagedView_nil]
    dsimp only
    rw [show db.lookup .records (inner.encodeKey key) = none from lays]
    exact held_
  | some payload =>
    obtain ⟨sealed, hseal, hrow⟩ := lays
    obtain ⟨v, rfl, hpayload⟩ := held_
    exact mirrored_of_sealed hseal hrow hpayload faithful inverts

theorem settle (h : Sees inner db last flights log ram) (faithful : inner.chain.Faithful)
    (inverts : inner.value.Inverts) (landed : flights n = some ⟨commit, some t⟩)
    (turn : ∀ key, (written commit.ops .records (inner.encodeKey key)).isSome = true →
      Fresh inner log key t ∧ (stagedView (ownWrites commit) key ≠ none →
        stagedView ram.res.staged key = none))
    (latest : ∀ key, (written commit.ops .records (inner.encodeKey key)).isSome = true →
      t < last key ∧ (last key ≤ t + 1 → written commit.ops .records (inner.encodeKey key) =
        some (db.lookup .records (inner.encodeKey key)))) :
    Sees inner db last (fun m => if m = n then none else flights m) (log ++ [.made t commit])
      (settleEager commit.call ram) := by
  have hsound : Sound inner commit := h.sound n _ landed
  have hflight {m : Nat} {flight : Flight (TabCommit (EagerCommit T))}
      (hf : (if m = n then none else flights m) = some flight) : m ≠ n ∧ flights m = some flight := by
    split at hf
    · cases hf
    · next hm => exact ⟨hm, hf⟩
  have hstaged := staged_settleEager commit.call ram
  have hvalues := values_settleEager ram hsound.serialised
  have hwritten {key : Bytes} (hown : stagedView (ownWrites commit) key ≠ none) :
      (written commit.ops .records (inner.encodeKey key)).isSome = true := by
    rw [Option.isSome_iff_ne_none, Ne, hsound.written_eq_none, stagedView_append, Option.or_eq_none_iff]
    exact fun hnone => hown hnone.1
  have hkept {key : Bytes} (hown : stagedView (ownWrites commit) key = none) :
      (settleEager commit.call ram).values[key]? = ram.values[key]? := by
    have hkey := hvalues key
    rw [show stagedView (commit.call.write.entries.map Staged.pending) key = none from hown] at hkey
    exact hkey
  refine ⟨(closed_settleEager commit.call ram).trans h.isOpen, ?_,
    fun a b f g hf hg => h.lone a b f g (hflight hf).2 (hflight hg).2, fun himm => ?_,
    fun m flight hf => h.sound m flight (hflight hf).2, fun key write hput => ?_,
    fun m flight key write hf hput hnone => ?_, fun key current unstaged => ?_⟩
  · obtain ⟨start, hstart⟩ := h.rooted
    exact ⟨start, List.mem_append_left _ hstart⟩
  · obtain ⟨hnil, hbefores⟩ := h.immediate himm
    exact ⟨hstaged.trans hnil, fun m flight hf => hbefores m flight (hflight hf).2⟩
  · rw [hstaged] at hput
    have hown : stagedView (ownWrites commit) key = none := by
      by_contra hown
      rw [(turn key (hwritten hown)).2 hown] at hput
      cases hput
    rw [hkept hown]
    exact h.staged key write hput
  · obtain ⟨hm, hold⟩ := hflight hf
    have hlocks := (h.sound m flight hold).locks hput
    have hown : stagedView (ownWrites commit) key = none := by
      by_cases hl : commit.call.write.locks = true
      · exact absurd (h.lone m n _ _ hold landed hlocks hl) hm
      · obtain ⟨himm, -⟩ := hsound.alone (by simpa using hl)
        rw [(h.immediate himm).2 m flight hold] at hput
        cases hput
    rw [hkept hown]
    exact h.drained m flight key write hold hput (hstaged ▸ hnone)
  · obtain ⟨hnone, hflights⟩ := unstaged
    rw [hstaged] at hnone
    have hrest {m : Nat} {flight : Flight (TabCommit (EagerCommit T))} (hm : m ≠ n)
        (hf : flights m = some flight) : stagedView flight.commit.call.before key = none :=
      hflights m flight ((if_neg hm).trans hf)
    obtain ⟨entry, hentry, htouch, hlast⟩ := current
    by_cases hw : (written commit.ops .records (inner.encodeKey key)).isSome = true
    · -- The commit is the last on the key: it is the store's record that was mirrored.
      obtain ⟨hlt, hrecord⟩ := latest key hw
      have hdate : last key ≤ t + 1 := by
        rcases List.mem_append.1 hentry with hold | hnew
        · have := (turn key hw).1 entry hold htouch
          omega
        · obtain rfl := List.mem_singleton.1 hnew
          exact hlast
      have hlays := hsound.lays key
      rw [hrecord hdate, stagedView_append] at hlays
      refine .inr ?_
      have hkey := hvalues key
      cases hown : stagedView (ownWrites commit) key with
      | some write =>
        rw [show stagedView (commit.call.write.entries.map Staged.pending) key = some write from hown]
          at hkey
        rw [hown, Option.some_or] at hlays
        refine mirrored_of_matches faithful inverts ?_ hkey
        cases write with
        | none => exact Option.some.inj hlays
        | some payload =>
          obtain ⟨sealed, hseal, hrow⟩ := hlays
          exact ⟨sealed, hseal, Option.some.inj hrow⟩
      | none =>
        rw [hown, Option.none_or] at hlays
        rw [hkept hown]
        cases hbefore : stagedView commit.call.before key with
        | none =>
          rw [hbefore] at hlays
          cases hlays
        | some write =>
          rw [hbefore] at hlays
          refine mirrored_of_matches faithful inverts ?_ (h.drained n _ key write landed hbefore hnone)
          cases write with
          | none => exact Option.some.inj hlays
          | some payload =>
            obtain ⟨sealed, hseal, hrow⟩ := hlays
            exact ⟨sealed, hseal, Option.some.inj hrow⟩
    · have hview := hsound.written_eq_none.1 (Option.not_isSome_iff_eq_none.1 hw)
      rw [stagedView_append, Option.or_eq_none_iff] at hview
      rw [hkept hview.1, dropped_settleEager ram hview.1]
      refine h.reflects key ⟨entry, ?_, htouch, hlast⟩ ⟨hnone, fun m flight hf => ?_⟩
      · rcases List.mem_append.1 hentry with hold | hnew
        · exact hold
        · obtain rfl := List.mem_singleton.1 hnew
          exact absurd htouch hw
      · by_cases hm : m = n
        · subst hm
          rw [landed] at hf
          obtain rfl := Option.some.inj hf
          exact hview.2
        · exact hrest hm hf

theorem hear {tab : Tab T} {sent : Sent Announcement} (h : Sees inner db last flights log tab.ram)
    (inStep : ∀ key, sent.news.tells key = true →
      (Takes sent.news tab key ↔ Fresh inner log key sent.landed) ∧
      (Fresh inner log key sent.landed → Unstaged flights tab.ram key))
    (latest : ∀ key, sent.news.tells key = true → sent.landed < last key ∧
      (last key ≤ sent.landed + 1 → (⟨sent.news.cleared, sent.news.changes⟩ : News).Tells key
        (some (db.lookup .records (inner.encodeKey key))))) :
    Sees inner db last flights (log ++ [.heard sent])
      ((eagerCalls inner).protocol.hear sent.news tab).ram := by
  obtain ⟨hstaged, hclosed⟩ := frame_hear inner sent.news tab
  have hkept {key : Bytes} (stale : sent.news.tells key = true → ¬ Fresh inner log key sent.landed) :
      Kept key tab.ram ((eagerCalls inner).protocol.hear sent.news tab).ram :=
    kept_of_not_takes fun htold takes => stale htold ((inStep key htold).1.1 takes)
  refine ⟨hclosed.trans h.isOpen, ?_, h.lone, fun himm => ?_, h.sound, fun key write hput => ?_,
    fun n flight key write hf hput hnone => ?_, fun key current unstaged => ?_⟩
  · obtain ⟨start, hstart⟩ := h.rooted
    exact ⟨start, List.mem_append_left _ hstart⟩
  · rw [hstaged]
    exact h.immediate himm
  · rw [hstaged] at hput
    rw [(hkept fun htold fresh => ?_).1]
    · exact h.staged key write hput
    · rw [((inStep key htold).2 fresh).1] at hput
      cases hput
  · rw [hstaged] at hnone
    rw [(hkept fun htold fresh => ?_).1]
    · exact h.drained n flight key write hf hput hnone
    · rw [((inStep key htold).2 fresh).2 n flight hf] at hput
      cases hput
  · have hunstaged : Unstaged flights tab.ram key := ⟨hstaged ▸ unstaged.1, unstaged.2⟩
    obtain ⟨entry, hentry, htouch, hlast⟩ := current
    by_cases hfresh : sent.news.tells key = true ∧ Fresh inner log key sent.landed
    · obtain ⟨htold, hfresh⟩ := hfresh
      have htakes := (inStep key htold).1.2 hfresh
      obtain ⟨hlt, htells⟩ := latest key htold
      have hdate : last key ≤ sent.landed + 1 := by
        rcases List.mem_append.1 hentry with hold | hnew
        · have := hfresh entry hold htouch
          omega
        · obtain rfl := List.mem_singleton.1 hnew
          exact hlast
      have happly : (eagerCalls inner).protocol.hear sent.news tab =
          EagerSink.apply inner sent.news tab := if_neg htakes.1
      rw [happly]
      exact (shows_apply inner h.isOpen htakes (htells hdate)).imp_right mirrored_of_decoded
    · obtain ⟨hvalue, hstale⟩ := hkept fun htold fresh => hfresh ⟨htold, fresh⟩
      rw [hvalue, hstale]
      refine h.reflects key (Current.of_stale ⟨entry, hentry, htouch, hlast⟩ fun htold fresh => ?_) hunstaged
      exact hfresh ⟨htold, fresh⟩

theorem opened {tab : Tab T} (opens : (eagerCalls inner).protocol.opens db tab) (start : Nat) :
    Sees inner db last (fun _ => none) [.opened start] tab.ram := by
  obtain ⟨⟨hopen, hnil, hmirrored⟩, -, -⟩ := opens
  refine ⟨hopen, ⟨start, List.mem_singleton.2 rfl⟩, fun a b f g hf => (by cases hf),
    fun _ => ⟨hnil, fun m flight hf => (by cases hf)⟩, fun m flight hf => (by cases hf),
    fun key write hput => ?_, fun m flight key write hf => (by cases hf),
    fun key _ _ => .inr (hmirrored key)⟩
  rw [hnil] at hput
  cases hput

end
end Sees

/-! ## A tab that opens -/

section
variable {T : Type} (inner : Inner T)

/-- A tab that opens has nothing under way, and of the keys that nothing has landed on since it began
it will hold what is stored. -/
structure Loads (db : Tables) (last : Bytes → Nat) (flights : EagerFlights T)
    (log : TabLog (EagerCommit T)) (o : EagerOpening T) : Prop where
  rooted : ∃ n, .opened n ∈ log
  idle : ∀ n, flights n = none
  unstaged : o.rest.Gives fun loaded => loaded.2.staged = []
  shows : ∀ key, Current inner (last key) log key →
    Shows inner key (db.lookup .records (inner.encodeKey key)) o

abbrev TabSeat (T : Type) := Seat (EagerOpening T) (Tab T)

def Stands (db : Tables) (last : Bytes → Nat) (flights : EagerFlights T)
    (log : TabLog (EagerCommit T)) : TabSeat T → Prop
  | .opening o => Loads inner db last flights log o
  | .ready tab => Sees inner db last flights log tab.ram

/-- A tab takes in what the news says of a key, if it is open. -/
def TakesIn (news : Announcement) (key : Bytes) : TabSeat T → Prop
  | .opening _ => False
  | .ready tab => Takes news tab key

end

namespace Loads

section
variable {T : Type} {inner : Inner T} {db db' : Tables} {last last' : Bytes → Nat}
  {flights : EagerFlights T} {log : TabLog (EagerCommit T)} {o o' : EagerOpening T}

theorem begun (begins : (eagerOpening inner).begins o) (start : Nat) :
    Loads inner db last (fun _ => none) [.opened start] o where
  rooted := ⟨start, List.mem_singleton.2 rfl⟩
  idle _ := rfl
  unstaged := begins ▸ gives_openLocker
  shows _ _ := shows_begun begins

theorem step (h : Loads inner db last flights log o) (next : OpenStep db o o') :
    Loads inner db last flights log o' where
  rooted := h.rooted
  idle := h.idle
  unstaged := next.gives h.unstaged
  shows key current := (h.shows key current).step next

theorem land (h : Loads inner db last flights log o) {flights' : EagerFlights T}
    (same : ∀ m, (flights' m).map Flight.commit = (flights m).map Flight.commit)
    (moved : ∀ key, Current inner (last' key) log key → Current inner (last key) log key ∧
      db'.lookup .records (inner.encodeKey key) = db.lookup .records (inner.encodeKey key)) :
    Loads inner db' last' flights' log o where
  rooted := h.rooted
  idle m := by
    have hm := same m
    rw [h.idle] at hm
    exact Option.map_eq_none_iff.1 hm
  unstaged := h.unstaged
  shows key current := by
    obtain ⟨hbefore, hlookup⟩ := moved key current
    rw [hlookup]
    exact h.shows key hbefore

/-- News is lost that is no newer than the tab's open. -/
theorem hear (h : Loads inner db last flights log o) {sent : Sent Announcement}
    (stale : ∀ key, sent.news.tells key = true → ¬ Fresh inner log key sent.landed) :
    Loads inner db last flights (log ++ [.heard sent]) o where
  rooted := by
    obtain ⟨start, hstart⟩ := h.rooted
    exact ⟨start, List.mem_append_left _ hstart⟩
  idle := h.idle
  unstaged := h.unstaged
  shows key current := h.shows key (current.of_stale (stale key))

/-- The open ends: the tab holds what is stored. -/
theorem ends {tab : Tab T} (h : Loads inner db last flights log o)
    (ends : (eagerOpening inner).ends o tab) : Sees inner db last flights log tab.ram := by
  obtain ⟨values, res, hrest, rfl⟩ := ends
  have hnil : res.staged = [] := by
    have hgives := h.unstaged
    rw [hrest] at hgives
    exact hgives
  have idle {n : Nat} {flight : Flight (TabCommit (EagerCommit T))} (hf : flights n = some flight) :
      False := by
    rw [h.idle] at hf
    cases hf
  refine ⟨rfl, h.rooted, fun n _ _ _ hf => (idle hf).elim, fun _ => ⟨hnil, fun n _ hf => (idle hf).elim⟩,
    fun n _ hf => (idle hf).elim, fun key write hput => ?_, fun n _ _ _ hf => (idle hf).elim,
    fun key current _ => .inr (mirrored_of_decoded ((h.shows key current).ends hrest))⟩
  change stagedView res.staged key = some write at hput
  rw [hnil] at hput
  cases hput

end
end Loads

theorem Stands.land {T : Type} {inner : Inner T} {db db' : Tables} {last last' : Bytes → Nat}
    {flights flights' : EagerFlights T} {log : TabLog (EagerCommit T)} {seat : TabSeat T}
    (h : Stands inner db last flights log seat)
    (same : ∀ m, (flights' m).map Flight.commit = (flights m).map Flight.commit)
    (moved : ∀ key, Current inner (last' key) log key → Current inner (last key) log key ∧
      db'.lookup .records (inner.encodeKey key) = db.lookup .records (inner.encodeKey key)) :
    Stands inner db' last' flights' log seat := by
  cases seat with
  | opening o => exact Loads.land h same moved
  | ready tab => exact Sees.land h same moved

/-! ## The tabs -/

section
variable {ι T : Type} (inner : Inner T)

abbrev OpeningWorld (ι T : Type) :=
  World ι Bytes Tables (TabSeat T) (TabCommit (EagerCommit T)) Announcement

/-- The tabs of an eager locker, opening step by step. -/
abbrev eagerTabs : Protocol Bytes Tables (TabSeat T) (TabCommit (EagerCommit T)) Announcement :=
  (eagerCalls inner).protocol.stepwise (eagerOpening inner)

variable (w : OpeningWorld ι T)

/-- When the last commit on the key landed, counted from one. -/
def lastDate (key : Bytes) : Nat :=
  match w.lastWrite key with
  | none => 0
  | some (_, t) => t + 1

/-- What landed at `t` in one tab is to be settled there, or its news of the key is on its way to the
other. -/
def Awaits (j i : ι) (t : Nat) (key : Bytes) : Prop :=
  (∃ n commit, w.flights j n = some ⟨commit, some t⟩) ∨
    ∃ sent ∈ w.mail j i, sent.landed = t ∧ sent.news.tells key = true

/-- The act keeps a tab in step. News is taken in, of each key that it tells of, if and only if it
landed after all that the tab has taken note of for the key, and then nothing is staged under the key;
a commit that is settled landed after all of that too, and mirrors nothing over what is staged; and a
tab starts over when no commit of its own has landed unsettled. A tab that opens takes nothing in: it
is not to be delivered news of what landed since it began. -/
def InStep : Act ι (TabSeat T) (TabCommit (EagerCommit T)) → Prop
  | .deliver a b => ∀ sent rest, w.mail a b = sent :: rest → ∀ key, sent.news.tells key = true →
      (TakesIn sent.news key (w.tabs b) ↔ Fresh inner (w.log b) key sent.landed) ∧
      (Fresh inner (w.log b) key sent.landed → ∀ tab, w.tabs b = .ready tab →
        Unstaged (w.flights b) tab.ram key)
  | .settle i n => ∀ commit t, w.flights i n = some ⟨commit, some t⟩ → ∀ key,
      (written commit.ops .records (inner.encodeKey key)).isSome = true →
      Fresh inner (w.log i) key t ∧ (stagedView (ownWrites commit) key ≠ none →
        ∀ tab, w.tabs i = .ready tab → stagedView tab.ram.res.staged key = none)
  | .reload i _ => ∀ n flight, w.flights i n = some flight → flight.landed = none
  | _ => True

/-- No other tab has a commit under way on what the commit writes, or news of it that this tab is still
to be delivered. -/
def InTurn : Act ι (TabSeat T) (TabCommit (EagerCommit T)) → Prop
  | .send i _ commit => ∀ j, j ≠ i → ∀ key, (eagerCalls inner).protocol.writes commit key = true →
      (∀ n flight, w.flights j n = some flight →
        (eagerCalls inner).protocol.writes flight.commit key = false) ∧
      ∀ sent ∈ w.mail j i, sent.news.tells key = false
  | _ => True

structure InvEager [DecidableEq ι] : Prop where
  dated : w.Dated (eagerTabs inner) Announcement.tells
  dates : ∀ i, ∀ entry ∈ w.log i, date entry ≤ w.landings
  sees : ∀ i, Stands inner w.store (lastDate w) (w.flights i) (w.log i) (w.tabs i)
  left : ∀ i n commit t key, w.flights i n = some ⟨commit, some t⟩ → w.lastWrite key = some (i, t) →
    written commit.ops .records (inner.encodeKey key) =
      some (w.store.lookup .records (inner.encodeKey key))
  mail : ∀ a b, ∀ sent ∈ w.mail a b, ∀ key, w.lastWrite key = some (a, sent.landed) →
    (⟨sent.news.cleared, sent.news.changes⟩ : News).Tells key
      (some (w.store.lookup .records (inner.encodeKey key)))
  arriving : ∀ key j t, w.lastWrite key = some (j, t) → ∀ i,
    Current inner (t + 1) (w.log i) key ∨ Awaits w j i t key

end

namespace InvEager

section
variable {ι T : Type} [DecidableEq ι] {inner : Inner T} {w : OpeningWorld ι T} {i : ι} {n : Nat}
  {t : Nat} {seat : TabSeat T} {tab : Tab T} {commit : TabCommit (EagerCommit T)}

theorem ready (h : InvEager inner w) {flight : Flight (TabCommit (EagerCommit T))}
    (hf : w.flights i n = some flight) : ∃ tab, w.tabs i = .ready tab ∧
      Sees inner w.store (lastDate w) (w.flights i) (w.log i) tab.ram := by
  have stands := h.sees i
  cases hseat : w.tabs i with
  | opening o =>
    rw [hseat] at stands
    have idle : w.flights i n = none := Loads.idle stands n
    rw [idle] at hf
    cases hf
  | ready tab =>
    rw [hseat] at stands
    exact ⟨tab, rfl, stands⟩

theorem setTab (h : InvEager inner w)
    (sees : Stands inner w.store (lastDate w) (w.flights i) (w.log i) seat) :
    InvEager inner (w.setTab i seat) := by
  refine ⟨h.dated.setTab seat, h.dates, fun j => ?_, h.left, h.mail, h.arriving⟩
  by_cases hj : j = i
  · subst hj
    rw [World.tabs_setTab]
    exact sees
  · rw [World.tabs_setTab_of_ne hj]
    exact h.sees j

theorem setFlight (h : InvEager inner w) {flight : Option (Flight (TabCommit (EagerCommit T)))}
    (dated : ((w.setTab i seat).setFlight i n flight).Dated (eagerTabs inner) Announcement.tells)
    (sees : Stands inner w.store (lastDate w) (fun m => if m = n then flight else w.flights i m)
      (w.log i) seat) (unlanded : ∀ f, flight = some f → f.landed = none)
    (before : ∀ f, w.flights i n = some f → f.landed = none) :
    InvEager inner ((w.setTab i seat).setFlight i n flight) := by
  have hflight {j : ι} {m : Nat} {c : TabCommit (EagerCommit T)} {t : Nat}
      (hf : ((w.setTab i seat).setFlight i n flight).flights j m = some ⟨c, some t⟩) :
      w.flights j m = some ⟨c, some t⟩ := by
    change (if j = i ∧ m = n then flight else w.flights j m) = some ⟨c, some t⟩ at hf
    split at hf
    · exact absurd (unlanded _ hf) (by simp)
    · exact hf
  refine ⟨dated, h.dates, fun j => ?_, fun j m c t key hf => h.left j m c t key (hflight hf), h.mail,
    fun key j t last k => ?_⟩
  · by_cases hj : j = i
    · subst hj
      rw [World.flights_setFlight]
      exact (World.tabs_setTab j seat w).symm ▸ sees
    · rw [World.flights_setFlight_of_ne hj]
      exact (World.tabs_setTab_of_ne hj seat w).symm ▸ h.sees j
  · refine (h.arriving key j t last k).imp_right fun awaits => ?_
    rcases awaits with ⟨m, c, hf⟩ | hmail
    · refine .inl ⟨m, c, (if_neg ?_).trans hf⟩
      rintro ⟨rfl, rfl⟩
      exact absurd (before _ hf) (by simp)
    · exact .inr hmail

theorem alone (h : InvEager inner w)
    (alone : (eagerTabs inner).alone w.store (w.tabs i) (w.flights i) seat) :
    InvEager inner (w.setTab i seat) := by
  have stands := h.sees i
  change (w.tabs i).Alone (eagerCalls inner).protocol (eagerOpening inner) w.store (w.flights i) seat
    at alone
  refine h.setTab ?_
  cases hseat : w.tabs i with
  | opening o =>
    rw [hseat] at stands alone
    have loads : Loads inner w.store (lastDate w) (w.flights i) (w.log i) o := stands
    rcases alone with ⟨o', hstep, rfl⟩ | ⟨tab, hends, rfl⟩
    · exact loads.step hstep
    · exact loads.ends hends
  | ready tab =>
    rw [hseat] at stands alone
    have sees : Sees inner w.store (lastDate w) (w.flights i) (w.log i) tab.ram := stands
    obtain ⟨tab', hmemory, rfl⟩ := alone
    rcases hmemory with rfl | ⟨ram, ⟨deferred, entry, held, serialised, rfl⟩, rfl⟩
    · exact sees
    · exact sees.stage deferred serialised held

theorem send (h : InvEager inner w) (fresh : w.flights i n = none)
    (may : (eagerTabs inner).may (w.tabs i) (w.flights i) commit) :
    InvEager inner ((w.setTab i ((eagerTabs inner).send commit (w.tabs i))).setFlight i n
      (some ⟨commit, none⟩)) := by
  obtain ⟨tab, hseat, may⟩ := may
  have stands := h.sees i
  rw [hseat] at stands
  have sees : Sees inner w.store (lastDate w) (w.flights i) (w.log i) tab.ram := stands
  refine h.setFlight ?_ ?_ (fun f hf => ?_) (fun f hf => ?_)
  · refine (h.dated.setTab _).setFlight fun f hf => ?_
    obtain rfl := Option.some.inj hf
    exact ⟨rfl, fun news hnews key => honest_protocol may hnews key⟩
  · rw [hseat]
    exact sees.send fresh may
  · obtain rfl := Option.some.inj hf
    rfl
  · rw [fresh] at hf
    cases hf

theorem fail (h : InvEager inner w) (sent : w.flights i n = some ⟨commit, none⟩) :
    InvEager inner ((w.setTab i ((eagerTabs inner).fail commit (w.tabs i))).setFlight i n none) := by
  obtain ⟨tab, hseat, sees⟩ := h.ready sent
  refine h.setFlight ?_ ?_ (fun f hf => (by cases hf)) (fun f hf => ?_)
  · exact (h.dated.setTab _).setFlight fun f hf => (by cases hf)
  · rw [hseat]
    exact sees.fail sent
  · rw [sent] at hf
    obtain rfl := Option.some.inj hf
    rfl

theorem land (h : InvEager inner w) (sent : w.flights i n = some ⟨commit, none⟩) :
    InvEager inner ((w.land (eagerTabs inner) i commit).setFlight i n
      (some ⟨commit, some w.landings⟩)) := by
  let w' := (w.land (eagerTabs inner) i commit).setFlight i n (some ⟨commit, some w.landings⟩)
  change InvEager inner w'
  have hlookup (key : Bytes) : w'.store.lookup .records (inner.encodeKey key) =
      (written commit.ops .records (inner.encodeKey key)).getD
        (w.store.lookup .records (inner.encodeKey key)) := Tables.lookup_commit _ _ _ _
  have hwrite (key : Bytes) : w'.lastWrite key =
      if (written commit.ops .records (inner.encodeKey key)).isSome then some (i, w.landings)
      else w.lastWrite key := rfl
  have hflights (j : ι) (m : Nat) : w'.flights j m =
      if j = i ∧ m = n then some ⟨commit, some w.landings⟩ else w.flights j m := rfl
  refine ⟨h.dated.land sent, fun j entry hentry => (h.dates j entry hentry).trans (Nat.le_succ _),
    fun j => (h.sees j).land (fun m => ?_) fun key current => ?_, fun j m c t key hf last => ?_,
    fun a b s hs key last => ?_, fun key j t last k => ?_⟩
  · rw [hflights]
    split
    · next heq =>
      obtain ⟨rfl, rfl⟩ := heq
      rw [sent]
      rfl
    · rfl
  · unfold lastDate at current ⊢
    rw [hwrite] at current
    rw [hlookup]
    cases hw : written commit.ops .records (inner.encodeKey key) with
    | none =>
      rw [hw] at current
      exact ⟨current, rfl⟩
    | some record =>
      rw [hw] at current
      obtain ⟨entry, hentry, -, hdate⟩ := current
      have hle := h.dates j entry hentry
      have hlt : w.landings + 1 ≤ date entry := hdate
      omega
  · rw [hflights] at hf
    rw [hwrite] at last
    rw [hlookup]
    cases hw : written commit.ops .records (inner.encodeKey key) with
    | none =>
      rw [hw] at last
      have hlt := h.dated.last key j t last
      split at hf
      · obtain ⟨-, ht⟩ := Flight.mk.inj (Option.some.inj hf)
        obtain rfl := Option.some.inj ht
        exact absurd hlt (Nat.lt_irrefl _)
      · exact h.left j m c t key hf last
    | some record =>
      rw [hw] at last
      obtain ⟨rfl, rfl⟩ := Prod.mk.inj (Option.some.inj last)
      split at hf
      · obtain ⟨rfl, -⟩ := Flight.mk.inj (Option.some.inj hf)
        exact hw
      · exact absurd (h.dated.flights i m c _ hf).1 (Nat.lt_irrefl _)
  · rw [hwrite] at last
    rw [hlookup]
    cases hw : written commit.ops .records (inner.encodeKey key) with
    | none =>
      rw [hw] at last
      exact h.mail a b s hs key last
    | some record =>
      rw [hw] at last
      obtain ⟨-, hat⟩ := Prod.mk.inj (Option.some.inj last)
      have hlt := (h.dated.mail a b s hs).1
      omega
  · rw [hwrite] at last
    split at last
    · obtain ⟨rfl, rfl⟩ := Prod.mk.inj (Option.some.inj last)
      exact .inr (.inl ⟨n, commit, if_pos ⟨rfl, rfl⟩⟩)
    · refine (h.arriving key j t last k).imp_right fun awaits => awaits.imp_left ?_
      rintro ⟨m, c, hf⟩
      refine ⟨m, c, (if_neg ?_).trans hf⟩
      rintro ⟨rfl, rfl⟩
      rw [sent] at hf
      cases hf

omit [DecidableEq ι] in
/-- What landed on a key is no newer than the last commit on it, and as new only if it is that. -/
theorem latest {key : Bytes} (since : w.Since key i t) : t < lastDate w key ∧
    (lastDate w key ≤ t + 1 → w.lastWrite key = some (i, t)) := by
  obtain ⟨j, t', hlast, hle, hsame⟩ := since
  have hdate : lastDate w key = t' + 1 := by
    unfold lastDate
    rw [hlast]
  rw [hdate]
  refine ⟨by omega, fun hlt => ?_⟩
  obtain rfl : t = t' := by omega
  rw [hlast, hsame rfl]

theorem settle (h : InvEager inner w) (faithful : inner.chain.Faithful) (inverts : inner.value.Inverts)
    (landed : w.flights i n = some ⟨commit, some t⟩) (inStep : InStep inner w (.settle i n))
    (dated : ((((w.setTab i ((eagerTabs inner).settle commit (w.tabs i))).setFlight i n none).post i
      (commit.news.map (⟨t, ·⟩))).note i (.made t commit)).Dated (eagerTabs inner)
      Announcement.tells) :
    InvEager inner ((((w.setTab i ((eagerTabs inner).settle commit (w.tabs i))).setFlight i n
      none).post i (commit.news.map (⟨t, ·⟩))).note i (.made t commit)) := by
  let w' := (((w.setTab i ((eagerTabs inner).settle commit (w.tabs i))).setFlight i n
    none).post i (commit.news.map (⟨t, ·⟩))).note i (.made t commit)
  change InvEager inner w'
  obtain ⟨tab, hseat, sees⟩ := h.ready landed
  have hsound : Sound inner commit := sees.sound n _ landed
  have htabs {j : ι} (hj : j ≠ i) : w'.tabs j = w.tabs j := World.tabs_setTab_of_ne hj _ _
  have hflights (j : ι) (m : Nat) : w'.flights j m = if j = i ∧ m = n then none else w.flights j m := rfl
  have hlog (j : ι) : w'.log j = if j = i then w.log j ++ [.made t commit] else w.log j := rfl
  have hnoted {j : ι} {entry : LogEntry (TabCommit (EagerCommit T)) Announcement} : entry ∈ w'.log j ↔
      entry ∈ w.log j ∨ (j = i ∧ entry = .made t commit) := World.mem_note
  have hmail {a b : ι} {sent : Sent Announcement} : sent ∈ w'.mail a b ↔ sent ∈ w.mail a b ∨
      (a = i ∧ b ≠ i ∧ commit.news.map (⟨t, ·⟩) = some sent) := World.mem_post
  have hold {j : ι} {m : Nat} {flight : Flight (TabCommit (EagerCommit T))}
      (hf : w'.flights j m = some flight) : w.flights j m = some flight := by
    rw [hflights] at hf
    split at hf
    · cases hf
    · exact hf
  refine ⟨dated, fun j entry hentry => ?_, fun j => ?_, fun j m c t' key hf => h.left j m c t' key (hold hf),
    fun a b s hs key last => ?_, fun key j t' last k => ?_⟩
  · rcases hnoted.1 hentry with hin | ⟨rfl, rfl⟩
    · exact h.dates j entry hin
    · exact (h.dated.flights j n commit t landed).1
  · by_cases hj : j = i
    · subst hj
      have turn (key : Bytes) (hw : (written commit.ops .records (inner.encodeKey key)).isSome = true) :
          Fresh inner (w.log j) key t ∧ (stagedView (ownWrites commit) key ≠ none →
            stagedView tab.ram.res.staged key = none) := by
        obtain ⟨hfresh, hunstaged⟩ := inStep commit t landed key hw
        exact ⟨hfresh, fun hown => hunstaged hown tab hseat⟩
      have hsees := sees.settle faithful inverts landed turn fun key hw => by
        obtain ⟨hlt, hlast⟩ := latest ((h.dated.flights j n commit t landed).2 key hw)
        exact ⟨hlt, fun hle => h.left j n commit t key landed (hlast hle)⟩
      rw [hlog, if_pos rfl]
      have hown : w'.flights j = fun m => if m = n then none else w.flights j m :=
        World.flights_setFlight j n none _
      rw [hown]
      have htab : w'.tabs j = (eagerTabs inner).settle commit (w.tabs j) := World.tabs_setTab j _ w
      rw [htab, hseat]
      exact hsees
    · rw [hlog, if_neg hj, htabs hj]
      have hother : w'.flights j = w.flights j := World.flights_setFlight_of_ne hj n none _
      rw [hother]
      exact h.sees j
  · rcases hmail.1 hs with hin | ⟨rfl, -, hnews⟩
    · exact h.mail a b s hin key last
    · obtain ⟨news, hsome, rfl⟩ := Option.map_eq_some_iff.1 hnews
      have htold := hsound.told news hsome key
      rw [h.left a n commit t key landed last] at htold
      exact htold
  · rcases h.arriving key j t' last k with ⟨entry, hin, hrest⟩ | ⟨m, c, hf⟩ | ⟨sent, hs, hrest⟩
    · exact .inl ⟨entry, hnoted.2 (.inl hin), hrest⟩
    · by_cases heq : j = i ∧ m = n
      · obtain ⟨rfl, rfl⟩ := heq
        rw [landed] at hf
        obtain ⟨rfl, ht⟩ := Flight.mk.inj (Option.some.inj hf)
        obtain rfl := Option.some.inj ht
        have hwritten := h.left j m commit t key landed last
        by_cases hk : k = j
        · subst hk
          refine .inl ⟨.made t commit, hnoted.2 (.inr ⟨rfl, rfl⟩), ?_, Nat.le_refl _⟩
          change (written commit.ops .records (inner.encodeKey key)).isSome = true
          rw [hwritten]
          rfl
        · cases hnews : commit.news with
          | none => exact absurd (hsound.silent hnews key) (by simp [hwritten])
          | some news =>
            refine .inr (.inr ⟨⟨t, news⟩, hmail.2 (.inr ⟨rfl, hk, by rw [hnews]; rfl⟩), rfl, ?_⟩)
            have htold := hsound.told news hnews key
            rw [hwritten] at htold
            exact tells_some htold
      · exact .inr (.inl ⟨m, c, (if_neg heq).trans hf⟩)
    · exact .inr (.inr ⟨sent, hmail.2 (.inl hs), hrest⟩)

theorem deliver (h : InvEager inner w) {a b : ι} {sent : Sent Announcement}
    {rest : List (Sent Announcement)} (first : w.mail a b = sent :: rest)
    (inStep : InStep inner w (.deliver a b)) :
    InvEager inner (((w.setTab b ((eagerTabs inner).hear sent.news (w.tabs b))).setMail a b
      rest).note b (.heard sent)) := by
  let w' := ((w.setTab b ((eagerTabs inner).hear sent.news (w.tabs b))).setMail a b
    rest).note b (.heard sent)
  change InvEager inner w'
  have hlog (j : ι) : w'.log j = if j = b then w.log j ++ [.heard sent] else w.log j := rfl
  have hnoted {j : ι} {entry : LogEntry (TabCommit (EagerCommit T)) Announcement} : entry ∈ w'.log j ↔
      entry ∈ w.log j ∨ (j = b ∧ entry = .heard sent) := World.mem_note
  have hsent : sent ∈ w.mail a b := by
    rw [first]
    exact List.mem_cons_self
  have hmail {c d : ι} {s : Sent Announcement} (hs : s ∈ w'.mail c d) : s ∈ w.mail c d :=
    World.mem_setMail (w := w.setTab b _) first hs
  refine ⟨((h.dated.setTab _).setMail first).note _, fun j entry hentry => ?_, fun j => ?_, h.left,
    fun c d s hs key last => h.mail c d s (hmail hs) key last, fun key j t last k => ?_⟩
  · rcases hnoted.1 hentry with hin | ⟨rfl, rfl⟩
    · exact h.dates j entry hin
    · exact (h.dated.mail a j sent hsent).1
  · by_cases hj : j = b
    · subst hj
      rw [hlog, if_pos rfl]
      have htab : w'.tabs j = (eagerTabs inner).hear sent.news (w.tabs j) := World.tabs_setTab j _ w
      rw [htab]
      have stands := h.sees j
      have step := inStep sent rest first
      cases hseat : w.tabs j with
      | opening o =>
        rw [hseat] at stands step
        have loads : Loads inner w.store (lastDate w) (w.flights j) (w.log j) o := stands
        exact loads.hear fun key htold fresh => (step key htold).1.2 fresh
      | ready tab =>
        rw [hseat] at stands step
        have sees : Sees inner w.store (lastDate w) (w.flights j) (w.log j) tab.ram := stands
        refine sees.hear (fun key htold => ?_) fun key htold => ?_
        · obtain ⟨htakes, hunstaged⟩ := step key htold
          exact ⟨htakes, fun fresh => hunstaged fresh tab rfl⟩
        · obtain ⟨hlt, hlast⟩ := latest ((h.dated.mail a j sent hsent).2 key htold)
          exact ⟨hlt, fun hle => h.mail a j sent hsent key (hlast hle)⟩
    · rw [hlog, if_neg hj]
      have htab : w'.tabs j = w.tabs j := World.tabs_setTab_of_ne hj _ w
      rw [htab]
      exact h.sees j
  · rcases h.arriving key j t last k with ⟨entry, hin, hrest⟩ | hf | ⟨s, hs, hland, htold⟩
    · exact .inl ⟨entry, hnoted.2 (.inl hin), hrest⟩
    · exact .inr (.inl hf)
    · by_cases heq : j = a ∧ k = b
      · obtain ⟨rfl, rfl⟩ := heq
        rw [first] at hs
        rcases List.mem_cons.1 hs with rfl | hs
        · refine .inl ⟨.heard s, hnoted.2 (.inr ⟨rfl, rfl⟩), htold, ?_⟩
          show t + 1 ≤ s.landed + 1
          omega
        · refine .inr (.inr ⟨s, ?_, hland, htold⟩)
          have hrest : w'.mail j k = rest := if_pos ⟨rfl, rfl⟩
          rw [hrest]
          exact hs
      · refine .inr (.inr ⟨s, ?_, hland, htold⟩)
        have hsame : w'.mail j k = w.mail j k := if_neg heq
        rw [hsame]
        exact hs

theorem reload (h : InvEager inner w) (opens : (eagerTabs inner).opens w.store seat)
    (inStep : InStep inner w (.reload i seat)) : InvEager inner (w.restart i seat) := by
  let w' := w.restart i seat
  change InvEager inner w'
  have hlog (j : ι) : w'.log j = if j = i then [.opened w.landings] else w.log j := rfl
  have hflights (j : ι) (m : Nat) : w'.flights j m = if j = i then none else w.flights j m := rfl
  have hmail (a b : ι) : w'.mail a b = if b = i then [] else w.mail a b := rfl
  refine ⟨h.dated.restart seat, fun j entry hentry => ?_, fun j => ?_, fun j m c t key hf last => ?_,
    fun a b s hs key last => ?_, fun key j t last k => ?_⟩
  · rw [hlog] at hentry
    split at hentry
    · obtain rfl := List.mem_singleton.1 hentry
      exact Nat.le_refl _
    · exact h.dates j entry hentry
  · by_cases hj : j = i
    · subst hj
      have hnone : w'.flights j = fun _ => none := funext fun m => if_pos rfl
      have htab : w'.tabs j = seat := if_pos rfl
      obtain ⟨o, begins, rfl⟩ := opens
      rw [hlog, if_pos rfl, hnone, htab]
      exact Loads.begun begins _
    · have hother : w'.flights j = w.flights j := funext fun m => if_neg hj
      have htab : w'.tabs j = w.tabs j := if_neg hj
      rw [hlog, if_neg hj, hother, htab]
      exact h.sees j
  · rw [hflights] at hf
    split at hf
    · cases hf
    · exact h.left j m c t key hf last
  · rw [hmail] at hs
    split at hs
    · exact absurd hs List.not_mem_nil
    · exact h.mail a b s hs key last
  · by_cases hk : k = i
    · refine .inl ⟨.opened w.landings, ?_, trivial, h.dated.last key j t last⟩
      rw [hlog, if_pos hk]
      exact List.mem_singleton.2 rfl
    · rcases h.arriving key j t last k with hcurrent | ⟨m, c, hf⟩ | ⟨s, hs, hrest⟩
      · rw [hlog, if_neg hk]
        exact .inl hcurrent
      · refine .inr (.inl ⟨m, c, (if_neg ?_).trans hf⟩)
        rintro rfl
        exact absurd (inStep m _ hf) (by simp)
      · refine .inr (.inr ⟨s, ?_, hrest⟩)
        rw [hmail, if_neg hk]
        exact hs

theorem step (h : InvEager inner w) (faithful : inner.chain.Faithful) (inverts : inner.value.Inverts)
    {act : Act ι (TabSeat T) (TabCommit (EagerCommit T))} {w' : OpeningWorld ι T}
    (inStep : InStep inner w act) (next : (eagerTabs inner).Step w act w') : InvEager inner w' := by
  have hdated : w'.Dated (eagerTabs inner) Announcement.tells := by
    refine h.dated.step (fun _ _ _ may _ news key => ?_) next
    obtain ⟨tab, -, may⟩ := may
    exact honest_protocol may news key
  cases act with
  | alone i memory =>
    obtain ⟨halone, rfl⟩ := next
    exact h.alone halone
  | send i n commit =>
    obtain ⟨fresh, may, rfl⟩ := next
    exact h.send fresh may
  | land i n =>
    obtain ⟨commit, sent, rfl⟩ := next
    exact h.land sent
  | fail i n =>
    obtain ⟨commit, sent, rfl⟩ := next
    exact h.fail sent
  | settle i n =>
    obtain ⟨commit, t, landed, rfl⟩ := next
    exact h.settle faithful inverts landed inStep hdated
  | deliver a b =>
    obtain ⟨sent, rest, first, rfl⟩ := next
    exact h.deliver first inStep
  | reload i memory =>
    obtain ⟨opens, rfl⟩ := next
    exact h.reload opens inStep

end
end InvEager

/-- Every tab begins to open the locker or has just opened it, and nothing is known of when the keys
were written. -/
structure JustStarted {ι T : Type} (inner : Inner T) (w : OpeningWorld ι T) : Prop where
  flights : ∀ i n, w.flights i n = none
  mail : ∀ a b, w.mail a b = []
  log : ∀ i, w.log i = [.opened w.landings]
  unwritten : ∀ key, w.lastWrite key = none
  tabs : ∀ i, (eagerTabs inner).opens w.store (w.tabs i) ∨
    ∃ tab, w.tabs i = .ready tab ∧ (eagerCalls inner).protocol.opens w.store tab

theorem JustStarted.inv {ι T : Type} [DecidableEq ι] {inner : Inner T} {w : OpeningWorld ι T}
    (h : JustStarted inner w) : InvEager inner w := by
  refine ⟨⟨fun a => h.mail a a, fun a b s hs => ?_, fun i n c t hf => ?_, fun i n j m t c c' hf => ?_,
    fun i n flight hf => ?_, fun key j t last => ?_⟩, fun i entry hentry => ?_, fun i => ?_,
    fun i n c t key hf => ?_, fun a b s hs => ?_, fun key j t last => ?_⟩
  · rw [h.mail] at hs
    cases hs
  · rw [h.flights] at hf
    cases hf
  · rw [h.flights] at hf
    cases hf
  · rw [h.flights] at hf
    cases hf
  · rw [h.unwritten] at last
    cases last
  · rw [h.log] at hentry
    obtain rfl := List.mem_singleton.1 hentry
    exact Nat.le_refl _
  · have hnone : w.flights i = fun _ => none := funext fun n => h.flights i n
    rw [h.log, hnone]
    rcases h.tabs i with ⟨o, begins, hseat⟩ | ⟨tab, hseat, opens⟩
    · rw [hseat]
      exact Loads.begun begins _
    · rw [hseat]
      exact Sees.opened opens _
  · rw [h.flights] at hf
    cases hf
  · rw [h.mail] at hs
    cases hs
  · rw [h.unwritten] at last
    cases last

/-- Of every key that it has nothing staged under and is not stale, a tab holds the decoded record. -/
def Converged {T : Type} (inner : Inner T) (db : Tables) (tab : Tab T) : Prop :=
  ∀ key, stagedView tab.ram.res.staged key = none → tab.ram.res.dropped.contains key = true ∨
    tab.ram.values[key]? = inner.decoded db key

/-- Eager lockers converge: in every run whose acts keep the tabs in step, once no commit is under way
and no news on its way, every tab that is open holds what is stored. -/
theorem converged_of_reaches {ι T : Type} [DecidableEq ι] {inner : Inner T} {w₀ w : OpeningWorld ι T}
    (faithful : inner.chain.Faithful) (opens : inner.chain.Inverts) (inverts : inner.value.Inverts)
    (started : JustStarted inner w₀) (run : Reaches (eagerTabs inner) (InStep inner) w₀ w)
    (quiet : w.Quiet) {i : ι} {tab : Tab T} (isOpen : w.tabs i = .ready tab)
    (within : WithinLimit inner tab.ram) : Converged inner w.store tab := by
  have keep (v : OpeningWorld ι T) (act : Act ι (TabSeat T) (TabCommit (EagerCommit T)))
      (v' : OpeningWorld ι T) (hv : InvEager inner v) (inStep : InStep inner v act)
      (next : (eagerTabs inner).Step v act v') : InvEager inner v' :=
    hv.step faithful inverts inStep next
  have hinv : InvEager inner w := run.invariant started.inv keep
  have stands := hinv.sees i
  rw [isOpen] at stands
  have sees : Sees inner w.store (lastDate w) (w.flights i) (w.log i) tab.ram := stands
  intro key unstaged
  have hcurrent : Current inner (lastDate w key) (w.log i) key := by
    unfold lastDate
    cases hlast : w.lastWrite key with
    | none =>
      obtain ⟨start, hstart⟩ := sees.rooted
      exact ⟨_, hstart, trivial, Nat.zero_le _⟩
    | some last =>
      obtain ⟨j, t⟩ := last
      rcases hinv.arriving key j t hlast i with hcurrent | ⟨n, commit, hf⟩ | ⟨sent, hs, -⟩
      · exact hcurrent
      · rw [quiet.1] at hf
        cases hf
      · rw [quiet.2] at hs
        cases hs
  have hunstaged : Unstaged (w.flights i) tab.ram key := by
    refine ⟨unstaged, fun n flight hf => ?_⟩
    rw [quiet.1] at hf
    cases hf
  refine (sees.reflects key hcurrent hunstaged).imp_right fun hmirrored => ?_
  rw [hmirrored.eq_replayed inverts opens (within key), replayed_nil]

/-! ## A tab that starts over while another commits -/

/-- An open that has returned may be registered. -/
theorem step_ends {ι T : Type} [DecidableEq ι] {inner : Inner T} {w : OpeningWorld ι T} {i : ι}
    {o : EagerOpening T} {tab : Tab T} (at_i : w.tabs i = .opening o)
    (ends : (eagerOpening inner).ends o tab) :
    (eagerTabs inner).Step w (.alone i (.ready tab)) (w.setTab i (.ready tab)) := by
  refine ⟨?_, rfl⟩
  change (w.tabs i).Alone (eagerCalls inner).protocol (eagerOpening inner) w.store (w.flights i) _
  rw [at_i]
  exact .inr ⟨tab, ends, rfl⟩

def putL (byte : UInt8) (tab : Tab Bytes) : TabCommit (EagerCommit Bytes) :=
  let ops := [.put .records (Inner.plain.encodeKey [108]) [67, 66, 78, 75, 1, 0, 1, byte]]
  ⟨⟨.alone (.put [108] [1, byte] [byte]) false, []⟩, ops, (tab.prepare Inner.plain.id ops).1⟩

theorem may_putL (byte : UInt8) (tab : Tab Bytes) (flights : EagerFlights Bytes) :
    (eagerCalls Inner.plain).protocol.may tab flights (putL byte tab) := by
  refine ⟨⟨fun h => (by cases h), fun _ => rfl, rfl, fun entry he => ?_, EagerLocker.lays_put rfl⟩,
    fun op hop => ?_, rfl⟩
  · obtain rfl := List.mem_singleton.1 he
    rfl
  · obtain rfl := List.mem_singleton.1 hop
    trivial

def startingOver : EagerOpening Bytes := ⟨3, EagerLocker.openLocker Inner.plain, .fresh⟩

def starting : OpeningWorld Bool Bytes := World.ready first |>.restart true (.opening startingOver)

def pageRead : EagerOpening Bytes := startingOver.answered first.store

def reading : OpeningWorld Bool Bytes := starting.setTab true (.opening pageRead)

/-- Then the first tab puts the key `l`. -/
def amid : OpeningWorld Bool Bytes :=
  reading.made (eagerTabs Inner.plain) false (putL 3 (first.tabs false))

def reopened : Tab Bytes := pageRead.tab?.getD (twoTabs.tabs true)

/-- The other tab hears of it when it is open, or before. -/
def heardLate : OpeningWorld Bool Bytes :=
  (amid.setTab true (.ready reopened)).told (eagerTabs Inner.plain) false true

def heardEarly : OpeningWorld Bool Bytes :=
  (amid.told (eagerTabs Inner.plain) false true).setTab true (.ready reopened)

theorem justStarted_twoTabs : JustStarted Inner.plain twoTabs.ready where
  flights := justOpened_twoTabs.flights
  mail := justOpened_twoTabs.mail
  log := justOpened_twoTabs.log
  unwritten _ := rfl
  tabs i := .inr ⟨twoTabs.tabs i, rfl, justOpened_twoTabs.tabs i⟩

def newsL : Sent Announcement := ⟨1, 2, 0, 2, false, [.ofPut [108] [67, 66, 78, 75, 1, 0, 1, 3]]⟩

theorem mail_amid : amid.mail false true = [newsL] := by
  decide

theorem ends_pageRead : (eagerOpening Inner.plain).ends pageRead reopened := by
  refine ends_of_tab? ?_
  have hsome : pageRead.tab?.isSome = true := by decide
  obtain ⟨tab, htab⟩ := Option.isSome_iff_exists.1 hsome
  unfold reopened
  rw [htab]
  rfl

theorem unstaged_reopened : reopened.ram.res.staged = [] := by
  obtain ⟨values, res, hrest, hreopened⟩ := ends_pageRead
  have begun : (EagerLocker.openLocker Inner.plain : Io Shared (Loaded Bytes)).Gives
      fun loaded => loaded.2.staged = [] := gives_openLocker
  have hstep : OpenStep first.store startingOver pageRead := openStep_answered rfl
  have gives := hstep.gives begun
  rw [hrest] at gives
  rw [hreopened]
  exact gives

section
variable {ok : OpeningWorld Bool Bytes → Act Bool (TabSeat Bytes) (TabCommit (EagerCommit Bytes)) → Prop}

/-- The tab starts over, reads its page, and the other tab puts. -/
theorem reaches_amid (run : Reaches (eagerTabs Inner.plain) ok twoTabs.ready first.ready)
    (reloads : ok first.ready (.reload true (.opening startingOver)))
    (reads : ok starting (.alone true (.opening pageRead)))
    (sends : ok reading (.send false 0 (putL 3 (first.tabs false))))
    (lands : ok (reading.sending (eagerTabs Inner.plain) false (putL 3 (first.tabs false)))
      (.land false 0))
    (settles : ok (reading.landing (eagerTabs Inner.plain) false (putL 3 (first.tabs false)))
      (.settle false 0)) : Reaches (eagerTabs Inner.plain) ok twoTabs.ready amid := by
  have hstarting : Reaches (eagerTabs Inner.plain) ok twoTabs.ready starting :=
    run.step reloads ⟨⟨startingOver, rfl, rfl⟩, rfl⟩
  have hstep : OpenStep starting.store startingOver pageRead := openStep_answered rfl
  have hreading : Reaches (eagerTabs Inner.plain) ok twoTabs.ready reading :=
    hstarting.step reads ⟨.inl ⟨pageRead, hstep, rfl⟩, rfl⟩
  exact hreading.made rfl ⟨_, rfl, may_putL 3 _ _⟩ sends lands settles

end

/-- What keeps the tabs in step, and starts none over. -/
def StaysInStep (w : EagerWorld Bool Bytes) (act : Act Bool (Tab Bytes) (TabCommit (EagerCommit Bytes))) :
    Prop := InStep Inner.plain w.ready act.ready ∧ ∀ i memory, act ≠ .reload i memory

theorem inStep_first : Reaches (eagerTabs Inner.plain) (InStep Inner.plain) twoTabs.ready first.ready := by
  have hfirst : Reaches (eagerCalls Inner.plain).protocol StaysInStep twoTabs first := by
    refine Reaches.start.made rfl (may_putK 2) ⟨trivial, by simp⟩ ⟨trivial, by simp⟩ ⟨?_, by simp⟩
    intro commit t hf key _
    rw [World.flights_ready, World.flights_landing] at hf
    obtain ⟨-, ht⟩ := Flight.mk.inj (Option.some.inj hf)
    obtain rfl := Option.some.inj ht
    refine ⟨fun entry hentry _ => ?_, fun _ tab htab => ?_⟩
    · obtain rfl := List.mem_singleton.1 hentry
      exact Nat.le_refl _
    · obtain rfl := Seat.ready.inj htab
      rfl
  exact hfirst.ready (fun _ i memory h => h.2 i memory rfl) fun _ _ h => h.1

theorem inStep_amid : Reaches (eagerTabs Inner.plain) (InStep Inner.plain) twoTabs.ready amid := by
  refine reaches_amid inStep_first ?_ trivial trivial trivial ?_
  · intro n flight hf
    rw [show (World.ready first : OpeningWorld Bool Bytes).flights = twoTabs.flights from
      World.flights_made rfl] at hf
    cases hf
  · intro commit t hf key _
    rw [World.flights_landing] at hf
    obtain ⟨-, ht⟩ := Flight.mk.inj (Option.some.inj hf)
    obtain rfl := Option.some.inj ht
    refine ⟨fun entry hentry _ => ?_, fun _ tab htab => ?_⟩
    · have hlog : (reading.landing (eagerTabs Inner.plain) false (putL 3 (first.tabs false))).log false =
          [.opened 0, .made 0 (putK 2 (twoTabs.tabs false))] := rfl
      rw [hlog] at hentry
      rcases List.mem_cons.1 hentry with rfl | hmade
      · exact Nat.zero_le _
      · obtain rfl := List.mem_singleton.1 hmade
        exact Nat.le_refl _
    · obtain rfl := Seat.ready.inj htab
      rfl

theorem flights_amid : amid.flights = fun _ _ => none := by
  funext i n
  have hmade : amid.flights = reading.flights := World.flights_made rfl
  have hfirst : first.flights = twoTabs.flights := World.flights_made rfl
  rw [hmade]
  change (if i = true then none else first.flights i n) = none
  rw [hfirst]
  exact ite_self _

/-- The tab that is open has epochs of its own, and takes in what it hears first. -/
theorem takes_reopened (key : Bytes) : Takes newsL.news reopened key := by
  obtain ⟨values, res, -, hreopened⟩ := ends_pageRead
  rw [hreopened]
  have hname : pageRead.instanceId = 3 := EagerOpening.instanceId_answered
  refine ⟨?_, ?_, .inr ?_⟩
  · show (2 : UInt32) ≠ pageRead.instanceId
    rw [hname]
    decide
  · show ¬ (2 : UInt64) ≤ 0
    decide
  · simp [Epochs.fresh]

/-- The put of `l`, which landed while the tab was opening, is delivered to it when it is open. -/
theorem converged_heardLate : ∃ tab, heardLate.tabs true = .ready tab ∧
    tab.ram.values.toList = [([107], [2]), ([108], [3])] ∧
    Converged Inner.plain heardLate.store tab := by
  have hregister : InStep Inner.plain amid (.alone true (.ready reopened)) := trivial
  have hopen : Reaches (eagerTabs Inner.plain) (InStep Inner.plain) twoTabs.ready
      (amid.setTab true (.ready reopened)) :=
    inStep_amid.step hregister (step_ends rfl ends_pageRead)
  have hstep : InStep Inner.plain (amid.setTab true (.ready reopened)) (.deliver false true) := by
    intro sent rest hmail key told
    obtain ⟨rfl, -⟩ := List.cons.inj (mail_amid.symm.trans hmail)
    have hfresh : Fresh Inner.plain (amid.log true) key newsL.landed := by
      intro entry hentry _
      obtain rfl := List.mem_singleton.1 hentry
      exact Nat.le_refl _
    refine ⟨⟨fun _ => hfresh, fun _ => takes_reopened key⟩, fun _ tab htab => ?_⟩
    obtain rfl : reopened = tab := Seat.ready.inj htab
    refine ⟨?_, fun n flight hf => ?_⟩
    · rw [unstaged_reopened]
      rfl
    · change amid.flights true n = some flight at hf
      rw [flights_amid] at hf
      cases hf
  have hquiet : heardLate.Quiet := by
    refine ⟨fun i n => ?_, by decide⟩
    have hflights : heardLate.flights = amid.flights := World.flights_told _ _ _
    rw [hflights, flights_amid]
  obtain ⟨tab, hready, hvalues⟩ : ∃ tab, heardLate.tabs true = .ready tab ∧
      tab.ram.values.toList = [([107], [2]), ([108], [3])] := by
    refine ⟨(eagerCalls Inner.plain).protocol.hear newsL.news reopened, ?_, by decide⟩
    have hmail : (amid.setTab true (.ready reopened)).mail false true = [newsL] := mail_amid
    unfold heardLate World.told
    rw [hmail]
    rfl
  refine ⟨tab, hready, hvalues, converged_of_reaches faithful_raw inverts_raw Postcard.vecU8_inverts
    justStarted_twoTabs (hopen.told hstep) hquiet hready (EagerLocker.withinLimit_of_toList ?_)⟩
  rw [hvalues]
  rfl

/-- What writes in turn, and starts no tab over. -/
def StaysInTurn (w : EagerWorld Bool Bytes) (act : Act Bool (Tab Bytes) (TabCommit (EagerCommit Bytes))) :
    Prop := InTurn Inner.plain w.ready act.ready ∧ ∀ i memory, act ≠ .reload i memory

theorem inTurn_first : Reaches (eagerCalls Inner.plain).protocol StaysInTurn twoTabs first :=
  Reaches.start.made rfl (may_putK 2) ⟨fun j _ key _ => ⟨fun n flight hf => (by cases hf),
    fun sent hs => (by cases hs)⟩, by simp⟩ ⟨trivial, by simp⟩ ⟨trivial, by simp⟩

/-- Delivered before that, it is lost: no two tabs have written a key at the same time. -/
theorem not_converged_heardEarly : JustStarted Inner.plain twoTabs.ready ∧
    Reaches (eagerTabs Inner.plain) (InTurn Inner.plain) twoTabs.ready heardEarly ∧
    heardEarly.Quiet ∧ heardEarly.tabs true = .ready reopened ∧
    ¬ Converged Inner.plain heardEarly.store reopened := by
  have hfirst : Reaches (eagerTabs Inner.plain) (InTurn Inner.plain) twoTabs.ready first.ready :=
    inTurn_first.ready (fun _ i memory h => h.2 i memory rfl) fun _ _ h => h.1
  have hsend : InTurn Inner.plain reading (.send false 0 (putL 3 (first.tabs false))) := by
    intro j hj key _
    obtain rfl : j = true := by simpa using hj
    refine ⟨fun n flight hf => ?_, fun sent hs => ?_⟩
    · cases hf
    · have hmail : reading.mail true false = [] := by decide
      rw [hmail] at hs
      cases hs
  have hamid : Reaches (eagerTabs Inner.plain) (InTurn Inner.plain) twoTabs.ready amid :=
    reaches_amid hfirst trivial trivial hsend trivial trivial
  have hlost : Reaches (eagerTabs Inner.plain) (InTurn Inner.plain) twoTabs.ready
      (amid.told (eagerTabs Inner.plain) false true) := hamid.told trivial
  have hregister : InTurn Inner.plain (amid.told (eagerTabs Inner.plain) false true)
    (.alone true (.ready reopened)) := trivial
  have hseat : (amid.told (eagerTabs Inner.plain) false true).tabs true = .opening pageRead := by
    unfold World.told
    rw [mail_amid]
    rfl
  have hstep : (eagerTabs Inner.plain).Step (amid.told (eagerTabs Inner.plain) false true)
    (.alone true (.ready reopened)) heardEarly := step_ends hseat ends_pageRead
  refine ⟨justStarted_twoTabs, hlost.step hregister hstep, ⟨fun i n => ?_, by decide⟩,
    World.tabs_setTab _ _ _, fun hconverged => ?_⟩
  · change (amid.told (eagerTabs Inner.plain) false true).flights i n = none
    rw [World.flights_told, flights_amid]
  · have hunstaged : stagedView reopened.ram.res.staged [108] = none := by
      rw [unstaged_reopened]
      rfl
    exact absurd (hconverged [108] hunstaged) (by decide)

/-! ## Tabs that echo each other -/

/-- The put of the first tab is delivered to the other. -/
def heardFirst : EagerWorld Bool Bytes := first.told (eagerCalls Inner.plain).protocol false true

theorem free_heardFirst : heardFirst.flights = fun _ _ => none :=
  (World.flights_told _ _ _).trans (World.flights_made rfl)

/-- The other tab puts the key once it has heard of the first's put, and its own put is delivered. -/
def echoed : EagerWorld Bool Bytes :=
  heardFirst.made (eagerCalls Inner.plain).protocol true (putK 1 (heardFirst.tabs true))

def heardEcho : EagerWorld Bool Bytes := echoed.told (eagerCalls Inner.plain).protocol true false

theorem mail_heardFirst : ∀ a b, heardFirst.mail a b = [] := by
  decide

/-- The put that came last is discarded by the tab whose own put, which came first, has its epoch. -/
theorem not_converged_heardEcho : JustStarted Inner.plain twoTabs.ready ∧
    Reaches (eagerTabs Inner.plain) (InTurn Inner.plain) twoTabs.ready heardEcho.ready ∧
    (World.ready heardEcho : OpeningWorld Bool Bytes).Quiet ∧
    ¬ Converged Inner.plain heardEcho.store (heardEcho.tabs false) := by
  have hfree : echoed.flights = fun _ _ => none :=
    (World.flights_made (by rw [free_heardFirst])).trans free_heardFirst
  refine ⟨justStarted_twoTabs, ?_, ⟨fun i n => ?_, by decide⟩, fun hconverged => ?_⟩
  · have hheard : Reaches (eagerCalls Inner.plain).protocol StaysInTurn twoTabs heardFirst :=
      inTurn_first.told ⟨trivial, by simp⟩
    have hecho : Reaches (eagerCalls Inner.plain).protocol StaysInTurn twoTabs heardEcho := by
      refine (hheard.made (by rw [free_heardFirst]) (may_putK 1) ⟨fun j _ key _ => ⟨?_, ?_⟩, by simp⟩
        ⟨trivial, by simp⟩ ⟨trivial, by simp⟩).told ⟨trivial, by simp⟩
      · intro n flight hf
        rw [World.flights_ready, free_heardFirst] at hf
        cases hf
      · intro sent hs
        change sent ∈ heardFirst.mail j true at hs
        rw [mail_heardFirst] at hs
        cases hs
    exact hecho.ready (fun _ i memory h => h.2 i memory rfl) fun _ _ h => h.1
  · have htold : heardEcho.flights = echoed.flights := World.flights_told _ _ _
    rw [World.flights_ready, htold, hfree]
  · exact absurd (hconverged [107] rfl) (by decide)

end EagerTabs
end Crossbank
