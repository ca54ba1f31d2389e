import Crossbank.Backend.Outline
import Crossbank.Locker.Batch

/-!
# Mirroring what has landed

A call of an immediate eager locker commits its write, and then mirrors it into memory: two steps,
between which others may move.

* `Landing` : a commit that has landed, and is still to be mirrored;
* `InTurn` : a call that mirrors its landing, before which no other that clashes with it landed and
  is still to be mirrored;
* `Ahead` : storage is memory, with the landings laid over it; `Ahead.land`, `Ahead.mirror` : what
  keeps it so;
* `EagerLocker.held_eq_decoded` : where every call mirrors in turn, memory is storage whenever no
  call is in flight; out of turn it need not be (`held_ne_decoded`).
-/

namespace Crossbank
open Async

namespace EagerLocker

/-- A commit that has landed: whose it is, and its ops. -/
abbrev Landing := Nat × List Op

def mine (i : Nat) (landings : List Landing) : List Landing := landings.filter (·.1 = i)

/-- A commit that lands is noted, until its call takes its next step in memory. -/
def noteLanding {ρ : Type} (i : Nat) (e : Event Req Resp ρ) (_ _ : Machine Tables ρ)
    (landings : List Landing) : List Landing :=
  match e with
  | .io (.commit ops _) (.ok _) => landings ++ [(i, ops)]
  | .ram _ _ => landings.filter (·.1 ≠ i)
  | _ => landings

section
variable {T : Type} (inner : Inner T)

/-- What the landings, in their order, leave under a key. -/
def lastWrite (landings : List Landing) (key : Bytes) : Option (Option Bytes) :=
  written (landings.flatMap Prod.snd) .records (inner.encodeKey key)

def Clash (ops ops' : List Op) : Prop :=
  ∃ key, (written ops .records (inner.encodeKey key)).isSome ∧
    (written ops' .records (inner.encodeKey key)).isSome

/-- Nothing that clashes with it has landed before the landing of the call `i`. -/
def InTurn (i : Nat) (landings : List Landing) : Prop :=
  ∀ before ops after, landings = before ++ (i, ops) :: after →
    ∀ other ∈ before, ¬ Clash inner other.2 ops

/-- Storage is memory, with the landings laid over it. -/
structure Ahead (m : Machine Tables (Ram T)) (landings : List Landing) : Prop where
  staged : m.mem.res.staged = []
  landed : ∀ key w, lastWrite inner landings key = some w →
    m.dev.lookup .records (inner.encodeKey key) = w
  mirrored : ∀ key, lastWrite inner landings key = none →
    Mirrored inner m.dev [] key m.mem.values[key]?

def FollowsAll (batch : List Pending) (values values' : Std.ExtTreeMap Bytes T compare) : Prop :=
  ∀ key, match stagedView batch key with
    | none => values'[key]? = values[key]?
    | some none => values'[key]? = none
    | some (some payload) => ∃ v, values'[key]? = some v ∧ inner.value.payload v = .ok payload

end

section
variable {T : Type} {inner : Inner T} {m m' : Machine Tables (Ram T)} {landings : List Landing}
  {i : Nat} {ops : List Op} {batch : List Pending} {values values' : Std.ExtTreeMap Bytes T compare}

theorem lastWrite_append (a b : List Landing) (key : Bytes) :
    lastWrite inner (a ++ b) key = (lastWrite inner b key).or (lastWrite inner a key) := by
  unfold lastWrite
  rw [List.flatMap_append, written_append]

theorem lastWrite_one (key : Bytes) :
    lastWrite inner [(i, ops)] key = written ops .records (inner.encodeKey key) := by
  unfold lastWrite
  rw [List.flatMap_singleton]

/-- What no landing writes, they all leave. -/
theorem lastWrite_of_no_clash (h : ∀ other ∈ landings, ¬ Clash inner other.2 ops) (key : Bytes)
    (writes : (written ops .records (inner.encodeKey key)).isSome) :
    lastWrite inner landings key = none := by
  induction landings with
  | nil => rfl
  | cons first rest ih =>
    obtain ⟨j, own⟩ := first
    have hown : written own .records (inner.encodeKey key) = none := by
      rw [← Option.not_isSome_iff_eq_none]
      exact fun hsome => h (j, own) List.mem_cons_self ⟨key, hsome, writes⟩
    rw [← List.singleton_append, lastWrite_append, lastWrite_one, hown, Option.or_none]
    exact ih fun other ho => h other (List.mem_cons_of_mem _ ho)

/-! ## What keeps memory behind -/

theorem Ahead.calm (h : Ahead inner m landings)
    (dev : ∀ key, m'.dev.lookup .records (inner.encodeKey key) =
      m.dev.lookup .records (inner.encodeKey key))
    (values : m'.mem.values = m.mem.values) (staged : m'.mem.res.staged = []) :
    Ahead inner m' landings := by
  refine ⟨staged, fun key w hw => (dev key).trans (h.landed key w hw), fun key hnone => ?_⟩
  have hkey := h.mirrored key hnone
  unfold Mirrored at hkey ⊢
  rw [dev, values]
  exact hkey

theorem Ahead.land (h : Ahead inner m landings) (i : Nat) (ops : List Op) :
    Ahead inner ⟨m.dev.commit ops, m.mem⟩ (landings ++ [(i, ops)]) := by
  have last (key : Bytes) : lastWrite inner (landings ++ [(i, ops)]) key =
      (written ops .records (inner.encodeKey key)).or (lastWrite inner landings key) := by
    rw [lastWrite_append, lastWrite_one]
  refine ⟨h.staged, fun key w hw => ?_, fun key hnone => ?_⟩
  · rw [last] at hw
    dsimp only
    rw [Tables.lookup_commit]
    cases hown : written ops .records (inner.encodeKey key) with
    | some w' =>
      rw [hown] at hw
      exact Option.some.inj hw
    | none =>
      rw [hown, Option.none_or] at hw
      exact h.landed key w hw
  · rw [last, Option.or_eq_none_iff] at hnone
    have hkey := h.mirrored key hnone.2
    have same : (m.dev.commit ops).lookup .records (inner.encodeKey key) =
        m.dev.lookup .records (inner.encodeKey key) := by
      rw [Tables.lookup_commit, hnone.1]
      rfl
    unfold Mirrored at hkey ⊢
    dsimp only at hkey ⊢
    rw [same]
    exact hkey

/-- A landing is mirrored, if no other that clashes with it landed before and is not. -/
theorem Ahead.mirror (h : Ahead inner m landings) (faithful : inner.chain.Faithful)
    (inverts : inner.value.Inverts) (own : mine i landings = [(i, ops)])
    (turn : InTurn inner i landings) (lays : Lays inner ops batch) {ram : Ram T}
    (staged : ram.res.staged = []) (follows : FollowsAll inner batch m.mem.values ram.values) :
    Ahead inner ⟨m.dev, ram⟩ (landings.filter (·.1 ≠ i)) := by
  obtain ⟨before, after, rfl, hbefore, -, hafter⟩ := List.filter_eq_cons_iff.1 own
  have rest : (before ++ (i, ops) :: after).filter (·.1 ≠ i) = before ++ after := by
    have keep (l : List Landing) (hl : ∀ x ∈ l, x.1 ≠ i) : l.filter (·.1 ≠ i) = l :=
      List.filter_eq_self.2 fun x hx => by simpa using hl x hx
    rw [List.filter_append, List.filter_cons_of_neg (by simp), keep before, keep after]
    · intro x hx
      simpa using List.filter_eq_nil_iff.1 hafter x hx
    · intro x hx
      simpa using hbefore x hx
  have was (key : Bytes) : lastWrite inner (before ++ (i, ops) :: after) key =
      (lastWrite inner after key).or
        ((written ops .records (inner.encodeKey key)).or (lastWrite inner before key)) := by
    rw [lastWrite_append, ← List.singleton_append, lastWrite_append, lastWrite_one, Option.or_assoc]
  have now (key : Bytes) : lastWrite inner (before ++ after) key =
      (lastWrite inner after key).or (lastWrite inner before key) := lastWrite_append _ _ key
  rw [rest]
  refine ⟨staged, fun key w hw => ?_, fun key hnone => ?_⟩
  · -- What landed before and is not yet mirrored, this landing does not write.
    rw [now] at hw
    refine h.landed key w ?_
    rw [was]
    cases hown : written ops .records (inner.encodeKey key) with
    | none => exact hw
    | some w' =>
      have hclear := lastWrite_of_no_clash (turn before ops after rfl) key (by rw [hown]; rfl)
      rw [hclear, Option.or_none] at hw
      rw [hw]
      rfl
  · rw [now, Option.or_eq_none_iff] at hnone
    have hwas := was key
    rw [hnone.1, hnone.2, Option.none_or, Option.or_none] at hwas
    have hlays := lays key
    have hfollows := follows key
    cases hview : stagedView batch key with
    | none =>
      rw [hview] at hlays hfollows
      rw [hlays] at hwas
      show Mirrored inner m.dev [] key ram.values[key]?
      rw [hfollows]
      exact h.mirrored key hwas
    | some view =>
      rw [hview] at hlays hfollows
      cases view with
      | none =>
        rw [hlays] at hwas
        have hrow := h.landed key none hwas
        unfold Mirrored
        rw [stagedView_nil]
        dsimp only
        rw [hrow]
        exact hfollows
      | some payload =>
        obtain ⟨sealed, hseal, hput⟩ := hlays
        rw [hput] at hwas
        have hrow := h.landed key (some sealed) hwas
        obtain ⟨v, hheld, hpayload⟩ := hfollows
        show Mirrored inner m.dev [] key ram.values[key]?
        rw [hheld]
        exact mirrored_of_sealed hseal hrow hpayload faithful inverts

/-! ## Batches of one write -/

theorem lays_put {key payload sealed : Bytes} (h : inner.chain.sealSlice payload = .ok sealed) :
    Lays inner [.put .records (inner.encodeKey key) sealed] [.put key payload] := by
  intro k
  rw [stagedView_one]
  obtain ⟨hown, hother⟩ : Performs inner key (.put payload) _ := performs_put h
  by_cases hk : key = k
  · subst hk
    simp only [Pending.effect, if_true]
    exact hown
  · simp only [Pending.effect, hk, if_false]
    exact hother k (Ne.symm hk)

theorem lays_delete (key : Bytes) : Lays inner [inner.deleteOp key] [.delete key] := by
  intro k
  rw [stagedView_one]
  obtain ⟨hown, hother⟩ : Performs inner key .delete _ := performs_delete key
  by_cases hk : key = k
  · subst hk
    simp only [Pending.effect, if_true]
    exact hown
  · simp only [Pending.effect, hk, if_false]
    exact hother k (Ne.symm hk)

theorem lays_clear : Lays inner [inner.clearOp] [.clear] := by
  intro key
  rw [stagedView_one]
  exact written_clearOp key

theorem followsAll_one {entry : Pending} (h : Follows inner entry values values') :
    FollowsAll inner [entry] values values' := by
  intro key
  rw [stagedView_one]
  exact h key

theorem followsAll_foldl (entries : List (Staged T)) (ram : Ram T) (news : List Notice)
    (serialised : ∀ entry ∈ entries, entry.Serialised inner) :
    FollowsAll inner (mergeBatches [] entries) ram.values
      (entries.foldl mirrorEntry (ram, news)).1.values := by
  intro key
  rw [mergeBatches, List.nil_append]
  induction entries using List.reverseRecOn with
  | nil => rfl
  | append_singleton entries last ih =>
    have before := ih fun entry he => serialised entry (List.mem_append_left _ he)
    have hlast := serialised last (List.mem_append_right _ List.mem_cons_self)
    rw [List.map_append, List.map_singleton, List.foldl_append, stagedView_concat]
    generalize entries.foldl mirrorEntry (ram, news) = state at before
    obtain ⟨ram', news'⟩ := state
    have step : Follows inner last.pending ram'.values
        ([last].foldl mirrorEntry (ram', news')).1.values := by
      cases last with
      | put k payload value => exact follows_put hlast _
      | delete k => exact follows_delete k _
      | clear => exact follows_clear _
    have here := step key
    cases heffect : last.pending.effect key with
    | none =>
      rw [heffect] at here
      rw [Option.none_or, here]
      exact before
    | some effect =>
      rw [heffect] at here
      rw [Option.some_or]
      cases effect with
      | none => exact here
      | some payload => exact here

end

/-! ## The outline of a call -/

abbrev MirrorScene (T : Type) := Scene Tables (Ram T) (List Landing)

/-- Storage is ahead of memory by the landings, and each call keeps note of its own. -/
def mirroringSetting {T : Type} (inner : Inner T) : Setting Req Resp Tables (Ram T) (List Landing) where
  sem := Served
  next := noteLanding
  inv x := Ahead inner x.machine x.record

def mirroringTerms (T : Type) : Terms Tables (Ram T) (List Landing) where
  rely i x y := mine i y.record = mine i x.record
  guar _ _ _ := True
  rely_refl _ _ := rfl
  rely_trans _ _ _ _ first second := second.trans first

abbrev mirroringRules {T : Type} (inner : Inner T) : Rules Req Resp Tables (Ram T) (List Landing) :=
  ⟨mirroringSetting inner, mirroringTerms T⟩

/-- A call has landed nothing before it moves, and mirrors in turn. -/
def InTime {T : Type} (inner : Inner T) (i : Nat) (h : List (Event Req Resp (Ram T)))
    (e : Event Req Resp (Ram T)) (x : MirrorScene T) (_ : Machine Tables (Ram T)) : Prop :=
  (h = [] → mine i x.record = []) ∧ ∀ s s', e = .ram s s' → InTurn inner i x.record

/-- A step in memory that leaves the values, and what is staged, as they are. -/
def Calm {T : Type} (s s' : Ram T) : Prop :=
  s'.values = s.values ∧ (s.res.staged = [] → s'.res.staged = [])

section
variable {T α β : Type} {inner : Inner T} {i j : Nat} {x y : MirrorScene T}
  {h : List (Event Req Resp (Ram T))} {ops : List Op} {batch : List Pending} {landings : List Landing}

theorem filter_of_mine (hi : mine i landings = []) : landings.filter (·.1 ≠ i) = landings := by
  refine List.filter_eq_self.2 fun e he => ?_
  simpa using List.filter_eq_nil_iff.1 hi e he

theorem mine_filter : mine i (landings.filter (·.1 ≠ i)) = [] := by
  unfold mine
  rw [List.filter_filter, List.filter_eq_nil_iff]
  intro e _
  simp

/-- No call notes for another. -/
theorem mine_noteLanding_other (hj : j ≠ i) (e : Event Req Resp (Ram T))
    (m m' : Machine Tables (Ram T)) : mine j (noteLanding i e m m' landings) = mine j landings := by
  unfold noteLanding mine
  split
  · rw [List.filter_append, List.filter_cons_of_neg (by simpa using Ne.symm hj), List.filter_nil,
      List.append_nil]
  · rw [List.filter_filter]
    refine List.filter_congr fun e _ => ?_
    by_cases he : e.1 = j
    · simp [he, hj]
    · simp [he]
  · rfl

theorem safe_calm {p : Io (Ram T) α} (only : p.Only (fun q => ¬ q.lands) Calm)
    (hx : mine i x.record = []) :
    p.Safe (mirroringRules inner) i (InTime inner i) (fun _ _ y => mine i y.record = []) h x := by
  refine Prog.Safe.of_only only (fun y z hy hyz _ => hyz.trans hy) (fun y s hy hinv calm => ?_)
    (fun y q a m hy hinv hq answer => ?_) hx
  · obtain ⟨values, staged⟩ := calm
    have hrecord : ((mirroringSetting inner).move i (.ram y.machine.mem s) y
        { y.machine with mem := s }).record = y.record := filter_of_mine hy
    refine ⟨⟨?_, trivial⟩, hrecord ▸ hy⟩
    show Ahead inner _ (y.record.filter (·.1 ≠ i))
    rw [filter_of_mine hy]
    exact Ahead.calm hinv (fun _ => rfl) values (staged hinv.staged)
  · change Served q y.machine a m at answer
    have same : m.dev = y.machine.dev ∧ Calm y.machine.mem m.mem := by
      cases q with
      | commit ops options => exact absurd trivial hq
      | get table key =>
        rw [served_read (by trivial) answer]
        exact ⟨rfl, rfl, id⟩
      | getMany table keys =>
        rw [served_read (by trivial) answer]
        exact ⟨rfl, rfl, id⟩
      | scan request =>
        rw [served_read (by trivial) answer]
        exact ⟨rfl, rfl, id⟩
      | flush =>
        obtain rfl := answer
        exact ⟨rfl, rfl, id⟩
      | lock =>
        obtain ⟨s, hs, rfl⟩ := answer
        unfold WriteLock.acquire at hs
        dsimp only [instWriteLockRam] at hs
        split at hs
        · cases hs
        · obtain rfl := Option.some.inj hs
          exact ⟨rfl, rfl, id⟩
      | idle =>
        obtain rfl := answer
        exact ⟨rfl, rfl, id⟩
    have hrecord : noteLanding i (.io q a) y.machine m y.record = y.record := by
      cases q with
      | commit ops options => exact absurd trivial hq
      | _ => rfl
    obtain ⟨dev, values, staged⟩ := same
    refine ⟨⟨?_, trivial⟩, ?_⟩
    · show Ahead inner m (noteLanding i (.io q a) y.machine m y.record)
      rw [hrecord]
      exact Ahead.calm hinv (fun _ => by rw [dev]) values (staged hinv.staged)
    · show mine i (noteLanding i (.io q a) y.machine m y.record) = []
      rw [hrecord]
      exact hy

theorem safe_ensureOpen :
    (Ram.ensureOpen : Io (Ram T) Unit).Safe (mirroringRules inner) i (InTime inner i)
      (fun _ _ y => mine i y.record = []) [] x := by
  refine Prog.Safe.sync fun y _ hinv hmay => ?_
  have hy := hmay.1 rfl
  refine ⟨⟨?_, trivial⟩, fun z hz _ => hz.trans ?_⟩
  · show Ahead inner y.machine (y.record.filter (·.1 ≠ i))
    rw [filter_of_mine hy]
    exact hinv
  · exact mine_filter

theorem safe_commit (hx : mine i x.record = []) :
    (inner.commit ops : Io (Ram T) Unit).Safe (mirroringRules inner) i (InTime inner i)
      (fun _ => outcome (fun _ y => mine i y.record = [(i, ops)]) (fun y => mine i y.record = [])) h
      x := by
  refine Backend.safe_commitWith fun y hxy hinv a m answer _ => ?_
  have hy : mine i y.record = [] := hxy.trans hx
  rcases answer with ⟨rfl, rfl⟩ | ⟨e, rfl, rfl⟩
  · refine ⟨⟨Ahead.land hinv i ops, trivial⟩, fun z hz _ => hz.trans ?_⟩
    show mine i (y.record ++ [(i, ops)]) = [(i, ops)]
    unfold mine at hy ⊢
    rw [List.filter_append, hy]
    simp
  · exact ⟨⟨hinv, trivial⟩, fun z hz _ => hz.trans hy⟩

theorem safe_mirror (faithful : inner.chain.Faithful) (inverts : inner.value.Inverts)
    (hx : mine i x.record = [(i, ops)]) (lays : Lays inner ops batch) {f : Ram T → Ram T}
    (mirrors : ∀ ram : Ram T, FollowsAll inner batch ram.values (f ram).values ∧
      (ram.res.staged = [] → (f ram).res.staged = [])) :
    (Prog.update f : Io (Ram T) Unit).Safe (mirroringRules inner) i (InTime inner i)
      (fun _ _ y => mine i y.record = []) h x := by
  refine Prog.Safe.update fun y hxy hinv hmay => ?_
  obtain ⟨follows, staged⟩ := mirrors y.machine.mem
  have turn := hmay.2 _ _ rfl
  refine ⟨⟨?_, trivial⟩, fun z hz _ => hz.trans mine_filter⟩
  exact Ahead.mirror hinv faithful inverts (hxy.trans hx) turn lays (staged hinv.staged) follows

theorem safe_guarded {p : Io (Ram T) α} {release : Ram T → Ram T} (calm : ∀ s, Calm s (release s))
    (hp : p.Safe (mirroringRules inner) i (InTime inner i) (fun _ _ y => mine i y.record = []) h x) :
    (p.guarded release).Safe (mirroringRules inner) i (InTime inner i)
      (fun _ _ y => mine i y.record = []) h x := by
  refine Prog.Safe.guarded (hp.mono fun h' r y hinv hy _ => ?_)
  refine ⟨⟨?_, trivial⟩, fun z hz _ => hz.trans mine_filter⟩
  show Ahead inner _ (y.record.filter (·.1 ≠ i))
  rw [filter_of_mine hy]
  exact Ahead.calm hinv (fun _ => rfl) (calm _).1 ((calm _).2 hinv.staged)

end

/-! ## Every call -/

section
variable {T : Type} {inner : Inner T} {i : Nat} {x : MirrorScene T}
  {h : List (Event Req Resp (Ram T))} {ops : List Op}

theorem only_calm {f : Ram T → Ram T} (calm : ∀ s, Calm s (f s)) :
    (Prog.update f : Io (Ram T) Unit).Only (fun q => ¬ q.lands) Calm :=
  Prog.only_update.2 calm

theorem calm_read {α : Type} {f : Ram T → α} :
    (Prog.read f : Io (Ram T) α).Only (fun q => ¬ q.lands) Calm :=
  Prog.only_read.2 fun _ => ⟨rfl, id⟩

theorem calm_reads {α : Type} {p : Io (Ram T) α} (hp : Reads p) :
    p.Only (fun q => ¬ q.lands) Calm := by
  refine Prog.Only.mono hp (fun q hq => ?_) fun _ _ h => h.elim
  cases q <;> first | exact hq.elim | exact id

theorem calm_draws {α : Type} {p : Io Shared α} (hp : Draws p) :
    (p.zoom (sharedPart T)).Only (fun q => ¬ q.lands) Calm := by
  refine Prog.Only.mono (Prog.Only.zoom hp) (fun q hq => ?_) fun s s' ⟨r, _, hs⟩ => ?_
  · cases q <;> first | exact hq.elim | exact id
  · rw [hs]
    exact ⟨rfl, id⟩

/-- A part that puts back nothing when it fails. -/
theorem calm_restaging {α : Type} {p : Io (Ram T) α} (hp : p.Only (fun q => ¬ q.lands) Calm) :
    (restagingOnError [] p).Only (fun q => ¬ q.lands) Calm := by
  unfold restagingOnError
  refine hp.attempt.bind fun r => ?_
  cases r with
  | ok a => exact Prog.only_pure
  | error e => exact (only_calm fun s => ⟨rfl, fun hs => hs⟩).bind fun _ => Prog.only_fail

theorem safe_restaging_commit (hx : mine i x.record = []) :
    (restagingOnError [] (inner.commit ops) : Io (Ram T) Unit).Safe (mirroringRules inner) i
      (InTime inner i) (fun _ => outcome (fun _ y => mine i y.record = [(i, ops)])
        (fun y => mine i y.record = [])) h x := by
  unfold restagingOnError
  refine Prog.Safe.bind (fun _ r y => ∃ r', r = .ok r' ∧ outcome (fun _ y => mine i y.record = [(i, ops)])
      (fun y => mine i y.record = []) r' y) ?_ (fun h' r y _ hr => ?_) (fun h' e y _ hr => ?_)
  · exact Prog.Safe.attempt ((safe_commit hx).mono fun _ r y _ hr => ⟨r, rfl, hr⟩)
  · obtain ⟨r', heq, hr⟩ := hr
    obtain rfl := Except.ok.inj heq
    cases r with
    | ok u => exact fun z hz _ => hz.trans hr
    | error e =>
      refine Prog.Safe.bind (fun _ _ y => mine i y.record = []) ?_ (fun _ _ z _ hz w hw _ => hw.trans hz)
        (fun _ _ _ _ hz => hz)
      exact safe_calm (only_calm fun s => ⟨rfl, fun hs => hs⟩) hr
  · obtain ⟨r', heq, -⟩ := hr
    cases heq

/-- Nothing is staged on an immediate locker, so a transaction drains nothing. -/
theorem safe_drain (hx : mine i x.record = []) :
    (takeStaged : Io (Ram T) (List Pending)).Safe (mirroringRules inner) i (InTime inner i)
      (fun _ r y => mine i y.record = [] ∧ r = .ok []) h x := by
  refine Prog.Safe.sync fun y hxy hinv _ => ?_
  have hy : mine i y.record = [] := hxy.trans hx
  refine ⟨⟨?_, trivial⟩, fun z hz _ => ⟨hz.trans mine_filter, ?_⟩⟩
  · show Ahead inner _ (y.record.filter (·.1 ≠ i))
    rw [filter_of_mine hy]
    exact Ahead.calm hinv (fun _ => rfl) rfl rfl
  · rw [hinv.staged]

section
variable (faithful : inner.chain.Faithful) (inverts : inner.value.Inverts)
include faithful inverts

theorem safe_mirrorPut {key payload : Bytes} {value : T} (hx : mine i x.record = [(i, ops)])
    (lays : Lays inner ops [.put key payload]) (hpayload : inner.value.payload value = .ok payload) :
    (mirrorPut key value : Io (Ram T) Unit).Safe (mirroringRules inner) i (InTime inner i)
      (fun _ _ y => mine i y.record = []) h x := by
  unfold mirrorPut
  refine Prog.Safe.bind _ (safe_mirror faithful inverts hx lays fun ram => ?_)
    (fun _ _ y _ hy => ?_) (fun _ _ _ _ hy => hy)
  · exact ⟨followsAll_one (follows_put hpayload _), id⟩
  · exact safe_calm ((only_calm fun s => ⟨rfl, id⟩).bind fun _ => only_calm fun s => ⟨rfl, id⟩) hy

theorem safe_mirrorDelete {key : Bytes} {held : Bool} (hx : mine i x.record = [(i, ops)])
    (lays : Lays inner ops [.delete key]) :
    (mirrorDelete key held : Io (Ram T) Unit).Safe (mirroringRules inner) i (InTime inner i)
      (fun _ _ y => mine i y.record = []) h x := by
  unfold mirrorDelete
  refine Prog.Safe.bind _ (safe_mirror faithful inverts hx lays fun ram => ?_)
    (fun _ _ y _ hy => ?_) (fun _ _ _ _ hy => hy)
  · exact ⟨followsAll_one (follows_delete key _), id⟩
  · refine safe_calm ((only_calm fun s => ⟨rfl, id⟩).bind fun _ => ?_) hy
    split
    · exact only_calm fun s => ⟨rfl, id⟩
    · exact Prog.only_pure

theorem safe_mirrorClear (hx : mine i x.record = [(i, ops)]) (lays : Lays inner ops [.clear]) :
    (mirrorClear : Io (Ram T) Unit).Safe (mirroringRules inner) i (InTime inner i)
      (fun _ _ y => mine i y.record = []) h x := by
  unfold mirrorClear
  refine Prog.Safe.bind _ (safe_mirror faithful inverts hx lays fun ram => ?_)
    (fun _ _ y _ hy => ?_) (fun _ _ _ _ hy => hy)
  · exact ⟨followsAll_one (follows_clear _), id⟩
  · exact safe_calm ((only_calm fun s => ⟨rfl, id⟩).bind fun _ => only_calm fun s => ⟨rfl, id⟩) hy

section
variable (immediate : isDeferred inner = false)
include immediate

theorem safe_put (key : Bytes) (value : T) : (putBy inner key value).Safe (mirroringRules inner) i
    (InTime inner i) (fun _ _ y => mine i y.record = []) [] x := by
  unfold putBy
  refine Prog.Safe.bind _ safe_ensureOpen (fun h _ y _ hy => ?_) (fun _ _ _ _ hy => hy)
  cases hs : inner.value.encode inner.chain value with
  | error e => exact safe_calm Prog.only_fail hy
  | ok sealed =>
    obtain ⟨payload, hpayload, hseal⟩ := bind_eq_ok.1 hs
    show Prog.Safe _ _ _ _ (if sealed.length > inner.config.maxInline then _ else _) h y
    split
    · exact safe_calm Prog.only_fail hy
    · rw [if_neg (by simp [immediate])]
      refine Prog.Safe.bind _ (safe_commit hy) (fun h' _ z _ hz => ?_) (fun _ _ _ _ hz => hz)
      refine Prog.Safe.bind _ (safe_mirrorPut faithful inverts hz (lays_put hseal) hpayload)
        (fun _ _ w _ hw => ?_) (fun _ _ _ _ hw => hw)
      exact safe_calm Prog.only_pure hw

theorem safe_delete (key : Bytes) : (deleteBy inner key).Safe (mirroringRules inner) i
    (InTime inner i) (fun _ _ y => mine i y.record = []) [] x := by
  unfold deleteBy
  refine Prog.Safe.bind _ safe_ensureOpen (fun h _ y _ hy => ?_) (fun _ _ _ _ hy => hy)
  refine Prog.Safe.bind _ (safe_calm calm_read hy) (fun h held z _ hz => ?_) (fun _ _ _ _ hz => hz)
  refine Prog.Safe.bind _ (safe_calm calm_read hz) (fun h known w _ hw => ?_) (fun _ _ _ _ hw => hw)
  split
  · exact safe_calm Prog.only_pure hw
  · rw [if_neg (by simp [immediate])]
    refine Prog.Safe.bind _ (safe_commit hw) (fun h' _ z _ hz => ?_) (fun _ _ _ _ hz => hz)
    exact safe_mirrorDelete faithful inverts hz (lays_delete key)

theorem safe_clear : (clear inner).Safe (mirroringRules inner) i (InTime inner i)
    (fun _ _ y => mine i y.record = []) [] x := by
  unfold clear
  refine Prog.Safe.bind _ safe_ensureOpen (fun h _ y _ hy => ?_) (fun _ _ _ _ hy => hy)
  rw [if_neg (by simp [immediate])]
  refine Prog.Safe.bind _ (safe_commit hy) (fun h' _ z _ hz => ?_) (fun _ _ _ _ hz => hz)
  exact safe_mirrorClear faithful inverts hz lays_clear

end

theorem safe_transact (body : TxBody T) : (transact inner body).Safe (mirroringRules inner) i
    (InTime inner i) (fun _ _ y => mine i y.record = []) [] x := by
  unfold transact
  refine Prog.Safe.bind _ safe_ensureOpen (fun h _ y _ hy => ?_) (fun _ _ _ _ hy => hy)
  unfold withWriteLock
  refine Prog.Safe.bind _ (safe_calm (Prog.only_ask.2 id) hy) (fun h _ z _ hz => ?_)
    (fun _ _ _ _ hz => hz)
  refine safe_guarded (fun s => ⟨rfl, id⟩) ?_
  refine Prog.Safe.bind _ ((safe_calm (calm_reads (reads_txBody inner body [])) hz).gives
    (gives_txBody body (by simp))) (fun h entries w _ hw => ?_) (fun _ _ _ _ hw => hw.1)
  obtain ⟨hw, hentries⟩ := hw
  have serialised := hentries entries rfl
  split
  · exact safe_calm Prog.only_pure hw
  · refine Prog.Safe.bind _ (safe_drain hw) (fun h before u _ hu => ?_)
      (fun _ _ _ _ hu => hu.1)
    obtain ⟨hu, hbefore⟩ := hu
    obtain rfl := Except.ok.inj hbefore
    refine safe_guarded (fun s => ⟨rfl, id⟩) ?_
    have lays : ((opsForPending inner (mergeBatches [] entries) .eager).zoom (sharedPart T)).Gives
        fun ops => Lays inner ops (mergeBatches [] entries) := (gives_opsForItems _).zoom
    have builds : (restagingOnError []
        ((opsForPending inner (mergeBatches [] entries) .eager).zoom (sharedPart T))).Gives
        fun ops => Lays inner ops (mergeBatches [] entries) := by
      unfold restagingOnError
      refine lays.attempt.bind fun r hr => ?_
      cases r with
      | ok ops => exact hr ops rfl
      | error e => exact Prog.Gives.next fun _ => Prog.gives_fail
    refine Prog.Safe.bind _ ((safe_calm (calm_restaging (calm_draws (draws_opsForItems inner _ .eager)))
      hu).gives builds) (fun h ops v _ hv => ?_) (fun _ _ _ _ hv => hv.1)
    obtain ⟨hv, hops⟩ := hv
    refine Prog.Safe.bind _ (safe_restaging_commit hv) (fun h _ v' _ hv' => ?_) (fun _ _ _ _ hv' => hv')
    refine safe_mirror faithful inverts hv' (hops ops rfl) fun ram => ?_
    have follows : FollowsAll inner (mergeBatches [] entries) ram.values
        (entries.foldl mirrorEntry (ram, [])).1.values := followsAll_foldl entries ram [] serialised
    obtain ⟨values, dropped, hframe⟩ := mirrorEntry_frame entries ram []
    refine ⟨follows, fun hstaged => ?_⟩
    show (entries.foldl mirrorEntry (ram, [])).1.res.staged = []
    rw [hframe]
    exact hstaged

end

end

/-! ## Every run -/

/-- A write of an open eager locker, by itself or as a transaction. -/
def Writing {T : Type} (inner : Inner T) (p : Io (Ram T) Unit) : Prop :=
  ∃ c : EagerCall T, c ≠ .flush ∧ c ≠ .close ∧ p = c.prog inner

abbrev MirrorPool (T : Type) := Pool Req Resp Error (Ram T) Unit Tables

/-- Only writes are called, and a landing is mirrored in turn. -/
def MirrorsInTurn {T : Type} (inner : Inner T) (_ : MirrorPool T) (landings : List Landing)
    (l : Move Req Resp Error (Ram T) Unit) (_ : MirrorPool T) : Prop :=
  (∀ p, l = .start p → Writing inner p) ∧ ∀ i, l = .ram i → InTurn inner i landings

section
variable {T : Type} {inner : Inner T}

theorem Writing.safe (faithful : inner.chain.Faithful) (inverts : inner.value.Inverts)
    (immediate : isDeferred inner = false) {p : Io (Ram T) Unit} (hp : Writing inner p) (i : Nat)
    (x : MirrorScene T) : p.Safe (mirroringRules inner) i (InTime inner i)
      (fun h _ y => h ≠ [] → mine i y.record = []) [] x := by
  have weaken {p : Io (Ram T) Unit} (hp : p.Safe (mirroringRules inner) i (InTime inner i)
      (fun _ _ y => mine i y.record = []) [] x) : p.Safe (mirroringRules inner) i (InTime inner i)
      (fun h _ y => h ≠ [] → mine i y.record = []) [] x := hp.mono fun _ _ _ _ hy _ => hy
  obtain ⟨c, notFlush, notClose, rfl⟩ := hp
  cases c with
  | put key value =>
    exact weaken (Prog.Safe.map (safe_put faithful inverts immediate key value))
  | delete key => exact weaken (safe_delete faithful inverts immediate key)
  | clear => exact weaken (safe_clear faithful inverts immediate)
  | transact body => exact weaken (safe_transact faithful inverts body)
  | putAll entries =>
    show Prog.Safe _ _ _ _ (putAll inner entries) [] x
    unfold putAll
    split
    · exact fun y _ _ hne => absurd rfl hne
    · exact weaken (safe_transact faithful inverts _)
  | deleteAll keys =>
    show Prog.Safe _ _ _ _ (deleteAll inner keys) [] x
    unfold deleteAll
    split
    · exact fun y _ _ hne => absurd rfl hne
    · exact weaken (safe_transact faithful inverts _)
  | flush => exact absurd rfl notFlush
  | close => exact absurd rfl notClose

/-- Every landing is that of a call that has moved. -/
def Owned (P : MirrorPool T) (landings : List Landing) : Prop :=
  ∀ e ∈ landings, ∃ t, P.tasks[e.1]? = some t ∧ t.hist ≠ []

theorem owned_of_moved {P P' : MirrorPool T} {landings landings' : List Landing} {i : Nat}
    {t : Task Req Resp Error (Ram T) Unit} {e : Event Req Resp (Ram T)} {rest : Io (Ram T) Unit}
    (owned : Owned P landings) (moved : Pool.Moved P P' i t e rest)
    (from_ : ∀ e ∈ landings', e ∈ landings ∨ e.1 = i) : Owned P' landings' := by
  intro own hown
  by_cases hi : own.1 = i
  · exact ⟨_, hi ▸ moved.after, by simp⟩
  · rcases from_ own hown with hold | hi'
    · rw [moved.others _ hi]
      exact owned own hold
    · exact absurd hi' hi

theorem owned_of_noted {may : MirrorPool T → List Landing → Move Req Resp Error (Ram T) Unit →
      MirrorPool T → Prop} {m : Machine Tables (Ram T)} {P : MirrorPool T} {g : List Landing}
    (run : Pool.Noted Served noteLanding may ⟨m, []⟩ P g) : Owned P g := by
  induction run with
  | start => exact fun e he => absurd he List.not_mem_nil
  | @step P P' g l _ move _ ih =>
    cases move with
    | start p =>
      intro e he
      obtain ⟨t, ht, hmoved⟩ := ih e he
      refine ⟨t, ?_, hmoved⟩
      rw [List.getElem?_append_left (List.getElem?_eq_some_iff.1 ht).1]
      exact ht
    | @ram i t f k at_i rest =>
      have moved := Pool.moved_set at_i { P.machine with mem := f P.machine.mem }
        (.ram P.machine.mem (f P.machine.mem)) (k P.machine.mem)
      refine owned_of_moved ih moved fun e he => .inl ?_
      rw [show (Move.ram i : Move Req Resp Error (Ram T) Unit).mover = some i from rfl,
        moved.noting] at he
      exact List.mem_of_mem_filter he
    | @io i t q d k a m at_i rest answer =>
      have moved := Pool.moved_set at_i m (.io q a) (k a)
      refine owned_of_moved ih moved fun e he => ?_
      rw [show (Move.io i q a : Move Req Resp Error (Ram T) Unit).mover = some i from rfl,
        moved.noting] at he
      unfold noteLanding at he
      split at he
      · rcases List.mem_append.1 he with hold | hnew
        · exact .inl hold
        · exact .inr (by rw [List.mem_singleton.1 hnew])
      · exact .inl (List.mem_of_mem_filter he)
      · exact .inl he

/-- Calls that are safe one by one, and mirror in turn, keep storage ahead of memory by the landings
that are still to be mirrored. `Ok` may be asked of every machine that a step leads to. -/
theorem mirroring_of_noted {may : MirrorPool T → List Landing → Move Req Resp Error (Ram T) Unit →
      MirrorPool T → Prop} {m : Machine Tables (Ram T)} {P : MirrorPool T} {g : List Landing}
    (Ok : Machine Tables (Ram T) → Prop) (run : Pool.Noted Served noteLanding may ⟨m, []⟩ P g)
    (start : Ahead inner m []) (safe : ∀ P g p P', may P g (.start p) P' → ∀ i x,
      p.Safe (mirroringRules inner) i (fun h e x m => InTime inner i h e x m ∧ Ok m)
        (fun h _ y => h ≠ [] → mine i y.record = []) [] x)
    (turn : ∀ P g i P', may P g (.ram i) P' → InTurn inner i g)
    (ok : ∀ P g l P', may P g l P' → Ok P'.machine) :
    Ahead inner P.machine g ∧
      ∀ i t, P.tasks[i]? = some t → t.hist ≠ [] → t.rest.finished = true → mine i g = [] := by
  have kept := Pool.Noted.safe (mirroringSetting inner) (fun _ => mirroringTerms T)
    (fun _ => True) (fun _ i h e x m => InTime inner i h e x m ∧ Ok m)
    (fun _ i h _ y => h ≠ [] → mine i y.record = []) (run.along fun P g => owned_of_noted) start
    (fun P g p P' allowed i y _ => safe P g p P' allowed.1 i y) ?_ ?_
  · obtain ⟨ahead, tasks⟩ := kept
    refine ⟨ahead, fun i t ht hmoved hdone => ?_⟩
    have hsafe := (tasks i t ht).2 ⟨hmoved, .inl trivial⟩
    cases hrest : t.rest with
    | ret a =>
      rw [hrest] at hsafe
      exact hsafe ⟨P.machine, g⟩ rfl ahead hmoved
    | fail er =>
      rw [hrest] at hsafe
      exact hsafe ⟨P.machine, g⟩ rfl ahead hmoved
    | ram | await | stuck =>
      rw [hrest] at hdone
      cases hdone
  · intro P g l P' i t e rest allowed move mover moved
    refine ⟨⟨fun hnil => ?_, fun s s' he => ?_⟩, ok P g l P' allowed.1⟩
    · -- A call that has not moved has landed nothing.
      rw [List.eq_nil_iff_forall_not_mem]
      intro own hown
      obtain ⟨hmem, hi⟩ := List.mem_filter.1 hown
      obtain ⟨t', ht', hmoved⟩ := allowed.2 own hmem
      rw [of_decide_eq_true hi, moved.before] at ht'
      obtain rfl := Option.some.inj ht'
      exact hmoved hnil
    · rcases moved.cases move mover with ⟨f, k, rfl, -⟩ | ⟨q, d, k, a, -, -, hio, -⟩
      · exact turn P g i P' allowed.1
      · rw [he] at hio
        cases hio
  · intro P g l P' i t e rest j t' _ _ _ _ hj _ _ _ _
    exact mine_noteLanding_other hj e P.machine P'.machine

/-- Memory and storage agree when an immediate locker is opened. -/
theorem ahead_opened (immediate : isDeferred inner = false) {m m' : Machine Tables Shared}
    {values : Std.ExtTreeMap Bytes T compare} {res : Resident}
    (opened : Run Served (openLocker inner) m (.ok (values, res)) m') :
    Ahead inner ⟨m'.dev, .opened m'.mem res values⟩ [] := by
  have mirrors := mirrors_opened opened
  have staged := mirrors.immediate rfl immediate
  refine ⟨staged, fun key w hw => (by cases hw), fun key _ => ?_⟩
  have hkey := mirrors.mirrored rfl key
  rwa [staged] at hkey

/-- Memory is storage whenever no call is in flight, where every landing was mirrored in turn and
every value can be decoded again. -/
theorem held_eq_decoded (faithful : inner.chain.Faithful) (opens : inner.chain.Inverts)
    (inverts : inner.value.Inverts) (immediate : isDeferred inner = false)
    {m m' : Machine Tables Shared} {values : Std.ExtTreeMap Bytes T compare} {res : Resident}
    (opened : Run Served (openLocker inner) m (.ok (values, res)) m') {P : MirrorPool T}
    {g : List Landing} (run : Pool.Noted Served noteLanding (MirrorsInTurn inner)
      ⟨⟨m'.dev, .opened m'.mem res values⟩, []⟩ P g)
    (idle : ∀ t ∈ P.tasks, t.rest.finished = true) (within : WithinLimit inner P.machine.mem)
    (key : Bytes) : P.machine.mem.values[key]? = inner.decoded P.machine.dev key := by
  obtain ⟨ahead, ends⟩ := mirroring_of_noted (fun _ => True) run (ahead_opened immediate opened)
    (fun P g p P' allowed i x => ((allowed.1 p rfl).safe faithful inverts immediate i x).fewer
      fun _ _ _ _ h => h.1)
    (fun P g i P' allowed => allowed.2 i rfl) (fun _ _ _ _ _ => trivial)
  have none_left : g = [] := by
    rw [List.eq_nil_iff_forall_not_mem]
    intro e he
    obtain ⟨t, ht, hmoved⟩ := owned_of_noted run e he
    have gone := ends e.1 t ht hmoved (idle t (List.mem_of_getElem? ht))
    have hmem : e ∈ mine e.1 g := List.mem_filter.2 ⟨he, by simp⟩
    rw [gone] at hmem
    cases hmem
  rw [none_left] at ahead
  rw [(ahead.mirrored key rfl).eq_replayed inverts opens (within key), replayed_nil]

end

/-! ## In turn, and out of it -/

theorem opened_plain : Run Served (openLocker Inner.plain) ⟨.empty, Shared.fresh⟩
    (.ok (∅, .new .eager none none)) ⟨.empty, Shared.fresh⟩ := by
  have h : (openLocker Inner.plain : Io Shared _).eval (serve 0) ⟨.empty, Shared.fresh⟩ =
      some (.ok (∅, .new .eager none none), ⟨.empty, Shared.fresh⟩) := by rfl
  exact Prog.eval_run (serve_sound 0) h

abbrev MirrorChoice := Pool.Choice Req Resp Error (Ram Bytes) Unit

def putOne (value : UInt8) : Io (Ram Bytes) Unit := (EagerCall.put [1] [value]).prog Inner.plain

theorem writing_putOne (value : UInt8) : Writing Inner.plain (putOne value) :=
  ⟨.put [1] [value], by simp, by simp, rfl⟩

def twoPuts : List MirrorChoice :=
  [.start (putOne 7), .start (putOne 8), .run 0, .answer 0 0, .run 0, .run 0, .run 0, .run 1,
    .answer 1 0, .run 1, .run 1, .run 1]

/-- The first put lands first, and mirrors last. -/
def crossedPuts : List MirrorChoice :=
  [.start (putOne 7), .start (putOne 8), .run 0, .run 1, .answer 0 0, .answer 1 0, .run 1, .run 1,
    .run 1, .run 0, .run 0, .run 0]

/-- What a run of puts under one key leaves: whether every call has ended, what memory holds, and
what is stored. -/
def putsLeave (check : MirrorPool Bytes → List Landing → MirrorPool Bytes → Bool)
    (choices : List MirrorChoice) : Option (Bool × List (Bytes × Bytes) × Option Bytes) :=
  (Pool.execNoting serve noteLanding check choices (⟨openedEager, []⟩, [])).map fun Pg =>
    (Pg.1.tasks.all fun t => t.rest.finished, Pg.1.machine.mem.values.toList,
      Pg.1.machine.dev.lookup .records (Inner.plain.encodeKey [1]))

/-- A value of one byte is within the limit. -/
theorem withinLimit_of_toList {ram : Ram Bytes}
    (h : ram.values.toList.all (fun e => e.2.length = 1) = true) : WithinLimit Inner.plain ram := by
  intro key v payload hv hpayload
  have hmem : (key, v) ∈ ram.values.toList := Std.ExtTreeMap.mem_toList_iff_getElem?_eq_some.2 hv
  obtain ⟨byte, rfl⟩ := List.length_eq_one_iff.1 (of_decide_eq_true (List.all_eq_true.1 h _ hmem))
  have hone : Inner.plain.value.payload [byte] = .ok [1, byte] := rfl
  rw [hone] at hpayload
  rw [← Except.ok.inj hpayload]
  show 2 ≤ 256 * 1024 * 1024
  omega

/-- Two puts under one key, each mirrored before the other lands. -/
theorem held_eq_decoded_two_puts : ∃ P : MirrorPool Bytes,
    P.machine.mem.values.toList = [([1], [8])] ∧
    ∀ key, P.machine.mem.values[key]? = Inner.plain.decoded P.machine.dev key := by
  have hleave : putsLeave (fun _ g _ => g.length ≤ 1) twoPuts =
      some (true, [([1], [8])], some (header 0 ++ [1, 8])) := by decide
  obtain ⟨Pg, hexec, heq⟩ := Option.map_eq_some_iff.1 hleave
  obtain ⟨hidle, hrest⟩ := Prod.mk.inj heq
  obtain ⟨hvalues, -⟩ := Prod.mk.inj hrest
  have run : Pool.Noted Served noteLanding (MirrorsInTurn Inner.plain)
      ⟨⟨.empty, .opened .fresh (.new .eager none none) ∅⟩, []⟩ Pg.1 Pg.2 := by
    refine Pool.Noted.exec serve_sound .start (fun P g l P' _ hl hcheck => ⟨fun p hp => ?_, ?_⟩) hexec
    · have hmem : p = putOne 7 ∨ p = putOne 8 := by simpa [twoPuts] using hl p hp
      rcases hmem with rfl | rfl
      · exact writing_putOne 7
      · exact writing_putOne 8
    · -- With one landing at most, none is before it.
      intro i _ before ops after hg other hother
      have hlen : g.length ≤ 1 := of_decide_eq_true hcheck
      rw [hg, List.length_append, List.length_cons] at hlen
      have hpos := List.length_pos_of_mem hother
      omega
  exact ⟨Pg.1, hvalues, held_eq_decoded (FilterChain.Faithful.of_filters (by simp [Inner.plain, FilterChain.raw]))
    (FilterChain.Inverts.of_filters (by simp [Inner.plain, FilterChain.raw])) Postcard.vecU8_inverts rfl
    opened_plain run (fun t ht => List.all_eq_true.1 hidle t ht) (withinLimit_of_toList (by rw [hvalues]; rfl))⟩

/-- Memory holds the first of two puts, and the store the second. -/
theorem held_ne_decoded : ¬ ∀ (P : MirrorPool Bytes) (g : List Landing),
    Pool.Noted Served noteLanding (fun _ _ l _ => ∀ p, l = .start p → Writing Inner.plain p)
      ⟨openedEager, []⟩ P g →
    (∀ t ∈ P.tasks, t.rest.finished = true) → WithinLimit Inner.plain P.machine.mem →
    ∀ key, P.machine.mem.values[key]? = Inner.plain.decoded P.machine.dev key := by
  intro all
  have hleave : putsLeave (fun _ _ _ => true) crossedPuts =
      some (true, [([1], [7])], some (header 0 ++ [1, 8])) := by decide
  obtain ⟨Pg, hexec, heq⟩ := Option.map_eq_some_iff.1 hleave
  obtain ⟨hidle, hrest⟩ := Prod.mk.inj heq
  obtain ⟨hvalues, hstored⟩ := Prod.mk.inj hrest
  have run : Pool.Noted Served noteLanding
      (fun _ _ l _ => ∀ p, l = .start p → Writing Inner.plain p) ⟨openedEager, []⟩ Pg.1 Pg.2 := by
    refine Pool.Noted.exec serve_sound .start (fun P g l P' _ hl _ p hp => ?_) hexec
    have hmem : p = putOne 7 ∨ p = putOne 8 := by simpa [crossedPuts] using hl p hp
    rcases hmem with rfl | rfl
    · exact writing_putOne 7
    · exact writing_putOne 8
  have held := all Pg.1 Pg.2 run (fun t ht => List.all_eq_true.1 hidle t ht)
    (withinLimit_of_toList (by rw [hvalues]; rfl)) [1]
  have hseven : Pg.1.machine.mem.values[([1] : Bytes)]? = some [7] := by
    rw [← Std.ExtTreeMap.mem_toList_iff_getElem?_eq_some, hvalues]
    exact List.mem_cons_self
  have height : Inner.plain.decoded Pg.1.machine.dev [1] = some [8] := by
    rw [Inner.decoded, hstored]
    decide
  rw [hseven, height] at held
  exact absurd (Option.some.inj held) (by decide)

end EagerLocker
end Crossbank
