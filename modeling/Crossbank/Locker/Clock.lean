import Crossbank.Async.Stamps
import Crossbank.Locker.Lru
import Crossbank.Locker.Reads

/-!
# The clock of the byte budgets

The evictable lockers of a bank order their keys by the ticks of one `Ticks`, whose cursor is seeded
by the first allocation and raised by every load.

* `Ticks.least` : the least tick that may still be issued;
* `allocate_leaves`, `loadLru_leaves` : an allocation issues a tick from there on, and a load raises
  it above the rows it has read;
* `TickCall` : the calls that lockers make of the clock;
* `ticks_grow` : the ticks of a session are issued in increasing order, each above the rows loaded
  before it.
-/

namespace Crossbank
open Async

namespace Ticks

/-- The least tick that may still be issued. -/
def least (t : Ticks) : Nat := max (t.next.getD 0).toNat t.floor.toNat

theorem advance_eq_ok {tick next : UInt64} (h : advance tick = .ok next) :
    next.toNat = tick.toNat + 1 := by
  unfold advance at h
  split at h
  · next hsucc =>
    obtain rfl := Except.ok.inj h
    exact checkedSucc_eq_some hsucc
  · cases h

theorem least_of_next {t : Ticks} {next : UInt64} :
    least { t with next := some next } = max next.toNat t.floor.toNat := rfl

theorem least_le_of_cursor {t : Ticks} {stored : Option UInt64} {tick : UInt64}
    (h : t.cursor stored = some tick) : t.least ≤ tick.toNat := by
  obtain ⟨next, floor⟩ := t
  cases next with
  | none =>
    cases stored with
    | none => cases h
    | some stored =>
      obtain rfl := Option.some.inj h
      rw [UInt64.toNat_max]
      exact max_le_max (Nat.zero_le _) (le_refl _)
  | some current =>
    cases stored with
    | none =>
      obtain rfl := Option.some.inj h
      rw [UInt64.toNat_max]
      exact le_refl _
    | some stored =>
      obtain rfl := Option.some.inj h
      rw [UInt64.toNat_max, UInt64.toNat_max]
      exact max_le_max (le_max_left _ _) (le_refl _)

theorem cursor_some (t : Ticks) (stored : UInt64) :
    ∃ tick, t.cursor (some stored) = some tick := by
  obtain ⟨next, floor⟩ := t
  cases next with
  | none => exact ⟨_, rfl⟩
  | some current => exact ⟨_, rfl⟩

theorem least_of_issued {t : Ticks} {stored : Option UInt64} {tick next : UInt64}
    (h : t.cursor stored = some tick) (hnext : advance tick = .ok next) :
    t.least ≤ tick.toNat ∧ least { t with next := some next } = tick.toNat + 1 := by
  have from_least := least_le_of_cursor h
  have floor : t.floor.toNat ≤ t.least := le_max_right _ _
  refine ⟨from_least, ?_⟩
  rw [least_of_next, advance_eq_ok hnext]
  omega

/-- A tick is issued from where the clock stands, and the clock moves just past it. -/
def Issued (s s' : Shared) (tick : UInt64) : Prop :=
  s.ticks.least ≤ tick.toNat ∧ s'.ticks.least = tick.toNat + 1

theorem Issued.le {s s' : Shared} {tick : UInt64} (h : Issued s s' tick) :
    s.ticks.least ≤ s'.ticks.least := by
  obtain ⟨le, eq⟩ := h
  omega

theorem take_spec (s : Shared) : s.ticks.least ≤ (take s).2.ticks.least ∧
    ∀ tick, (take s).1 = .ok (some tick) → Issued s (take s).2 tick := by
  unfold take
  cases hc : s.ticks.cursor none with
  | none => exact ⟨le_refl _, fun tick h => by cases h⟩
  | some tick =>
    dsimp only
    cases hnext : advance tick with
    | error e => exact ⟨le_refl _, fun tick h => by cases h⟩
    | ok next =>
      have issued : Issued s { s with ticks := { s.ticks with next := some next } } tick :=
        least_of_issued hc hnext
      refine ⟨issued.le, fun tick' h => ?_⟩
      obtain rfl := Option.some.inj (Except.ok.inj h)
      exact issued

theorem seedAndTake_spec (stored : UInt64) (s : Shared) :
    s.ticks.least ≤ (seedAndTake stored s).2.ticks.least ∧
      ∀ tick, (seedAndTake stored s).1 = .ok tick → Issued s (seedAndTake stored s).2 tick := by
  obtain ⟨tick, hc⟩ := cursor_some s.ticks stored
  unfold seedAndTake
  rw [hc]
  dsimp only [Option.getD_some]
  cases hnext : advance tick with
  | error e => exact ⟨le_refl _, fun tick h => by cases h⟩
  | ok next =>
    have issued : Issued s { s with ticks := { s.ticks with next := some next } } tick :=
      least_of_issued hc hnext
    refine ⟨issued.le, fun tick' h => ?_⟩
    obtain rfl := Except.ok.inj h
    exact issued

theorem least_observeRecorded {maxSeen : UInt64} {s : Shared}
    (h : (observeRecorded maxSeen s).1 = .ok ()) :
    (observeRecorded maxSeen s).2.ticks.least = max s.ticks.least (maxSeen.toNat + 1) := by
  unfold observeRecorded at h ⊢
  cases hnext : advance maxSeen with
  | error e =>
    rw [hnext] at h
    cases h
  | ok atLeast =>
    have past := advance_eq_ok hnext
    obtain ⟨values, next, floor⟩ := s
    cases next with
    | none =>
      simp only [least, Option.map_none, Option.getD_none, UInt64.toNat_max]
      omega
    | some current =>
      simp only [least, Option.map_some, Option.getD_some, UInt64.toNat_max]
      omega

theorem observeRecorded_spec (maxSeen : UInt64) (s : Shared) :
    s.ticks.least ≤ (observeRecorded maxSeen s).2.ticks.least ∧
      ((observeRecorded maxSeen s).1 = .ok () →
        maxSeen.toNat < (observeRecorded maxSeen s).2.ticks.least) := by
  cases hobserve : (observeRecorded maxSeen s).1 with
  | error e =>
    have same : (observeRecorded maxSeen s).2 = s := by
      unfold observeRecorded at hobserve ⊢
      split at hobserve
      · rfl
      · cases hobserve
    rw [same]
    exact ⟨le_refl _, fun h => by cases h⟩
  | ok done =>
    rw [least_observeRecorded hobserve]
    exact ⟨le_max_left _ _, fun _ => by omega⟩

theorem allocate_run {m m' : Machine Tables Shared} {tick : UInt64}
    (h : Run Served allocate m (.ok tick) m') : Issued m.mem m'.mem tick ∧ m'.dev = m.dev := by
  obtain ⟨taken, m₁, htake, h₁⟩ := run_bind_ok.1 h
  obtain ⟨htaken, rfl⟩ := run_sync.1 htake
  cases taken with
  | some tick' =>
    obtain ⟨htick, rfl⟩ := run_pure.1 h₁
    obtain rfl := Except.ok.inj htick
    exact ⟨(take_spec m.mem).2 _ htaken.symm, rfl⟩
  | none =>
    have same : (take m.mem).2 = m.mem := by
      unfold take at htaken ⊢
      cases hc : m.mem.ticks.cursor none with
      | none => rfl
      | some tick' =>
        rw [hc] at htaken
        dsimp only at htaken
        split at htaken <;> cases htaken
    rw [same] at h₁
    obtain ⟨raw, m₂, hget, h₂⟩ := run_bind_ok.1 h₁
    obtain ⟨rfl, -⟩ := run_get.1 hget
    obtain ⟨stored, m₃, hstored, h₃⟩ := run_bind_ok.1 h₂
    obtain ⟨-, rfl⟩ := run_ofExcept.1 hstored
    obtain ⟨htick, rfl⟩ := run_sync.1 h₃
    exact ⟨(seedAndTake_spec stored m.mem).2 _ htick.symm, rfl⟩

end Ticks

/-! ## Replies -/

/-- What a call on the clock replies: the tick it was issued, the rows it has loaded, or that it has
landed. -/
inductive TickReply where
  | tick (n : UInt64)
  | rows (state : LruState)
  | landed
  deriving DecidableEq

/-- The tick that was issued, and the ticks of the rows that were loaded. -/
def TickReply.clock : Clock Shared TickReply Nat where
  level s := s.ticks.least
  drawn
    | .tick n => some n.toNat
    | _ => none
  found
    | .rows state, n => ∃ (key : Bytes) (entry : Entry), state.entries[key]? = some entry ∧
        entry.tick.toNat = n
    | _, _ => False

open TickReply (clock)

variable {last : Shared → Shared → Prop}

theorem allocate_leaves :
    (TickReply.tick <$> Ticks.allocate).Leaves clock.Forward clock.Marks last := by
  refine Prog.Leaves.map fun s => ⟨(Ticks.take_spec s).1, ?_⟩
  have issued := (Ticks.take_spec s).2
  dsimp only
  cases htake : (Ticks.take s).1 with
  | error e => trivial
  | ok taken =>
    cases taken with
    | some tick =>
      rintro t t' ⟨rfl, rfl⟩
      refine ⟨fun x hx => ?_, fun x hx => hx.elim⟩
      obtain rfl := Option.some.inj hx
      obtain ⟨le, eq⟩ := issued tick htake
      exact ⟨le, show tick.toNat < (Ticks.take t).2.ticks.least by omega⟩
    | none =>
      have reads : Prog.Only (Q := Req) (A := Resp) (ε := Error) (fun _ => True) clock.Forward
          (Backend.get .meta META_NEXT_TICK : Io Shared (Option Bytes)) :=
        Prog.Only.mono (reads_get (ρ := Shared)) (fun _ _ => trivial) fun _ _ h => h.elim
      refine reads.leaves_bind Prog.gives_any fun raw _ last => ?_
      refine Prog.only_ofExcept.leaves_bind (P := fun _ => True) Prog.gives_any fun stored _ last => ?_
      refine Prog.leaves_sync (fun s => (Ticks.seedAndTake_spec stored s).1) fun s tick h => ?_
      refine ⟨fun x hx => ?_, fun x hx => hx.elim⟩
      obtain rfl := Option.some.inj hx
      obtain ⟨le, eq⟩ := (Ticks.seedAndTake_spec stored s).2 tick h
      exact ⟨le, show tick.toNat < (Ticks.seedAndTake stored s).2.ticks.least by omega⟩

/-! ## Loads -/

/-- No row that was read carries a tick above the highest one seen. -/
def Seen (acc : LruState × Option UInt64) : Prop :=
  ∀ (key : Bytes) (entry : Entry), acc.1.entries[key]? = some entry → ∃ most, acc.2 = some most ∧ entry.tick ≤ most

theorem seen_loadPage {p : Bytes} {items : List (Bytes × Option Bytes)}
    {acc : LruState × Option UInt64} (seen : Seen acc) : Seen (loadPage p items acc) := by
  unfold loadPage
  induction items generalizing acc with
  | nil => exact seen
  | cons item rest ih =>
    rw [List.foldl_cons]
    refine ih ?_
    obtain ⟨state, maxTick⟩ := acc
    obtain ⟨metaKey, value⟩ := item
    dsimp only
    split
    · next key entry _ _ =>
      intro key' entry' h
      dsimp only at h
      rw [Std.ExtTreeMap.getElem?_insert] at h
      by_cases same : compare key key' = .eq
      · rw [if_pos same] at h
        obtain rfl := Option.some.inj h
        cases maxTick with
        | none => exact ⟨_, rfl, UInt64.le_iff_toNat_le.2 (le_refl _)⟩
        | some most =>
          refine ⟨_, rfl, ?_⟩
          rw [UInt64.le_iff_toNat_le, UInt64.toNat_max]
          exact le_max_right _ _
      · rw [if_neg same] at h
        obtain ⟨most, hmost, le⟩ := seen key' entry' h
        dsimp only at hmost
        subst hmost
        refine ⟨_, rfl, ?_⟩
        rw [UInt64.le_iff_toNat_le] at le ⊢
        rw [UInt64.toNat_max]
        exact le.trans (le_max_left _ _)
    · exact seen

theorem loadPages_gives (p : Bytes) (fuel : Nat) (range : KeyRange)
    {acc : LruState × Option UInt64} (seen : Seen acc) : (loadPages p fuel range acc).Gives Seen := by
  induction fuel generalizing range acc with
  | zero => trivial
  | succ fuel ih =>
    unfold loadPages
    refine Prog.Gives.next fun page => ?_
    have now : Seen (loadPage p page.items acc) := seen_loadPage seen
    cases page.resume with
    | some last => exact ih _ now
    | none => exact now

theorem loadPages_reads (p : Bytes) (fuel : Nat) (range : KeyRange)
    (acc : LruState × Option UInt64) : Reads (loadPages p fuel range acc) := by
  induction fuel generalizing range acc with
  | zero => exact reads_stuck
  | succ fuel ih =>
    unfold loadPages
    apply reads_scan.bind
    intro page
    cases page.resume with
    | some last => exact ih _ _
    | none => exact reads_pure

/-- Loaded rows are behind the clock. -/
theorem loadLru_leaves (backend : Backend) (id : LockerId) (maxBytes : Nat) :
    (TickReply.rows <$> loadLru backend id maxBytes).Leaves clock.Forward clock.Marks last := by
  refine Prog.Leaves.map ?_
  have none_seen : Seen (LruState.new maxBytes, none) := fun key entry h => by simp [LruState.new] at h
  have reads : (loadPages (lockerPrefix id) backend.walkFuel (.ofPrefix (lockerPrefix id))
      (.new maxBytes, none)).Only (fun _ => True) clock.Forward :=
    (loadPages_reads _ _ _ _).mono (fun _ _ => trivial) fun _ _ h => h.elim
  refine reads.leaves_bind (loadPages_gives _ _ _ none_seen) fun loaded seen last => ?_
  obtain ⟨state, maxTick⟩ := loaded
  cases maxTick with
  | none =>
    refine fun s s' _ => ⟨fun x hx => (by cases hx), ?_⟩
    rintro x ⟨key, entry, hentry, -⟩
    obtain ⟨most, hmost, -⟩ := seen key entry hentry
    cases hmost
  | some most =>
    intro s
    refine ⟨(Ticks.observeRecorded_spec most s).1, ?_⟩
    have past := (Ticks.observeRecorded_spec most s).2
    dsimp only
    cases hobserve : (Ticks.observeRecorded most s).1 with
    | error e => trivial
    | ok done =>
      rintro t t' ⟨rfl, rfl⟩
      refine ⟨fun x hx => (by cases hx), ?_⟩
      rintro x ⟨key, entry, hentry, rfl⟩
      obtain ⟨most', hmost, le⟩ := seen key entry hentry
      obtain rfl := Option.some.inj hmost
      exact (UInt64.le_iff_toNat_le.1 le).trans_lt (past hobserve)

/-! ## Sessions -/

/-- A call that lockers make of the clock: to issue a tick, to load the rows of a locker, and to
commit rows with the counter among other operations. -/
inductive TickCall where
  | allocate
  | load (id : LockerId) (maxBytes : Nat)
  | commit (id : LockerId) (rows : List (Bytes × Entry)) (more : List Op)

def TickCall.prog (backend : Backend) : TickCall → Io Shared TickReply
  | .allocate => .tick <$> Ticks.allocate
  | .load id maxBytes => .rows <$> loadLru backend id maxBytes
  | .commit id rows more => do
    let counter ← Prog.read Ticks.counterOp
    Backend.commit (more ++ rows.map (fun row => Lru.putOp id row.1 row.2) ++ [counter])
    pure .landed

theorem TickCall.leaves (backend : Backend) (call : TickCall) :
    (call.prog backend).Leaves clock.Forward clock.Marks last := by
  cases call with
  | allocate => exact allocate_leaves
  | load id maxBytes => exact loadLru_leaves backend id maxBytes
  | commit id rows more =>
    have reads : (Prog.read Ticks.counterOp : Io Shared Op).Only (fun _ => True) clock.Forward :=
      Prog.only_read.2 fun _ => le_refl _
    refine reads.leaves_bind Prog.gives_any fun counter _ last => ?_
    refine Prog.Only.leaves_bind (P := fun _ => True) (Prog.Only.bind ?_ fun _ => ?_)
      Prog.gives_any fun _ _ last => ?_
    · exact Prog.only_ask.2 trivial
    · exact Prog.only_ofExcept
    · exact fun s s' _ => ⟨fun x hx => (by cases hx), fun x hx => hx.elim⟩

abbrev TickPool := Pool Req Resp Error Shared TickReply Tables

/-- The calls of a session are the calls of lockers. -/
def TickCall.Only (backend : Backend) (_ : TickPool) (l : Move Req Resp Error Shared TickReply) : Prop :=
  ∀ p, l = .start p → ∃ call : TickCall, p = call.prog backend

theorem still_served : Pool.Still (Served : (q : Req) → Machine Tables Shared → _) := by
  intro q m x m' h
  cases q with
  | get | getMany | scan => rw [h.1]
  | commit ops options =>
    rcases h with ⟨-, rfl⟩ | ⟨e, -, rfl⟩
    · rfl
    · rfl
  | flush | idle => rw [h]
  | lock =>
    obtain ⟨s, hs, -⟩ := h
    cases hs

/-- Ticks only grow. In a session on any store, no tick is issued twice, and one that is issued
after others were issued and rows were loaded is greater than all of those and than every tick in
the rows. -/
theorem ticks_grow (backend : Backend) (db : Tables) (cursor : Shared) (P P' : TickPool)
    (before : Pool.Reach Served (TickCall.Only backend) ⟨⟨db, cursor⟩, []⟩ P)
    (after : Pool.Reach Served (TickCall.Only backend) P P') :
    (∀ i j a b, i ≠ j → P'.Returned i (.tick a) → P'.Returned j (.tick b) → a ≠ b) ∧
      ∀ j b, (∀ c, ¬ P.Returned j c) → P'.Returned j (.tick b) →
        (∀ i a, P.Returned i (.tick a) → a < b) ∧
          ∀ i state (key : Bytes) (entry : Entry), P.Returned i (.rows state) →
            state.entries[key]? = some entry → entry.tick < b := by
  have starts (Q : TickPool) l (h : TickCall.Only backend Q l) : clock.Starts Q l := by
    intro p hp
    obtain ⟨call, rfl⟩ := h p hp
    exact call.leaves backend
  have past := Clock.past_of_idle.run still_served (before.mono starts)
  constructor
  · intro i j a b different hi hj same
    exact (past.run still_served (after.mono starts)).distinct i j _ _ _ _ different hi hj rfl rfl
      (congrArg UInt64.toNat same)
  · intro j b later hj
    constructor
    · intro i a hi
      exact UInt64.lt_iff_toNat_lt.2
        (past.ordered still_served (after.mono starts) hi (.inl rfl) later hj rfl)
    · intro i state key entry hi hentry
      exact UInt64.lt_iff_toNat_lt.2 (past.ordered still_served (after.mono starts) hi
        (.inr ⟨key, entry, hentry, rfl⟩) later hj rfl)

def smallPages : Backend := ⟨16, 4, by decide⟩

/-- A store whose only row is that of `"k"` in the locker `0`, last used at tick `7`. -/
def usedAtSeven : Tables := Tables.empty.commit [Lru.putOp 0 (ascii "k") ⟨7, 40⟩]

def loadsRows : List (Pool.Choice Req Resp Error Shared TickReply) :=
  [.start (TickCall.prog smallPages (.load 0 100)), .answer 0 0, .run 0]

/-- A tick is issued, once the stored counter has been read. -/
def issuesTick : List (Pool.Choice Req Resp Error Shared TickReply) :=
  [.start (TickCall.prog smallPages .allocate), .run 1, .answer 1 0, .run 1]

/-- The tick issued after that load is past the stored row. -/
theorem ticks_grow_usedAtSeven : ∃ (P P' : TickPool) (state : LruState),
    P.Returned 0 (.rows state) ∧ state.entries[ascii "k"]? = some ⟨7, 40⟩ ∧
      P'.Returned 1 (.tick 8) ∧ (7 : UInt64) < 8 := by
  obtain ⟨P, hP⟩ : ∃ P, Pool.exec serve loadsRows ⟨⟨usedAtSeven, Shared.fresh⟩, []⟩ = some P :=
    Option.isSome_iff_exists.1 (by decide)
  have loaded : (Pool.exec serve loadsRows ⟨⟨usedAtSeven, Shared.fresh⟩, []⟩).bind (Pool.reply · 0) =
      some (.rows ⟨100, .ofList [(ascii "k", ⟨7, 40⟩)] compare, 40, ∅, false⟩) := by decide +kernel
  have notYet : ((Pool.exec serve loadsRows ⟨⟨usedAtSeven, Shared.fresh⟩, []⟩).map
      (Pool.reply · 1)) = some none := by decide
  obtain ⟨P', hP'⟩ : ∃ P', ((Pool.exec serve loadsRows ⟨⟨usedAtSeven, Shared.fresh⟩, []⟩).bind
      (Pool.exec serve issuesTick)) = some P' :=
    Option.isSome_iff_exists.1 (by decide)
  have issued : ((Pool.exec serve loadsRows ⟨⟨usedAtSeven, Shared.fresh⟩, []⟩).bind
      (Pool.exec serve issuesTick)).bind (Pool.reply · 1) = some (.tick 8) := by decide
  rw [hP'] at issued
  rw [hP] at loaded notYet hP'
  have rows := Pool.returned_iff_reply.2 loaded
  have ticked := Pool.returned_iff_reply.2 issued
  have before : Pool.Reach Served (TickCall.Only smallPages) _ P :=
    Pool.exec_reach serve_sound (fun p hp => ⟨_, by simpa [loadsRows] using hp⟩) hP
  have after : Pool.Reach Served (TickCall.Only smallPages) P P' :=
    Pool.exec_reach serve_sound (fun p hp => ⟨_, by simpa [issuesTick] using hp⟩) hP'
  have later (c : TickReply) : ¬ P.Returned 1 c := by
    intro h
    have none_yet : P.reply 1 = none := Option.some.inj notYet
    rw [Pool.returned_iff_reply, none_yet] at h
    cases h
  have row : (Std.ExtTreeMap.ofList [(ascii "k", (⟨7, 40⟩ : Entry))] compare)[ascii "k"]? =
      some ⟨7, 40⟩ := by decide
  exact ⟨P, P', _, rows, row, ticked,
    ((ticks_grow _ _ _ P P' before after).2 1 8 later ticked).2 0 _ _ _ rows row⟩

end Crossbank
