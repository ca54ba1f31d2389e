import Crossbank.Async.Replica
import Crossbank.Coherence.News
import Crossbank.Locker.Eager

/-!
# One locker open in several tabs

* `Epochs`, `Epochs.noteCommit` : what a locker keeps of its own commits and of what it has absorbed;
* `Tab`, `Tab.prepare` : a locker of one tab, and the news of a commit before it is sent;
* `TabCommit`, `LockerCalls`, `LockerCalls.protocol` : the commits of a locker's calls, and the tabs
  that make them;
* `Announcement.tells` : the keys that news speaks of; `honest_protocol` : its commit wrote them.
-/

namespace Crossbank
open Async

/-- How many locally-written keys one locker remembers an epoch for. -/
def EPOCH_MEMORY : Nat := 4096

/-- The epoch of the tab's own last commit on each key, and the highest that it has absorbed. -/
structure Epochs where
  own : Std.ExtTreeMap Bytes UInt64 compare
  applied : UInt64
  deriving DecidableEq

namespace Epochs

def fresh : Epochs := ⟨∅, 0⟩

/-- Record that this tab committed the keys. Past `EPOCH_MEMORY` keys, all are dropped. -/
def noteLocal (keys : List Bytes) (epoch : UInt64) (e : Epochs) : Epochs :=
  let own := keys.foldl (fun own key => own.insert key epoch) e.own
  { e with own := if own.size > EPOCH_MEMORY then ∅ else own }

def noteApplied (epoch : UInt64) (e : Epochs) : Epochs := { e with applied := max e.applied epoch }

def forgetLocal (e : Epochs) : Epochs := { e with own := ∅ }

/-- What a commit that has landed notes, before its news is posted. -/
def noteCommit (news : Option Announcement) (e : Epochs) : Epochs :=
  match news with
  | none => e
  | some news =>
    let e := e.noteLocal (news.changes.map Change.key) news.epoch
    if news.cleared then e.forgetLocal else e

end Epochs

/-- A locker open in one tab: what it keeps in memory, its epochs, and the tab's name and counter. -/
structure Tab (T : Type) where
  ram : Ram T
  epochs : Epochs
  instanceId : UInt32
  epoch : UInt64

/-- Work out what a commit is about to say. The counter moves whatever it says. -/
def Tab.prepare {T : Type} (locker : LockerId) (ops : List Op) (tab : Tab T) :
    Option Announcement × Tab T :=
  let epoch := tab.epoch + 1
  (announcementFromOps tab.instanceId locker epoch ops, { tab with epoch := epoch })

/-- A commit of a call: its mutations, and the news that is posted when they have landed. -/
structure TabCommit (C : Type) where
  call : C
  ops : List Op
  news : Option Announcement

/-- The calls `C` of a locker: what it may do in memory alone, the commits it may send while others
are under way, and what memory becomes when one is sent, fails, or has landed. -/
structure LockerCalls (T C : Type) where
  inner : Inner T
  alone : Ram T → (C → Prop) → Ram T → Prop
  may : Ram T → (C → Prop) → C → List Op → Prop
  send : C → Ram T → Ram T
  fail : C → Ram T → Ram T
  settle : C → Ram T → Ram T
  sink : Announcement → Tab T → Tab T
  opens : Tables → Ram T → Prop

def Announcement.tells (a : Announcement) (key : Bytes) : Bool :=
  a.cleared || ((⟨a.cleared, a.changes⟩ : News).last key).isSome

section
variable {T C : Type} (L : LockerCalls T C)

def underWay (flights : Nat → Option (Flight (TabCommit C))) (call : C) : Prop :=
  ∃ n flight, flights n = some flight ∧ flight.commit.call = call

/-- The tabs. A commit of another locker of the tab's bank moves the counter too. A tab does not hear
itself, and one that starts over counts from zero, and opens in one act: one that opens in several is
`Protocol.stepwise`'s. -/
def LockerCalls.protocol : Protocol Bytes Tables (Tab T) (TabCommit C) Announcement where
  alone _ tab flights tab' := tab' = { tab with epoch := tab.epoch + 1 } ∨
    ∃ ram, L.alone tab.ram (underWay flights) ram ∧ tab' = { tab with ram := ram }
  may tab flights commit := L.may tab.ram (underWay flights) commit.call commit.ops ∧
    (∀ op ∈ commit.ops, op.OfLockers) ∧ commit.news = (tab.prepare L.inner.id commit.ops).1
  send commit tab :=
    { (tab.prepare L.inner.id commit.ops).2 with ram := L.send commit.call tab.ram }
  land commit db := db.commit commit.ops
  writes commit key := (written commit.ops .records (L.inner.encodeKey key)).isSome
  fail commit tab := { tab with ram := L.fail commit.call tab.ram }
  settle commit tab :=
    { tab with epochs := tab.epochs.noteCommit commit.news, ram := L.settle commit.call tab.ram }
  news commit := commit.news
  hear a tab := if a.instanceId = tab.instanceId then tab else L.sink a tab
  opens db tab := L.opens db tab.ram ∧ tab.epochs = .fresh ∧ tab.epoch = 0

variable {L} {tab : Tab T} {flights : Nat → Option (Flight (TabCommit C))} {commit : TabCommit C}
  {a : Announcement}

/-- What the news of a commit says of a key. -/
theorem tells_of_may (may : L.protocol.may tab flights commit) (news : commit.news = some a)
    (key : Bytes) : (⟨a.cleared, a.changes⟩ : News).Tells key
      (written commit.ops .records (L.inner.encodeKey key)) := by
  obtain ⟨-, built, hnews⟩ := may
  rw [hnews] at news
  rw [announcementFromOps_eq_some news]
  exact tells_ofOps L.inner.id built key

theorem written_of_silent (may : L.protocol.may tab flights commit) (silent : commit.news = none)
    (key : Bytes) : written commit.ops .records (L.inner.encodeKey key) = none := by
  obtain ⟨-, built, hnews⟩ := may
  rw [hnews] at silent
  have htold := tells_ofOps L.inner.id built key
  rw [announcementFromOps_eq_none silent] at htold
  change News.Tells _ key (written commit.ops .records (L.inner.encodeKey key)) at htold
  cases hw : written commit.ops .records (L.inner.encodeKey key) with
  | none => rfl
  | some record =>
    rw [hw] at htold
    cases record with
    | none =>
      rcases htold with ⟨hclear, -⟩ | hlast
      · cases hclear
      · cases hlast
    | some raw => cases htold

theorem tells_none {key : Bytes} (h : (⟨a.cleared, a.changes⟩ : News).Tells key none) :
    a.tells key = false := by
  obtain ⟨hcleared, hlast⟩ := h
  rw [Announcement.tells, hlast, show a.cleared = false from hcleared]
  rfl

theorem tells_some {key : Bytes} {record : Option Bytes}
    (h : (⟨a.cleared, a.changes⟩ : News).Tells key (some record)) : a.tells key = true := by
  unfold Announcement.tells
  cases record with
  | none =>
    rcases h with ⟨hcleared, -⟩ | hlast
    · rw [show a.cleared = true from hcleared]
      rfl
    · rw [show (⟨a.cleared, a.changes⟩ : News).last key = some (.ofDelete key) from hlast]
      exact Bool.or_true _
  | some raw =>
    rw [show (⟨a.cleared, a.changes⟩ : News).last key = some (.ofPut key raw) from h]
    exact Bool.or_true _

/-- News speaks of nothing that its commit did not write. -/
theorem honest_protocol (may : L.protocol.may tab flights commit) (news : commit.news = some a)
    (key : Bytes) (tells : a.tells key = true) : L.protocol.writes commit key = true := by
  have htold := tells_of_may may news key
  change (written commit.ops .records (L.inner.encodeKey key)).isSome = true
  cases hw : written commit.ops .records (L.inner.encodeKey key) with
  | some record => rfl
  | none =>
    rw [hw] at htold
    rw [tells_none htold] at tells
    cases tells

end
end Crossbank
