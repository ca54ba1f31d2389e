import Crossbank.Async.Triple
import Crossbank.Backend.Outline
import Crossbank.Locker.Build

/-!
# Value ids, issued once

A call that takes a value id is alone in storing pieces and a pointer under it, until the commit that
stores the pointer lands. From then on no call stores pieces under it again.

* `Issue` : which call has taken a value id that is not yet published, and on what store a call has
  last read a record; `noteIssue` : what a step of a call does to it;
* `Sight` : the store, the cursor of the ids, and the record; `IdsKept` : its invariant;
* `Continues i` : what others do to the ids of the call `i`, and to the ids that no call has;
* `Mine i` : ops that store only under ids of the call `i`;
* `IdsKept.take`, `IdsKept.commit` : what the steps of a call keep.
-/

namespace Crossbank
open Async

/-- Who has taken a value id and has not stored a pointer of it, and the store on which a call has last
read a record. -/
structure Issue where
  holder : UInt64 → Option Nat
  opened : Nat → Option Tables

/-- The ops store a pointer of the id. -/
def publishes (ops : List Op) (id : UInt64) : Bool :=
  ops.any fun
    | .put .records _ raw => (ChunkPointer.parse raw).toOption.any (·.valueId == id)
    | _ => false

namespace Issue

def take (i : Nat) (id : UInt64) (g : Issue) : Issue :=
  { g with holder := Function.update g.holder id (some i) }

def publish (ops : List Op) (g : Issue) : Issue :=
  { g with holder := fun id => if publishes ops id then none else g.holder id }

def open_ (i : Nat) (db : Tables) (g : Issue) : Issue :=
  { g with opened := Function.update g.opened i (some db) }

end Issue

/-- A call that moves the cursor takes the id below it. -/
def noteIssue {ρ : Type} (view : ρ → ValueIds) (i : Nat) (e : Event Req Resp ρ)
    (m _ : Machine Tables ρ) (g : Issue) : Issue :=
  match e with
  | .ram s s' =>
    match (view s').next with
    | some next => if (view s).next = some next then g else g.take i (next - 1)
    | none => g
  | .io (.commit ops _) (.ok _) => g.publish ops
  | .io (.get .records _) (.ok _) => g.open_ i m.dev
  | _ => g

/-! ## What all calls keep -/

/-- The store, the cursor of the value ids, and who has taken which. -/
structure Sight where
  db : Tables
  values : ValueIds
  issue : Issue

namespace Sight

def cursor (a : Sight) : Nat := idCursor a.db ⟨a.values, ⟨none, 0⟩⟩

/-- The id was taken, and no call may store under it. -/
def Free (a : Sight) (id : UInt64) : Prop := id.toNat < a.cursor ∧ a.issue.holder id = none

def piece (a : Sight) (id : UInt64) (seq : UInt32) : Option Bytes :=
  a.db.lookup .chunks (chunkKey id seq)

end Sight

/-- The ids that calls have taken are below the cursor, and those that records point at are free. -/
structure IdsKept (a : Sight) : Prop where
  held : ∀ id i, a.issue.holder id = some i → id.toNat < a.cursor
  pointed : ∀ key raw p, a.db.lookup .records key = some raw → ChunkPointer.parse raw = .ok p →
    a.Free p.valueId

/-- From `a` to `b`, the call `i` has kept its ids, the cursor has not gone back, and of the pieces of
an id that was free none was stored. -/
structure Continues (i : Nat) (a b : Sight) : Prop where
  own : ∀ id, a.issue.holder id = some i → b.issue.holder id = some i
  cursor : a.cursor ≤ b.cursor
  seeded : a.values.next ≠ none → b.values.next ≠ none
  counter : b.values.next = none →
    b.db.lookup .meta META_NEXT_VALUE_ID = a.db.lookup .meta META_NEXT_VALUE_ID
  free : ∀ id, a.Free id → b.issue.holder id = none
  pieces : ∀ id, a.Free id → ∀ seq, b.piece id seq = a.piece id seq ∨ b.piece id seq = none

theorem Continues.refl (i : Nat) (a : Sight) : Continues i a a :=
  ⟨fun _ h => h, le_rfl, fun h => h, fun _ => rfl, fun _ h => h.2, fun _ _ _ => .inl rfl⟩

section
variable {i j : Nat} {a b c : Sight}

theorem Continues.keepsFree (h : Continues i a b) {id : UInt64} (free : a.Free id) : b.Free id :=
  ⟨free.1.trans_le h.cursor, h.free id free⟩

theorem Continues.trans (first : Continues i a b) (second : Continues i b c) : Continues i a c where
  own id h := second.own id (first.own id h)
  cursor := first.cursor.trans second.cursor
  seeded h := second.seeded (first.seeded h)
  counter h := (second.counter h).trans (first.counter (not_not.1 fun hb => second.seeded hb h))
  free id h := (second.keepsFree (first.keepsFree h)).2
  pieces id h seq := by
    rcases second.pieces id (first.keepsFree h) seq with same | gone
    · rw [same]
      exact first.pieces id h seq
    · exact .inr gone

/-- A step that leaves the store, the cursor and the ids as they are. -/
theorem Continues.of_eq (db : b.db = a.db) (values : b.values = a.values)
    (holder : b.issue.holder = a.issue.holder) : Continues i a b := by
  have hcursor : b.cursor = a.cursor := by rw [Sight.cursor, Sight.cursor, db, values]
  refine ⟨fun id h => holder ▸ h, hcursor.ge, fun h => values ▸ h, fun _ => by rw [db],
    fun id h => holder ▸ h.2, fun id _ seq => .inl ?_⟩
  rw [Sight.piece, Sight.piece, db]

theorem IdsKept.of_eq (h : IdsKept a) (db : b.db = a.db) (values : b.values = a.values)
    (holder : b.issue.holder = a.issue.holder) : IdsKept b := by
  have hcursor : b.cursor = a.cursor := by rw [Sight.cursor, Sight.cursor, db, values]
  refine ⟨fun id i hi => ?_, fun key raw p hrow hparse => ?_⟩
  · rw [hcursor]
    exact h.held id i (holder ▸ hi)
  · obtain ⟨below, free⟩ := h.pointed key raw p (db ▸ hrow) hparse
    exact ⟨hcursor ▸ below, holder ▸ free⟩

/-! ## Taking an id -/

/-- An id at or past the cursor is taken, and the cursor moves past it. -/
theorem IdsKept.take {id next : UInt64} (h : IdsKept a) (i : Nat) (past : a.cursor ≤ id.toNat)
    (hnext : next.toNat = id.toNat + 1) :
    IdsKept ⟨a.db, ⟨some next⟩, a.issue.take i id⟩ ∧
      ∀ j, Continues j a ⟨a.db, ⟨some next⟩, a.issue.take i id⟩ := by
  have hcursor : Sight.cursor ⟨a.db, ⟨some next⟩, a.issue.take i id⟩ = id.toNat + 1 := hnext
  have other {id' : UInt64} (below : id'.toNat < a.cursor) :
      (a.issue.take i id).holder id' = a.issue.holder id' := by
    refine Function.update_of_ne ?_ _ _
    rintro rfl
    omega
  refine ⟨⟨fun id' j hj => ?_, fun key raw p hrow hparse => ?_⟩, fun j =>
    ⟨fun id' hj => ?_, ?_, fun _ => by simp, fun hnone => by simp at hnone, fun id' free => ?_,
      fun id' _ seq => .inl rfl⟩⟩
  · rw [hcursor]
    by_cases hid : id' = id
    · rw [hid]
      omega
    · have hold : a.issue.holder id' = some j := by
        rw [← hj]
        exact (Function.update_of_ne hid _ _).symm
      have hbelow := h.held id' j hold
      omega
  · obtain ⟨below, free⟩ := h.pointed key raw p hrow hparse
    refine ⟨?_, (other below).trans free⟩
    rw [hcursor]
    omega
  · exact (other (h.held id' j hj)).trans hj
  · rw [hcursor]
    omega
  · exact (other free.1).trans free.2

/-! ## Landing -/

/-- The op stores pieces and pointers only under ids of the call `i`, and writes the stored counter
only where the cursor is seeded. -/
def Op.Own (i : Nat) (a : Sight) : Op → Prop
  | .put .chunks key _ => ∃ id seq, key = chunkKey id seq ∧ a.issue.holder id = some i
  | .put .records _ raw => ∀ p, ChunkPointer.parse raw = .ok p → a.issue.holder p.valueId = some i
  | .put .meta key _ => key = META_NEXT_VALUE_ID → a.values.next ≠ none
  | .delete .meta key => key ≠ META_NEXT_VALUE_ID
  | .deleteRange .meta range => range.contains META_NEXT_VALUE_ID = false
  | _ => True

/-- Every op is one that the call `i` may land. -/
def Mine (i : Nat) (ops : List Op) (a : Sight) : Prop := ∀ op ∈ ops, op.Own i a

theorem Op.Own.follows {op : Op} (h : op.Own i a) (hab : Continues i a b) : op.Own i b := by
  match op with
  | .put .chunks key _ =>
    obtain ⟨id, seq, hkey, hid⟩ := h
    exact ⟨id, seq, hkey, hab.own id hid⟩
  | .put .records _ raw => exact fun p hp => hab.own _ (h p hp)
  | .put .meta key _ => exact fun hkey => hab.seeded (h hkey)
  | .delete .meta _ | .deleteRange .meta _ => exact h
  | .delete .records _ | .delete .chunks _ => exact h
  | .deleteRange .records _ | .deleteRange .chunks _ => exact h

theorem Mine.follows {ops : List Op} (h : Mine i ops a) (hab : Continues i a b) : Mine i ops b :=
  fun op hop => (h op hop).follows hab

theorem Mine.append {ops ops' : List Op} (h : Mine i ops a) (h' : Mine i ops' a) :
    Mine i (ops ++ ops') a := by
  intro op hop
  rcases List.mem_append.1 hop with hop | hop
  · exact h op hop
  · exact h' op hop

theorem Mine.nil : Mine i [] a := fun _ hop => absurd hop List.not_mem_nil

theorem mine_singleton {op : Op} : Mine i [op] a ↔ op.Own i a := by simp [Mine]

theorem put_of_written {ops : List Op} {table : Table} {key v : Bytes}
    (h : written ops table key = some (some v)) : .put table key v ∈ ops := by
  induction ops with
  | nil => cases h
  | cons op ops ih =>
    rw [written_cons] at h
    cases hlater : written ops table key with
    | some w =>
      rw [hlater] at h
      obtain rfl := Option.some.inj h
      exact List.mem_cons_of_mem _ (ih hlater)
    | none =>
      rw [hlater, Option.none_or] at h
      cases op with
      | put t k v' =>
        rw [Op.written] at h
        split at h
        · next heq =>
          obtain ⟨rfl, rfl⟩ := heq
          obtain rfl := Option.some.inj (Option.some.inj h)
          exact List.mem_cons_self
        · cases h
      | delete t k =>
        rw [Op.written] at h
        split at h
        · cases h
        · cases h
      | deleteRange t r =>
        rw [Op.written] at h
        split at h
        · cases h
        · cases h

/-- What the call may land leaves the stored counter where the cursor is not seeded. -/
theorem Mine.counter {ops : List Op} (mine : Mine i ops a) (unseeded : a.values.next = none) :
    written ops .meta META_NEXT_VALUE_ID = none := by
  refine written_eq_none.2 fun op hop => ?_
  have own := mine op hop
  match op with
  | .put .meta key _ =>
    have hkey : key ≠ META_NEXT_VALUE_ID := fun hkey => own hkey unseeded
    simp [Op.written, hkey]
  | .delete .meta key =>
    have hkey : key ≠ META_NEXT_VALUE_ID := own
    simp [Op.written, hkey]
  | .deleteRange .meta range =>
    have hrange : range.contains META_NEXT_VALUE_ID = false := own
    simp [Op.written, hrange]
  | .put .records _ _ | .put .chunks _ _ => simp [Op.written]
  | .delete .records _ | .delete .chunks _ => simp [Op.written]
  | .deleteRange .records _ | .deleteRange .chunks _ => simp [Op.written]

/-- A pointer that the ops leave under a key is one that they publish. -/
theorem publishes_of_written {ops : List Op} {key raw : Bytes} {p : ChunkPointer}
    (h : written ops .records key = some (some raw)) (hp : ChunkPointer.parse raw = .ok p) :
    publishes ops p.valueId = true :=
  List.any_eq_true.2 ⟨_, put_of_written h, by simp [hp, Except.toOption]⟩

theorem Mine.publishes {ops : List Op} (mine : Mine i ops a) {id : UInt64}
    (h : publishes ops id = true) : a.issue.holder id = some i := by
  obtain ⟨op, hop, hid⟩ := List.any_eq_true.1 h
  match op with
  | .put .records key raw =>
    cases hparse : ChunkPointer.parse raw with
    | error e => simp [hparse, Except.toOption] at hid
    | ok p =>
      have own := mine _ hop p hparse
      have heq : p.valueId = id := by simpa [hparse, Except.toOption] using hid
      rwa [heq] at own
  | .put .meta _ _ | .put .chunks _ _ => cases hid
  | .delete _ _ => cases hid
  | .deleteRange _ _ => cases hid

/-- The ops of a call land. -/
theorem IdsKept.commit {ops : List Op} (h : IdsKept a) (mine : Mine i ops a) :
    IdsKept ⟨a.db.commit ops, a.values, a.issue.publish ops⟩ ∧
      (∀ j, j ≠ i → Continues j a ⟨a.db.commit ops, a.values, a.issue.publish ops⟩) ∧
      ((∀ id, publishes ops id = false) →
        Continues i a ⟨a.db.commit ops, a.values, a.issue.publish ops⟩) := by
  have hcounter (unseeded : a.values.next = none) :
      (a.db.commit ops).lookup .meta META_NEXT_VALUE_ID = a.db.lookup .meta META_NEXT_VALUE_ID := by
    rw [Tables.lookup_commit, mine.counter unseeded]
    rfl
  have hcursor : Sight.cursor ⟨a.db.commit ops, a.values, a.issue.publish ops⟩ = a.cursor := by
    unfold Sight.cursor idCursor
    dsimp only
    cases hnext : a.values.next with
    | some next => rfl
    | none =>
      dsimp only
      rw [hcounter hnext]
  have stays {id : UInt64} (hid : a.issue.holder id ≠ some i) :
      (a.issue.publish ops).holder id = a.issue.holder id :=
    if_neg fun hp => hid (mine.publishes hp)
  have free (id : UInt64) (hfree : a.Free id) : (a.issue.publish ops).holder id = none :=
    (stays (by simp [hfree.2])).trans hfree.2
  have follows (j : Nat) (own : ∀ id, a.issue.holder id = some j →
      (a.issue.publish ops).holder id = some j) :
      Continues j a ⟨a.db.commit ops, a.values, a.issue.publish ops⟩ := by
    refine ⟨own, hcursor.ge, fun hs => hs, hcounter, free, fun id hfree seq => ?_⟩
    show (a.db.commit ops).lookup .chunks _ = _ ∨ (a.db.commit ops).lookup .chunks _ = none
    rw [Tables.lookup_commit]
    cases hw : written ops .chunks (chunkKey id seq) with
    | none => exact .inl rfl
    | some w =>
      cases w with
      | none => exact .inr rfl
      | some v =>
        -- A piece is stored under an id of the call, and this one is free.
        obtain ⟨id', seq', hkey, hid'⟩ := mine _ (put_of_written hw)
        obtain ⟨rfl, -⟩ := chunkKey_inj.1 hkey
        rw [hfree.2] at hid'
        cases hid'
  refine ⟨⟨fun id j hj => ?_, fun key raw p hrow hparse => ?_⟩, fun j hj => ?_, fun quiet => ?_⟩
  · rw [hcursor]
    refine h.held id j ?_
    by_cases hp : publishes ops id
    · simp [Issue.publish, hp] at hj
    · simpa [Issue.publish, hp] using hj
  · rw [Tables.lookup_commit] at hrow
    cases hw : written ops .records key with
    | none =>
      rw [hw] at hrow
      have hold := h.pointed key raw p hrow hparse
      exact ⟨hcursor ▸ hold.1, free _ hold⟩
    | some w =>
      rw [hw] at hrow
      obtain rfl : w = some raw := hrow
      have own := mine _ (put_of_written hw) p hparse
      exact ⟨hcursor ▸ h.held _ i own, if_pos (publishes_of_written hw hparse)⟩
  · refine follows j fun id hid => (stays ?_).trans hid
    rw [hid]
    exact fun heq => hj (Option.some.inj heq)
  · refine follows i fun id hid => ?_
    simp [Issue.publish, quiet id, hid]

end
end Crossbank
