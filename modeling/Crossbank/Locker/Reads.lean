import Crossbank.Locker.Eager
import Crossbank.Locker.Io

/-!
# Builders only read

Everything a call does before its commit reads the store, and of the memory it shares changes only
the cursors of the bank.

* `Reads p` : every request of `p` is a read, and `p` does not access memory;
* `Draws p` : every request of a call on the bank's cursors is a read;
* `Reads.run`, `Draws.run_zoom` : what such a call leaves as it was;
* `reads_loadValue`, `draws_opsForItems`, ... : one lemma for each builder.
-/

namespace Crossbank
open Async

def Req.isRead : Req → Prop
  | .get .. | .getMany .. | .scan _ => True
  | _ => False

/-- Every request of `p` is a read, and `p` does not access memory. -/
def Reads {ρ α : Type} (p : Io ρ α) : Prop := p.Only Req.isRead fun _ _ => False

def Draws {α : Type} (p : Io Shared α) : Prop := p.Only Req.isRead fun _ _ => True

section
variable {ρ α β : Type} [WriteLock ρ]

theorem served_read {q : Req} (hq : q.isRead) {m m' : Machine Tables ρ} {x : Resp q}
    (h : Served q m x m') : m' = m := by
  cases q with
  | get | getMany | scan => exact h.1
  | commit | flush | lock | idle => exact hq.elim

/-- A call that only reads leaves the machine as it was. -/
theorem Reads.run {p : Io ρ α} (hp : Reads p) {m m' : Machine Tables ρ} {r : Except Error α}
    (h : Run Served p m r m') : m' = m := by
  refine Prog.Only.run (I := fun m' => m' = m) hp h rfl (fun _ _ _ hr => hr.elim) ?_
  intro m₁ q x m₂ hm hq hs
  rw [served_read hq hs, hm]

theorem Prog.Only.run_dev {R : ρ → ρ → Prop} {p : Io ρ α} (hp : p.Only Req.isRead R)
    {m m' : Machine Tables ρ} {r : Except Error α} (h : Run Served p m r m') : m'.dev = m.dev := by
  refine Prog.Only.run (I := fun m' => m'.dev = m.dev) hp h rfl (fun _ _ hm _ => hm) ?_
  intro m₁ q x m₂ hm hq hs
  rw [served_read hq hs, hm]

end

theorem Reads.bind {ρ α β : Type} {p : Io ρ α} {f : α → Io ρ β} (hp : Reads p)
    (hf : ∀ a, Reads (f a)) : Reads (p >>= f) := Prog.Only.bind hp hf

theorem Draws.bind {α β : Type} {p : Io Shared α} {f : α → Io Shared β} (hp : Draws p)
    (hf : ∀ a, Draws (f a)) : Draws (p >>= f) := Prog.Only.bind hp hf

theorem Reads.draws {α : Type} {p : Io Shared α} (hp : Reads p) : Draws p :=
  Prog.Only.mono hp (fun _ h => h) fun _ _ h => h.elim

@[simp] theorem reads_pure {ρ α : Type} {a : α} : Reads (pure a : Io ρ α) := Prog.only_pure

@[simp] theorem reads_fail {ρ α : Type} {e : Error} : Reads (Prog.fail e : Io ρ α) := Prog.only_fail

@[simp] theorem reads_stuck {ρ α : Type} : Reads (Prog.stuck : Io ρ α) := Prog.only_stuck

@[simp] theorem reads_ofExcept {ρ α : Type} {x : Except Error α} :
    Reads (Prog.ofExcept x : Io ρ α) := Prog.only_ofExcept

@[simp] theorem reads_get {ρ : Type} {table : Table} {key : Bytes} :
    Reads (Backend.get table key : Io ρ _) := Backend.only_get.2 trivial

@[simp] theorem reads_getMany {ρ : Type} {table : Table} {keys : List Bytes} :
    Reads (Backend.getMany table keys : Io ρ _) := Backend.only_getMany.2 trivial

@[simp] theorem reads_scan {ρ : Type} {request : ScanRequest} :
    Reads (Backend.scan request : Io ρ _) := Backend.only_scan.2 trivial

@[simp] theorem draws_sync {α : Type} {f : Shared → Except Error α × Shared} :
    Draws (Prog.sync f) := Prog.only_sync.2 fun _ => trivial

@[simp] theorem draws_read {α : Type} {f : Shared → α} : Draws (Prog.read f) :=
  Prog.only_read.2 fun _ => trivial

@[simp] theorem draws_pure {α : Type} {a : α} : Draws (pure a : Io Shared α) := reads_pure.draws

@[simp] theorem draws_stuck {α : Type} : Draws (Prog.stuck : Io Shared α) := reads_stuck.draws

/-! ## A part of the memory -/

/-- A request other than the lock is served on a part of the memory as on the whole. -/
theorem served_zoom {σ ρ : Type} [WriteLock σ] [WriteLock ρ] (l : Part σ ρ) {q : Req}
    (hq : q ≠ .lock) {m m' : Machine Tables σ} {x : Resp q} :
    Served q m x m' ↔
      ∃ m₁, Served q ⟨m.dev, l.get m.mem⟩ x m₁ ∧ m' = ⟨m₁.dev, l.set m₁.mem m.mem⟩ := by
  cases q with
  | lock => exact absurd rfl hq
  | get | getMany | scan =>
    constructor
    · rintro ⟨rfl, h⟩
      exact ⟨_, ⟨rfl, h⟩, by simp⟩
    · rintro ⟨_, ⟨rfl, h⟩, rfl⟩
      exact ⟨by simp, h⟩
  | flush | idle =>
    constructor
    · rintro rfl
      exact ⟨_, rfl, by simp⟩
    · rintro ⟨_, rfl, rfl⟩
      simp [Served]
  | commit ops options =>
    constructor
    · rintro (⟨rfl, rfl⟩ | ⟨e, rfl, rfl⟩)
      · exact ⟨_, .inl ⟨rfl, rfl⟩, by simp⟩
      · exact ⟨_, .inr ⟨e, rfl, rfl⟩, by simp⟩
    · rintro ⟨_, ⟨rfl, rfl⟩ | ⟨e, rfl, rfl⟩, rfl⟩
      · exact .inl ⟨rfl, by simp⟩
      · exact .inr ⟨e, rfl, by simp⟩

theorem answered_zoom {σ ρ : Type} [WriteLock σ] [WriteLock ρ] (l : Part σ ρ) {q : Req}
    (hq : q.isRead) {m m' : Machine Tables σ} {x : Resp q} :
    Answered q m x m' ↔
      ∃ m₁, Answered q ⟨m.dev, l.get m.mem⟩ x m₁ ∧ m' = ⟨m₁.dev, l.set m₁.mem m.mem⟩ := by
  cases q with
  | get | getMany | scan =>
    simp only [Answered, serve, Option.some.injEq, Prod.mk.injEq]
    constructor
    · rintro ⟨rfl, rfl⟩
      exact ⟨_, ⟨rfl, rfl⟩, by simp⟩
    · rintro ⟨_, ⟨rfl, rfl⟩, rfl⟩
      exact ⟨rfl, by simp⟩
  | commit | flush | lock | idle => exact hq.elim

theorem isRead_ne_lock {q : Req} (hq : q.isRead) : q ≠ .lock := by
  rintro rfl
  exact hq

section
variable {σ α : Type} [WriteLock σ] {l : Part σ Shared} {p : Io Shared α} {m m' : Machine Tables σ}
  {r : Except Error α}

theorem Draws.run_zoom_iff (hp : Draws p) :
    Run Served (p.zoom l) m r m' ↔ ∃ m₁, Run Served p ⟨m.dev, l.get m.mem⟩ r m₁ ∧
      m' = ⟨m₁.dev, l.set m₁.mem m.mem⟩ :=
  run_zoom (fun _ _ _ _ hq => served_zoom l (isRead_ne_lock hq)) hp

theorem Draws.run_zoom (hp : Draws p) (h : Run Served (p.zoom l) m r m') :
    ∃ s, m' = ⟨m.dev, l.set s m.mem⟩ := by
  obtain ⟨m₁, h₁, rfl⟩ := hp.run_zoom_iff.1 h
  exact ⟨m₁.mem, by rw [Prog.Only.run_dev hp h₁]⟩

end

/-! ## One lemma for each builder -/

section
variable {T ρ σ : Type} (inner : Inner T)

theorem reads_walkPages (reverse wantValues : Bool)
    (visit : σ → Bytes → Option Bytes → Except Error σ) (fuel : Nat) (range : KeyRange) (acc : σ) :
    Reads (inner.walkPages reverse wantValues visit fuel range acc : Io ρ σ) := by
  induction fuel generalizing range acc with
  | zero => exact reads_stuck
  | succ fuel ih =>
    unfold Inner.walkPages
    apply reads_scan.bind
    intro page
    apply reads_ofExcept.bind
    intro acc
    cases page.resume with
    | none => exact reads_pure
    | some last => exact ih _ _

theorem reads_walk (start stop : Bound Bytes) (reverse wantValues : Bool)
    (visit : σ → Bytes → Option Bytes → Except Error σ) (acc : σ) :
    Reads (inner.walk start stop reverse wantValues visit acc : Io ρ σ) := by
  unfold Inner.walk
  split
  · exact reads_pure
  · exact reads_walkPages inner _ _ _ _ _ _

theorem reads_readGroups (pointer : ChunkPointer) (rounds seq : Nat) (out : Bytes) :
    Reads (inner.readGroups pointer rounds seq out : Io ρ Bytes) := by
  induction rounds generalizing seq out with
  | zero => exact reads_pure
  | succ rounds ih =>
    unfold Inner.readGroups
    split
    · apply reads_getMany.bind
      intro pieces
      apply reads_ofExcept.bind
      intro out
      exact ih _ _
    · exact reads_pure

theorem reads_readChunks (pointer : ChunkPointer) :
    Reads (inner.readChunks pointer : Io ρ Bytes) := by
  unfold Inner.readChunks
  apply (reads_readGroups inner _ _ _ _).bind
  intro out
  split
  · exact reads_fail
  · exact reads_pure

theorem reads_loadPayload (stored : Bytes) : Reads (inner.loadPayload stored : Io ρ Bytes) := by
  unfold Inner.loadPayload
  split
  · exact reads_ofExcept.bind fun pointer => reads_readChunks inner pointer
  · exact reads_ofExcept

theorem reads_decodeRecord (stored : Bytes) : Reads (inner.decodeRecord stored : Io ρ T) := by
  unfold Inner.decodeRecord
  apply (reads_loadPayload inner stored).bind
  intro payload
  exact reads_ofExcept.bind fun raw => reads_ofExcept

theorem reads_loadValue (key : Bytes) : Reads (inner.loadValue key : Io ρ (Option T)) := by
  unfold Inner.loadValue
  apply (show Reads (inner.fetch key : Io ρ _) from reads_get).bind
  intro found
  cases found with
  | none => exact reads_pure
  | some raw => exact (reads_decodeRecord inner raw).bind fun v => reads_pure

theorem reads_gcPrior (key : Bytes) (prior : Prior) :
    Reads (inner.gcPrior key prior : Io ρ (List Op)) := by
  unfold Inner.gcPrior
  split
  · exact (show Reads (inner.fetch key : Io ρ _) from reads_get).bind fun _ => reads_ofExcept
  · exact reads_pure

theorem reads_deleteValueOps (key : Bytes) (prior : Prior) :
    Reads (inner.deleteValueOps key prior : Io ρ (List Op)) :=
  (reads_gcPrior inner key prior).bind fun _ => reads_pure

theorem reads_clearValueOps : Reads (inner.clearValueOps : Io ρ (List Op)) :=
  (reads_walk inner _ _ _ _ _ _).bind fun _ => reads_pure

theorem reads_eagerPutOps (key payload : Bytes) :
    Reads (eagerPutOps inner key payload : Io ρ (List Op)) := by
  unfold eagerPutOps
  apply reads_ofExcept.bind
  intro sealed
  split
  · exact reads_fail
  · exact (show Reads (inner.fetch key : Io ρ _) from reads_get).bind fun _ => reads_pure

theorem reads_victimOps (victims : List Bytes) :
    Reads (victimOps inner victims : Io ρ (List Op)) := by
  induction victims with
  | nil => exact reads_pure
  | cons victim rest ih =>
    unfold victimOps
    apply (reads_deleteValueOps inner victim .unknown).bind
    intro ops
    exact ih.bind fun more => reads_pure

theorem reads_highestStoredId : Reads (ValueIds.highestStoredId : Io ρ (Option UInt64)) := by
  unfold ValueIds.highestStoredId
  apply reads_scan.bind
  intro page
  cases page.items.head? with
  | none => exact reads_pure
  | some item =>
    dsimp only
    split
    · exact reads_fail
    · exact reads_pure

theorem reads_seedFloor : Reads (ValueIds.seedFloor : Io ρ UInt64) := by
  unfold ValueIds.seedFloor
  apply reads_get.bind
  intro raw
  apply reads_ofExcept.bind
  intro stored
  apply reads_highestStoredId.bind
  intro highest
  cases highest with
  | none => exact reads_pure
  | some id => exact reads_ofExcept.bind fun past => reads_pure

theorem draws_allocateValueId : Draws ValueIds.allocate := by
  unfold ValueIds.allocate
  apply draws_sync.bind
  intro id
  cases id with
  | none => exact reads_seedFloor.draws.bind fun floor => draws_sync
  | some id => exact draws_pure

theorem draws_allocateTick : Draws Ticks.allocate := by
  unfold Ticks.allocate
  apply draws_sync.bind
  intro tick
  cases tick with
  | none =>
    apply reads_get.draws.bind
    intro raw
    exact reads_ofExcept.draws.bind fun stored => draws_sync
  | some tick => exact draws_pure

theorem draws_putPayloadOps (key payload : Bytes) (flags : UInt8) (prior : Prior) :
    Draws (inner.putPayloadOps key payload flags prior) := by
  unfold Inner.putPayloadOps
  apply (reads_gcPrior inner key prior).draws.bind
  intro gc
  split
  · exact reads_ofExcept.draws.bind fun sealed => draws_pure
  apply draws_allocateValueId.bind
  intro valueId
  split
  · exact draws_stuck
  apply reads_ofExcept.draws.bind
  intro pieces
  exact draws_read.bind fun counter => draws_pure

theorem draws_actionOps (mode : TxMode) (key : Bytes) (action : Action) :
    Draws (actionOps inner mode key action) := by
  cases action with
  | delete => exact (reads_deleteValueOps inner key .unknown).draws
  | put payload =>
    cases mode with
    | eager => exact (reads_eagerPutOps inner key payload).draws
    | lazy => exact draws_putPayloadOps inner key payload _ _

theorem draws_actionsOps (mode : TxMode) (actions : List (Bytes × Action)) :
    Draws (actionsOps inner mode actions) := by
  induction actions with
  | nil => exact draws_pure
  | cons entry rest ih =>
    obtain ⟨key, action⟩ := entry
    unfold actionsOps
    apply (draws_actionOps inner mode key action).bind
    intro ops
    exact ih.bind fun more => draws_pure

theorem draws_opsForItems (staged : List Pending) (mode : TxMode) :
    Draws (opsForItems inner staged mode) := by
  unfold opsForItems
  refine Draws.bind ?_ fun ops => (draws_actionsOps inner mode _).bind fun more => draws_pure
  split
  · exact (reads_clearValueOps inner).draws
  · exact draws_pure

theorem draws_loadPages (p : Bytes) (fuel : Nat) (range : KeyRange)
    (acc : LruState × Option UInt64) : Draws (loadPages p fuel range acc) := by
  induction fuel generalizing range acc with
  | zero => exact draws_stuck
  | succ fuel ih =>
    unfold loadPages
    apply reads_scan.draws.bind
    intro page
    cases page.resume with
    | none => exact draws_pure
    | some last => exact ih _ _

theorem draws_loadLru (backend : Backend) (id : LockerId) (maxBytes : Nat) :
    Draws (loadLru backend id maxBytes) := by
  unfold loadLru
  apply (draws_loadPages _ _ _ _).bind
  intro loaded
  obtain ⟨state, maxTick⟩ := loaded
  cases maxTick with
  | none => exact draws_pure.bind fun _ => draws_pure
  | some tick => exact draws_sync.bind fun _ => draws_pure

theorem reads_txGet (staged : List (Staged T)) (key : Bytes) :
    Reads (txGet inner staged key : Io ρ (Option T)) := by
  unfold txGet
  split
  · exact reads_pure
  · exact reads_ofExcept
  · exact reads_loadValue inner key

theorem reads_txBody (body : TxBody T) (staged : List (Staged T)) :
    Reads (body.run inner staged : Io ρ (List (Staged T))) := by
  induction body generalizing staged with
  | done result =>
    cases result with
    | ok => exact reads_pure
    | error e => exact reads_fail
  | put key value next ih =>
    unfold TxBody.run
    split
    · exact ih _ _
    · exact ih _ _
  | delete key next ih => exact ih _
  | clear next ih => exact ih _
  | get key next ih =>
    unfold TxBody.run
    exact Reads.bind (Prog.Only.attempt (reads_txGet inner staged key)) fun found => ih found staged

end
end Crossbank
