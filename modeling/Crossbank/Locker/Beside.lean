import Crossbank.Locker.Cutting
import Crossbank.Locker.Readers
import Crossbank.Locker.Vault

/-!
# Writers beside other calls

Between two calls of a writer other calls may come, those of other writers too. They leave its pieces
alone, as nobody else has its value id.

* `Reserved id m` : the id is handed out, and not published; `Spares id m m'` : it still is, and its
  pieces are as they were;
* `StoresBatch.pieces` : a commit of staged writes leaves the pieces alone;
* `LazyCall.spares` : and so does every call that is not one of the writer's own;
* `Writer.Beside` : the calls of a writer, with others between them;
* `Writer.Beside.carries` : no byte of the stream is lost;
* `Writer.Beside.answers_iff` : when a stream reads back that is finished after all that.
-/

namespace Crossbank
open Async

section
variable {T : Type} {m m₁ m' : Machine Tables (Ram T)} {id : UInt64}

/-- The id is handed out and not published, and no pointer is stored past the cursor. -/
structure Reserved (id : UInt64) (m : Machine Tables (Ram T)) : Prop where
  taken : id.toNat < idCursor m.dev m.mem.shared
  unpublished : ∀ key raw p, m.dev.lookup .records key = some raw → ChunkPointer.parse raw = .ok p →
    p.valueId ≠ id
  below : Below m.dev (idCursor m.dev m.mem.shared)

/-- The pieces of the id are as they were. It is not published, and no id is handed out twice. -/
structure Spares (id : UInt64) (m m' : Machine Tables (Ram T)) : Prop where
  pieces : ∀ seq, m'.dev.lookup .chunks (chunkKey id seq) = m.dev.lookup .chunks (chunkKey id seq)
  cursor : idCursor m.dev m.mem.shared ≤ idCursor m'.dev m'.mem.shared
  unpublished : ∀ key raw p, m'.dev.lookup .records key = some raw → ChunkPointer.parse raw = .ok p →
    p.valueId ≠ id
  below : Below m'.dev (idCursor m'.dev m'.mem.shared)

theorem Reserved.next (h : Reserved id m) (spares : Spares id m m') : Reserved id m' :=
  ⟨h.taken.trans_le spares.cursor, spares.unpublished, spares.below⟩

theorem Reserved.refl (h : Reserved id m) : Spares id m m :=
  ⟨fun _ => rfl, le_rfl, h.unpublished, h.below⟩

theorem Spares.trans (first : Spares id m m₁) (second : Spares id m₁ m') : Spares id m m' :=
  ⟨fun seq => (second.pieces seq).trans (first.pieces seq), first.cursor.trans second.cursor,
    second.unpublished, second.below⟩

/-! ## Calls of the locker -/

/-- A call that keeps the rules of value ids keeps an id that another call has. -/
theorem Behaves.spares {α : Type} {p : Io (Ram T) α} {r : Except Error α} (behaves : Behaves 0 p)
    (run : Run Served p m r m') (h : Reserved id m)
    (pieces : ∀ seq, m'.dev.lookup .chunks (chunkKey id seq) = m.dev.lookup .chunks (chunkKey id seq)) :
    Spares id m m' := by
  -- The id is that of the call 1, which the call 0 leaves alone.
  have start : IdsKept ⟨m.dev, m.mem.ids, ⟨fun i => if i = id then some 1 else none, fun _ => none⟩⟩ := by
    refine ⟨fun i n hi => ?_, fun key raw p hrow hparse =>
      ⟨h.below key raw p hrow hparse, if_neg (h.unpublished key raw p hrow hparse)⟩⟩
    dsimp only at hi
    split at hi
    · next heq => exact heq ▸ h.taken
    · cases hi
  obtain ⟨issue, kept, -, leaves⟩ := issues_run behaves run start trivial
  have held : issue.holder id = some 1 := leaves.own id (if_pos rfl)
  refine ⟨pieces, leaves.cursor, fun key raw p hrow hparse heq => ?_, fun key raw p hrow hparse =>
    (kept.pointed key raw p hrow hparse).1⟩
  have free := (kept.pointed key raw p hrow hparse).2
  rw [heq] at free
  cases held.symm.trans free

section
variable {inner : Inner T} {batch : List Pending} {lost : List Bytes} {db : Tables}

/-- A commit of staged writes leaves alone the pieces of an id that is not published. -/
theorem StoresBatch.pieces (stores : StoresBatch inner m batch lost db) (h : Reserved id m)
    (seq : UInt32) : db.lookup .chunks (chunkKey id seq) = m.dev.lookup .chunks (chunkKey id seq) := by
  obtain ⟨ops, built, s', b, laid, rfl, data, counter, -⟩ := stores
  have whole := laid.built_shed data counter
  refine lookup_commit_chunk whole.data (fun new => ?_) (fun collected => ?_) _
  · have past := (whole.fresh id new).1
    have taken := h.taken
    omega
  · obtain ⟨k, raw, p, hraw, hparse, hid⟩ := laid.pointer_of_collected collected
    exact h.unpublished k raw p hraw hparse hid

/-- A call stores a batch of staged writes, or nothing. -/
theorem LazyCall.stores {c : LazyCall T} {r : Except Error Unit} (plain : c.Plain)
    (reached : LazyLocker.Reached inner m) (run : Run Served (c.prog inner) m r m') :
    m'.dev = m.dev ∨ ∃ batch lost, StoresBatch inner m batch lost m'.dev := by
  have put {batch : List Pending} (h : Put inner m batch m') :
      m'.dev = m.dev ∨ ∃ batch lost, StoresBatch inner m batch lost m'.dev := by
    obtain ⟨lost, stores, -⟩ := h
    exact .inr ⟨batch, lost, stores⟩
  have wrote {entry : Pending} (h : WriteLeft inner m entry r m') :
      m'.dev = m.dev ∨ ∃ batch lost, StoresBatch inner m batch lost m'.dev := by
    rcases h with ⟨-, h⟩ | ⟨-, same, -⟩ | ⟨-, kept⟩
    · exact put h
    · exact .inl same
    · exact .inl kept.dev
  have took {body : TxBody T} (h : Took inner m body r m') :
      m'.dev = m.dev ∨ ∃ batch lost, StoresBatch inner m batch lost m'.dev := by
    rcases h with ⟨-, kept⟩ | ⟨own, -, ⟨-, h⟩ | ⟨-, -, kept⟩⟩
    · exact .inl kept.dev
    · exact put h
    · exact .inl kept.dev
  have flushed (h : Flushed inner m r m') :
      m'.dev = m.dev ∨ ∃ batch lost, StoresBatch inner m batch lost m'.dev := by
    rcases h with h | ⟨-, kept⟩
    · exact put h
    · exact .inl kept.dev
  have looks {α : Type} {p : Io (Ram T) α} (hp : Looks p) {x : Except Error α}
      (h : Run Served p m x m') : m'.dev = m.dev := (hp.run h).1
  cases c with
  | get key =>
    obtain ⟨x, hx, -⟩ := run_map.1 run
    exact .inl (looks looks_getBy hx)
  | list start stop reverse limit =>
    obtain ⟨x, hx, -⟩ := run_map.1 run
    exact .inl (looks looks_collect hx)
  | put key v =>
    rcases putBy_wrote reached.clean reached.isLazy reached.idle run with ⟨payload, -, h⟩ | ⟨-, kept⟩
    · exact wrote h
    · exact .inl kept.dev
  | delete key => exact wrote (deleteBy_wrote reached.clean reached.isLazy reached.idle run)
  | clear => exact wrote (clear_wrote reached.clean reached.isLazy reached.idle run)
  | transact body => exact took (transact_took reached.clean run)
  | putAll entries =>
    simp only [LazyCall.prog, LazyLocker.putAll] at run
    split at run
    · exact .inl (by rw [(run_pure.1 run).2])
    · exact took (transact_took reached.clean run)
  | deleteAll keys =>
    simp only [LazyCall.prog, LazyLocker.deleteAll] at run
    split at run
    · exact .inl (by rw [(run_pure.1 run).2])
    · exact took (transact_took reached.clean run)
  | flush => exact flushed (flush_flushed reached.clean reached.isLazy run)
  | evictTo bytes =>
    obtain ⟨x, hx, -⟩ := run_map.1 run
    rcases evictTo_evicted hx with kept | ⟨-, -, lost, stores⟩
    · exact .inl kept.dev
    · exact .inr ⟨[], lost, stores⟩
  | close => exact flushed (close_flushed reached.clean reached.isLazy run)
  | writer key => exact plain.elim
  | writeChunk w bytes => exact plain.elim
  | finish w => exact plain.elim
  | abort w => exact plain.elim

/-! ## Calls of other writers -/

/-- Ops that publish no id but ones that are handed out, and touch neither the pieces of the id nor the
counter. -/
theorem Reserved.spares_commit {ops : List Op} {ram : Ram T} (h : Reserved id m)
    (shared : ram.shared = m.mem.shared)
    (pieces : ∀ seq, written ops .chunks (chunkKey id seq) = none)
    (counter : written ops .meta META_NEXT_VALUE_ID = none)
    (publishes : ∀ key raw p, written ops .records key = some (some raw) →
      ChunkPointer.parse raw = .ok p → p.valueId ≠ id ∧
        p.valueId.toNat < idCursor m.dev m.mem.shared) :
    Spares id m ⟨m.dev.commit ops, ram⟩ := by
  have cursor : idCursor (m.dev.commit ops) ram.shared = idCursor m.dev m.mem.shared := by
    rw [shared]
    unfold idCursor
    rw [Tables.lookup_commit, counter]
    rfl
  have record {key raw : Bytes} {p : ChunkPointer}
      (hrow : (m.dev.commit ops).lookup .records key = some raw) (hparse : ChunkPointer.parse raw = .ok p) :
      p.valueId ≠ id ∧ p.valueId.toNat < idCursor m.dev m.mem.shared := by
    rw [Tables.lookup_commit] at hrow
    cases hwritten : written ops .records key with
    | none =>
      rw [hwritten] at hrow
      exact ⟨h.unpublished key raw p hrow hparse, h.below key raw p hrow hparse⟩
    | some left =>
      rw [hwritten] at hrow
      obtain rfl : left = some raw := hrow
      exact publishes key raw p hwritten hparse
  refine ⟨fun seq => ?_, cursor.ge, fun key raw p hrow hparse => (record hrow hparse).1,
    fun key raw p hrow hparse => ?_⟩
  · dsimp only
    rw [Tables.lookup_commit, pieces]
    rfl
  · rw [cursor]
    exact (record hrow hparse).2

namespace Writer
variable {w : Writer} {piece bytes : Bytes} (other : w.valueId ≠ id) (h : Reserved id m)
include other h

theorem spares_flushPiece {r : Except Error Unit} (run : Run Served (flushPiece inner w piece) m r m') :
    Spares id m m' := by
  rcases flushPiece_run run with ⟨sealed, -, -, rfl⟩ | ⟨e, -, rfl⟩
  · refine h.spares_commit rfl (fun seq => ?_) (by simp [written_cons, Op.written])
      fun key raw p hwritten => by simp [written_cons, Op.written] at hwritten
    have away : chunkKey w.valueId w.seq ≠ chunkKey id seq := fun heq => other (chunkKey_inj.1 heq).1
    simp [written_cons, Op.written, away]
  · exact h.refl

theorem spares_flushFull {fuel : Nat} {r : Except Error (Writer × Except Error Unit)}
    (run : Run Served (flushFull inner fuel w) m r m') : Spares id m m' := by
  induction fuel generalizing w m with
  | zero => exact run.elim
  | succ fuel ih =>
    rw [flushFull] at run
    split at run
    · obtain ⟨x, m₁, hflush, hrest⟩ := run_attempt_bind.1 run
      have first : Spares id m m₁ :=
        spares_flushPiece (w := { w with buf := w.buf.drop inner.config.chunkSize }) other h hflush
      cases x with
      | ok => exact first.trans (ih (w := { w with buf := w.buf.drop inner.config.chunkSize, seq := w.seq + 1 })
          other (h.next first) hrest)
      | error e =>
        obtain ⟨-, rfl⟩ := run_pure.1 hrest
        exact first
    · obtain ⟨-, rfl⟩ := run_pure.1 run
      exact h.refl

theorem spares_abort {r : Except Error Unit} (run : Run Served (abort inner w) m r m') :
    Spares id m m' := by
  rcases run_innerCommit.1 run with ⟨-, rfl⟩ | ⟨e, -, rfl⟩
  · exact h.spares_commit rfl (fun seq => by simp [written_cons, Op.written, gcOps, other])
      (by simp [written_cons, Op.written, gcOps])
      fun key raw p hwritten => by simp [written_cons, Op.written, gcOps] at hwritten
  · exact h.refl

/-- The pointer that another writer publishes is to its own id. What it collects is published. -/
theorem spares_publish (taken : w.valueId.toNat < idCursor m.dev m.mem.shared)
    {r : Except Error Unit} (run : Run Served (publish inner w) m r m') : Spares id m m' := by
  rcases run_bind.1 run with ⟨existing, m₁, hfetch, hgc⟩ | ⟨e, hfetch, -⟩
  · obtain ⟨rfl, hexisting⟩ := run_get.1 hfetch
    obtain rfl := hexisting existing rfl
    rcases run_bind.1 hgc with ⟨gc, m₂, hparse, hcommit⟩ | ⟨e, hparse, -⟩
    · obtain ⟨hparse, rfl⟩ := run_ofExcept.1 hparse
      rcases run_bind.1 hcommit with ⟨u, m₃, hland, hafter⟩ | ⟨e, hland, -⟩
      · rcases run_innerCommit.1 hland with ⟨-, rfl⟩ | ⟨e, he, -⟩
        · rw [run_update_bind, run_update_bind] at hafter
          obtain ⟨-, rfl⟩ := run_update.1 hafter
          obtain rfl := gcExisting_eq_ok hparse.symm
          refine h.spares_commit rfl (fun seq => ?_) (written_of_table fun op hop => ?_)
            fun key raw p hwritten hp => ?_
          · rw [written_append]
            cases hcollects : pointerIn (m₂.dev.lookup .records (inner.encodeKey (asBytes w.key))) with
            | none => simp [written_cons, Op.written]
            | some p =>
              obtain ⟨raw, hraw, hp⟩ := pointerIn_eq_some.1 hcollects
              have away := h.unpublished _ raw p hraw hp
              simp [written_cons, Op.written, gcOps, away]
          · rcases List.mem_append.1 hop with hop | hop
            · obtain ⟨p, -, rfl⟩ := List.mem_map.1 hop
              simp [gcOps, Op.table]
            · rw [List.mem_singleton.1 hop]
              simp [Op.table]
          · rw [written_append, written_gcOps, Option.or_none, written_cons, written_nil,
              Option.none_or, Op.written] at hwritten
            split at hwritten
            · obtain rfl := Option.some.inj (Option.some.inj hwritten)
              obtain rfl := encode_inj (parse_eq_ok.1 hp).1
              exact ⟨other, taken⟩
            · cases hwritten
        · cases he
      · rcases run_innerCommit.1 hland with ⟨he, -⟩ | ⟨e', -, rfl⟩
        · cases he
        · exact h.refl
    · obtain ⟨-, rfl⟩ := run_ofExcept.1 hparse
      exact h.refl
  · obtain ⟨rfl, -⟩ := run_get.1 hfetch
    exact h.refl

theorem spares_finish (taken : w.valueId.toNat < idCursor m.dev m.mem.shared)
    {r : Except Error Unit} (run : Run Served (finish inner w) m r m') : Spares id m m' := by
  rw [finish_eq] at run
  have left {x : Except Error Writer} {m₁ : Machine Tables (Ram T)}
      (run : Run Served (leftover inner w) m x m₁) :
      Spares id m m₁ ∧ ∀ w₁, x = .ok w₁ → w₁.valueId = w.valueId := by
    unfold leftover at run
    split at run
    · obtain ⟨rfl, rfl⟩ := run_pure.1 run
      exact ⟨h.refl, fun w₁ hw₁ => by rw [← Except.ok.inj hw₁]⟩
    · rcases run_bind.1 run with ⟨u, m₂, hflush, hpure⟩ | ⟨e, hflush, rfl⟩
      · obtain ⟨rfl, rfl⟩ := run_pure.1 hpure
        exact ⟨spares_flushPiece other h hflush, fun w₁ hw₁ => by rw [← Except.ok.inj hw₁]⟩
      · exact ⟨spares_flushPiece other h hflush, fun w₁ hw₁ => by cases hw₁⟩
  rcases run_bind.1 run with ⟨w₁, m₁, hleft, hpublish⟩ | ⟨e, hleft, -⟩
  · obtain ⟨spares, hid⟩ := left hleft
    have same := hid w₁ rfl
    exact spares.trans (spares_publish (same ▸ other) (h.next spares)
      (same ▸ taken.trans_le spares.cursor) hpublish)
  · exact (left hleft).1

end Writer

theorem LazyLocker.writer_pieces {key : String} {r : Except Error Writer}
    (run : Run Served (LazyLocker.writer inner key) m r m') (k : Bytes) :
    m'.dev.lookup .chunks k = m.dev.lookup .chunks k := by
  obtain ⟨u, m₁, hopen, hlocked⟩ | ⟨e, hopen, -⟩ := run_bind.1 run
  · obtain ⟨-, rfl⟩ := run_ensureOpen.1 hopen
    obtain ⟨-, m₂, hstart, rfl⟩ := run_withWriteLock.1 hlocked
    unfold Writer.start at hstart
    have counter {next : UInt64} {x : Except Error Unit} {a b : Machine Tables (Ram T)}
        (h : Run Served (inner.commit [counterOpFor next]) a x b) :
        b.dev.lookup .chunks k = a.dev.lookup .chunks k := by
      rcases run_innerCommit.1 h with ⟨-, rfl⟩ | ⟨e, -, rfl⟩
      · dsimp only
        rw [Tables.lookup_commit, written_cons, written_nil, Option.none_or, counterOpFor, Op.written,
          if_neg fun h => Table.noConfusion h.1]
        rfl
      · rfl
    rcases run_bind.1 hstart with ⟨id, m₃, hid, hrest⟩ | ⟨e, hid, -⟩
    · obtain ⟨m₄, hallocate, rfl⟩ := draws_allocateValueId.run_zoom_iff.1 hid
      have dev : m₄.dev = m₁.dev := Prog.Only.run_dev draws_allocateValueId hallocate
      rw [run_read_bind] at hrest
      dsimp only at hrest
      show m₂.dev.lookup .chunks k = m₁.dev.lookup .chunks k
      rw [show m₁.dev = m₄.dev from dev.symm]
      cases hop : ValueIds.counterOp ((sharedPart T).set m₄.mem m₁.mem.lock).shared with
      | none =>
        rw [hop] at hrest
        obtain ⟨-, rfl⟩ := run_pure.1 hrest
        rfl
      | some op =>
        rw [hop] at hrest
        obtain ⟨next, -, rfl⟩ := Option.map_eq_some_iff.1 hop
        rcases run_bind.1 hrest with ⟨u, m₅, hcommit, hpure⟩ | ⟨e, hcommit, -⟩
        · obtain ⟨-, rfl⟩ := run_pure.1 hpure
          exact counter hcommit
        · exact counter hcommit
    · obtain ⟨m₄, hallocate, rfl⟩ := draws_allocateValueId.run_zoom_iff.1 hid
      have dev : m₄.dev = m₁.dev := Prog.Only.run_dev draws_allocateValueId hallocate
      exact congrArg (fun db : Tables => db.lookup .chunks k) dev
  · obtain ⟨-, rfl⟩ := run_ensureOpen.1 hopen
    rfl

/-- The call is not of the writer that has the id. If it is of another writer, that has an id too. -/
def LazyCall.Other (id : UInt64) (m : Machine Tables (Ram T)) : LazyCall T → Prop
  | .writeChunk w _ | .finish w | .abort w =>
    w.valueId ≠ id ∧ w.valueId.toNat < idCursor m.dev m.mem.shared
  | _ => True

/-- A call that is not of the writer leaves its pieces alone, whatever becomes of it. -/
theorem LazyCall.spares {c : LazyCall T} {r : Except Error Unit} (other : c.Other id m)
    (reached : LazyLocker.Reached inner m) (h : Reserved id m)
    (run : Run Served (c.prog inner) m r m') : Spares id m m' := by
  have plain (plain : c.Plain) : Spares id m m' := by
    refine Behaves.spares (c.behaves plain) run h fun seq => ?_
    rcases c.stores plain reached run with same | ⟨batch, lost, stores⟩
    · rw [same]
    · exact stores.pieces h seq
  cases c with
  | writer key =>
    obtain ⟨x, hx, -⟩ := run_map.1 run
    refine Behaves.spares ((LazyLocker.issues_writer key).mono (fun _ _ => trivial) fun _ _ _ => trivial) hx h
      fun seq => LazyLocker.writer_pieces hx _
  | writeChunk w bytes =>
    obtain ⟨x, hx, -⟩ := run_map.1 run
    exact Writer.spares_flushFull (w := { w with
      buf := w.buf ++ bytes, totalLen := w.totalLen + UInt64.ofNat bytes.length }) other.1 h hx
  | finish w => exact Writer.spares_finish other.1 h other.2 run
  | abort w => exact Writer.spares_abort other.1 h run
  | get | list | put | delete | clear | transact | putAll | deleteAll | flush | evictTo | close =>
    exact plain trivial

/-! ## A stream -/

namespace Writer

/-- A writer that was opened in `m₀` and has been given the buffers, in calls that succeed. Between them
come other calls, and what is done outside, where that hands no value id out twice. -/
inductive Beside (inner : Inner T) (name : String) (m₀ : Machine Tables (Ram T)) :
    Writer → List Bytes → Machine Tables (Ram T) → Prop
  | opened {w : Writer} {m : Machine Tables (Ram T)}
      (run : Run Served (LazyLocker.writer inner name) m₀ (.ok w) m) : Beside inner name m₀ w [] m
  | wrote {w w' : Writer} {bufs : List Bytes} {bytes : Bytes} {m m' : Machine Tables (Ram T)}
      (before : Beside inner name m₀ w bufs m)
      (run : Run Served (writeChunk inner w bytes) m (.ok (w', .ok ())) m') :
      Beside inner name m₀ w' (bufs ++ [bytes]) m'
  | called {w : Writer} {bufs : List Bytes} {m m' : Machine Tables (Ram T)} {r : Except Error Unit}
      (before : Beside inner name m₀ w bufs m) (c : LazyCall T) (other : c.Other w.valueId m)
      (run : Run Served (c.prog inner) m r m') : Beside inner name m₀ w bufs m'
  | outside {w : Writer} {bufs : List Bytes} {m m' : Machine Tables (Ram T)}
      (before : Beside inner name m₀ w bufs m) (change : Outside m m')
      (spares : Spares w.valueId m m') : Beside inner name m₀ w bufs m'

variable {name : String} {m₀ : Machine Tables (Ram T)} {w : Writer} {bufs : List Bytes}

/-- A writer that is opened has an id that is handed out and not published. -/
theorem reserved_of_opened (run : Run Served (LazyLocker.writer inner name) m (.ok w) m')
    (below : Below m.dev (idCursor m.dev m.mem.shared)) : Reserved w.valueId m' := by
  have start : IdsKept ⟨m.dev, m.mem.ids, ⟨fun _ => none, fun _ => none⟩⟩ :=
    ⟨by simp, fun key raw p hrow hparse => ⟨below key raw p hrow hparse, rfl⟩⟩
  obtain ⟨issue, kept, owns, -⟩ := issues_run (LazyLocker.issues_writer name) run start trivial
  have held := owns w rfl
  refine ⟨kept.held _ _ held, fun key raw p hrow hparse heq => ?_, fun key raw p hrow hparse =>
    (kept.pointed key raw p hrow hparse).1⟩
  have free := (kept.pointed key raw p hrow hparse).2
  rw [heq] at free
  cases held.symm.trans free

/-- No byte of the stream is lost to the calls between, and its id stays its own. -/
theorem Beside.carries (h : Beside inner name m₀ w bufs m) (pos : 0 < inner.config.chunkSize)
    (reached : LazyLocker.Reached inner m₀) (below : Below m₀.dev (idCursor m₀.dev m₀.mem.shared)) :
    LazyLocker.Reached inner m ∧ Reserved w.valueId m ∧
      ∃ w₀ : Writer, w₀.key = name ∧ Carries inner w₀ bufs.flatten m.dev w := by
  induction h with
  | @opened w m run =>
    have call : Run Served ((.writer name : LazyCall T).prog inner) m₀ (.ok ()) m :=
      run_map.2 ⟨.ok w, run, rfl⟩
    obtain ⟨-, ⟨hname, hseq, htotal, hbuf⟩, -⟩ := writer_run run
    refine ⟨reached.called _ call, reserved_of_opened run below, w, hname, [],
      .begin hseq htotal hbuf, fun _ hp => absurd hp List.not_mem_nil, ?_⟩
    rw [hbuf]
    exact pos
  | @wrote w w' bufs bytes m m' before run ih =>
    obtain ⟨reached, reserved, w₀, hname, pieces, progress, full, -⟩ := ih
    have call : Run Served ((.writeChunk w bytes : LazyCall T).prog inner) m (.ok ()) m' :=
      run_map.2 ⟨.ok (w', .ok ()), run, rfl⟩
    obtain ⟨pieces', lost, progress', full', hmem, hr⟩ :=
      flushFull_run pos (progress.extend bytes) full run
    rcases hr with ⟨-, rfl, short, -⟩ | ⟨⟨e, he⟩, -⟩
    · obtain ⟨-, hid⟩ := progress.same
      obtain ⟨-, hid'⟩ := progress'.same
      have record (key : Bytes) : m'.dev.lookup .records key = m.dev.lookup .records key :=
        progress'.frame _ _ fun h => by cases h
      have cursor : idCursor m'.dev m'.mem.shared = idCursor m.dev m.mem.shared := by
        unfold idCursor
        rw [hmem, progress'.frame _ _ fun h => by cases h]
      refine ⟨reached.called _ call, ⟨?_, fun key raw p hrow hparse => ?_, fun key raw p hrow hparse => ?_⟩,
        w₀, hname, pieces', ?_, full', short⟩
      · rw [cursor, hid', ← hid]
        exact reserved.taken
      · rw [hid', ← hid]
        exact reserved.unpublished key raw p (record key ▸ hrow) hparse
      · rw [cursor]
        exact reserved.below key raw p (record key ▸ hrow) hparse
      · rw [List.flatten_append, List.flatten_singleton]
        exact progress'.rebase fun _ => rfl
    · cases he
  | @called w bufs m m' r before c other run ih =>
    obtain ⟨reached, reserved, w₀, hname, pieces, progress, full, short⟩ := ih
    have spares := c.spares other reached reserved run
    exact ⟨reached.called c run, reserved.next spares, w₀, hname, pieces,
      progress.rebase (progress.same.2 ▸ spares.pieces), full, short⟩
  | @outside w bufs m m' before change spares ih =>
    obtain ⟨reached, reserved, w₀, hname, pieces, progress, full, short⟩ := ih
    exact ⟨reached.outside change, reserved.next spares, w₀, hname, pieces,
      progress.rebase (progress.same.2 ▸ spares.pieces), full, short⟩

theorem Carries.valueStored {bytes : Bytes} {w' : Writer} (h : Carries inner w bytes m.dev w')
    (pos : 0 < inner.config.chunkSize) (run : Run Served (finish inner w') m (.ok ()) m')
    (chain : inner.chain.Inverts) (fresh : Fresh inner w.key w m.dev)
    (short : bytes.length ≤ MAX_DECODED_BYTES) {v : T} (value : inner.valueOf true bytes = .ok v) :
    inner.valueStored m'.dev (asBytes w.key) = .ok (some v) := by
  have hmax : MAX_DECODED_BYTES < 2 ^ 32 - 1 := by decide
  have hcount := length_chunksOf_le pos bytes
  have count : bytes.length ≤ (2 ^ 32 - 1) * inner.config.chunkSize :=
    (short.trans hmax.le).trans (Nat.le_mul_of_pos_right _ pos)
  obtain ⟨sealed, hall, hstored⟩ := h.pieces_stored pos run count (.inr fresh)
  have hlen : (pointerTo inner w bytes).totalLen.toNat = bytes.length :=
    UInt64.toNat_ofNat_of_lt' (by rw [UInt64.size]; omega)
  have hpieces : (pointerTo inner w bytes).nChunks.toNat =
      (chunksOf inner.config.chunkSize bytes).length :=
    UInt32.toNat_ofNat_of_lt' (by rw [UInt32.size]; omega)
  have within : (pointerTo inner w bytes).Within := by
    rw [ChunkPointer.Within, hlen, hpieces]
    exact ⟨short, hcount⟩
  have flat := Inner.flatten_chunksOf pos bytes
  have assembled : inner.assemble m'.dev (pointerTo inner w bytes) = .ok bytes := by
    rw [assemble_iff chain hall hstored (by omega) (by rw [flat, hlen]), flat]
    exact ⟨rfl, hlen.symm⟩
  have parsed : ChunkPointer.parse (pointerTo inner w bytes).encode = .ok _ :=
    parse_eq_ok.2 ⟨rfl, within⟩
  unfold Inner.valueStored
  rw [h.record pos run]
  dsimp only
  rw [Inner.payloadOf, if_pos (isPointer_encode _), Inner.isRaw, if_pos (isPointer_encode _), parsed]
  simp only [bind, Except.bind, Except.map, assembled]
  rw [show decide ((pointerTo inner w bytes).flags = FLAG_RAW) = true from rfl, value]

/-- A stream that is finished reads back exactly where what is staged for its key says the same, or
nothing is staged there and the stream is not too long to be read. -/
theorem Beside.answers_iff (h : Beside inner name m₀ w bufs m) (pos : 0 < inner.config.chunkSize)
    (reached : LazyLocker.Reached inner m₀) (below : Below m₀.dev (idCursor m₀.dev m₀.mem.shared))
    (chain : inner.chain.Inverts) (run : Run Served (finish inner w) m (.ok ()) m')
    (open_ : m.mem.closed = false) (small : bufs.flatten.length < 2 ^ 64) {v : T}
    (value : inner.valueOf true bufs.flatten = .ok v) :
    Answers inner m' (asBytes name) (.ok (some v)) ↔
      (∃ payload, stagedView m.mem.res.staged (asBytes name) = some (some payload) ∧
        inner.value.ofPayload payload = .ok v) ∨
      stagedView m.mem.res.staged (asBytes name) = none ∧
        bufs.flatten.length ≤ MAX_DECODED_BYTES ∧ (m'.mem.res.lru.isSome = true → ClockRuns m') := by
  obtain ⟨-, reserved, w₀, rfl, carries⟩ := h.carries pos reached below
  obtain ⟨db, w₁, gc, -, -, -, hclosed, -, hstaged, -⟩ := carries.publishes pos run
  cases view : stagedView m.mem.res.staged (asBytes w₀.key) with
  | some write =>
    have gets : Answers inner m' (asBytes w₀.key) (.ok (some v)) ↔ _ :=
      gets_staged_iff (hclosed.trans open_) (by rw [hstaged, view])
    rw [gets]
    simp
  | none =>
    have gets : Answers inner m' (asBytes w₀.key) (.ok (some v)) ↔ _ :=
      gets_iff (hclosed.trans open_) (by rw [hstaged, view])
    rw [gets]
    have fresh : Fresh inner w₀.key w₀ m.dev := by
      obtain ⟨pieces, progress, -⟩ := carries
      obtain ⟨-, hid⟩ := progress.same
      intro p hp
      obtain ⟨raw, hraw, hparse⟩ := pointerIn_eq_some.1 hp
      rw [← hid]
      exact reserved.unpublished _ raw p hraw hparse
    have stored : inner.valueStored m'.dev (asBytes w₀.key) = .ok (some v) ↔
        bufs.flatten.length ≤ MAX_DECODED_BYTES := by
      constructor
      · intro stored
        have within : (pointerTo inner w₀ bufs.flatten).Within :=
          by_contra fun beyond => valueStored_beyond (carries.record pos run) beyond stored
        have hlen : (pointerTo inner w₀ bufs.flatten).totalLen.toNat = bufs.flatten.length :=
          UInt64.toNat_ofNat_of_lt' small
        rw [← hlen]
        exact within.1
      · intro short
        exact carries.valueStored pos run chain fresh short value
    rw [stored]
    simp

end Writer

end
end
end Crossbank
