import Crossbank.Locker.Build
import Crossbank.Locker.TxRead

/-!
# Streamed writes, whole

A writer commits each full piece of what it is given, and publishes a pointer to them at the end. A
piece leaves its buffer before its commit is asked for, so a commit that fails loses the piece, and
the length that is published still counts it.

* `Writer.stream` : the calls of a writer, one after the other, whatever becomes of each;
* `Writer.Progress` : the pieces a writer has stored, and how many bytes it has lost;
* `Writer.flushFull_run`, `Writer.stream_run` : one call of a writer, and all of them;
* `Writer.finish_run`, `Writer.published_iff` : what a finish leaves, and what it is read as;
* `Writer.finish_whole` : when the value that a finish reports stored is read back whole.
-/

namespace Crossbank
open Async

namespace Writer

section
variable {T : Type} (inner : Inner T)

/-- The calls of a writer, one after the other, whatever becomes of each. -/
def stream (w : Writer) : List Bytes → Io (Ram T) (Writer × List (Except Error Unit))
  | [] => pure (w, [])
  | bytes :: rest => do
    let (w, result) ← writeChunk inner w bytes
    let (w, results) ← stream w rest
    pure (w, result :: results)

/-- The chain seals every piece that is cut from the bytes. -/
def Seals (bytes : Bytes) : Prop :=
  ∀ i, (i + 1) * inner.config.chunkSize ≤ bytes.length → ∃ sealed, inner.chain.sealSlice
    ((bytes.drop (i * inner.config.chunkSize)).take inner.config.chunkSize) = .ok sealed

/-- What is stored of the first `n` pieces of a value id. -/
def firstPieces (db : Tables) (id : UInt64) (n : Nat) : List (Option Bytes) :=
  (List.range' 0 n).map fun s => db.lookup .chunks (chunkKey id (UInt32.ofNat s))

/-- What the writer that started as `w₀` has done, given `sofar`, to the store it started on:
`pieces` are stored, sealed, under its value id, and `lost` bytes are in no piece and no longer in the
buffer. -/
structure Progress (start : Tables) (w₀ : Writer) (db : Tables) (w : Writer) (sofar : Bytes)
    (pieces : List Bytes) (lost : Nat) : Prop where
  same : w.key = w₀.key ∧ w.valueId = w₀.valueId
  seq : w.seq = UInt32.ofNat pieces.length
  total : w.totalLen = UInt64.ofNat sofar.length
  size : pieces.flatten.length + lost + w.buf.length = sofar.length
  whole : lost = 0 → pieces.flatten ++ w.buf = sofar
  filled : ∀ piece ∈ pieces, piece ≠ []
  stored : pieces.length < 2 ^ 32 → ∃ sealed,
    List.Forall₂ (fun piece s => inner.chain.sealSlice piece = .ok s) pieces sealed ∧
      firstPieces db w₀.valueId pieces.length = sealed.map some
  frame : ∀ table key, (table = .chunks → (chunkRange w₀.valueId).contains key = false) →
    db.lookup table key = start.lookup table key

end

section
variable {T : Type} {inner : Inner T} {start db : Tables} {w₀ w w' : Writer} {sofar : Bytes}
  {pieces : List Bytes} {lost : Nat} {m m' : Machine Tables (Ram T)}

theorem length_le_flatten {pieces : List Bytes} (filled : ∀ piece ∈ pieces, piece ≠ []) :
    pieces.length ≤ pieces.flatten.length := by
  induction pieces with
  | nil => exact le_rfl
  | cons piece pieces ih =>
    have hpiece : 0 < piece.length := List.length_pos_iff.2 (filled piece List.mem_cons_self)
    have hrest := ih fun p hp => filled p (List.mem_cons_of_mem _ hp)
    rw [List.flatten_cons, List.length_append, List.length_cons]
    omega

theorem Progress.length_le (h : Progress inner start w₀ db w sofar pieces lost) :
    pieces.length ≤ sofar.length := by
  have hfilled := length_le_flatten h.filled
  have hsize := h.size
  omega

theorem Progress.begin (fresh : w.seq = 0) (empty : w.totalLen = 0) (clean : w.buf = []) :
    Progress inner start w start w [] [] 0 where
  same := ⟨rfl, rfl⟩
  seq := fresh
  total := empty
  size := by rw [clean]; rfl
  whole _ := clean
  filled _ h := absurd h List.not_mem_nil
  stored _ := ⟨[], .nil, rfl⟩
  frame _ _ _ := rfl

/-- What others have done to the store does not matter, if they have left the pieces alone. -/
theorem Progress.rebase {db' : Tables} (h : Progress inner start w₀ db w sofar pieces lost)
    (same : ∀ seq, db'.lookup .chunks (chunkKey w₀.valueId seq) =
      db.lookup .chunks (chunkKey w₀.valueId seq)) :
    Progress inner db' w₀ db' w sofar pieces lost :=
  { h with
    stored := fun count => by
      obtain ⟨sealed, hall, hstored⟩ := h.stored count
      refine ⟨sealed, hall, ?_⟩
      rw [← hstored]
      exact List.map_congr_left fun s _ => same _
    frame := fun _ _ _ => rfl }

theorem Progress.extend (h : Progress inner start w₀ db w sofar pieces lost) (bytes : Bytes) :
    Progress inner start w₀ db
      { w with buf := w.buf ++ bytes, totalLen := w.totalLen + UInt64.ofNat bytes.length }
      (sofar ++ bytes) pieces lost where
  same := h.same
  seq := h.seq
  total := by
    dsimp only
    rw [h.total, List.length_append, UInt64.ofNat_add]
  size := by
    dsimp only
    rw [List.length_append, List.length_append]
    have hsize := h.size
    omega
  whole hlost := by
    dsimp only
    rw [← List.append_assoc, h.whole hlost]
  filled := h.filled
  stored := h.stored
  frame := h.frame

theorem Progress.land (h : Progress inner start w₀ db w sofar pieces lost) {piece rest sealed : Bytes}
    (cut : w.buf = piece ++ rest) (filled : piece ≠ [])
    (hsealed : inner.chain.sealSlice piece = .ok sealed) :
    Progress inner start w₀ (db.commit [.put .chunks (chunkKey w.valueId w.seq) sealed])
      { w with buf := rest, seq := w.seq + 1 } sofar (pieces ++ [piece]) lost where
  same := h.same
  seq := by
    dsimp only
    rw [h.seq, List.length_append, UInt32.ofNat_add]
    rfl
  total := h.total
  size := by
    have hsize := h.size
    rw [cut] at hsize
    simp only [List.length_append, List.flatten_append, List.flatten_singleton] at hsize ⊢
    omega
  whole hlost := by
    have hwhole := h.whole hlost
    rw [cut] at hwhole
    simpa using hwhole
  filled p hp := by
    rcases List.mem_append.1 hp with hp | hp
    · exact h.filled p hp
    · rw [List.mem_singleton.1 hp]
      exact filled
  stored hsmall := by
    have hcount : pieces.length + 1 < 2 ^ 32 := by rwa [List.length_append] at hsmall
    obtain ⟨front, hall, hstored⟩ := h.stored (by omega)
    refine ⟨front ++ [sealed], List.rel_append hall (.cons hsealed .nil), ?_⟩
    have hmax : UInt32.size = 2 ^ 32 := rfl
    rw [← h.same.2] at hstored ⊢
    rw [List.map_append, ← hstored, List.length_append, firstPieces, firstPieces]
    rw [List.length_singleton, List.range'_concat, List.map_append, List.map_singleton,
      List.map_singleton, Nat.one_mul, Nat.zero_add]
    congr 1
    · refine List.map_congr_left fun s hs => ?_
      have hs' := List.mem_range'_1.1 hs
      rw [Tables.lookup_commit]
      have hne : chunkKey w.valueId w.seq ≠ chunkKey w.valueId (UInt32.ofNat s) := by
        rw [h.seq]
        intro heq
        have hseq := congrArg UInt32.toNat (chunkKey_inj.1 heq).2
        rw [UInt32.toNat_ofNat_of_lt' (by omega), UInt32.toNat_ofNat_of_lt' (by omega)] at hseq
        omega
      simp [written_cons, Op.written, hne]
    · rw [Tables.lookup_commit, ← h.seq]
      simp [written_cons, Op.written]
  frame table key htable := by
    rw [← h.frame table key htable, Tables.lookup_commit]
    have hnone : written [Op.put .chunks (chunkKey w.valueId w.seq) sealed] table key = none := by
      by_cases ht : table = .chunks
      · have hkey : chunkKey w.valueId w.seq ≠ key := by
          intro heq
          have hout := htable ht
          rw [← heq, ← h.same.2] at hout
          exact absurd hout (by simp)
        simp [written_cons, Op.written, hkey]
      · exact written_of_table fun op hop => by
          rw [List.mem_singleton.1 hop]
          exact fun h => ht h.symm
    rw [hnone]
    rfl

theorem Progress.lose (h : Progress inner start w₀ db w sofar pieces lost) {piece rest : Bytes}
    (cut : w.buf = piece ++ rest) (filled : piece ≠ []) :
    Progress inner start w₀ db { w with buf := rest } sofar pieces (lost + piece.length) where
  same := h.same
  seq := h.seq
  total := h.total
  size := by
    have hsize := h.size
    rw [cut, List.length_append] at hsize
    dsimp only
    omega
  whole hlost := by
    have hpiece : 0 < piece.length := List.length_pos_iff.2 filled
    omega
  filled := h.filled
  stored := h.stored
  frame := h.frame

/-! ## The calls of a writer -/

theorem flushPiece_run {piece : Bytes} {r : Except Error Unit}
    (run : Run Served (flushPiece inner w piece) m r m') :
    (∃ sealed, inner.chain.sealSlice piece = .ok sealed ∧ r = .ok () ∧
      m' = ⟨m.dev.commit [.put .chunks (chunkKey w.valueId w.seq) sealed], m.mem⟩) ∨
    ∃ e, r = .error e ∧ m' = m := by
  unfold flushPiece at run
  rcases run_bind.1 run with ⟨sealed, m₁, hseal, hcommit⟩ | ⟨e, hseal, rfl⟩
  · obtain ⟨hsealed, rfl⟩ := run_ofExcept.1 hseal
    rcases run_innerCommit.1 hcommit with ⟨rfl, rfl⟩ | ⟨e, rfl, rfl⟩
    · exact .inl ⟨sealed, hsealed.symm, rfl, rfl⟩
    · exact .inr ⟨e, rfl, rfl⟩
  · exact .inr ⟨e, rfl, (run_ofExcept.1 hseal).2⟩

theorem answered_flushPiece {piece sealed : Bytes}
    (hsealed : inner.chain.sealSlice piece = .ok sealed) :
    Run Answered (flushPiece inner w piece) m (.ok ())
      ⟨m.dev.commit [.put .chunks (chunkKey w.valueId w.seq) sealed], m.mem⟩ :=
  run_bind.2 (.inl ⟨sealed, m, run_ofExcept.2 ⟨hsealed.symm, rfl⟩, answered_commitWith.2 ⟨rfl, rfl⟩⟩)

/-- The pieces of a writer are full ones. -/
def Full (inner : Inner T) (pieces : List Bytes) : Prop :=
  ∀ piece ∈ pieces, piece.length = inner.config.chunkSize

theorem Full.concat (h : Full inner pieces) {piece : Bytes}
    (hpiece : piece.length = inner.config.chunkSize) : Full inner (pieces ++ [piece]) := by
  intro p hp
  rcases List.mem_append.1 hp with hp | hp
  · exact h p hp
  · rw [List.mem_singleton.1 hp]
    exact hpiece

/-- One call stores its full pieces, or loses one. -/
theorem flushFull_run (pos : 0 < inner.config.chunkSize) {fuel : Nat} {r : Except Error Unit}
    (h : Progress inner start w₀ m.dev w sofar pieces lost) (full : Full inner pieces)
    (run : Run Served (flushFull inner fuel w) m (.ok (w', r)) m') :
    ∃ pieces' lost', Progress inner start w₀ m'.dev w' sofar pieces' lost' ∧ Full inner pieces' ∧
      m'.mem = m.mem ∧
      ((r = .ok () ∧ lost' = lost ∧ w'.buf.length < inner.config.chunkSize ∧
          Run Answered (flushFull inner fuel w) m (.ok (w', r)) m') ∨
        ((∃ e, r = .error e) ∧ lost < lost')) := by
  induction fuel generalizing w m pieces with
  | zero => exact run.elim
  | succ fuel ih =>
    rw [flushFull] at run ⊢
    split at run
    · next hlen =>
      rw [if_pos hlen]
      have hpiece : (w.buf.take inner.config.chunkSize).length = inner.config.chunkSize := by
        rw [List.length_take]
        omega
      have hfilled : w.buf.take inner.config.chunkSize ≠ [] := by
        rw [← List.length_pos_iff]
        omega
      have hcut : w.buf = w.buf.take inner.config.chunkSize ++ w.buf.drop inner.config.chunkSize :=
        (List.take_append_drop _ _).symm
      obtain ⟨x, m₁, hflush, hrest⟩ := run_attempt_bind.1 run
      rcases flushPiece_run hflush with ⟨sealed, hsealed, rfl, rfl⟩ | ⟨e, rfl, rfl⟩
      · obtain ⟨pieces', lost', h', full', hmem, hr⟩ :=
          ih (h.land hcut hfilled hsealed) (full.concat hpiece) hrest
        refine ⟨pieces', lost', h', full', hmem, hr.imp (fun done => ?_) id⟩
        obtain ⟨hr, hlost, hshort, answered⟩ := done
        exact ⟨hr, hlost, hshort,
          run_attempt_bind.2 ⟨.ok (), _, answered_flushPiece hsealed, answered⟩⟩
      · obtain ⟨hw, rfl⟩ := run_pure.1 hrest
        obtain ⟨rfl, rfl⟩ := Prod.mk.inj (Except.ok.inj hw)
        exact ⟨pieces, _, h.lose hcut hfilled, full, rfl, .inr ⟨⟨e, rfl⟩, by omega⟩⟩
    · next hlen =>
      rw [if_neg hlen]
      obtain ⟨hw, rfl⟩ := run_pure.1 run
      obtain ⟨rfl, rfl⟩ := Prod.mk.inj (Except.ok.inj hw)
      exact ⟨pieces, lost, h, full, rfl, .inl ⟨rfl, rfl, by omega, run_pure.2 ⟨rfl, rfl⟩⟩⟩

/-- All calls of a writer. They lose nothing where the backend answers each of them. -/
theorem stream_run (pos : 0 < inner.config.chunkSize) {bufs : List Bytes}
    {results : List (Except Error Unit)} (h : Progress inner start w₀ m.dev w sofar pieces lost)
    (full : Full inner pieces) (run : Run Served (stream inner w bufs) m (.ok (w', results)) m') :
    ∃ pieces' lost', Progress inner start w₀ m'.dev w' (sofar ++ bufs.flatten) pieces' lost' ∧
      Full inner pieces' ∧ m'.mem = m.mem ∧ lost ≤ lost' ∧
      (lost' = lost → w.buf.length < inner.config.chunkSize →
        w'.buf.length < inner.config.chunkSize) ∧
      (lost' = lost → Run Answered (stream inner w bufs) m (.ok (w', results)) m') ∧
      ((∀ x ∈ results, x = .ok ()) → lost' = lost) := by
  induction bufs generalizing w m sofar pieces lost results with
  | nil =>
    obtain ⟨hw, rfl⟩ := run_pure.1 run
    obtain ⟨rfl, rfl⟩ := Prod.mk.inj (Except.ok.inj hw)
    refine ⟨pieces, lost, ?_, full, rfl, le_rfl, fun _ h => h, fun _ => run_pure.2 ⟨rfl, rfl⟩,
      fun _ => rfl⟩
    rw [List.flatten_nil, List.append_nil]
    exact h
  | cons bytes bufs ih =>
    obtain ⟨⟨w₁, result⟩, m₁, hchunk, hrest⟩ := run_bind_ok.1 run
    obtain ⟨⟨w₂, results'⟩, m₂, hstream, hlast⟩ := run_bind_ok.1 hrest
    obtain ⟨hw, rfl⟩ := run_pure.1 hlast
    obtain ⟨rfl, rfl⟩ := Prod.mk.inj (Except.ok.inj hw)
    obtain ⟨pieces₁, lost₁, h₁, full₁, hmem₁, hr⟩ :=
      flushFull_run pos (h.extend bytes) full hchunk
    obtain ⟨pieces₂, lost₂, h₂, full₂, hmem₂, hle, hshort, hanswered, hok⟩ := ih h₁ full₁ hstream
    rw [List.append_assoc, ← List.flatten_cons] at h₂
    refine ⟨pieces₂, lost₂, h₂, full₂, hmem₂.trans hmem₁, ?_⟩
    rcases hr with ⟨rfl, rfl, hbuf, answered⟩ | ⟨⟨e, rfl⟩, hlt⟩
    · refine ⟨hle, fun heq _ => hshort heq hbuf, fun heq => ?_, fun hall => ?_⟩
      · exact run_bind.2 (.inl ⟨_, m₁, answered, run_bind.2 (.inl ⟨_, _, hanswered heq,
          run_pure.2 ⟨rfl, rfl⟩⟩)⟩)
      · exact hok fun x hx => hall x (List.mem_cons_of_mem _ hx)
    · refine ⟨by omega, fun heq => by omega, fun heq => by omega, fun hall => ?_⟩
      cases hall _ List.mem_cons_self

/-! ## Which pieces are cut -/

theorem Full.length_flatten (full : Full inner pieces) :
    pieces.flatten.length = pieces.length * inner.config.chunkSize := by
  induction pieces with
  | nil => simp
  | cons piece pieces ih =>
    rw [List.flatten_cons, List.length_append, full piece List.mem_cons_self,
      ih fun p hp => full p (List.mem_cons_of_mem _ hp), List.length_cons, Nat.succ_mul]
    omega

theorem Full.slice (full : Full inner pieces) {i : Nat} {piece : Bytes}
    (h : pieces[i]? = some piece) (tail : Bytes) :
    ((pieces.flatten ++ tail).drop (i * inner.config.chunkSize)).take inner.config.chunkSize =
      piece := by
  induction pieces generalizing i with
  | nil => simp at h
  | cons first pieces ih =>
    have hfirst := full first List.mem_cons_self
    rw [List.flatten_cons, List.append_assoc]
    cases i with
    | zero =>
      obtain rfl : first = piece := by simpa using h
      rw [Nat.zero_mul, List.drop_zero, ← hfirst, List.take_left]
    | succ i =>
      have hskip : (i + 1) * inner.config.chunkSize =
          first.length + i * inner.config.chunkSize := by
        rw [hfirst, Nat.succ_mul]
        omega
      rw [hskip, ← List.drop_drop, List.drop_left]
      exact ih (fun p hp => full p (List.mem_cons_of_mem _ hp)) (by simpa using h)

theorem sealed_of_mem {sealed : List Bytes} {piece : Bytes}
    (hall : List.Forall₂ (fun piece s => inner.chain.sealSlice piece = .ok s) pieces sealed)
    (h : piece ∈ pieces) : ∃ s, inner.chain.sealSlice piece = .ok s := by
  induction hall with
  | nil => cases h
  | cons hs _ ih =>
    rcases List.mem_cons.1 h with rfl | h
    · exact ⟨_, hs⟩
    · exact ih h

/-- What a writer that lost nothing has cut, the chain has sealed. -/
theorem Progress.seals (h : Progress inner start w₀ db w sofar pieces 0)
    (full : Full inner pieces) (small : sofar.length < 2 ^ 32)
    (short : w.buf.length < inner.config.chunkSize) : Seals inner sofar := by
  intro i hi
  obtain ⟨sealed, hall, -⟩ := h.stored (by have hcount := h.length_le; omega)
  have hwhole := h.whole rfl
  have hlt : i < pieces.length := by
    rw [← hwhole, List.length_append, full.length_flatten] at hi
    have hmul : i * inner.config.chunkSize < pieces.length * inner.config.chunkSize := by
      rw [Nat.succ_mul] at hi
      omega
    exact Nat.lt_of_mul_lt_mul_right hmul
  have hpiece : pieces[i]? = some pieces[i] := List.getElem?_eq_getElem hlt
  rw [← hwhole, full.slice hpiece]
  exact sealed_of_mem hall (List.getElem_mem hlt)

theorem answered_flushFull {fuel : Nat} {r : Except Error Unit} (done rest : Bytes) (n : Nat)
    (seals : Seals inner (done ++ (w.buf ++ rest)))
    (aligned : done.length = n * inner.config.chunkSize)
    (run : Run Answered (flushFull inner fuel w) m (.ok (w', r)) m') : r = .ok () := by
  induction fuel generalizing w m done n with
  | zero => exact run.elim
  | succ fuel ih =>
    rw [flushFull] at run
    split at run
    · next hlen =>
      have hpiece : (w.buf.take inner.config.chunkSize).length = inner.config.chunkSize := by
        rw [List.length_take]
        omega
      obtain ⟨sealed, hsealed⟩ := seals n (by
        rw [Nat.succ_mul, List.length_append, List.length_append]
        omega)
      rw [← aligned, List.drop_left, List.take_append_of_le_length hlen] at hsealed
      obtain ⟨x, m₁, hflush, hrest⟩ := run_attempt_bind.1 run
      obtain ⟨rfl, rfl⟩ := Run.det Answered.one hflush (answered_flushPiece hsealed)
      refine ih (done ++ w.buf.take inner.config.chunkSize) (n + 1) ?_ ?_ hrest
      · dsimp only
        rwa [List.append_assoc, ← List.append_assoc (w.buf.take _), List.take_append_drop]
      · rw [List.length_append, aligned, hpiece, Nat.succ_mul]
    · obtain ⟨hw, -⟩ := run_pure.1 run
      exact (Prod.mk.inj (Except.ok.inj hw)).2

theorem answered_stream (pos : 0 < inner.config.chunkSize) {bufs : List Bytes}
    {results : List (Except Error Unit)} (h : Progress inner start w₀ m.dev w sofar pieces 0)
    (full : Full inner pieces) (seals : Seals inner (sofar ++ bufs.flatten))
    (run : Run Answered (stream inner w bufs) m (.ok (w', results)) m') :
    ∀ x ∈ results, x = .ok () := by
  induction bufs generalizing w m sofar pieces results with
  | nil =>
    obtain ⟨hw, -⟩ := run_pure.1 run
    obtain ⟨-, rfl⟩ := Prod.mk.inj (Except.ok.inj hw)
    exact fun x hx => absurd hx List.not_mem_nil
  | cons bytes bufs ih =>
    obtain ⟨⟨w₁, result⟩, m₁, hchunk, hrest⟩ := run_bind_ok.1 run
    obtain ⟨⟨w₂, results'⟩, m₂, hstream, hlast⟩ := run_bind_ok.1 hrest
    obtain ⟨hw, rfl⟩ := run_pure.1 hlast
    obtain ⟨rfl, rfl⟩ := Prod.mk.inj (Except.ok.inj hw)
    rw [List.flatten_cons, ← List.append_assoc] at seals
    have hwhole := (h.extend bytes).whole rfl
    have hresult : result = .ok () := by
      refine answered_flushFull pieces.flatten bufs.flatten _ ?_ full.length_flatten hchunk
      rwa [← List.append_assoc, hwhole]
    obtain ⟨pieces₁, lost₁, h₁, full₁, -, hr⟩ :=
      flushFull_run pos (h.extend bytes) full (Answered.served hchunk)
    rcases hr with ⟨-, rfl, -⟩ | ⟨⟨e, he⟩, -⟩
    · intro x hx
      rcases List.mem_cons.1 hx with rfl | hx
      · exact hresult
      · exact ih h₁ full₁ seals hstream x hx
    · rw [hresult] at he
      cases he

/-! ## What a finish leaves -/

def pointer (w : Writer) : ChunkPointer := ⟨w.valueId, w.seq, w.totalLen, FLAG_RAW⟩

def SeenAlike (a b : Ram T) : Prop :=
  a.closed = b.closed ∧ a.shared.ticks = b.shared.ticks ∧ a.res.staged = b.res.staged ∧
    a.res.lru = b.res.lru

def leftover (inner : Inner T) (w : Writer) : Io (Ram T) Writer :=
  if w.buf.isEmpty then pure w else do
    flushPiece inner w w.buf
    pure { w with buf := [], seq := w.seq + 1 }

def publish (inner : Inner T) (w : Writer) : Io (Ram T) Unit := do
  let existing ← inner.fetch (asBytes w.key)
  let gc ← Prog.ofExcept (Inner.gcExisting existing)
  inner.commit (gc ++ [.put .records (inner.encodeKey (asBytes w.key)) (pointer w).encode])
  Prog.update (Ram.mapRes (·.touchIndex (·.insert (asBytes w.key))))
  Prog.update (Ram.mapRes (·.noteInline (asBytes w.key) false))
  Prog.update (Ram.announce (.put (asBytes w.key)))

theorem finish_eq : finish inner w = leftover inner w >>= publish inner := by
  unfold finish leftover
  split
  · rfl
  · rw [bind_assoc]
    rfl

/-- The last piece, if there is one, is stored before anything else. -/
theorem leftover_run {x : Except Error Writer} (h : Progress inner start w₀ m.dev w sofar pieces lost)
    (run : Run Served (leftover inner w) m x m') :
    m'.mem = m.mem ∧ ∃ w₁ pieces', Progress inner start w₀ m'.dev w₁ sofar pieces' lost ∧
      ∀ w₂, x = .ok w₂ → w₂ = w₁ ∧ w₁.buf = [] ∧
        pieces' = pieces ++ if w.buf = [] then [] else [w.buf] := by
  unfold leftover at run
  split at run
  · next hempty =>
    obtain ⟨rfl, rfl⟩ := run_pure.1 run
    refine ⟨rfl, w, pieces, h, fun w₂ hw₂ => ?_⟩
    obtain rfl := Except.ok.inj hw₂
    have hbuf := List.isEmpty_iff.1 hempty
    rw [if_pos hbuf, List.append_nil]
    exact ⟨rfl, hbuf, rfl⟩
  · next hfull =>
    have hne : w.buf ≠ [] := fun h => hfull (List.isEmpty_iff.2 h)
    rcases run_bind.1 run with ⟨u, m₁, hflush, hpure⟩ | ⟨e, hflush, rfl⟩
    · obtain ⟨rfl, rfl⟩ := run_pure.1 hpure
      rcases flushPiece_run hflush with ⟨sealed, hsealed, -, rfl⟩ | ⟨e, he, -⟩
      · refine ⟨rfl, _, _, h.land (List.append_nil _).symm hne hsealed, fun w₂ hw₂ => ?_⟩
        rw [if_neg hne]
        exact ⟨(Except.ok.inj hw₂).symm, rfl, rfl⟩
      · cases he
    · rcases flushPiece_run hflush with ⟨sealed, -, he, -⟩ | ⟨e', -, rfl⟩
      · cases he
      · exact ⟨rfl, w, pieces, h, fun w₂ hw₂ => by cases hw₂⟩

/-- A finish that fails has stored pieces at most. One that succeeds publishes the pointer in the
commit that collects what was under the key. -/
theorem finish_run {r : Except Error Unit} (h : Progress inner start w₀ m.dev w sofar pieces lost)
    (run : Run Served (finish inner w) m r m') :
    ∃ db w₁ pieces', Progress inner start w₀ db w₁ sofar pieces' lost ∧
      ((∃ e, r = .error e ∧ m' = ⟨db, m.mem⟩) ∨
        ∃ gc, r = .ok () ∧ w₁.buf = [] ∧ pieces' = pieces ++ (if w.buf = [] then [] else [w.buf]) ∧
          Inner.gcExisting (db.lookup .records (inner.encodeKey (asBytes w₀.key))) = .ok gc ∧
          m'.dev = db.commit (gc ++ [.put .records (inner.encodeKey (asBytes w₀.key))
            (pointer w₁).encode]) ∧ SeenAlike m'.mem m.mem) := by
  rw [finish_eq] at run
  rcases run_bind.1 run with ⟨w₁, m₁, hleft, hrest⟩ | ⟨e, hleft, rfl⟩
  · obtain ⟨hmem, w₂, pieces', h₁, hw⟩ := leftover_run h hleft
    obtain ⟨rfl, hbuf, hpieces⟩ := hw w₁ rfl
    refine ⟨m₁.dev, w₁, pieces', h₁, ?_⟩
    rw [publish, h₁.same.1] at hrest
    rcases run_bind.1 hrest with ⟨existing, m₂, hfetch, hgc⟩ | ⟨e, hfetch, rfl⟩
    · obtain ⟨rfl, hexisting⟩ := run_get.1 hfetch
      obtain rfl := hexisting existing rfl
      rcases run_bind.1 hgc with ⟨gc, m₃, hparse, hcommit⟩ | ⟨e, hparse, rfl⟩
      · obtain ⟨hparse, rfl⟩ := run_ofExcept.1 hparse
        rcases run_bind.1 hcommit with ⟨u, m₄, hland, hafter⟩ | ⟨e, hland, rfl⟩
        · rcases run_innerCommit.1 hland with ⟨-, rfl⟩ | ⟨e, he, -⟩
          · rw [run_update_bind, run_update_bind] at hafter
            obtain ⟨rfl, rfl⟩ := run_update.1 hafter
            refine .inr ⟨gc, rfl, hbuf, hpieces, hparse.symm, rfl, ?_⟩
            rw [← hmem]
            exact ⟨rfl, rfl, rfl, rfl⟩
          · cases he
        · rcases run_innerCommit.1 hland with ⟨he, -⟩ | ⟨e', -, rfl⟩
          · cases he
          · exact .inl ⟨e, rfl, by rw [← hmem]⟩
      · obtain ⟨-, rfl⟩ := run_ofExcept.1 hparse
        exact .inl ⟨e, rfl, by rw [← hmem]⟩
    · obtain ⟨rfl, -⟩ := run_get.1 hfetch
      exact .inl ⟨e, rfl, by rw [← hmem]⟩
  · obtain ⟨hmem, w₂, pieces', h₁, -⟩ := leftover_run h hleft
    exact ⟨m'.dev, w₂, pieces', h₁, .inl ⟨e, rfl, by rw [← hmem]⟩⟩

/-! ## What is read back -/

theorem not_contains_chunkRange {a b : UInt64} {seq : UInt32} (h : a ≠ b) :
    (chunkRange a).contains (chunkKey b seq) = false := by
  rw [← Bool.not_eq_true, contains_chunkRange_chunkKey]
  exact h

/-- Stored pieces are read as what was cut, if it has the length that is published. -/
theorem assemble_iff (inverts : inner.chain.Inverts) {p : ChunkPointer} {sealed : List Bytes}
    (hall : List.Forall₂ (fun piece s => inner.chain.sealSlice piece = .ok s) pieces sealed)
    (stored : Inner.storedPieces db p = sealed.map some) (small : p.totalLen.toNat ≤ MAX_DECODED_BYTES)
    (le : pieces.flatten.length ≤ p.totalLen.toNat) {payload : Bytes} :
    inner.assemble db p = .ok payload ↔
      payload = pieces.flatten ∧ pieces.flatten.length = p.totalLen.toNat := by
  rw [Inner.assemble, stored, inner.appendPieces_sealed inverts hall small (by simpa using le),
    List.nil_append]
  simp only [bind, Except.bind]
  split
  · next hne => exact ⟨fun h => (by cases h), fun h => absurd h.2 hne⟩
  · next heq =>
    rw [not_not] at heq
    exact ⟨fun h => ⟨(Except.ok.inj h).symm, heq⟩, fun h => by rw [h.1]⟩

/-- The pieces of a value id stay through the commit that publishes them, unless it collects them. -/
theorem firstPieces_published {existing : Option Bytes} {id : UInt64} {gc : List Op}
    {key record : Bytes} (hgc : Inner.gcExisting existing = .ok gc)
    (other : ∀ p, pointerIn existing = some p → p.valueId ≠ id) (n : Nat) :
    firstPieces (db.commit (gc ++ [.put .records key record])) id n = firstPieces db id n := by
  obtain rfl := gcExisting_eq_ok hgc
  refine List.map_congr_left fun s _ => ?_
  rw [Tables.lookup_commit, written_append]
  cases hp : pointerIn existing with
  | none => simp [written_cons, Op.written]
  | some p => simp [written_cons, Op.written, gcOps, other p hp]

theorem firstPieces_collected {existing : Option Bytes} {p : ChunkPointer} {gc : List Op}
    (db : Tables) (key record : Bytes) (hgc : Inner.gcExisting existing = .ok gc)
    (own : pointerIn existing = some p) {n : Nat} (hn : n ≠ 0) : ∃ rest,
    firstPieces (db.commit (gc ++ [.put .records key record])) p.valueId n = none :: rest := by
  obtain rfl := gcExisting_eq_ok hgc
  obtain ⟨n, rfl⟩ := Nat.exists_eq_succ_of_ne_zero hn
  rw [firstPieces, List.range'_succ, List.map_cons]
  refine ⟨_, congrArg (· :: _) ?_⟩
  rw [Tables.lookup_commit, written_append, own]
  simp [written_cons, Op.written, gcOps]

theorem lookup_published {existing : Option Bytes} {gc : List Op} {key record : Bytes}
    (hgc : Inner.gcExisting existing = .ok gc) :
    (db.commit (gc ++ [.put .records key record])).lookup .records key = some record := by
  obtain rfl := gcExisting_eq_ok hgc
  rw [Tables.lookup_commit, written_append]
  simp [written_cons, Op.written]

theorem lookup_published_meta {existing : Option Bytes} {gc : List Op} {key record row : Bytes}
    (hgc : Inner.gcExisting existing = .ok gc) :
    (db.commit (gc ++ [.put .records key record])).lookup .meta row = db.lookup .meta row := by
  obtain rfl := gcExisting_eq_ok hgc
  rw [Tables.lookup_commit, written_of_table]
  · rfl
  · intro op hop
    rcases List.mem_append.1 hop with hop | hop
    · obtain ⟨p, -, rfl⟩ := List.mem_map.1 hop
      simp [gcOps, Op.table]
    · rw [List.mem_singleton.1 hop]
      simp [Op.table]

theorem length_of_assemble {p : ChunkPointer} {payload : Bytes}
    (h : inner.assemble db p = .ok payload) : payload.length = p.totalLen.toNat := by
  obtain ⟨out, -, hout⟩ := bind_eq_ok.1 h
  split at hout
  · cases hout
  · next heq =>
    rw [not_not] at heq
    rwa [← Except.ok.inj hout]

/-- The value of a pointer to raw bytes is what its pieces assemble to. -/
theorem valueStored_raw {inner : Inner Bytes} (wraps : inner.value.Wraps) {key : Bytes}
    {p : ChunkPointer} (record : db.lookup .records (inner.encodeKey key) = some p.encode)
    (raw : p.flags = FLAG_RAW) (within : p.Within) {v : Bytes} :
    inner.valueStored db key = .ok (some v) ↔ inner.assemble db p = .ok v := by
  have hvalue {payload : Bytes} (h : inner.assemble db p = .ok payload) :
      inner.valueOf true payload = .ok payload := by
    obtain ⟨wrapped, hwrap, hfrom⟩ := wraps payload (by
      rw [length_of_assemble h]
      exact within.1)
    rw [Inner.valueOf, if_pos rfl, hwrap]
    dsimp only
    rw [hfrom]
  have hparse : ChunkPointer.parse p.encode = .ok p := parse_eq_ok.2 ⟨rfl, within⟩
  have hraw : Inner.isRaw p.encode = .ok true := by
    rw [Inner.isRaw, if_pos (isPointer_encode p), hparse]
    simp [Except.map, raw]
  have hpayload : inner.payloadOf db p.encode = inner.assemble db p := by
    rw [Inner.payloadOf, if_pos (isPointer_encode p), hparse]
    rfl
  unfold Inner.valueStored
  rw [record]
  dsimp only
  rw [hpayload, hraw]
  cases hassemble : inner.assemble db p with
  | error e => simp [bind, Except.bind]
  | ok payload => simp [bind, Except.bind, hvalue hassemble]

theorem valueStored_beyond {key : Bytes} {p : ChunkPointer} {v : T}
    (record : db.lookup .records (inner.encodeKey key) = some p.encode) (beyond : ¬ p.Within) :
    inner.valueStored db key ≠ .ok (some v) := by
  intro h
  unfold Inner.valueStored Inner.payloadOf at h
  rw [record] at h
  dsimp only at h
  rw [if_pos (isPointer_encode p)] at h
  obtain ⟨payload, hpayload, -⟩ := bind_eq_ok.1 h
  obtain ⟨q, hparse, -⟩ := bind_eq_ok.1 hpayload
  obtain ⟨hencode, hwithin⟩ := parse_eq_ok.1 hparse
  rw [encode_inj hencode] at beyond
  exact beyond hwithin

/-- The pointer that is published, while the length is one that a reader accepts. -/
theorem Progress.within (h : Progress inner start w₀ db w sofar pieces lost)
    (small : sofar.length ≤ MAX_DECODED_BYTES) :
    (pointer w).Within ∧ (pointer w).totalLen.toNat = sofar.length ∧
      (pointer w).nChunks.toNat = pieces.length := by
  have hmax : MAX_DECODED_BYTES < 2 ^ 32 := by decide
  have hle := h.length_le
  have hcount : (pointer w).nChunks.toNat = pieces.length := by
    rw [pointer, h.seq]
    exact UInt32.toNat_ofNat_of_lt' (by rw [UInt32.size]; omega)
  have htotal : (pointer w).totalLen.toNat = sofar.length := by
    rw [pointer, h.total]
    exact UInt64.toNat_ofNat_of_lt' (by rw [UInt64.size]; omega)
  rw [ChunkPointer.Within, htotal, hcount]
  exact ⟨⟨small, hle⟩, rfl, rfl⟩

/-- What a successful finish leaves under the key reads as exactly what the writer was given when
nothing was lost, the length is one that a reader accepts, and what was collected was not its own. -/
theorem published_iff {inner : Inner Bytes} (inverts : inner.chain.Inverts)
    (wraps : inner.value.Wraps) (h : Progress inner start w₀ db w sofar pieces lost)
    (clean : w.buf = []) {gc : List Op}
    (hgc : Inner.gcExisting (db.lookup .records (inner.encodeKey (asBytes w₀.key))) = .ok gc)
    (small : sofar.length < 2 ^ 64) {v : Bytes} :
    inner.valueStored (db.commit (gc ++ [.put .records (inner.encodeKey (asBytes w₀.key))
        (pointer w).encode])) (asBytes w₀.key) = .ok (some v) ↔
      v = sofar ∧ sofar.length ≤ MAX_DECODED_BYTES ∧ lost = 0 ∧
        ∀ p, pointerIn (start.lookup .records (inner.encodeKey (asBytes w₀.key))) = some p →
          p.valueId = w₀.valueId → sofar = [] := by
  set db' := db.commit (gc ++ [.put .records (inner.encodeKey (asBytes w₀.key)) (pointer w).encode])
  have hrecord : db'.lookup .records (inner.encodeKey (asBytes w₀.key)) = some (pointer w).encode :=
    lookup_published hgc
  have htotal : (pointer w).totalLen.toNat = sofar.length := by
    rw [pointer, h.total]
    exact UInt64.toNat_ofNat_of_lt' small
  have hbefore := h.frame .records (inner.encodeKey (asBytes w₀.key)) (fun h => by cases h)
  rw [hbefore] at hgc
  have hsize := h.size
  rw [clean, List.length_nil, Nat.add_zero] at hsize
  by_cases hlen : sofar.length ≤ MAX_DECODED_BYTES
  · have hmax : MAX_DECODED_BYTES < 2 ^ 32 := by decide
    have hle := h.length_le
    obtain ⟨hwithin, -, hcount⟩ := h.within hlen
    obtain ⟨sealed, hall, hstored⟩ := h.stored (by omega)
    have hpieces : Inner.storedPieces db' (pointer w) = firstPieces db' w₀.valueId pieces.length := by
      rw [Inner.storedPieces, hcount, firstPieces, ← h.same.2]
      rfl
    rw [valueStored_raw wraps hrecord rfl hwithin]
    by_cases own : pieces ≠ [] ∧ ∃ p, pointerIn (start.lookup .records
        (inner.encodeKey (asBytes w₀.key))) = some p ∧ p.valueId = w₀.valueId
    · obtain ⟨hne, p, hp, hid⟩ := own
      obtain ⟨rest, hrest⟩ := firstPieces_collected db (inner.encodeKey (asBytes w₀.key))
        (pointer w).encode hgc hp (fun h0 => hne (List.eq_nil_of_length_eq_zero h0))
      rw [hid] at hrest
      rw [Inner.assemble, hpieces, hrest]
      constructor
      · intro hassemble
        cases hassemble
      · rintro ⟨-, -, -, hown⟩
        have hnil := hown p hp hid
        rw [hnil, List.length_nil] at hle
        exact absurd (List.eq_nil_of_length_eq_zero (Nat.le_zero.1 hle)) hne
    · have hkept : firstPieces db' w₀.valueId pieces.length =
          firstPieces db w₀.valueId pieces.length := by
        by_cases hnil : pieces = []
        · rw [hnil]
          rfl
        · exact firstPieces_published hgc (fun p hp hid => own ⟨hnil, p, hp, hid⟩) _
      rw [hkept, hstored] at hpieces
      rw [assemble_iff inverts hall hpieces (by omega) (by omega), htotal]
      constructor
      · rintro ⟨rfl, heq⟩
        have hlost : lost = 0 := by omega
        have hwhole := h.whole hlost
        rw [clean, List.append_nil] at hwhole
        refine ⟨hwhole, hlen, hlost, fun p hp hid => ?_⟩
        have hnil : pieces = [] := by
          by_contra hne
          exact own ⟨hne, p, hp, hid⟩
        rw [← hwhole, hnil]
        rfl
      · rintro ⟨rfl, -, rfl, -⟩
        have hwhole := h.whole rfl
        rw [clean, List.append_nil] at hwhole
        exact ⟨hwhole.symm, by rw [hwhole]⟩
  · constructor
    · intro hvalue
      refine absurd hvalue (valueStored_beyond hrecord fun within => hlen ?_)
      rw [← htotal]
      exact within.1
    · intro hr
      exact absurd hr.2.1 hlen

end

/-! ## A whole stream -/

section
variable {T : Type} {inner : Inner T} {db : Tables} {m m' : Machine Tables (Ram T)} {key : Bytes}

/-- A get of the key, answered, returns the value. -/
def Gets (inner : Inner T) (key : Bytes) (m : Machine Tables (Ram T)) (v : T) : Prop :=
  ∃ m', Run Answered (LazyLocker.getBy inner key) m (.ok (some v)) m'

theorem gets_iff (open_ : m.mem.closed = false)
    (unstaged : stagedView m.mem.res.staged key = none) {v : T} :
    Gets inner key m v ↔
      inner.valueStored m.dev key = .ok (some v) ∧ (m.mem.res.lru.isSome = true → ClockRuns m) :=
  getBy_value_iff open_ unstaged

/-- Where something is staged, it is what a get looks at. -/
theorem gets_staged_iff (open_ : m.mem.closed = false) {view : Option Bytes}
    (hstaged : stagedView m.mem.res.staged key = some view) {v : T} :
    Gets inner key m v ↔ ∃ payload, view = some payload ∧ inner.value.ofPayload payload = .ok v := by
  unfold Gets
  simp only [getBy_iff open_, hstaged]
  cases view with
  | none => simp
  | some payload =>
    simp only [run_ofExcept, exists_eq_right, Option.some.injEq, exists_eq_left']
    cases inner.value.ofPayload payload with
    | error e => simp [Except.map]
    | ok v' => simp [Except.map, eq_comm]

/-- A get returns what it did while the stored value and what it looks at in memory stay. -/
theorem Gets.congr {v : T} (h : Gets inner key m v) (open_ : m.mem.closed = false)
    (alike : SeenAlike m'.mem m.mem)
    (value : inner.valueStored m'.dev key = inner.valueStored m.dev key)
    (row : m'.dev.lookup .meta META_NEXT_TICK = m.dev.lookup .meta META_NEXT_TICK) :
    Gets inner key m' v := by
  obtain ⟨hclosed, hticks, hstaged, hlru⟩ := alike
  have open' : m'.mem.closed = false := hclosed.trans open_
  cases hview : stagedView m.mem.res.staged key with
  | some view =>
    rw [gets_staged_iff open' (by rw [hstaged, hview])]
    exact (gets_staged_iff open_ hview).1 h
  | none =>
    obtain ⟨hvalue, clock⟩ := (gets_iff open_ hview).1 h
    rw [gets_iff open' (by rw [hstaged, hview]), value, hlru]
    exact ⟨hvalue, fun h => clockRuns_congr hticks row (clock h)⟩

/-- A writer starts with an id that is not below the cursor, and touches nothing but the counter. -/
theorem writer_run {name : String} {w : Writer}
    (run : Run Served (LazyLocker.writer inner name) m (.ok w) m') :
    m.mem.closed = false ∧ (w.key = name ∧ w.seq = 0 ∧ w.totalLen = 0 ∧ w.buf = []) ∧
      idCursor m.dev m.mem.shared ≤ w.valueId.toNat ∧ SeenAlike m'.mem m.mem ∧
      ∀ table key, (table = .meta → key ≠ META_NEXT_VALUE_ID) →
        m'.dev.lookup table key = m.dev.lookup table key := by
  obtain ⟨u, m₁, hopen, hlocked⟩ := run_bind_ok.1 run
  obtain ⟨hclosed, rfl⟩ := run_ensureOpen.1 hopen
  have open_ : m₁.mem.closed = false := by
    cases hc : m₁.mem.closed with
    | false => rfl
    | true => simp [hc] at hclosed
  obtain ⟨-, m₂, hstart, rfl⟩ := run_withWriteLock.1 hlocked
  unfold start at hstart
  obtain ⟨id, m₃, hid, hrest⟩ := run_bind_ok.1 hstart
  obtain ⟨m₄, hallocate, rfl⟩ := draws_allocateValueId.run_zoom_iff.1 hid
  obtain ⟨next, rfl, hcursor, -⟩ := allocate_run hallocate
  rw [run_read_bind] at hrest
  dsimp only at hrest
  rw [show ValueIds.counterOp _ = some (counterOpFor next) from rfl] at hrest
  obtain ⟨u, m₅, hcommit, hpure⟩ := run_bind_ok.1 hrest
  obtain ⟨hw, rfl⟩ := run_pure.1 hpure
  obtain rfl := Except.ok.inj hw
  rcases run_innerCommit.1 hcommit with ⟨-, rfl⟩ | ⟨e, he, -⟩
  · refine ⟨open_, ⟨rfl, rfl, rfl, rfl⟩, hcursor, ⟨rfl, rfl, rfl, rfl⟩, fun table key hkey => ?_⟩
    dsimp only
    rw [Tables.lookup_commit]
    have hnone : written [counterOpFor next] table key = none := by
      rw [written_cons, written_nil, Option.none_or, counterOpFor, Op.written, if_neg]
      rintro ⟨rfl, rfl⟩
      exact hkey rfl rfl
    rw [hnone]
    rfl
  · cases he

def okBytes : List Bytes → List (Except Error Unit) → Bytes
  | bytes :: bufs, result :: results =>
    (if result.isOk then bytes else []) ++ okBytes bufs results
  | _, _ => []

theorem okBytes_sublist (bufs : List Bytes) (results : List (Except Error Unit)) :
    (okBytes bufs results).Sublist bufs.flatten := by
  induction bufs generalizing results with
  | nil => cases results <;> exact .refl _
  | cons bytes bufs ih =>
    cases results with
    | nil => exact List.nil_sublist _
    | cons result results =>
      rw [okBytes, List.flatten_cons]
      refine List.Sublist.append ?_ (ih results)
      split
      · exact .refl _
      · exact List.nil_sublist _

/-- A get returns a value of the published length that has, in order, the bytes of the calls that
succeeded. -/
def ReadsWhole (inner : Inner Bytes) (key : Bytes) (bufs : List Bytes)
    (results : List (Except Error Unit)) (m : Machine Tables (Ram Bytes)) : Prop :=
  ∃ p v, pointerIn (m.dev.lookup .records (inner.encodeKey key)) = some p ∧ Gets inner key m v ∧
    v.length = p.totalLen.toNat ∧ (okBytes bufs results).Sublist v

/-- The backend answers every request of the calls of the writer `w` on the machine `m`, the chain
seals the pieces that are cut, and the length is one that a reader accepts. A value under the key that
has the writer's own value id is followed only by an empty one. A locker that keeps a byte budget can
note a read. -/
structure Accepted (inner : Inner Bytes) (key : Bytes) (m : Machine Tables (Ram Bytes)) (w : Writer)
    (bufs : List Bytes) (out : Writer × List (Except Error Unit)) (m₁ : Machine Tables (Ram Bytes)) :
    Prop where
  answered : Run Answered (stream inner w bufs) m (.ok out) m₁
  sealed : Seals inner bufs.flatten
  small : bufs.flatten.length ≤ MAX_DECODED_BYTES
  apart : ∀ p, pointerIn (m.dev.lookup .records (inner.encodeKey key)) = some p →
    p.valueId = w.valueId → bufs.flatten = []
  clock : m.mem.res.lru.isSome = true → ClockRuns m

/-- A streamed write is whole where the backend refused none of its pieces and its length is one
that a reader accepts: then, and with nothing staged for the key only then, a finish that succeeds
leaves a value that is read back with all that the successful calls were given. A finish that fails
leaves the value before it as it was. -/
theorem finish_whole {inner : Inner Bytes} (pos : 0 < inner.config.chunkSize)
    (inverts : inner.chain.Inverts) (wraps : inner.value.Wraps) {name : String} {w : Writer}
    {bufs : List Bytes} {out : Writer × List (Except Error Unit)} {r : Except Error Unit}
    {m₀ m m₁ m₂ : Machine Tables (Ram Bytes)}
    (started : Run Served (LazyLocker.writer inner name) m₀ (.ok w) m)
    (written : Run Served (stream inner w bufs) m (.ok out) m₁)
    (finished : Run Served (finish inner out.1) m₁ r m₂)
    (below : ∀ p, pointerIn (m₀.dev.lookup .records (inner.encodeKey (asBytes name))) = some p →
      p.nChunks ≠ 0 → p.valueId.toNat < idCursor m₀.dev m₀.mem.shared) :
    (∀ e, r = .error e → ∀ v, Gets inner (asBytes name) m₀ v → Gets inner (asBytes name) m₂ v) ∧
      (r = .ok () → stagedView m.mem.res.staged (asBytes name) = none →
        (Accepted inner (asBytes name) m w bufs out m₁ →
          ReadsWhole inner (asBytes name) bufs out.2 m₂) ∧
        (bufs.flatten.length < 2 ^ 64 → ReadsWhole inner (asBytes name) bufs out.2 m₂ →
          Accepted inner (asBytes name) m w bufs out m₁)) := by
  obtain ⟨w', results⟩ := out
  obtain ⟨open_, ⟨rfl, hseq, htotal, hbuf⟩, hcursor, hstart, hmeta⟩ := writer_run started
  obtain ⟨pieces, lost, h₁, full, hmem, -, hshort, hanswered, hok⟩ :=
    stream_run pos (.begin hseq htotal hbuf) (fun _ hp => absurd hp List.not_mem_nil) written
  rw [List.nil_append] at h₁
  obtain ⟨db, w₁, pieces', h₂, hr⟩ := finish_run h₁ finished
  have hrecord : db.lookup .records (inner.encodeKey (asBytes w.key)) =
      m₀.dev.lookup .records (inner.encodeKey (asBytes w.key)) := by
    rw [h₂.frame _ _ (fun h => by cases h), hmeta _ _ (fun h => by cases h)]
  have hclock : db.lookup .meta META_NEXT_TICK = m.dev.lookup .meta META_NEXT_TICK :=
    h₂.frame _ _ (fun h => by cases h)
  constructor
  · rintro e rfl v hv
    rcases hr with ⟨e', -, rfl⟩ | ⟨gc, he, -⟩
    · have hvalue : inner.valueStored db (asBytes w.key) =
          inner.valueStored m₀.dev (asBytes w.key) := by
        refine Inner.valueStored_congr hrecord fun p hp => List.map_congr_left fun s hs => ?_
        have hcount := List.mem_range'_1.1 hs
        have hid := below p hp fun h0 => by
          rw [h0] at hcount
          simp at hcount
        have hne : w.valueId ≠ p.valueId := by
          intro heq
          rw [← heq] at hid
          omega
        rw [h₂.frame _ _ (fun _ => not_contains_chunkRange hne), hmeta _ _ (fun h => by cases h)]
      have hrow := hclock.trans (hmeta .meta META_NEXT_TICK fun _ => by decide)
      refine hv.congr open_ ?_ hvalue hrow
      rw [hmem]
      exact hstart
    · cases he
  · rintro rfl unstaged
    rcases hr with ⟨e', he, -⟩ | ⟨gc, -, clean, -, hgc, hdev, hseen⟩
    · cases he
    rw [hmem] at hseen
    obtain ⟨hclosed, hticks, hstaged, hlru⟩ := hseen
    have open' : m₂.mem.closed = false := (hclosed.trans hstart.1).trans open_
    have unstaged' : stagedView m₂.mem.res.staged (asBytes w.key) = none := by rw [hstaged, unstaged]
    have hrow : m₂.dev.lookup .meta META_NEXT_TICK = m.dev.lookup .meta META_NEXT_TICK := by
      rw [hdev, lookup_published_meta hgc, hclock]
    have hpublished : m₂.dev.lookup .records (inner.encodeKey (asBytes w.key)) =
        some (pointer w₁).encode := by
      rw [hdev]
      exact lookup_published hgc
    constructor
    · intro acc
      have hmax : MAX_DECODED_BYTES < 2 ^ 64 := by decide
      have hlost : lost = 0 := hok (answered_stream pos (.begin hseq htotal hbuf)
        (fun _ hp => absurd hp List.not_mem_nil) acc.sealed acc.answered)
      obtain ⟨hwithin, hlen, -⟩ := h₂.within acc.small
      have hvalue : inner.valueStored m₂.dev (asBytes w.key) = .ok (some bufs.flatten) := by
        rw [hdev, published_iff inverts wraps h₂ clean hgc (by have := acc.small; omega)]
        exact ⟨rfl, acc.small, hlost, acc.apart⟩
      refine ⟨pointer w₁, bufs.flatten, ?_, ?_, hlen.symm, okBytes_sublist _ _⟩
      · rw [hpublished]
        exact pointerIn_of_ok (parse_eq_ok.2 ⟨rfl, hwithin⟩)
      · rw [gets_iff open' unstaged', hlru]
        exact ⟨hvalue, fun h => clockRuns_congr hticks hrow (acc.clock h)⟩
    · rintro small ⟨p, v, -, hget, -, -⟩
      obtain ⟨hvalue, clock⟩ := (gets_iff open' unstaged').1 hget
      rw [hdev, published_iff inverts wraps h₂ clean hgc small] at hvalue
      obtain ⟨rfl, hlimit, rfl, apart⟩ := hvalue
      have hmax : MAX_DECODED_BYTES < 2 ^ 32 := by decide
      refine ⟨hanswered rfl, h₁.seals full (by omega) (hshort rfl ?_), hlimit, apart, fun h => ?_⟩
      · rw [hbuf]
        exact pos
      · rw [hlru] at clock
        exact clockRuns_congr hticks.symm hrow.symm (clock h)

end
end Writer

/-! ## Runs -/

/-- A lazy locker of byte vectors that are cut into pieces of two bytes. -/
def Inner.small : Inner Bytes := { Inner.plain with config := { chunkSize := 2 } }

namespace Writer

/-- Two calls, of which the second leaves a byte for the finish. -/
theorem finish_whole_two_calls : ∃ m, ReadsWhole Inner.small (asBytes "k") [[1, 2], [3]]
    [.ok (), .ok ()] m := by
  obtain ⟨m, m₁, m₂, w', hm, hstream, hfinish, hres, hrow⟩ : ∃ m m₁ m₂ w',
      (LazyLocker.writer Inner.small "k").eval (serve 0) openedEmpty =
        some (.ok ⟨"k", 0, 0, 0, []⟩, m) ∧
      (stream Inner.small ⟨"k", 0, 0, 0, []⟩ [[1, 2], [3]]).eval (serve 0) m =
        some (.ok (w', [.ok (), .ok ()]), m₁) ∧
      (finish Inner.small w').eval (serve 0) m₁ = some (.ok (), m₂) ∧
      m.mem.res = .new .lazy (some ∅) none ∧
      m.dev.lookup .records (Inner.small.encodeKey (asBytes "k")) = none :=
    ⟨_, _, _, _, rfl, rfl, rfl, rfl, rfl⟩
  have whole := finish_whole (show 0 < Inner.small.config.chunkSize by decide) inverts_raw
    Postcard.vecU8_wraps (Prog.eval_run (serve_sound 0) hm) (Prog.eval_run (serve_sound 0) hstream)
    (Prog.eval_run (serve_sound 0) hfinish) (fun p hp => by cases hp)
  have unstaged : stagedView m.mem.res.staged (asBytes "k") = none := by
    rw [hres]
    rfl
  refine ⟨m₂, ((whole.2 rfl) unstaged).1 ⟨?_, fun i _ => ⟨_, rfl⟩, by decide, fun p hp => ?_,
    fun h => ?_⟩⟩
  · exact Prog.eval_run (fun q m x m' h => h) hstream
  · rw [hrow] at hp
    cases hp
  · rw [hres] at h
    cases h

/-- The commit of a piece fails, and the call with it. The piece is gone from the buffer. -/
theorem stream_refused (m : Machine Tables (Ram Bytes)) (e : Error) :
    Run Served (stream Inner.small ⟨"k", 0, 0, 0, []⟩ [[1, 2]]) m
      (.ok (⟨"k", 0, 0, 2, []⟩, [.error e])) m := by
  have hpiece : Run Served (flushPiece Inner.small ⟨"k", 0, 0, 2, []⟩ [1, 2]) m (.error e) m :=
    run_bind.2 (.inl ⟨header 0 ++ [1, 2], m, run_ofExcept.2 ⟨rfl, rfl⟩,
      run_innerCommit.2 (.inr ⟨e, rfl, rfl⟩)⟩)
  have hchunk : Run Served (writeChunk Inner.small ⟨"k", 0, 0, 0, []⟩ [1, 2]) m
      (.ok (⟨"k", 0, 0, 2, []⟩, .error e)) m := by
    unfold writeChunk
    rw [flushFull, if_pos (by decide)]
    exact run_attempt_bind.2 ⟨.error e, m, hpiece, run_pure.2 ⟨rfl, rfl⟩⟩
  exact run_bind.2 (.inl ⟨_, m, hchunk, run_bind.2 (.inl ⟨_, m, run_pure.2 ⟨rfl, rfl⟩,
    run_pure.2 ⟨rfl, rfl⟩⟩)⟩)

/-- The finish that follows publishes two bytes that are nowhere. -/
theorem finish_not_whole : ¬ ∀ (inner : Inner Bytes), 0 < inner.config.chunkSize →
    inner.chain.Inverts → inner.value.Wraps → ∀ (name : String) (w : Writer) (bufs : List Bytes)
      (out : Writer × List (Except Error Unit)) (m₀ m m₁ m₂ : Machine Tables (Ram Bytes)),
    LazyLocker.Reached inner m₀ → Run Served (LazyLocker.writer inner name) m₀ (.ok w) m →
    Run Served (stream inner w bufs) m (.ok out) m₁ →
    Run Served (finish inner out.1) m₁ (.ok ()) m₂ →
    ReadsWhole inner (asBytes name) bufs out.2 m₂ := by
  intro whole
  have hopen : (LazyLocker.openLocker Inner.small).eval (serve 0) ⟨.empty, .fresh⟩ =
      some (.ok (.new .lazy (some ∅) none), ⟨.empty, .fresh⟩) := by rfl
  have reached : LazyLocker.Reached Inner.small openedEmpty :=
    .opened (Prog.eval_run (serve_sound 0) hopen)
  obtain ⟨m, m₂, hm, hfinish, open_, hstaged, hvalue⟩ : ∃ m m₂,
      (LazyLocker.writer Inner.small "k").eval (serve 0) openedEmpty =
        some (.ok ⟨"k", 0, 0, 0, []⟩, m) ∧
      (finish Inner.small ⟨"k", 0, 0, 2, []⟩).eval (serve 0) m = some (.ok (), m₂) ∧
      m₂.mem.closed = false ∧ m₂.mem.res.staged = [] ∧
      (Inner.small.valueStored m₂.dev (asBytes "k")).isOk = false :=
    ⟨_, _, rfl, rfl, rfl, rfl, rfl⟩
  obtain ⟨p, v, -, hget, -⟩ := whole Inner.small (by decide) inverts_raw Postcard.vecU8_wraps "k" _
    _ _ _ m m m₂ reached (Prog.eval_run (serve_sound 0) hm) (stream_refused m (.backend "unplugged"))
    (Prog.eval_run (serve_sound 0) hfinish)
  have unstaged : stagedView m₂.mem.res.staged (asBytes "k") = none := by
    rw [hstaged]
    rfl
  obtain ⟨hstored, -⟩ := (gets_iff open_ unstaged).1 hget
  rw [hstored] at hvalue
  cases hvalue

end Writer
end Crossbank
