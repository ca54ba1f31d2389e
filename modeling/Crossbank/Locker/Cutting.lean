import Crossbank.Locker.Streaming
import Crossbank.Locker.Chunking

/-!
# How a stream is cut

A writer cuts its pieces from all that it is given, so it does not matter in which calls the bytes
came. It counts the pieces in 32 bits, and does not look whether they fit.

* `Writer.Streams` : a whole stream, of which every call succeeds;
* `Writer.Full.chunksOf_append` : full pieces and a short one are what their bytes are cut into;
* `Writer.Carries` : a writer in the middle of a stream, none of whose bytes are lost;
* `Writer.Carries.publishes` : the pieces a finished stream has stored, and the pointer to them;
* `Writer.cut_alike_iff` : when two streams of the same bytes leave the same pieces.
-/

namespace Crossbank
open Async

namespace Writer

section
variable {T : Type} (inner : Inner T)

/-- A writer `w` that is opened, given the buffers and finished, where every call succeeds. -/
def Streams (name : String) (w : Writer) (bufs : List Bytes) (m₀ m : Machine Tables (Ram T)) : Prop :=
  ∃ w' results m₁ m₂, Run Served (LazyLocker.writer inner name) m₀ (.ok w) m₁ ∧
    Run Served (stream inner w bufs) m₁ (.ok (w', results)) m₂ ∧ (∀ x ∈ results, x = .ok ()) ∧
    Run Served (finish inner w') m₂ (.ok ()) m

/-- The writer, which started as `w₀`, has stored the full pieces of the bytes, and has the rest of
them in its buffer. -/
def Carries (w₀ : Writer) (bytes : Bytes) (db : Tables) (w : Writer) : Prop :=
  ∃ pieces, Progress inner db w₀ db w bytes pieces 0 ∧ Full inner pieces ∧
    w.buf.length < inner.config.chunkSize

/-- What is under the key does not have the value id of the writer. -/
def Fresh (name : String) (w : Writer) (db : Tables) : Prop :=
  ∀ p, pointerIn (db.lookup .records (inner.encodeKey (asBytes name))) = some p →
    p.valueId ≠ w.valueId

/-- The bytes, cut into pieces, each sealed. Every piece but the last is full. -/
def Cut (bytes : Bytes) (stored : List (Option Bytes)) : Prop :=
  ∃ pieces sealed, List.Forall₂ (fun piece s => inner.chain.sealSlice piece = .ok s) pieces sealed ∧
    stored = sealed.map some ∧ pieces.flatten = bytes ∧
    (∀ piece ∈ pieces.dropLast, piece.length = inner.config.chunkSize) ∧
    ∀ piece ∈ pieces, piece.length ≤ inner.config.chunkSize

/-- The pointer that a writer publishes to the bytes. -/
def pointerTo (w : Writer) (bytes : Bytes) : ChunkPointer where
  valueId := w.valueId
  nChunks := UInt32.ofNat (chunksOf inner.config.chunkSize bytes).length
  totalLen := UInt64.ofNat bytes.length
  flags := FLAG_RAW

/-- The pointers under the key in two stores, which are the same up to the value id, and the pieces
that they name, which are the same and are what the bytes are cut into. -/
def CutAlike (name : String) (bytes : Bytes) (db db' : Tables) : Prop :=
  ∃ p p' : ChunkPointer, db.lookup .records (inner.encodeKey (asBytes name)) = some p.encode ∧
    db'.lookup .records (inner.encodeKey (asBytes name)) = some p'.encode ∧
    { p with valueId := p'.valueId } = p' ∧
    Inner.storedPieces db p = Inner.storedPieces db' p' ∧ Cut inner bytes (Inner.storedPieces db p)

end

section
variable {T : Type} {inner : Inner T} {name : String} {w w' : Writer} {bufs bufs' : List Bytes}
  {m₀ m₀' m m' : Machine Tables (Ram T)} {bytes : Bytes} {stored : List (Option Bytes)}

/-! ## Pieces -/

theorem Full.chunksOf_append (pos : 0 < inner.config.chunkSize) {pieces : List Bytes}
    (full : Full inner pieces) {tail : Bytes} (short : tail.length < inner.config.chunkSize) :
    chunksOf inner.config.chunkSize (pieces.flatten ++ tail) =
      pieces ++ if tail = [] then [] else [tail] := by
  induction pieces with
  | nil => exact Inner.chunksOf_short pos short
  | cons piece pieces ih =>
    have hpiece := full piece List.mem_cons_self
    have hrest := ih fun p hp => full p (List.mem_cons_of_mem _ hp)
    rw [List.flatten_cons, List.append_assoc, Inner.chunksOf_append pos hpiece, hrest,
      List.cons_append]

theorem sealed_unique {pieces sealed sealed' : List Bytes}
    (h : List.Forall₂ (fun piece s => inner.chain.sealSlice piece = .ok s) pieces sealed)
    (h' : List.Forall₂ (fun piece s => inner.chain.sealSlice piece = .ok s) pieces sealed') :
    sealed = sealed' := by
  induction h generalizing sealed' with
  | nil =>
    cases h'
    rfl
  | cons hs _ ih =>
    cases h' with
    | cons hs' hrest =>
      rw [ih hrest, Except.ok.inj (hs.symm.trans hs')]

/-- No more than fits in that many pieces is cut into them. -/
theorem Cut.length_le (h : Cut inner bytes stored) :
    bytes.length ≤ stored.length * inner.config.chunkSize := by
  obtain ⟨pieces, sealed, hall, rfl, rfl, -, hle⟩ := h
  rw [List.length_map, ← hall.length_eq, List.length_flatten]
  calc (pieces.map List.length).sum
      ≤ (pieces.map List.length).length • inner.config.chunkSize := by
        refine List.sum_le_card_nsmul _ _ fun n hn => ?_
        obtain ⟨piece, hpiece, rfl⟩ := List.mem_map.1 hn
        exact hle piece hpiece
    _ = pieces.length * inner.config.chunkSize := by rw [List.length_map, smul_eq_mul]

theorem Cut.not_none {rest : List (Option Bytes)} : ¬ Cut inner bytes (none :: rest) := by
  rintro ⟨pieces, sealed, -, h, -⟩
  cases sealed with
  | nil => cases h
  | cons s sealed => cases h

theorem Cut.of_chunksOf (pos : 0 < inner.config.chunkSize) {sealed : List Bytes}
    (h : List.Forall₂ (fun piece s => inner.chain.sealSlice piece = .ok s)
      (chunksOf inner.config.chunkSize bytes) sealed) : Cut inner bytes (sealed.map some) :=
  ⟨_, sealed, h, rfl, Inner.flatten_chunksOf pos bytes, fun _ hp => Inner.full_of_mem_dropLast pos hp,
    fun _ hp => Inner.length_le_of_mem_chunksOf pos hp⟩

/-! ## What a finished stream has stored -/

/-- A writer that is finished has stored the pieces that its bytes are cut into, and published them in
the commit that collects what was under the key. -/
theorem Carries.publishes (pos : 0 < inner.config.chunkSize) (h : Carries inner w bytes m.dev w')
    (run : Run Served (finish inner w') m (.ok ()) m') : ∃ db w₁ gc,
    Progress inner m.dev w db w₁ bytes (chunksOf inner.config.chunkSize bytes) 0 ∧
      Inner.gcExisting (m.dev.lookup .records (inner.encodeKey (asBytes w.key))) = .ok gc ∧
      m'.dev = db.commit (gc ++ [.put .records (inner.encodeKey (asBytes w.key)) (pointer w₁).encode]) ∧
      SeenAlike m'.mem m.mem := by
  obtain ⟨pieces, h₁, full, short⟩ := h
  obtain ⟨db, w₁, pieces', h₂, hr⟩ := finish_run h₁ run
  rcases hr with ⟨e, he, -⟩ | ⟨gc, -, -, hpieces, hgc, hdev, alike⟩
  · cases he
  rw [← Full.chunksOf_append pos full short, h₁.whole rfl] at hpieces
  rw [hpieces] at h₂
  rw [h₂.frame _ _ (fun h => by cases h)] at hgc
  exact ⟨db, w₁, gc, h₂, hgc, hdev, alike⟩

theorem Streams.carries (pos : 0 < inner.config.chunkSize) (h : Streams inner name w bufs m₀ m) :
    w.key = name ∧ ∃ w' m₂, Carries inner w bufs.flatten m₂.dev w' ∧
      Run Served (finish inner w') m₂ (.ok ()) m ∧
      ∀ key, m₂.dev.lookup .records key = m₀.dev.lookup .records key := by
  obtain ⟨w', results, m₁, m₂, started, written, ok, finished⟩ := h
  obtain ⟨-, ⟨rfl, hseq, htotal, hbuf⟩, -, -, hmeta⟩ := writer_run started
  obtain ⟨pieces, lost, h₁, full, -, -, hshort, -, hok⟩ :=
    stream_run pos (.begin hseq htotal hbuf) (fun _ hp => absurd hp List.not_mem_nil) written
  obtain rfl := hok ok
  refine ⟨rfl, w', m₂, ⟨pieces, h₁.rebase fun _ => rfl, full, hshort rfl (by rw [hbuf]; exact pos)⟩,
    finished, fun key => ?_⟩
  rw [h₁.frame _ _ (fun h => by cases h), hmeta _ _ (fun h => by cases h)]

theorem Progress.pointer_eq {start db : Tables} {w₀ : Writer}
    (h : Progress inner start w₀ db w bytes (chunksOf inner.config.chunkSize bytes) 0) :
    pointer w = pointerTo inner w₀ bytes := by
  rw [pointer, pointerTo, h.same.2, h.seq, h.total]

theorem Carries.record (pos : 0 < inner.config.chunkSize) (h : Carries inner w bytes m.dev w')
    (run : Run Served (finish inner w') m (.ok ()) m') :
    m'.dev.lookup .records (inner.encodeKey (asBytes w.key)) =
      some (pointerTo inner w bytes).encode := by
  obtain ⟨db, w₁, gc, progress, hgc, hdev, -⟩ := h.publishes pos run
  rw [hdev, ← progress.pointer_eq]
  exact lookup_published hgc

theorem Streams.record (pos : 0 < inner.config.chunkSize) (h : Streams inner name w bufs m₀ m) :
    m.dev.lookup .records (inner.encodeKey (asBytes name)) =
      some (pointerTo inner w bufs.flatten).encode := by
  obtain ⟨rfl, w', m₂, carries, finished, -⟩ := h.carries pos
  exact carries.record pos finished

theorem storedPieces_pointerTo (db : Tables) (w : Writer) (bytes : Bytes) :
    Inner.storedPieces db (pointerTo inner w bytes) =
      firstPieces db w.valueId (pointerTo inner w bytes).nChunks.toNat := rfl

/-- While they can be counted, and are not collected in the commit that publishes them, the pieces
that are named are there. -/
theorem Carries.pieces_stored (pos : 0 < inner.config.chunkSize) (h : Carries inner w bytes m.dev w')
    (run : Run Served (finish inner w') m (.ok ()) m')
    (count : bytes.length ≤ (2 ^ 32 - 1) * inner.config.chunkSize)
    (fresh : bytes = [] ∨ Fresh inner w.key w m.dev) : ∃ sealed,
    List.Forall₂ (fun piece s => inner.chain.sealSlice piece = .ok s)
      (chunksOf inner.config.chunkSize bytes) sealed ∧
    Inner.storedPieces m'.dev (pointerTo inner w bytes) = sealed.map some := by
  obtain ⟨db, w₁, gc, progress, hgc, hdev, -⟩ := h.publishes pos run
  have few : (chunksOf inner.config.chunkSize bytes).length < 2 ^ 32 := by
    rw [Inner.length_chunksOf pos, Nat.div_lt_iff_lt_mul pos]
    omega
  have hcount : (pointerTo inner w bytes).nChunks.toNat =
      (chunksOf inner.config.chunkSize bytes).length :=
    UInt32.toNat_ofNat_of_lt' few
  obtain ⟨sealed, hall, hstored⟩ := progress.stored few
  refine ⟨sealed, hall, ?_⟩
  rw [storedPieces_pointerTo, hcount, ← hstored, hdev]
  rcases fresh with none | fresh
  · rw [none]
    rfl
  · exact firstPieces_published hgc fresh _

theorem Streams.pieces_stored (pos : 0 < inner.config.chunkSize) (h : Streams inner name w bufs m₀ m)
    (count : bufs.flatten.length ≤ (2 ^ 32 - 1) * inner.config.chunkSize)
    (fresh : bufs.flatten = [] ∨ Fresh inner name w m₀.dev) : ∃ sealed,
    List.Forall₂ (fun piece s => inner.chain.sealSlice piece = .ok s)
      (chunksOf inner.config.chunkSize bufs.flatten) sealed ∧
    Inner.storedPieces m.dev (pointerTo inner w bufs.flatten) = sealed.map some := by
  obtain ⟨rfl, w', m₂, carries, finished, same⟩ := h.carries pos
  refine carries.pieces_stored pos finished count (fresh.imp id fun fresh p hp => fresh p ?_)
  rw [← same]
  exact hp

/-- When what a stream has stored is what it was given, cut into pieces. -/
theorem Streams.cut_iff (pos : 0 < inner.config.chunkSize) (h : Streams inner name w bufs m₀ m) :
    Cut inner bufs.flatten (Inner.storedPieces m.dev (pointerTo inner w bufs.flatten)) ↔
      bufs.flatten.length ≤ (2 ^ 32 - 1) * inner.config.chunkSize ∧
        (bufs.flatten = [] ∨ Fresh inner name w m₀.dev) := by
  constructor
  · intro cut
    have hle := cut.length_le
    rw [storedPieces_pointerTo, firstPieces, List.length_map, List.length_range'] at hle
    have hlt : (pointerTo inner w bufs.flatten).nChunks.toNat < 2 ^ 32 := UInt32.toNat_lt _
    refine ⟨hle.trans (Nat.mul_le_mul_right _ (by omega)), ?_⟩
    by_contra stale
    obtain ⟨filled, stale⟩ := not_or.1 stale
    -- The value before has the id of this one, whose pieces went in the commit that published them.
    obtain ⟨hname, w', m₂, carries, finished, same⟩ := h.carries pos
    obtain ⟨db, w₁, gc, -, hgc, hdev, -⟩ := carries.publishes pos finished
    rw [same, hname] at hgc
    rw [hname] at hdev
    obtain ⟨p, hp, hid⟩ : ∃ p, pointerIn (m₀.dev.lookup .records (inner.encodeKey (asBytes name))) =
        some p ∧ p.valueId = w.valueId := by
      simpa only [Fresh, not_forall, not_not, exists_prop] using stale
    have hn : (pointerTo inner w bufs.flatten).nChunks.toNat ≠ 0 := by
      intro h0
      rw [h0, Nat.zero_mul] at hle
      exact filled (List.eq_nil_of_length_eq_zero (Nat.le_zero.1 hle))
    obtain ⟨rest, hrest⟩ := firstPieces_collected db (inner.encodeKey (asBytes name))
      (pointer w₁).encode hgc hp hn
    rw [storedPieces_pointerTo, hdev, ← hid, hrest] at cut
    exact cut.not_none
  · rintro ⟨count, fresh⟩
    obtain ⟨sealed, hall, hstored⟩ := h.pieces_stored pos count fresh
    rw [hstored]
    exact .of_chunksOf pos hall

/-- How a stream is cut does not matter where its bytes fit in as many pieces as a pointer counts,
and the value that it replaces does not have its value id: then two streams of the same bytes leave
the same pointer, up to the value id, and the same pieces, which are the bytes. -/
theorem cut_alike_iff (pos : 0 < inner.config.chunkSize) (same : bufs.flatten = bufs'.flatten)
    (a : Streams inner name w bufs m₀ m) (b : Streams inner name w' bufs' m₀' m') :
    CutAlike inner name bufs.flatten m.dev m'.dev ↔
      bufs.flatten.length ≤ (2 ^ 32 - 1) * inner.config.chunkSize ∧
        (bufs.flatten = [] ∨ Fresh inner name w m₀.dev ∧ Fresh inner name w' m₀'.dev) := by
  have record := a.record pos
  have record' := b.record pos
  have cut := a.cut_iff pos
  have cut' := b.cut_iff pos
  rw [← same] at record' cut'
  constructor
  · rintro ⟨p, p', hp, hp', -, alike, whole⟩
    obtain rfl := encode_inj (Option.some.inj (hp.symm.trans record))
    obtain rfl := encode_inj (Option.some.inj (hp'.symm.trans record'))
    obtain ⟨count, fresh⟩ := cut.1 whole
    rw [alike] at whole
    obtain ⟨-, fresh'⟩ := cut'.1 whole
    refine ⟨count, ?_⟩
    rcases fresh with none | fresh
    · exact .inl none
    · exact fresh'.imp id fun fresh' => ⟨fresh, fresh'⟩
  · rintro ⟨count, fresh⟩
    have left : bufs.flatten = [] ∨ Fresh inner name w m₀.dev := fresh.imp id And.left
    have right : bufs.flatten = [] ∨ Fresh inner name w' m₀'.dev := fresh.imp id And.right
    obtain ⟨sealed, hall, hstored⟩ := a.pieces_stored pos count left
    rw [same] at count right
    obtain ⟨sealed', hall', hstored'⟩ := b.pieces_stored pos count right
    rw [← same] at hall' hstored' count right
    obtain rfl := sealed_unique hall hall'
    exact ⟨_, _, record, record', rfl, hstored.trans hstored'.symm, cut.2 ⟨count, left⟩⟩

end

/-! ## Past the count -/

section
variable {T : Type} {inner : Inner T} {w : Writer} {m : Machine Tables (Ram T)}

theorem flushFull_answers (pos : 0 < inner.config.chunkSize)
    (seals : ∀ piece, ∃ s, inner.chain.sealSlice piece = .ok s) {fuel : Nat}
    (enough : w.buf.length < fuel) :
    ∃ w' m', Run Answered (flushFull inner fuel w) m (.ok (w', .ok ())) m' := by
  induction fuel generalizing w m with
  | zero => exact absurd enough (Nat.not_lt_zero _)
  | succ fuel ih =>
    rw [flushFull]
    split
    · next hlen =>
      obtain ⟨s, hs⟩ := seals (w.buf.take inner.config.chunkSize)
      obtain ⟨w', m', run⟩ := ih
        (w := { w with buf := w.buf.drop inner.config.chunkSize, seq := w.seq + 1 })
        (m := ⟨m.dev.commit [.put .chunks (chunkKey w.valueId w.seq) s], m.mem⟩)
        (by rw [List.length_drop]; omega)
      exact ⟨w', m', run_attempt_bind.2 ⟨.ok (), _, answered_flushPiece hs, run⟩⟩
    · exact ⟨w, m, run_pure.2 ⟨rfl, rfl⟩⟩

theorem stream_answers (pos : 0 < inner.config.chunkSize)
    (seals : ∀ piece, ∃ s, inner.chain.sealSlice piece = .ok s) (bufs : List Bytes) :
    ∃ w' results m', Run Answered (stream inner w bufs) m (.ok (w', results)) m' ∧
      ∀ x ∈ results, x = .ok () := by
  induction bufs generalizing w m with
  | nil => exact ⟨w, [], m, run_pure.2 ⟨rfl, rfl⟩, fun _ hx => absurd hx List.not_mem_nil⟩
  | cons bytes bufs ih =>
    obtain ⟨w₁, m₁, hchunk⟩ := flushFull_answers pos seals (m := m)
      (w := { w with buf := w.buf ++ bytes, totalLen := w.totalLen + UInt64.ofNat bytes.length })
      (Nat.lt_succ_self _)
    obtain ⟨w', results, m', hstream, ok⟩ := ih (w := w₁) (m := m₁)
    refine ⟨w', .ok () :: results, m', ?_, fun x hx => ?_⟩
    · exact run_bind.2 (.inl ⟨_, m₁, hchunk, run_bind.2 (.inl ⟨_, _, hstream, run_pure.2 ⟨rfl, rfl⟩⟩)⟩)
    · rcases List.mem_cons.1 hx with rfl | hx
      · rfl
      · exact ok x hx

theorem publish_answers (unset : m.dev.lookup .records (inner.encodeKey (asBytes w.key)) = none) :
    ∃ m', Run Answered (publish inner w) m (.ok ()) m' := by
  have fetched : Run Answered (inner.fetch (asBytes w.key) : Io (Ram T) _) m (.ok none) m :=
    answered_get.2 ⟨congrArg _ unset.symm, rfl⟩
  refine ⟨_, run_bind.2 (.inl ⟨none, m, fetched, run_bind.2 (.inl ⟨[], m, run_ofExcept.2 ⟨rfl, rfl⟩,
    run_bind.2 (.inl ⟨(), _, answered_commitWith.2 ⟨rfl, rfl⟩, by
      rw [run_update_bind, run_update_bind]
      exact run_update.2 ⟨rfl, rfl⟩⟩)⟩)⟩)⟩

theorem finish_answers (seals : ∀ piece, ∃ s, inner.chain.sealSlice piece = .ok s)
    (unset : m.dev.lookup .records (inner.encodeKey (asBytes w.key)) = none) :
    ∃ m', Run Answered (finish inner w) m (.ok ()) m' := by
  rw [finish_eq]
  by_cases empty : w.buf = []
  · obtain ⟨m', run⟩ := publish_answers unset
    refine ⟨m', run_bind.2 (.inl ⟨w, m, ?_, run⟩)⟩
    rw [leftover, empty]
    exact run_pure.2 ⟨rfl, rfl⟩
  · obtain ⟨s, hs⟩ := seals w.buf
    have unset' : (m.dev.commit [.put .chunks (chunkKey w.valueId w.seq) s]).lookup .records
        (inner.encodeKey (asBytes w.key)) = none := by
      rw [← unset]
      exact Tables.lookup_commit_of_not_written fun op hop => by
        rw [List.mem_singleton.1 hop]
        exact Op.written_of_table fun h => by cases h
    obtain ⟨m', run⟩ := publish_answers (w := { w with buf := [], seq := w.seq + 1 })
      (m := ⟨m.dev.commit [.put .chunks (chunkKey w.valueId w.seq) s], m.mem⟩) unset'
    refine ⟨m', run_bind.2 (.inl ⟨_, _, ?_, run⟩)⟩
    rw [leftover, if_neg (fun h => empty (List.isEmpty_iff.1 h))]
    exact run_bind.2 (.inl ⟨(), _, answered_flushPiece hs, run_pure.2 ⟨rfl, rfl⟩⟩)

end

theorem Streams.of_eval {inner : Inner Bytes} {w w' : Writer} {bufs : List Bytes}
    {results : List (Except Error Unit)} {m₀ m₁ m₂ m : Machine Tables (Ram Bytes)}
    (started : (LazyLocker.writer inner w.key).eval (serve 0) m₀ = some (.ok w, m₁))
    (written : (stream inner w bufs).eval (serve 0) m₁ = some (.ok (w', results), m₂))
    (ok : ∀ x ∈ results, x = .ok ())
    (finished : (finish inner w').eval (serve 0) m₂ = some (.ok (), m)) :
    Streams inner w.key w bufs m₀ m :=
  ⟨w', results, m₁, m₂, Prog.eval_run (serve_sound 0) started, Prog.eval_run (serve_sound 0) written,
    ok, Prog.eval_run (serve_sound 0) finished⟩

/-- Three bytes, of which the first call has two, or one. -/
theorem cut_alike_three : ∃ m m' : Machine Tables (Ram Bytes),
    CutAlike Inner.small "k" [1, 2, 3] m.dev m'.dev := by
  have all (x : Except Error Unit) (hx : x ∈ [.ok (), .ok ()]) : x = .ok () := by
    simpa using hx
  obtain ⟨m, a⟩ : ∃ m, Streams Inner.small "k" ⟨"k", 0, 0, 0, []⟩ [[1, 2], [3]] openedEmpty m :=
    ⟨_, .of_eval (w := ⟨"k", 0, 0, 0, []⟩) rfl rfl all rfl⟩
  obtain ⟨m', b⟩ : ∃ m, Streams Inner.small "k" ⟨"k", 0, 0, 0, []⟩ [[1], [2, 3]] openedEmpty m :=
    ⟨_, .of_eval (w := ⟨"k", 0, 0, 0, []⟩) rfl rfl all rfl⟩
  have fresh : Fresh Inner.small "k" ⟨"k", 0, 0, 0, []⟩ openedEmpty.dev := fun p hp => by cases hp
  have same : ([[1, 2], [3]] : List Bytes).flatten = ([[1], [2, 3]] : List Bytes).flatten := rfl
  exact ⟨m, m', (cut_alike_iff (show 0 < Inner.small.config.chunkSize by decide) same a b).2
    ⟨by decide, .inr ⟨fresh, fresh⟩⟩⟩

/-- A lazy locker of byte vectors that are cut into single bytes. -/
def single : Inner Bytes := { Inner.plain with config := { chunkSize := 1 } }

/-- As many bytes as one likes go into a writer in one call. -/
theorem exists_streams (n : Nat) : LazyLocker.Reached single openedEmpty ∧
    ∃ w m, Streams single "k" w [List.replicate n 0] openedEmpty m := by
  have pos : 0 < single.config.chunkSize := by decide
  have seals (piece : Bytes) : ∃ s, single.chain.sealSlice piece = .ok s := ⟨_, rfl⟩
  constructor
  · have hopen : (LazyLocker.openLocker single).eval (serve 0) ⟨.empty, .fresh⟩ =
        some (.ok (.new .lazy (some ∅) none), ⟨.empty, .fresh⟩) := by rfl
    exact .opened (Prog.eval_run (serve_sound 0) hopen)
  · obtain ⟨m₁, hstart, hrow⟩ : ∃ m₁, (LazyLocker.writer single "k").eval (serve 0) openedEmpty =
        some (.ok ⟨"k", 0, 0, 0, []⟩, m₁) ∧
        m₁.dev.lookup .records (single.encodeKey (asBytes "k")) = none := ⟨_, rfl, rfl⟩
    obtain ⟨w', results, m₂, hstream, ok⟩ := stream_answers pos seals [List.replicate n 0]
      (w := ⟨"k", 0, 0, 0, []⟩) (m := m₁)
    obtain ⟨pieces, lost, progress, -⟩ := stream_run pos (.begin rfl rfl rfl)
      (fun _ hp => absurd hp List.not_mem_nil) (Answered.served hstream)
    obtain ⟨hkey, -⟩ := progress.same
    obtain ⟨m, hfinish⟩ := finish_answers (w := w') (m := m₂) seals (by
      rw [hkey, progress.frame _ _ (fun h => by cases h)]
      exact hrow)
    exact ⟨_, m, w', results, m₁, m₂, Prog.eval_run (serve_sound 0) hstart, Answered.served hstream,
      ok, Answered.served hfinish⟩

/-- 2³² single bytes are one piece more than a pointer counts, and it counts none. -/
theorem cut_not_alike : ¬ ∀ (inner : Inner Bytes), 0 < inner.config.chunkSize →
    ∀ (name : String) (w w' : Writer) (bufs bufs' : List Bytes)
      (m₀ m₀' m m' : Machine Tables (Ram Bytes)), bufs.flatten = bufs'.flatten →
    LazyLocker.Reached inner m₀ → LazyLocker.Reached inner m₀' →
    Streams inner name w bufs m₀ m → Streams inner name w' bufs' m₀' m' →
    CutAlike inner name bufs.flatten m.dev m'.dev := by
  intro alike
  obtain ⟨n, hn⟩ : ∃ n, n = 2 ^ 32 := ⟨_, rfl⟩
  have pos : 0 < single.config.chunkSize := by decide
  obtain ⟨reached, w, m, a⟩ := exists_streams n
  obtain ⟨p, -, hp, -, -, -, whole⟩ := alike single pos "k" w w _ _ _ _ m m rfl reached reached a a
  obtain rfl := encode_inj (Option.some.inj (hp.symm.trans (a.record pos)))
  have count := ((a.cut_iff pos).1 whole).1
  rw [List.flatten_singleton, List.length_replicate] at count
  have one : single.config.chunkSize = 1 := rfl
  omega

end Writer
end Crossbank
