import Crossbank.Locker.Streaming

/-!
# Streaming out

A reader goes straight to what is stored, a get to what is staged first.

* `Inner.OpensTo` : a stored piece opens as a piece; `assemble_eq_ok`, `drain_run` : a value is
  assembled from the pieces that a reader yields;
* `Authored` : what is staged and stored under a key was left there by a put or a writer;
* `StreamsAs` : a reader yields what a get returns, as it was written;
* `streamsAs_iff` : it does exactly where what is staged for the key is stored already.
-/

namespace Crossbank
open Async

/-! ## Pieces -/

namespace Inner
variable {T : Type} (inner : Inner T)

def OpensTo (row : Option Bytes) (piece : Bytes) : Prop :=
  ∃ stored, row = some stored ∧ inner.chain.openStored stored = .ok piece

variable {inner} {db : Tables} {p : ChunkPointer}

theorem appendPieces_eq_ok {seq : Nat} {rows : List (Option Bytes)} {out b : Bytes} :
    inner.appendPieces p seq rows out = .ok b ↔ ∃ pieces, List.Forall₂ inner.OpensTo rows pieces ∧
      b = out ++ pieces.flatten ∧ (rows = [] ∨ b.length ≤ p.totalLen.toNat) := by
  induction rows generalizing seq out with
  | nil =>
    rw [appendPieces, Except.ok.injEq]
    constructor
    · rintro rfl
      exact ⟨[], .nil, by simp, .inl rfl⟩
    · rintro ⟨pieces, all, rfl, -⟩
      cases all
      simp
  | cons row rest ih =>
    cases row with
    | none =>
      refine iff_of_false (fun h => by cases h) ?_
      rintro ⟨pieces, all, -⟩
      obtain ⟨piece, more, ⟨stored, hrow, -⟩, -⟩ := List.forall₂_cons_left_iff.1 all
      cases hrow
    | some stored =>
      rw [appendPieces]
      dsimp only
      constructor
      · intro h
        obtain ⟨piece, hopen, hrest⟩ := bind_eq_ok.1 h
        split at hrest
        · cases hrest
        · next hfits =>
          obtain ⟨pieces, all, rfl, fits⟩ := ih.1 hrest
          refine ⟨piece :: pieces, .cons ⟨stored, rfl, hopen⟩ all, by simp, .inr ?_⟩
          rcases fits with rfl | fits
          · obtain rfl := List.forall₂_nil_left_iff.1 all
            simp only [List.flatten_nil, List.append_nil]
            omega
          · exact fits
      · rintro ⟨pieces, all, rfl, fits⟩
        obtain ⟨piece, more, ⟨stored', hrow, hopen⟩, hmore, rfl⟩ := List.forall₂_cons_left_iff.1 all
        obtain rfl := Option.some.inj hrow
        have hlen := fits.resolve_left (by simp)
        refine bind_eq_ok.2 ⟨piece, hopen, ?_⟩
        rw [if_neg (by simp at hlen ⊢; omega)]
        refine ih.2 ⟨more, hmore, by simp, .inr ?_⟩
        simpa using hlen

/-- A value is assembled from its pieces, if they are as long as its pointer says. -/
theorem assemble_eq_ok {b : Bytes} : inner.assemble db p = .ok b ↔
    ∃ pieces, List.Forall₂ inner.OpensTo (storedPieces db p) pieces ∧ b = pieces.flatten ∧
      b.length = p.totalLen.toNat := by
  rw [assemble, bind_eq_ok]
  constructor
  · rintro ⟨out, hout, h⟩
    split at h
    · cases h
    · next hlen =>
      obtain rfl := Except.ok.inj h
      obtain ⟨pieces, all, heq, -⟩ := appendPieces_eq_ok.1 hout
      exact ⟨pieces, all, by simpa using heq, not_not.1 hlen⟩
  · rintro ⟨pieces, all, rfl, hlen⟩
    refine ⟨pieces.flatten, appendPieces_eq_ok.2 ⟨pieces, all, by simp, .inr hlen.le⟩, ?_⟩
    rw [if_neg (not_not_intro hlen)]

end Inner

/-! ## Readers -/

namespace Reader
variable {T ρ : Type} {inner : Inner T} {m m' : Machine Tables ρ}

section
variable [WriteLock ρ]

theorem nextChunk_end {p : ChunkPointer} {seq : UInt32} (h : p.nChunks ≤ seq) :
    Run Answered (nextChunk inner ⟨some p, seq, none⟩) m (.ok (⟨some p, seq, none⟩, .ok none)) m := by
  rw [nextChunk]
  dsimp only
  rw [if_pos h]
  exact run_pure.2 ⟨rfl, rfl⟩

theorem nextChunk_eval {p : ChunkPointer} {seq : UInt32} (h : ¬ p.nChunks ≤ seq) :
    Run Answered (nextChunk inner ⟨some p, seq, none⟩) m
      (match m.dev.lookup .chunks (chunkKey p.valueId seq) with
      | none => .ok (⟨some p, seq, none⟩,
          .error (.corrupt s!"missing chunk {seq} of {p.valueId}"))
      | some stored => .ok (⟨some p, seq + 1, none⟩, (inner.chain.openStored stored).map some)) m := by
  rw [nextChunk]
  dsimp only
  rw [if_neg h]
  refine run_attempt_bind.2 ⟨_, m, answered_get.2 ⟨rfl, rfl⟩, ?_⟩
  cases m.dev.lookup .chunks (chunkKey p.valueId seq) with
  | none => exact run_pure.2 ⟨rfl, rfl⟩
  | some stored => exact run_pure.2 ⟨rfl, rfl⟩

/-- A caller stops at the end, or goes on from the next piece. -/
theorem drain_succ {r r₁ : Reader} {next : Except Error (Option Bytes)} {fuel : Nat}
    {pieces : List Bytes} (hnext : Run Answered (nextChunk inner r) m (.ok (r₁, next)) m) :
    (∃ m', Run Answered (drain inner (fuel + 1) r) m (.ok pieces) m') ↔
      (next = .ok none ∧ pieces = []) ∨ ∃ piece rest, next = .ok (some piece) ∧ pieces = piece :: rest ∧
        ∃ m', Run Answered (drain inner fuel r₁) m (.ok rest) m' := by
  rw [drain]
  constructor
  · rintro ⟨m', h⟩
    obtain ⟨⟨r₂, next'⟩, m₁, hfirst, h₁⟩ := run_bind_ok.1 h
    obtain ⟨hsame, rfl⟩ := Run.det Answered.one hfirst hnext
    obtain ⟨rfl, rfl⟩ := Prod.mk.inj (Except.ok.inj hsame)
    obtain ⟨found, m₂, hfound, h₂⟩ := run_bind_ok.1 h₁
    obtain ⟨hok, rfl⟩ := run_ofExcept.1 hfound
    cases found with
    | none => exact .inl ⟨hok.symm, Except.ok.inj (run_pure.1 h₂).1⟩
    | some piece =>
      obtain ⟨rest, m₃, hrest, h₃⟩ := run_bind_ok.1 h₂
      exact .inr ⟨piece, rest, hok.symm, Except.ok.inj (run_pure.1 h₃).1, m₃, hrest⟩
  · rintro (⟨rfl, rfl⟩ | ⟨piece, rest, rfl, rfl, m', hrest⟩)
    · exact ⟨m, run_bind_ok.2 ⟨_, m, hnext, run_bind_ok.2 ⟨none, m, run_ofExcept.2 ⟨rfl, rfl⟩,
        run_pure.2 ⟨rfl, rfl⟩⟩⟩⟩
    · exact ⟨m', run_bind_ok.2 ⟨_, m, hnext, run_bind_ok.2 ⟨some piece, m, run_ofExcept.2 ⟨rfl, rfl⟩,
        run_bind_ok.2 ⟨rest, m', hrest, run_pure.2 ⟨rfl, rfl⟩⟩⟩⟩⟩

/-- The pieces that a reader yields are those stored, from its place on. -/
theorem drain_run {p : ChunkPointer} {seq fuel : Nat} {pieces : List Bytes}
    (inside : seq ≤ p.nChunks.toNat) :
    (∃ m', Run Answered (drain inner fuel ⟨some p, UInt32.ofNat seq, none⟩) m (.ok pieces) m') ↔
      p.nChunks.toNat - seq < fuel ∧ List.Forall₂ inner.OpensTo
        ((List.range' seq (p.nChunks.toNat - seq)).map fun s =>
          m.dev.lookup .chunks (chunkKey p.valueId (UInt32.ofNat s))) pieces := by
  have bound := p.nChunks.toNat_lt
  have place : (UInt32.ofNat seq).toNat = seq := UInt32.toNat_ofNat_of_lt' (by rw [UInt32.size]; omega)
  induction fuel generalizing seq pieces with
  | zero =>
    refine iff_of_false ?_ fun h => by omega
    rintro ⟨m', h⟩
    exact run_stuck h
  | succ fuel ih =>
    by_cases hend : seq = p.nChunks.toNat
    · have atEnd : p.nChunks ≤ UInt32.ofNat seq := by
        rw [UInt32.le_iff_toNat_le, place]
        omega
      rw [drain_succ (nextChunk_end atEnd), hend, Nat.sub_self]
      simp
    · have inside' : ¬ p.nChunks ≤ UInt32.ofNat seq := by
        rw [UInt32.le_iff_toNat_le, place]
        omega
      have hnext : Run Answered (nextChunk inner ⟨some p, UInt32.ofNat seq, none⟩) m _ m :=
        nextChunk_eval inside'
      have hrange : List.range' seq (p.nChunks.toNat - seq) =
          seq :: List.range' (seq + 1) (p.nChunks.toNat - (seq + 1)) := by
        rw [show p.nChunks.toNat - seq = p.nChunks.toNat - (seq + 1) + 1 by omega, List.range'_succ]
      rw [hrange, List.map_cons, List.forall₂_cons_left_iff]
      cases hrow : m.dev.lookup .chunks (chunkKey p.valueId (UInt32.ofNat seq)) with
      | none =>
        rw [hrow] at hnext
        rw [drain_succ hnext]
        simp [Inner.OpensTo]
      | some stored =>
        rw [hrow] at hnext
        have hplace : UInt32.ofNat seq + 1 = UInt32.ofNat (seq + 1) := by simp
        rw [drain_succ hnext, hplace]
        have goes_on (rest : List Bytes) : (∃ m', Run Answered
            (drain inner fuel ⟨some p, UInt32.ofNat (seq + 1), none⟩) m (.ok rest) m') ↔ _ :=
          ih (by omega) (UInt32.toNat_ofNat_of_lt' (by rw [UInt32.size]; omega))
        cases hopen : inner.chain.openStored stored with
        | error e => simp [Inner.OpensTo, hopen, Except.map]
        | ok piece =>
          have opens {piece' : Bytes} : inner.OpensTo (some stored) piece' ↔ piece = piece' := by
            simp [Inner.OpensTo, hopen]
          constructor
          · rintro (⟨hnone, -⟩ | ⟨piece', rest, heq, rfl, hmore⟩)
            · cases hnone
            · obtain ⟨enough, all⟩ := (goes_on rest).1 hmore
              exact ⟨by omega, piece', rest, opens.2 (Option.some.inj (Except.ok.inj heq)), all, rfl⟩
          · rintro ⟨enough, piece', rest, hpiece, all, rfl⟩
            obtain rfl := opens.1 hpiece
            exact .inr ⟨piece, rest, rfl, rfl, (goes_on rest).2 ⟨by omega, all⟩⟩

/-- An inline value is one piece. -/
theorem drain_inline {payload : Bytes} {pieces : List Bytes} :
    (∃ fuel m', Run Answered (drain inner fuel (.fromInline payload)) m (.ok pieces) m') ↔
      pieces = [payload] := by
  have hfirst : Run Answered (nextChunk inner (.fromInline payload)) m
      (.ok ({ Reader.fromInline payload with inline := none }, .ok (some payload))) m :=
    run_pure.2 ⟨rfl, rfl⟩
  have hlast : Run Answered (nextChunk inner { Reader.fromInline payload with inline := none }) m
      (.ok ({ Reader.fromInline payload with inline := none }, .ok none)) m :=
    nextChunk_end (UInt32.le_refl _)
  constructor
  · rintro ⟨fuel, h⟩
    match fuel with
    | 0 =>
      obtain ⟨m', hm⟩ := h
      exact (run_stuck hm).elim
    | 1 =>
      rcases (drain_succ hfirst).1 h with ⟨hnone, -⟩ | ⟨piece, rest, -, -, m', hm⟩
      · cases hnone
      · exact (run_stuck hm).elim
    | fuel + 2 =>
      rcases (drain_succ hfirst).1 h with ⟨hnone, -⟩ | ⟨piece, rest, hpiece, rfl, hrest⟩
      · cases hnone
      · obtain rfl := Option.some.inj (Except.ok.inj hpiece)
        rcases (drain_succ hlast).1 hrest with ⟨-, rfl⟩ | ⟨piece, more, hpiece, -⟩
        · rfl
        · cases hpiece
  · rintro rfl
    exact ⟨2, (drain_succ hfirst).2 (.inr ⟨payload, [], rfl, rfl,
      (drain_succ hlast).2 (.inl ⟨rfl, rfl⟩)⟩)⟩

end
end Reader

/-! ## Values -/

section
variable {T : Type} {inner : Inner T} {m m' : Machine Tables (Ram T)} {key : Bytes}

theorem reader_eval (open_ : m.mem.closed = false) : Run Answered (LazyLocker.reader inner key) m
    (match m.dev.lookup .records (inner.encodeKey key) with
    | none => .ok none
    | some raw =>
      if isPointer raw then ChunkPointer.parse raw >>= fun p => .ok (some (.fromPointer p))
      else inner.chain.openStored raw >>= fun payload => .ok (some (.fromInline payload))) m := by
  have opened : Run Answered Ram.ensureOpen m (.ok ()) m := run_ensureOpen.2 ⟨by rw [open_]; rfl, rfl⟩
  refine run_bind.2 (.inl ⟨(), m, opened, run_bind.2 (.inl ⟨_, m, answered_get.2 ⟨rfl, rfl⟩, ?_⟩)⟩)
  cases m.dev.lookup .records (inner.encodeKey key) with
  | none => exact run_pure.2 ⟨rfl, rfl⟩
  | some raw =>
    dsimp only
    split
    · exact (run_ofExcept.2 ⟨rfl, rfl⟩).seq fun p _ => run_pure.2 ⟨rfl, rfl⟩
    · exact (run_ofExcept.2 ⟨rfl, rfl⟩).seq fun payload _ => run_pure.2 ⟨rfl, rfl⟩

/-- A reader is missing exactly where the record is. -/
theorem reader_none_iff (open_ : m.mem.closed = false) :
    (∃ m', Run Answered (LazyLocker.reader inner key) m (.ok none) m') ↔
      m.dev.lookup .records (inner.encodeKey key) = none := by
  have heval : Run Answered (LazyLocker.reader inner key) m _ m := reader_eval open_
  constructor
  · rintro ⟨m', h⟩
    have same := (Run.det Answered.one h heval).1
    cases hrow : m.dev.lookup .records (inner.encodeKey key) with
    | none => rfl
    | some raw =>
      rw [hrow] at same
      dsimp only at same
      split at same
      · obtain ⟨p, -, hp⟩ := bind_eq_ok.1 same.symm
        cases hp
      · obtain ⟨payload, -, hp⟩ := bind_eq_ok.1 same.symm
        cases hp
  · intro hrow
    rw [hrow] at heval
    exact ⟨m, heval⟩

/-- Nothing staged, a get finds nothing exactly where the record is missing. -/
theorem get_none_iff (open_ : m.mem.closed = false)
    (unstaged : stagedView m.mem.res.staged key = none) :
    (∃ m', Run Answered (LazyLocker.getBy inner key) m (.ok none) m') ↔
      m.dev.lookup .records (inner.encodeKey key) = none := by
  rw [← Inner.valueStored_eq_none]
  simp only [getBy_iff open_, unstaged]
  obtain ⟨m₁, hload, -⟩ : ∃ m₁, Run Answered (LazyLocker.loadAndNote inner key) m
      (inner.valueStored m.dev key) m₁ ∧
      ((∃ found, inner.valueStored m.dev key = .ok found) → m₁ = m) := loadAndNote_eval
  constructor
  · rintro ⟨m', h⟩
    obtain ⟨found, m₂, hfound, hrest⟩ := run_bind_ok.1 h
    obtain ⟨hsame, rfl⟩ := Run.det Answered.one hfound hload
    cases found with
    | none => exact hsame.symm
    | some v =>
      obtain ⟨u, m₃, -, hlast⟩ := run_bind_ok.1 hrest
      cases (run_pure.1 hlast).1
  · intro hnone
    rw [hnone] at hload
    exact ⟨m₁, run_bind_ok.2 ⟨none, m₁, hload, run_pure.2 ⟨rfl, rfl⟩⟩⟩

/-- A reader of the key, answered, yields these pieces to the end, and reports this length. -/
def Streams (inner : Inner T) (m : Machine Tables (Ram T)) (key : Bytes) (pieces : List Bytes)
    (len : Nat) : Prop :=
  ∃ r m₁, Run Answered (LazyLocker.reader inner key) m (.ok (some r)) m₁ ∧ r.len.toNat = len ∧
    ∃ fuel m₂, Run Answered (Reader.drain inner fuel r) m₁ (.ok pieces) m₂

theorem streams_iff (open_ : m.mem.closed = false) {pieces : List Bytes} {len : Nat} :
    Streams inner m key pieces len ↔ ∃ raw, m.dev.lookup .records (inner.encodeKey key) = some raw ∧
      ((isPointer raw = true ∧ ∃ p, ChunkPointer.parse raw = .ok p ∧ p.totalLen.toNat = len ∧
          List.Forall₂ inner.OpensTo (Inner.storedPieces m.dev p) pieces) ∨
        (isPointer raw = false ∧ ∃ payload, inner.chain.openStored raw = .ok payload ∧
          (UInt64.ofNat payload.length).toNat = len ∧ pieces = [payload])) := by
  have heval : Run Answered (LazyLocker.reader inner key) m _ m := reader_eval open_
  have chunked (p : ChunkPointer) : (∃ fuel m₂, Run Answered
      (Reader.drain inner fuel (.fromPointer p)) m (.ok pieces) m₂) ↔
        List.Forall₂ inner.OpensTo (Inner.storedPieces m.dev p) pieces := by
    constructor
    · rintro ⟨fuel, h⟩
      exact ((Reader.drain_run (Nat.zero_le _)).1 h).2
    · intro all
      exact ⟨p.nChunks.toNat + 1, (Reader.drain_run (Nat.zero_le _)).2 ⟨by omega, all⟩⟩
  cases hrow : m.dev.lookup .records (inner.encodeKey key) with
  | none =>
    rw [hrow] at heval
    refine iff_of_false ?_ (fun ⟨raw, h, _⟩ => by cases h)
    rintro ⟨r, m₁, hr, -⟩
    cases (Run.det Answered.one hr heval).1
  | some raw =>
    rw [hrow] at heval
    dsimp only at heval
    simp only [Option.some.injEq, exists_eq_left']
    constructor
    · rintro ⟨r, m₁, hr, rfl, hdrain⟩
      obtain ⟨same, rfl⟩ := Run.det Answered.one hr heval
      split at same
      · next hp =>
        obtain ⟨p, hparse, hp'⟩ := bind_eq_ok.1 same.symm
        obtain rfl := Option.some.inj (Except.ok.inj hp')
        exact .inl ⟨hp, p, hparse, rfl, (chunked p).1 hdrain⟩
      · next hp =>
        obtain ⟨payload, hopen, hp'⟩ := bind_eq_ok.1 same.symm
        obtain rfl := Option.some.inj (Except.ok.inj hp')
        exact .inr ⟨by simpa using hp, payload, hopen, rfl, Reader.drain_inline.1 hdrain⟩
    · rintro (⟨hp, p, hparse, hlen, all⟩ | ⟨hp, payload, hopen, hlen, hpieces⟩)
      · rw [if_pos hp, hparse] at heval
        exact ⟨_, m, heval, hlen, (chunked p).2 all⟩
      · rw [if_neg (by simp [hp]), hopen] at heval
        exact ⟨_, m, heval, hlen, Reader.drain_inline.2 hpieces⟩

/-- A reader yields the payload that is stored, and its length. -/
theorem Streams.storedAt (open_ : m.mem.closed = false) {pieces : List Bytes}
    (h : Streams inner m key pieces pieces.flatten.length) :
    inner.storedAt m.dev key = some (.ok pieces.flatten) := by
  obtain ⟨raw, hrow, hraw⟩ := (streams_iff open_).1 h
  rw [Inner.storedAt, hrow, Option.map_some, Inner.payloadOf]
  rcases hraw with ⟨hp, p, hparse, hlen, all⟩ | ⟨hp, payload, hopen, -, rfl⟩
  · rw [if_pos hp, hparse]
    exact congrArg some (Inner.assemble_eq_ok.2 ⟨pieces, all, rfl, hlen.symm⟩)
  · rw [if_neg (by simp [hp]), hopen, List.flatten_singleton]

theorem streams_of_storedAt (open_ : m.mem.closed = false) {b : Bytes} (small : b.length < 2 ^ 64)
    (h : inner.storedAt m.dev key = some (.ok b)) :
    ∃ pieces, Streams inner m key pieces pieces.flatten.length ∧ pieces.flatten = b := by
  obtain ⟨raw, hrow, hpayload⟩ := Option.map_eq_some_iff.1 h
  unfold Inner.payloadOf at hpayload
  split at hpayload
  · next hp =>
    obtain ⟨p, hparse, hassemble⟩ := bind_eq_ok.1 hpayload
    obtain ⟨pieces, all, rfl, hlen⟩ := Inner.assemble_eq_ok.1 hassemble
    exact ⟨pieces, (streams_iff open_).2 ⟨raw, hrow, .inl ⟨hp, p, hparse, hlen.symm, all⟩⟩, rfl⟩
  · next hp =>
    refine ⟨[b], (streams_iff open_).2 ⟨raw, hrow, .inr ⟨by simpa using hp, b, hpayload, ?_, rfl⟩⟩,
      List.flatten_singleton⟩
    rw [List.flatten_singleton]
    exact UInt64.toNat_ofNat_of_lt' small

end

/-! ## Streaming out and reading -/

section
variable (inner : Inner Bytes) (m : Machine Tables (Ram Bytes)) (key : Bytes)

/-- What is staged and stored under the key was left there by a put, as its encoding, or by a writer,
as raw bytes. A payload fits in memory. -/
structure Authored : Prop where
  staged : ∀ payload, stagedView m.mem.res.staged key = some (some payload) →
    ∃ v, inner.value.payload v = .ok payload
  stored : ∀ raw payload, m.dev.lookup .records (inner.encodeKey key) = some raw →
    inner.payloadOf m.dev raw = .ok payload → payload.length < 2 ^ 64 ∧
      (Inner.isRaw raw = .ok true ∨ ∃ v, inner.value.payload v = .ok payload)

/-- The last write of the key was that of a writer. -/
def Streamed : Prop :=
  stagedView m.mem.res.staged key = none ∧
    ∃ raw, m.dev.lookup .records (inner.encodeKey key) = some raw ∧ Inner.isRaw raw = .ok true

/-- Streaming out equals reading: a reader is missing where a get finds nothing, and yields what a get
returns, as it was written. -/
structure StreamsAs : Prop where
  missing : (∃ m', Run Answered (LazyLocker.reader inner key) m (.ok none) m') ↔
    ∃ m', Run Answered (LazyLocker.getBy inner key) m (.ok none) m'
  whole : ∀ v, Writer.Gets inner key m v →
    ∃ pieces, Streams inner m key pieces pieces.flatten.length ∧
      (Streamed inner m key → pieces.flatten = v) ∧
      (¬ Streamed inner m key → inner.value.payload v = .ok pieces.flatten)

/-- What is staged for the key, if anything is, is stored already. -/
def Landed : Prop :=
  match stagedView m.mem.res.staged key with
  | none => True
  | some none => m.dev.lookup .records (inner.encodeKey key) = none
  | some (some payload) => inner.storedAt m.dev key = some (.ok payload)

variable {inner m key}

theorem payload_of_ofPayload (value : inner.value = .vecU8) {v v' payload : Bytes}
    (put : inner.value.payload v = .ok payload) (read : inner.value.ofPayload payload = .ok v') :
    v' = v := by
  have same := ofPayload_of_payload (value ▸ Postcard.vecU8_inverts) put
  exact Except.ok.inj (read.symm.trans same)

theorem isRaw_eq_true {raw : Bytes} : Inner.isRaw raw = .ok true ↔
    ∃ p, ChunkPointer.parse raw = .ok p ∧ p.flags = FLAG_RAW := by
  unfold Inner.isRaw
  split
  · cases ChunkPointer.parse raw with
    | error e => simp [Except.map]
    | ok p => simp [Except.map]
  · next hp =>
    refine iff_of_false (fun h => by cases h) ?_
    rintro ⟨p, hparse, -⟩
    exact hp (isPointer_of_parse hparse)

theorem streamsAs_of_unstaged (value : inner.value = .vecU8) (open_ : m.mem.closed = false)
    (authored : Authored inner m key) (unstaged : stagedView m.mem.res.staged key = none) :
    StreamsAs inner m key where
  missing := by rw [reader_none_iff open_, get_none_iff open_ unstaged]
  whole v hget := by
    obtain ⟨hvalue, -⟩ := (Writer.gets_iff open_ unstaged).1 hget
    cases hrow : m.dev.lookup .records (inner.encodeKey key) with
    | none =>
      rw [Inner.valueStored_eq_none.2 hrow] at hvalue
      cases hvalue
    | some raw =>
      have stored := hvalue
      rw [Inner.valueStored, hrow] at hvalue
      obtain ⟨payload, hpayload, h₁⟩ := bind_eq_ok.1 hvalue
      obtain ⟨flag, hflag, h₂⟩ := bind_eq_ok.1 h₁
      obtain ⟨v', hv, heq⟩ := bind_eq_ok.1 h₂
      obtain rfl := Option.some.inj (Except.ok.inj heq)
      obtain ⟨small, origin⟩ := authored.stored raw payload hrow hpayload
      obtain ⟨pieces, streams, rfl⟩ := streams_of_storedAt open_ small
        (show inner.storedAt m.dev key = _ by rw [Inner.storedAt, hrow, Option.map_some, hpayload])
      refine ⟨pieces, streams, fun streamed => ?_, fun hnot => ?_⟩
      · obtain ⟨-, raw', hrow', hraw⟩ := streamed
        obtain rfl := Option.some.inj (hrow.symm.trans hrow')
        obtain ⟨p, hparse, hflags⟩ := isRaw_eq_true.1 hraw
        obtain ⟨rfl, within⟩ := parse_eq_ok.1 hparse
        have assembled := (Writer.valueStored_raw (value ▸ Postcard.vecU8_wraps) hrow hflags within).1
          stored
        rw [Inner.payloadOf, if_pos (isPointer_encode p), hparse] at hpayload
        exact Except.ok.inj (hpayload.symm.trans assembled)
      · have put : flag = false := by
          cases flag with
          | false => rfl
          | true => exact absurd ⟨unstaged, raw, hrow, hflag⟩ hnot
        rw [put] at hflag hv
        obtain ⟨v₀, hv₀⟩ := origin.resolve_left fun hraw => by rw [hflag] at hraw; cases hraw
        rw [payload_of_ofPayload value hv₀ hv]
        exact hv₀

/-- Streaming out equals reading exactly where what is staged for the key is stored already, in
every state where what is staged and stored under the key was written by a put or a writer. -/
theorem streamsAs_iff (value : inner.value = .vecU8) (open_ : m.mem.closed = false)
    (authored : Authored inner m key) : StreamsAs inner m key ↔ Landed inner m key := by
  unfold Landed
  cases hview : stagedView m.mem.res.staged key with
  | none => exact iff_of_true (streamsAs_of_unstaged value open_ authored hview) trivial
  | some view =>
    have notStreamed : ¬ Streamed inner m key := fun h => by
      rw [h.1] at hview
      cases hview
    cases view with
    | none =>
      have none_read : ∃ m', Run Answered (LazyLocker.getBy inner key) m (.ok none) m' :=
        ⟨m, (getBy_iff open_).2 (by rw [hview]; exact run_pure.2 ⟨rfl, rfl⟩)⟩
      constructor
      · intro h
        exact (reader_none_iff open_).1 (h.missing.2 none_read)
      · intro hrow
        refine ⟨iff_of_true ((reader_none_iff open_).2 hrow) none_read, fun v hget => ?_⟩
        obtain ⟨payload, hnone, -⟩ := (Writer.gets_staged_iff open_ hview).1 hget
        cases hnone
    | some payload =>
      obtain ⟨v, hv⟩ := authored.staged payload hview
      have read := ofPayload_of_payload (value ▸ Postcard.vecU8_inverts) hv
      constructor
      · intro h
        obtain ⟨pieces, streams, -, put⟩ := h.whole v
          ((Writer.gets_staged_iff open_ hview).2 ⟨payload, rfl, read⟩)
        obtain rfl := Except.ok.inj (hv.symm.trans (put notStreamed))
        exact streams.storedAt open_
      · intro hstored
        obtain ⟨raw, hrow, hpayload⟩ := Option.map_eq_some_iff.1 hstored
        obtain ⟨pieces, streams, rfl⟩ :=
          streams_of_storedAt open_ (authored.stored raw payload hrow hpayload).1 hstored
        refine ⟨iff_of_false (fun h => ?_) fun ⟨m', h⟩ => ?_, fun v' hget => ?_⟩
        · rw [(reader_none_iff open_).1 h] at hrow
          cases hrow
        · rw [getBy_iff open_, hview] at h
          have h' := (run_ofExcept.1 h).1
          rw [read] at h'
          cases h'
        · obtain ⟨payload', hsame, read'⟩ := (Writer.gets_staged_iff open_ hview).1 hget
          obtain rfl := Option.some.inj hsame
          refine ⟨pieces, streams, fun h => absurd h notStreamed, fun _ => ?_⟩
          rw [payload_of_ofPayload value hv read']
          exact hv

end

/-- A value that was streamed in two pieces, and one that is stored and staged again. -/
def openedStreaming : Machine Tables (Ram Bytes) :=
  ⟨Tables.empty.commit [
      .put .records (Inner.batching.encodeKey (ascii "k")) (ChunkPointer.encode ⟨0, 2, 3, FLAG_RAW⟩),
      .put .chunks (chunkKey 0 0) (header 0 ++ [5, 6]), .put .chunks (chunkKey 0 1) (header 0 ++ [7]),
      .put .records (Inner.batching.encodeKey (ascii "j")) (header 0 ++ [2, 1, 2])],
    openedEmpty.mem.mapRes fun res => { res with staged := [.put (ascii "j") [2, 1, 2]] }⟩

theorem streamsAs_iff_streamed : StreamsAs Inner.batching openedStreaming (ascii "k") ∧
    StreamsAs Inner.batching openedStreaming (ascii "j") := by
  constructor
  · have hview : stagedView openedStreaming.mem.res.staged (ascii "k") = none := by decide
    have hrow : (openedStreaming.dev.lookup .records (Inner.batching.encodeKey (ascii "k"))).map
        (fun raw => (Inner.isRaw raw, Inner.batching.payloadOf openedStreaming.dev raw)) =
          some (.ok true, .ok [5, 6, 7]) := by
      decide
    refine (streamsAs_iff rfl rfl ⟨fun payload h => ?_, fun raw payload h hread => ?_⟩).2 ?_
    · rw [hview] at h
      cases h
    · rw [h] at hrow
      obtain ⟨hraw, hpayload⟩ := Prod.mk.inj (Option.some.inj hrow)
      obtain rfl := Except.ok.inj (hpayload.symm.trans hread)
      exact ⟨by decide, .inl hraw⟩
    · rw [Landed, hview]
      trivial
  · have hview : stagedView openedStreaming.mem.res.staged (ascii "j") = some (some [2, 1, 2]) := by
      decide
    have hrow : (openedStreaming.dev.lookup .records (Inner.batching.encodeKey (ascii "j"))).map
        (Inner.batching.payloadOf openedStreaming.dev) = some (.ok [2, 1, 2]) := by
      decide
    refine (streamsAs_iff rfl rfl ⟨fun payload h => ?_, fun raw payload h hread => ?_⟩).2 ?_
    · rw [hview] at h
      obtain rfl := Option.some.inj (Option.some.inj h)
      exact ⟨[1, 2], rfl⟩
    · rw [h] at hrow
      obtain rfl := Except.ok.inj ((Option.some.inj hrow).symm.trans hread)
      exact ⟨by decide, .inr ⟨[1, 2], rfl⟩⟩
    · rw [Landed, hview]
      exact hrow

/-- A staged write is read and not streamed: the reader of a key that was just put is missing. -/
theorem streams_not_staged : ¬ ∀ (inner : Inner Bytes) (m : Machine Tables (Ram Bytes)) (key : Bytes),
    inner.value = .vecU8 → LazyLocker.Reached inner m → m.mem.closed = false →
    Authored inner m key → StreamsAs inner m key := by
  intro h
  obtain ⟨m, reached, hopen, hstaged, -, hdev⟩ := reached_staged
  have hview : stagedView m.mem.res.staged (ascii "k") = some (some [2, 1, 2]) := by
    rw [hstaged]
    decide
  have hrow : m.dev.lookup .records (Inner.batching.encodeKey (ascii "k")) = none := by
    simp [hdev, Tables.lookup, Tables.get, Tables.empty]
  have authored : Authored Inner.batching m (ascii "k") := by
    refine ⟨fun payload hp => ?_, fun raw payload hraw => ?_⟩
    · rw [hview] at hp
      obtain rfl := Option.some.inj (Option.some.inj hp)
      exact ⟨[1, 2], rfl⟩
    · rw [hrow] at hraw
      cases hraw
  have landed := (streamsAs_iff rfl hopen authored).1 (h _ m _ rfl reached hopen authored)
  rw [Landed, hview] at landed
  dsimp only at landed
  rw [Inner.storedAt, hrow] at landed
  cases landed

end Crossbank
