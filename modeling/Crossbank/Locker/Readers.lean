import Crossbank.Locker.Issuers
import Crossbank.Locker.StreamRead

/-!
# Writers and readers beside other calls

A writer keeps its value id until it publishes it. A reader asks for the pieces of a value one after
the other, while other calls replace the value.

* `LazyLocker.streaming` : a writer, from its start to its end; `behaves_streaming` : it stores under
  its own id;
* `LazyLocker.reading` : a reader, and what it answers to the calls of its owner;
* `Answer row n seq x seq'`, `Yields row n seq xs` : one answer of a reader that finds `row`, and all of
  them;
* `OpenedOver i db id` : of an id that was free on `db`, nothing is stored that was not stored there;
* `reading_yields` : a reader answers with what was stored when it was opened, or fails.
-/

namespace Crossbank
open Async

/-! ## Writers -/

/-- How a writer ends: published, given up, or dropped. -/
inductive Ending where
  | finish
  | abort
  | drop
  deriving DecidableEq, Repr

/-- A writer, given these bytes call by call whatever becomes of each, and its end. -/
def LazyLocker.streaming {T : Type} (inner : Inner T) (key : String) (bufs : List Bytes)
    (ending : Ending) : Io (Ram T) Unit := do
  let w ← LazyLocker.writer inner key
  let (w, _) ← w.stream inner bufs
  match ending with
  | .finish => w.finish inner
  | .abort => w.abort inner
  | .drop => pure ()

section
variable {T : Type} {inner : Inner T} {i : Nat}

/-- The value id of the writer is the call's. -/
def Writer.OwnedBy (w : Writer) (i : Nat) (a : Sight) : Prop := a.issue.holder w.valueId = some i

theorem Writer.firm_ownedBy (w : Writer) : Firm i (w.OwnedBy i) := firm_holds w.valueId

namespace Writer

theorem issues_flushPiece (w : Writer) (piece : Bytes) :
    Issues Ram.ids i (w.OwnedBy i) (flushPiece inner w piece) fun _ => w.OwnedBy i := by
  unfold flushPiece
  refine Triple.bind (Triple.ofExcept w.firm_ownedBy.steady (inner.chain.sealSlice piece))
    (fun sealed => ?_) fun _ _ h => h.2
  refine (issues_commit w.firm_ownedBy).mono (fun a h => ⟨?_, h.2⟩) fun _ a h => h fun id => ?_
  · exact mine_singleton.2 ⟨w.valueId, w.seq, rfl, h.2⟩
  · simp [publishes]

theorem issues_flushFull (fuel : Nat) (w : Writer) : Issues Ram.ids i (w.OwnedBy i)
    (flushFull inner fuel w) fun r a => ∀ x, r = .ok x → x.1.OwnedBy i a := by
  induction fuel generalizing w with
  | zero => exact Triple.stuck
  | succ fuel ih =>
    have stays (w : Writer) (x : Except Error Unit) : Issues Ram.ids i (w.OwnedBy i)
        (pure (w, x) : Io (Ram T) _) fun r a => ∀ x, r = .ok x → x.1.OwnedBy i a := by
      refine (Triple.ret w.firm_ownedBy.steady (w, x)).mono (fun _ h => h) ?_
      rintro r a ⟨rfl, own⟩ y hy
      exact Except.ok.inj hy ▸ own
    unfold flushFull
    split
    · dsimp only
      refine Triple.bind (Triple.attempt (G := fun _ => w.OwnedBy i) ?_) ?_ fun _ _ _ _ h => by cases h
      · exact issues_flushPiece { w with buf := w.buf.drop inner.config.chunkSize } _
      · intro flushed
        cases flushed with
        | ok _ => exact ih { w with buf := w.buf.drop inner.config.chunkSize, seq := w.seq + 1 }
        | error e => exact stays { w with buf := w.buf.drop inner.config.chunkSize } (.error e)
    · exact stays w (.ok ())

/-- A writer keeps its id through all its calls. -/
theorem issues_stream (bufs : List Bytes) (w : Writer) : Issues Ram.ids i (w.OwnedBy i)
    (w.stream inner bufs) fun r a => ∀ x, r = .ok x → x.1.OwnedBy i a := by
  induction bufs generalizing w with
  | nil =>
    refine (Triple.ret w.firm_ownedBy.steady (w, [])).mono (fun _ h => h) ?_
    rintro r a ⟨rfl, own⟩ y hy
    exact Except.ok.inj hy ▸ own
  | cons bytes rest ih =>
    unfold stream writeChunk
    dsimp only
    refine Triple.bind (issues_flushFull _ ⟨w.key, w.valueId, w.seq, _, w.buf ++ bytes⟩) ?_
      fun _ _ _ _ h => by cases h
    rintro ⟨w₁, result⟩
    refine Triple.bind ((ih w₁).mono (fun a h => h _ rfl) fun _ _ h => h) ?_ fun _ _ _ _ h => by cases h
    rintro ⟨w₂, results⟩
    refine (Triple.ret w₂.firm_ownedBy.steady (w₂, result :: results)).mono (fun a h => h _ rfl) ?_
    rintro r a ⟨rfl, own⟩ y hy
    exact Except.ok.inj hy ▸ own

/-- The id of a new writer is the call's. -/
theorem issues_start (key : String) : Issues Ram.ids i (fun _ => True) (start inner key)
    fun r a => ∀ w, r = .ok w → w.OwnedBy i a := by
  have allocates : Issues Ram.ids i (fun _ => True) (ValueIds.allocate.zoom (sharedPart T))
      fun r a => True ∧ ∀ id, r = .ok id → a.issue.holder id = some i :=
    show Issues (fun ram => Shared.values ((sharedPart T).get ram)) i _ _ _ from
      Issues.zoom (issues_allocate firm_true)
  unfold start
  refine Triple.bind allocates (fun id => ?_) fun _ _ _ _ h => by cases h
  have firm : Firm i fun a => a.issue.holder id = some i := firm_holds id
  have finds (counter : Option Op) : Firm i fun a =>
      Mine i counter.toList a ∧ ∀ id, publishes counter.toList id = false :=
    (firm_mine counter.toList).and fun _ _ h _ => h
  refine Triple.bind ((issues_read firm finds ?_).mono (fun a h => h.2 id rfl) fun _ _ h => h)
    (fun counter => ?_) fun _ _ _ _ h => by cases h
  · intro a s _ hs
    refine ⟨fun op hop => ?_, fun id' => ?_⟩
    · obtain ⟨next, hnext, rfl⟩ := Option.map_eq_some_iff.1 (Option.mem_toList.1 hop)
      intro _
      rw [← hs]
      show s.shared.values.next ≠ none
      rw [hnext]
      simp
    · unfold ValueIds.counterOp
      cases s.shared.values.next <;> rfl
  · have done : Issues Ram.ids i (fun a => a.issue.holder id = some i)
        (pure ⟨key, id, 0, 0, []⟩ : Io (Ram T) Writer) fun r a => ∀ w, r = .ok w → w.OwnedBy i a := by
      refine (Triple.ret firm.steady _).mono (fun _ h => h) ?_
      rintro r a ⟨rfl, own⟩ w hw
      exact Except.ok.inj hw ▸ own
    cases counter with
    | none => exact done.mono (fun a h => h.1) fun _ _ h => h
    | some op =>
      refine Triple.given (fun a h => (h.2 _ rfl).2) fun quiet => ?_
      refine Triple.bind ((issues_commit firm).mono (fun a h => ⟨(h.2 _ rfl).1, h.1⟩) fun _ _ h => h) ?_
        fun _ _ _ _ h => by cases h
      exact fun _ => done.mono (fun a h => h quiet) fun _ _ h => h

theorem issues_finish (w : Writer) :
    Issues Ram.ids i (w.OwnedBy i) (w.finish inner) fun _ _ => True := by
  have publish (w : Writer) : Issues Ram.ids i (w.OwnedBy i) (do
      let existing ← inner.fetch (asBytes w.key)
      let gc ← Prog.ofExcept (Inner.gcExisting existing)
      let pointer : ChunkPointer := ⟨w.valueId, w.seq, w.totalLen, FLAG_RAW⟩
      inner.commit (gc ++ [.put .records (inner.encodeKey (asBytes w.key)) pointer.encode])
      Prog.update (Ram.mapRes (·.touchIndex (·.insert (asBytes w.key))))
      Prog.update (Ram.mapRes (·.noteInline (asBytes w.key) false))
      Prog.update (Ram.announce (.put (asBytes w.key))) : Io (Ram T) Unit) fun _ _ => True := by
    refine Triple.bind (issues_reads w.firm_ownedBy reads_get) (fun existing => ?_)
      fun _ _ _ => trivial
    refine Triple.bind (Triple.ofExcept w.firm_ownedBy.steady _) (fun gc => ?_) fun _ _ _ => trivial
    dsimp only
    refine (behaves_lands ?_).mono (fun a h => ?_) fun _ _ h => h
    · refine Behaves.bind (behaves_update fun _ => rfl) fun _ => ?_
      exact Behaves.bind (behaves_update fun _ => rfl) fun _ => behaves_update fun _ => rfl
    · obtain ⟨hgc, own⟩ := h
      refine Mine.append (harmless_gcExisting hgc.symm i a) (mine_singleton.2 fun p hp => ?_)
      rw [← encode_inj (parse_eq_ok.1 hp).1]
      exact own
  unfold finish
  dsimp only
  split
  · exact publish w
  · refine Triple.bind (issues_flushPiece w w.buf) (fun _ => ?_) fun _ _ _ => trivial
    exact publish ⟨w.key, w.valueId, w.seq + 1, w.totalLen, []⟩

end Writer

theorem LazyLocker.issues_writer (key : String) : Issues Ram.ids i (fun _ => True) (writer inner key)
    fun r a => ∀ w, r = .ok w → w.OwnedBy i a := by
  unfold writer
  refine Triple.bind behaves_ensureOpen (fun _ => ?_) fun _ _ _ _ h => by cases h
  refine Triple.bind (behaves_calm (Prog.only_ask.2 fun h => h)) (fun _ => ?_) fun _ _ _ _ h => by cases h
  exact issues_guarded (Writer.issues_start key) (fun r => Firm.all fun w => w.firm_ownedBy.imp)
    fun _ => rfl

/-- A writer keeps the rules of value ids, from its start to its end. -/
theorem LazyLocker.behaves_streaming (key : String) (bufs : List Bytes) (ending : Ending) :
    Behaves i (streaming inner key bufs ending) := by
  unfold streaming
  refine Triple.bind (issues_writer key) (fun w => ?_) fun _ _ _ => trivial
  refine Triple.bind ((w.issues_stream bufs).mono (fun a h => h w rfl) fun _ _ h => h) ?_
    fun _ _ _ => trivial
  rintro ⟨w₁, results⟩
  cases ending with
  | finish => exact w₁.issues_finish.mono (fun a h => h _ rfl) fun _ _ h => h
  | abort =>
    exact behaves_commit.mono (fun a _ => harmless_gcOps [_] i a) fun _ _ h => h
  | drop => exact behaves_pure.mono (fun _ _ => trivial) fun _ _ h => h

end

/-! ## Readers -/

namespace Reader
variable {T ρ : Type} (inner : Inner T)

/-- What a reader answers to a caller who asks `n` times for the next piece, whatever the answers. -/
def answers : Nat → Reader → Io ρ (List (Except Error (Option Bytes)))
  | 0, _ => pure []
  | n + 1, r => do
    let (r, x) ← nextChunk inner r
    let xs ← answers n r
    pure (x :: xs)

variable (row : UInt32 → Option Bytes) (n : UInt32)

/-- An answer of a reader of `n` pieces that is at `seq`, and where it goes on. It does not go on
from a call that has failed, but past a piece that does not open. -/
inductive Answer : UInt32 → Except Error (Option Bytes) → UInt32 → Prop
  | piece {seq : UInt32} {b : Bytes} (inside : seq < n) (opens : inner.OpensTo (row seq) b) :
      Answer seq (.ok (some b)) (seq + 1)
  | refused {seq : UInt32} {stored : Bytes} {e : Error} (inside : seq < n)
      (found : row seq = some stored) (closed : inner.chain.openStored stored = .error e) :
      Answer seq (.error e) (seq + 1)
  | failed {seq : UInt32} {e : Error} (inside : seq < n) : Answer seq (.error e) seq
  | ended {seq : UInt32} (past : n ≤ seq) : Answer seq (.ok none) seq

/-- The answers of a reader that is at `seq`. -/
inductive Yields : UInt32 → List (Except Error (Option Bytes)) → Prop
  | nil (seq : UInt32) : Yields seq []
  | cons {seq seq' : UInt32} {x : Except Error (Option Bytes)} {xs : List (Except Error (Option Bytes))}
      (now : Answer inner row n seq x seq') (rest : Yields seq' xs) : Yields seq (x :: xs)

/-- Where the reader reports the end, it has yielded every piece. -/
def EndsWhole (xs : List (Except Error (Option Bytes))) : Prop :=
  ∀ before after, xs = before ++ .ok none :: after → ∀ s, s < n →
    ∃ b, inner.OpensTo (row s) b ∧ .ok (some b) ∈ before

/-- The piece was yielded, or it does not open and was answered with its error. -/
def Accounted (s : UInt32) (xs : List (Except Error (Option Bytes))) : Prop :=
  (∃ b, inner.OpensTo (row s) b ∧ .ok (some b) ∈ xs) ∨
    ∃ stored e, row s = some stored ∧ inner.chain.openStored stored = .error e ∧ .error e ∈ xs

/-- Where the reader reports the end, it has accounted for every piece. -/
def EndsAccounted (xs : List (Except Error (Option Bytes))) : Prop :=
  ∀ before after, xs = before ++ .ok none :: after → ∀ s, s < n → Accounted inner row s before

variable {inner row n}

theorem Accounted.cons {s : UInt32} {xs : List (Except Error (Option Bytes))}
    (h : Accounted inner row s xs) (x : Except Error (Option Bytes)) :
    Accounted inner row s (x :: xs) := by
  rcases h with ⟨b, opens, hmem⟩ | ⟨stored, e, found, closed, hmem⟩
  · exact .inl ⟨b, opens, List.mem_cons_of_mem _ hmem⟩
  · exact .inr ⟨stored, e, found, closed, List.mem_cons_of_mem _ hmem⟩

/-- A reader that is at the end has accounted for every piece. -/
theorem Yields.accounted {xs : List (Except Error (Option Bytes))} (h : Yields inner row n 0 xs) :
    EndsAccounted inner row n xs := by
  intro before after hxs s hs
  have go {seq : UInt32} (h : Yields inner row n seq xs) (hseq : seq ≤ s) :
      Accounted inner row s before := by
    clear * - h hxs hs hseq
    induction before generalizing seq xs with
    | nil =>
      rw [hxs, List.nil_append] at h
      cases h with
      | cons now rest =>
        cases now with
        | ended past => exact absurd (UInt32.lt_of_le_of_lt hseq hs) (UInt32.not_lt.2 past)
    | cons x before ih =>
      rw [hxs, List.cons_append] at h
      -- Past a piece that is yielded or refused, the reader is at the next one.
      have next (inside : seq < n) (hne : seq ≠ s) : seq + 1 ≤ s := by
        have hlt := UInt32.lt_iff_toNat_lt.1 inside
        have hle := UInt32.le_iff_toNat_le.1 hseq
        have hmax := n.toNat_lt
        have hne' : seq.toNat ≠ s.toNat := fun heq => hne (UInt32.toNat_inj.1 heq)
        rw [UInt32.le_iff_toNat_le, UInt32.toNat_add]
        simp
        omega
      cases h with
      | cons now rest =>
        cases now with
        | piece inside opens =>
          by_cases heq : seq = s
          · subst heq
            exact .inl ⟨_, opens, List.mem_cons_self⟩
          · exact (ih rfl rest (next inside heq)).cons _
        | refused inside found closed =>
          by_cases heq : seq = s
          · subst heq
            exact .inr ⟨_, _, found, closed, List.mem_cons_self⟩
          · exact (ih rfl rest (next inside heq)).cons _
        | failed inside => exact (ih rfl rest hseq).cons _
        | ended past => exact absurd (UInt32.lt_of_le_of_lt hseq hs) (UInt32.not_lt.2 past)
  exact go h (UInt32.le_iff_toNat_le.2 (by simp))

end Reader

/-- A reader of what is stored under a key, asked `n` times for its next piece. Where nothing is stored
there is no reader, and no answer. -/
def LazyLocker.reading {T : Type} (inner : Inner T) (key : Bytes) (n : Nat) :
    Io (Ram T) (List (Except Error (Option Bytes))) := do
  match ← LazyLocker.reader inner key with
  | none => pure []
  | some r => r.answers inner n

/-- The pieces that a store has under a value id. -/
def piecesOf (db : Tables) (id : UInt64) (seq : UInt32) : Option Bytes :=
  db.lookup .chunks (chunkKey id seq)

/-- The call `i` has opened over the store `db`, and of the id, which was free there, nothing is stored
that was not stored there. -/
structure OpenedOver (i : Nat) (db : Tables) (id : UInt64) (a : Sight) : Prop where
  opened : a.issue.opened i = some db
  free : a.Free id
  pieces : ∀ seq, a.piece id seq = piecesOf db id seq ∨ a.piece id seq = none

section
variable {T ρ α : Type} {inner : Inner T} {view : ρ → ValueIds} {i : Nat} {K : Sight → Prop}
  {db : Tables} {id : UInt64} {p : ChunkPointer}

/-- What others leave to the call keeps what it has opened. -/
theorem OpenedOver.leaves {a b : Sight} (h : OpenedOver i db id a) (hab : LeavesTo i a b) :
    OpenedOver i db id b where
  opened := hab.2.trans h.opened
  free := hab.1.keepsFree h.free
  pieces seq := by
    rcases hab.1.pieces id h.free seq with same | gone
    · rw [same]
      exact h.pieces seq
    · exact .inr gone

/-- Nobody else ends `K`, nor does a step of the call that publishes nothing and reads no record. -/
def Lasting (i : Nat) (K : Sight → Prop) : Prop := ∀ a b, K a → LeavesTo i a b → K b

theorem Lasting.steady (lasting : Lasting i K)
    {sem : (q : Req) → Machine Tables ρ → Resp q → Machine Tables ρ → Prop} :
    Async.Steady (issueRules view sem) (seen view) i K := fun _ _ hx hxy _ => lasting _ _ hx hxy

theorem lasting_opened (i : Nat) (db : Tables) : Lasting i fun a => a.issue.opened i = some db :=
  fun _ _ h hab => hab.2.trans h

theorem leaves_get {key : Bytes} {F : Option Bytes → Prop} (lasting : Lasting i K)
    (finds : ∀ a, K a → F (a.db.lookup .chunks key)) :
    Issues view i K (Backend.get .chunks key) fun r a => K a ∧ ∀ v, r = .ok v → F v := by
  intro h x hx
  refine Backend.safe_get fun y hxy hy x' m answer _ => ?_
  have hK := lasting _ _ hx hxy
  obtain ⟨allowed, follows⟩ : (issueRules view (Shown view)).Allows i (.io (.get .chunks key) x') y m ∧
      Continues i (seen view y) _ := allows_io hy (fun h => h) answer
  have same : (noteIssue view i (.io (.get .chunks key) x') y.machine m y.record).opened i =
      y.record.opened i := by
    cases x' <;> rfl
  refine ⟨allowed, fun z hyz _ => ⟨lasting _ _ hK ⟨follows.trans hyz.1, hyz.2.trans same⟩, ?_⟩⟩
  intro v hv
  rw [answer.2.2 v hv]
  exact finds _ hK

theorem opens_get (key : Bytes) : Issues view i (fun _ => True) (Backend.get .records key)
    fun r a => ∀ v, r = .ok v → ∃ db, a.issue.opened i = some db ∧ db.lookup .records key = v ∧
      ∀ raw p, v = some raw → ChunkPointer.parse raw = .ok p → OpenedOver i db p.valueId a := by
  intro h x _
  refine Backend.safe_get fun y hxy hy x' m answer _ => ?_
  obtain ⟨allowed, follows⟩ : (issueRules view (Shown view)).Allows i (.io (.get .records key) x') y m ∧
      Continues i (seen view y) _ := allows_io hy (fun h => h) answer
  refine ⟨allowed, fun z hyz _ v hv => ⟨y.machine.dev, ?_, (answer.2.2 v hv).symm, ?_⟩⟩
  · rw [hyz.2, hv]
    exact Function.update_self _ _ _
  · intro raw p hraw hp
    have hrow : (seen view y).db.lookup .records key = some raw := by
      rw [← hraw]
      exact (answer.2.2 v hv).symm
    have here : OpenedOver i y.machine.dev p.valueId
        (seen view ((issueRules view (Shown view)).move i (.io (.get .records key) x') y m)) := by
      refine ⟨?_, follows.keepsFree (hy.pointed key raw p hrow hp), fun seq => ?_⟩
      · rw [hv]
        exact Function.update_self _ _ _
      · exact follows.pieces _ (hy.pointed key raw p hrow hp) seq
    exact here.leaves hyz

namespace Reader

theorem issues_nextChunk (seq : UInt32) : Issues view i (OpenedOver i db p.valueId)
    (nextChunk inner ⟨some p, seq, none⟩) fun r a => OpenedOver i db p.valueId a ∧
      ∀ x, r = .ok x → ∃ seq', x.1 = ⟨some p, seq', none⟩ ∧
        Answer inner (piecesOf db p.valueId) p.nChunks seq x.2 seq' := by
  have lasting : Lasting i (OpenedOver i db p.valueId) := fun _ _ h hab => h.leaves hab
  have answer {x : Except Error (Option Bytes)} {seq' : UInt32}
      (h : Answer inner (piecesOf db p.valueId) p.nChunks seq x seq') :
      Issues view i (OpenedOver i db p.valueId) (pure (⟨some p, seq', none⟩, x) : Io ρ _)
        fun r a => OpenedOver i db p.valueId a ∧ ∀ x : Reader × Except Error (Option Bytes), r = .ok x →
          ∃ seq', x.1 = ⟨some p, seq', none⟩ ∧
            Answer inner (piecesOf db p.valueId) p.nChunks seq x.2 seq' := by
    refine (Triple.ret lasting.steady _).mono (fun _ h => h) ?_
    rintro r a ⟨rfl, hK⟩
    exact ⟨hK, fun y hy => Except.ok.inj hy ▸ ⟨seq', rfl, h⟩⟩
  unfold nextChunk
  dsimp only
  split
  · next past => exact answer (.ended past)
  · next inside =>
    have inside : seq < p.nChunks := UInt32.not_le.1 inside
    refine Triple.bind (Triple.attempt (G := fun r a => OpenedOver i db p.valueId a ∧
      ∀ y, r = .ok y → ∀ v, y = .ok v → v = piecesOf db p.valueId seq ∨ v = none) ?_) ?_
      fun _ _ h => ⟨h.1, fun _ hx => by cases hx⟩
    · refine (leaves_get (F := fun v => v = piecesOf db p.valueId seq ∨ v = none) lasting
        fun a h => h.pieces seq).mono (fun _ h => h) fun r a h => ⟨h.1, fun y hy v hv => ?_⟩
      exact h.2 v ((Except.ok.inj hy).trans hv)
    · intro found
      cases found with
      | error e => exact (answer (.failed inside)).mono (fun _ h => h.1) fun _ _ h => h
      | ok v =>
        cases v with
        | none => exact (answer (.failed inside)).mono (fun _ h => h.1) fun _ _ h => h
        | some stored =>
          refine Triple.given (P := piecesOf db p.valueId seq = some stored) (fun a h => ?_) fun hrow => ?_
          · rcases h.2 _ rfl _ rfl with same | gone
            · exact same.symm
            · cases gone
          · refine (answer ?_).mono (fun _ h => h.1) fun _ _ h => h
            cases hopen : inner.chain.openStored stored with
            | ok b => exact .piece inside ⟨stored, hrow, hopen⟩
            | error e => exact .refused inside hrow hopen

theorem issues_answers (n : Nat) (seq : UInt32) : Issues view i (OpenedOver i db p.valueId)
    (answers inner n ⟨some p, seq, none⟩) fun r a => OpenedOver i db p.valueId a ∧ ∀ xs, r = .ok xs →
      xs.length = n ∧ Yields inner (piecesOf db p.valueId) p.nChunks seq xs := by
  have lasting : Lasting i (OpenedOver i db p.valueId) := fun _ _ h hab => h.leaves hab
  induction n generalizing seq with
  | zero =>
    refine (Triple.ret lasting.steady []).mono (fun _ h => h) ?_
    rintro r a ⟨rfl, hK⟩
    exact ⟨hK, fun xs hxs => Except.ok.inj hxs ▸ ⟨rfl, .nil seq⟩⟩
  | succ n ih =>
    unfold answers
    refine Triple.bind (issues_nextChunk seq) ?_ fun _ _ h => ⟨h.1, fun _ hx => by cases hx⟩
    rintro ⟨r', x⟩
    refine Triple.given (fun a h => h.2 _ rfl) ?_
    rintro ⟨seq', hr', now⟩
    obtain rfl : r' = ⟨some p, seq', none⟩ := hr'
    refine Triple.bind ((ih seq').mono (fun a h => h.1) fun _ _ h => h) ?_
      fun _ _ h => ⟨h.1, fun _ hx => by cases hx⟩
    intro xs
    refine Triple.given (fun a h => h.2 xs rfl) ?_
    rintro ⟨hlen, rest⟩
    refine (Triple.ret lasting.steady (x :: xs)).mono (fun _ h => h.1) ?_
    rintro r a ⟨rfl, hK⟩
    exact ⟨hK, fun ys hys => Except.ok.inj hys ▸ ⟨by simp [hlen], .cons now rest⟩⟩

theorem only_answers (n : Nat) (r : Reader) : (answers inner n r : Io ρ _).Only
    (fun q => ∃ key, q = .get .chunks key) fun _ _ => False := by
  induction n generalizing r with
  | zero => exact Prog.only_pure
  | succ n ih =>
    unfold answers
    refine Prog.Only.bind ?_ fun x => (ih x.1).bind fun xs => Prog.only_pure
    unfold nextChunk
    split
    · exact Prog.only_pure
    split
    · exact Prog.only_pure
    split
    · exact Prog.only_pure
    · refine Prog.Only.bind (Prog.Only.attempt (Backend.only_get.2 ⟨_, rfl⟩)) fun found => ?_
      split
      · exact Prog.only_pure
      · exact Prog.only_pure
      · exact Prog.only_pure

/-- Whatever a reader answers, it keeps what nobody else ends. -/
theorem issues_any_answers (lasting : Lasting i K) (n : Nat) (r : Reader) :
    Issues view i K (answers inner n r) fun _ => K := by
  refine Triple.of_only (only_answers n r) lasting.steady (fun _ _ _ _ h => h.elim) ?_
  rintro y _ x m hK hy ⟨key, rfl⟩ answer
  obtain ⟨allowed, follows⟩ : (issueRules view (Shown view)).Allows i (.io (.get .chunks key) x) y m ∧
      Continues i (seen view y) _ := allows_io hy (fun h => h) answer
  refine ⟨allowed, lasting _ _ hK ⟨follows, ?_⟩⟩
  show (noteIssue view i (.io (.get .chunks key) x) y.machine m y.record).opened i = y.record.opened i
  cases x <;> rfl

end Reader

namespace LazyLocker

/-- The call has opened a reader over the store `db`, whose value nobody stores under again. -/
def OpensReader (inner : Inner T) (i : Nat) (key : Bytes) (found : Option Reader) (a : Sight) : Prop :=
  ∃ db, a.issue.opened i = some db ∧ ∀ raw p, db.lookup .records (inner.encodeKey key) = some raw →
    ChunkPointer.parse raw = .ok p → found = some (.fromPointer p) ∧ OpenedOver i db p.valueId a

theorem issues_reader (key : Bytes) : Issues Ram.ids i (fun _ => True) (reader inner key)
    fun r a => ∀ found, r = .ok found → OpensReader inner i key found a := by
  have lasting (v : Option Bytes) : Lasting i fun a => ∃ db, a.issue.opened i = some db ∧
      db.lookup .records (inner.encodeKey key) = v ∧ ∀ raw p, v = some raw →
        ChunkPointer.parse raw = .ok p → OpenedOver i db p.valueId a := by
    rintro a b ⟨db, opened, found, kept⟩ hab
    exact ⟨db, hab.2.trans opened, found, fun raw p hraw hp => (kept raw p hraw hp).leaves hab⟩
  unfold reader
  refine Triple.bind behaves_ensureOpen (fun _ => ?_) fun _ _ _ _ h => by cases h
  refine Triple.bind (opens_get (inner.encodeKey key)) (fun v => ?_) fun _ _ _ _ h => by cases h
  cases v with
  | none =>
    refine (Triple.ret (lasting none).steady none).mono (fun a h => h _ rfl) ?_
    rintro r a ⟨rfl, db, opened, hnone, -⟩ found hfound
    refine ⟨db, opened, fun raw p hraw => ?_⟩
    rw [hnone] at hraw
    cases hraw
  | some raw =>
    dsimp only
    split
    · refine Triple.bind (Triple.ofExcept (lasting (some raw)).steady _ |>.mono (fun a h => h _ rfl)
        fun _ _ h => h) (fun p => ?_) fun _ _ _ _ h => by cases h
      refine Triple.given (fun a h => h.1) fun hparse => ?_
      refine (Triple.ret (lasting (some raw)).steady _).mono (fun a h => h.2) ?_
      rintro r a ⟨rfl, db, opened, hrow, kept⟩ found hfound
      obtain rfl := Except.ok.inj hfound
      refine ⟨db, opened, fun raw' p' hraw' hp' => ?_⟩
      obtain rfl := Option.some.inj (hrow.symm.trans hraw')
      obtain rfl := Except.ok.inj (hparse.trans hp')
      exact ⟨rfl, kept _ _ rfl hp'⟩
    · next inline =>
      refine Triple.bind (Triple.ofExcept (lasting (some raw)).steady _ |>.mono (fun a h => h _ rfl)
        fun _ _ h => h) (fun payload => ?_) fun _ _ _ _ h => by cases h
      refine (Triple.ret (lasting (some raw)).steady _).mono (fun a h => h.2) ?_
      rintro r a ⟨rfl, db, opened, hrow, -⟩ found -
      refine ⟨db, opened, fun raw' p' hraw' hp' => ?_⟩
      obtain rfl := Option.some.inj (hrow.symm.trans hraw')
      exact absurd (isPointer_of_parse hp') inline

/-- The answers are those of a reader over a store that the call has opened over. -/
def ReadsOver (inner : Inner T) (i : Nat) (key : Bytes) (n : Nat)
    (xs : List (Except Error (Option Bytes))) (a : Sight) : Prop :=
  ∃ db, a.issue.opened i = some db ∧ ∀ raw p, db.lookup .records (inner.encodeKey key) = some raw →
    ChunkPointer.parse raw = .ok p →
      xs.length = n ∧ Reader.Yields inner (piecesOf db p.valueId) p.nChunks 0 xs

/-- A reader answers with what was stored when it was opened, or fails. -/
theorem reading_yields (key : Bytes) (n : Nat) : Issues Ram.ids i (fun _ => True)
    (reading inner key n) fun r a => ∀ xs, r = .ok xs → ReadsOver inner i key n xs a := by
  unfold reading
  refine Triple.bind (issues_reader key) (fun found => ?_) fun _ _ _ _ h => by cases h
  refine Triple.mono (K := OpensReader inner i key found) ?_ (fun a h => h _ rfl) fun _ _ h => h
  refine Triple.of_exists fun db => ?_
  by_cases chunked : ∃ raw p, db.lookup .records (inner.encodeKey key) = some raw ∧
      ChunkPointer.parse raw = .ok p
  · obtain ⟨raw, p, hraw, hp⟩ := chunked
    refine Triple.given (fun a h => (h.2 raw p hraw hp).1) fun hfound => ?_
    rw [hfound]
    refine (Reader.issues_answers n 0).mono (fun a h => (h.2 raw p hraw hp).2) ?_
    rintro r a ⟨kept, yields⟩ xs hxs
    refine ⟨db, kept.opened, fun raw' p' hraw' hp' => ?_⟩
    obtain rfl := Option.some.inj (hraw.symm.trans hraw')
    obtain rfl := Except.ok.inj (hp.symm.trans hp')
    exact yields xs hxs
  · have vacuous {xs : List (Except Error (Option Bytes))} {a : Sight}
        (opened : a.issue.opened i = some db) : ReadsOver inner i key n xs a :=
      ⟨db, opened, fun raw p hraw hp => absurd ⟨raw, p, hraw, hp⟩ chunked⟩
    cases found with
    | none =>
      refine (Triple.ret (lasting_opened i db).steady []).mono (fun a h => h.1) ?_
      rintro r a ⟨rfl, opened⟩ xs -
      exact vacuous opened
    | some r =>
      refine (Reader.issues_any_answers (lasting_opened i db) n r).mono (fun a h => h.1) ?_
      exact fun _ a opened xs _ => vacuous opened

end LazyLocker
end
end Crossbank
