import Crossbank.Locker.Lazy

/-!
# Streaming writes and reads

A `Writer` spans many commits: each piece is sealed and committed on its own, and nothing under the
key changes until `Writer.finish`. A `Reader` fetches the pieces of one value one at a time.

* `Writer.start`, `writeChunk`, `finish`, `abort` : the calls of a writer;
* `Reader.nextChunk` : the next piece; `Reader.drain` : all of them, as a caller asks for them;
* `LazyLocker.writer`, `LazyLocker.reader` : a writer and a reader on an open locker.
-/

namespace Crossbank
open Async

structure Writer where
  key : String
  valueId : UInt64
  seq : UInt32
  totalLen : UInt64
  buf : Bytes
  deriving DecidableEq, Repr

namespace Writer
variable {T : Type} (inner : Inner T)

def start (key : String) : Io (Ram T) Writer := do
  let valueId ← ValueIds.allocate.zoom (sharedPart T)
  match ← Prog.read fun ram => ValueIds.counterOp ram.shared with
  | some op => inner.commit [op]
  | none => pure ()
  pure ⟨key, valueId, 0, 0, []⟩

def flushPiece (w : Writer) (piece : Bytes) : Io (Ram T) Unit := do
  let sealed ← Prog.ofExcept (inner.chain.sealSlice piece)
  inner.commit [.put .chunks (chunkKey w.valueId w.seq) sealed]

/-- Commit full pieces while there are any. A chunk size of zero never gets through. -/
def flushFull : Nat → Writer → Io (Ram T) (Writer × Except Error Unit)
  | 0, _ => .stuck
  | fuel + 1, w =>
    if inner.config.chunkSize ≤ w.buf.length then do
      let piece := w.buf.take inner.config.chunkSize
      let w := { w with buf := w.buf.drop inner.config.chunkSize }
      match ← (flushPiece inner w piece).attempt with
      | .ok () => flushFull fuel { w with seq := w.seq + 1 }
      | .error e => pure (w, .error e)
    else pure (w, .ok ())

/-- Append bytes; full pieces go to storage. The writer outlives a failure. -/
def writeChunk (w : Writer) (bytes : Bytes) : Io (Ram T) (Writer × Except Error Unit) :=
  let w := { w with buf := w.buf ++ bytes, totalLen := w.totalLen + UInt64.ofNat bytes.length }
  flushFull inner (w.buf.length + 1) w

/-- Publish the value: the pointer replaces what is under the key, whose chunks go. -/
def finish (w : Writer) : Io (Ram T) Unit := do
  let w ← if w.buf.isEmpty then pure w else do
    flushPiece inner w w.buf
    pure { w with buf := [], seq := w.seq + 1 }
  let existing ← inner.fetch (asBytes w.key)
  let gc ← Prog.ofExcept (Inner.gcExisting existing)
  let pointer : ChunkPointer := ⟨w.valueId, w.seq, w.totalLen, FLAG_RAW⟩
  inner.commit (gc ++ [.put .records (inner.encodeKey (asBytes w.key)) pointer.encode])
  Prog.update (Ram.mapRes (·.touchIndex (·.insert (asBytes w.key))))
  Prog.update (Ram.mapRes (·.noteInline (asBytes w.key) false))
  Prog.update (Ram.announce (.put (asBytes w.key)))

def abort (w : Writer) : Io (Ram T) Unit :=
  inner.commit [gcOps ⟨w.valueId, w.seq, 0, FLAG_RAW⟩]

end Writer

def LazyLocker.writer {T : Type} (inner : Inner T) (key : String) : Io (Ram T) Writer := do
  Ram.ensureOpen
  withWriteLock (Writer.start inner key)

/-- The place of a reader in a chunked value, or an inline value that it has not yielded yet. -/
structure Reader where
  pointer : Option ChunkPointer
  seq : UInt32
  inline : Option Bytes
  deriving DecidableEq, Repr

namespace Reader
variable {T ρ : Type} (inner : Inner T)

def fromPointer (pointer : ChunkPointer) : Reader := ⟨some pointer, 0, none⟩

def fromInline (payload : Bytes) : Reader :=
  ⟨some ⟨0, 0, UInt64.ofNat payload.length, FLAG_RAW⟩, 0, some payload⟩

def len (r : Reader) : UInt64 :=
  match r.pointer with
  | some p => p.totalLen
  | none => 0

def isEmpty (r : Reader) : Bool := r.len = 0

/-- The next piece, or `none` at the end. The reader outlives a failure: it stays at a piece that is
missing, and goes past one that does not open. -/
def nextChunk (r : Reader) : Io ρ (Reader × Except Error (Option Bytes)) :=
  match r.inline with
  | some payload => pure ({ r with inline := none }, .ok (some payload))
  | none =>
    match r.pointer with
    | none => pure (r, .ok none)
    | some pointer =>
      if pointer.nChunks ≤ r.seq then pure (r, .ok none)
      else do
        match ← (Backend.get .chunks (chunkKey pointer.valueId r.seq) : Io ρ _).attempt with
        | .error e => pure (r, .error e)
        | .ok none =>
          pure (r, .error (.corrupt s!"missing chunk {r.seq} of {pointer.valueId}"))
        | .ok (some sealed) =>
          pure ({ r with seq := r.seq + 1 }, (inner.chain.openStored sealed).map some)

/-- The pieces that a caller gets who asks for the next one until the end. -/
def drain : Nat → Reader → Io ρ (List Bytes)
  | 0, _ => .stuck
  | fuel + 1, r => do
    let (r, next) ← nextChunk inner r
    match ← Prog.ofExcept next with
    | none => pure []
    | some piece => do
      let rest ← drain fuel r
      pure (piece :: rest)

end Reader

/-- A reader of what is stored under a key. -/
def LazyLocker.reader {T : Type} (inner : Inner T) (key : Bytes) : Io (Ram T) (Option Reader) := do
  Ram.ensureOpen
  match ← inner.fetch key with
  | none => pure none
  | some raw =>
    if isPointer raw then do
      let pointer ← Prog.ofExcept (ChunkPointer.parse raw)
      pure (some (.fromPointer pointer))
    else do
      let payload ← Prog.ofExcept (inner.chain.openStored raw)
      pure (some (.fromInline payload))

end Crossbank
