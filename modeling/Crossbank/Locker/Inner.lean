import Crossbank.Locker.Lru

/-!
# What the eager and lazy lockers share

* `Inner T` : what a locker of values `T` is opened with;
* `Prior` : what a caller knows about the record it replaces;
* `Inner.walk` : every record of a range, page by page;
* `Inner.loadPayload`, `Inner.decodeRecord` : a stored record's payload, and its value;
* `Inner.putPayloadOps`, `Inner.deleteValueOps`, `Inner.clearValueOps` : the ops of a write, with
  those that drop the chunks of what it replaces.
-/

namespace Crossbank
open Async

/-- What a locker is opened with. -/
structure Inner (T : Type) where
  backend : Backend
  chain : FilterChain
  id : LockerId
  name : String
  config : LockerConfig
  value : Postcard T

/-- What a caller already knows about whatever is stored under a key. -/
inductive Prior where
  | unknown
  | absent
  | inline
  deriving DecidableEq, Repr

def Prior.needsRead (p : Prior) : Bool := p = .unknown

def CHUNK_FETCH_GROUP : Nat := 64

/-- The pieces of a payload: `n` bytes each, the last one what is left. -/
def chunksOf (n : Nat) (payload : Bytes) : List Bytes := go payload.length payload
where
  go : Nat → Bytes → List Bytes
    | 0, _ => []
    | _ + 1, [] => []
    | fuel + 1, rest => rest.take n :: go fuel (rest.drop n)

namespace Inner
variable {T ρ σ : Type} (inner : Inner T)

def encodeKey (key : Bytes) : Bytes := encodeBytes inner.id key

def deleteOp (key : Bytes) : Op := .delete .records (inner.encodeKey key)

def clearOp : Op := .deleteRange .records (lockerRange inner.id)

def fetch (key : Bytes) : Io ρ (Option Bytes) := Backend.get .records (inner.encodeKey key)

/-- Make this locker's commits durable, when its own setting left them otherwise. -/
def flushBackend : Io ρ Unit := if inner.config.isEventual then Backend.flush else pure ()

/-- Commit. Natively there is no other tab, so there is no news to post afterwards. -/
def commit (ops : List Op) : Io ρ Unit := Backend.commitWith ops ⟨inner.config.durability⟩

/-! ## Reading -/

/-- Visit the records of one page. The visitor gets user keys. -/
def visitPage (visit : σ → Bytes → Option Bytes → Except Error σ)
    (items : List (Bytes × Option Bytes)) (acc : σ) : Except Error σ :=
  items.foldlM (fun acc (encoded, value) => do
    let key ← decodeBytes inner.id encoded
    visit acc key value) acc

def walkPages (reverse wantValues : Bool) (visit : σ → Bytes → Option Bytes → Except Error σ) :
    Nat → KeyRange → σ → Io ρ σ
  | 0, _, _ => .stuck
  | fuel + 1, range, acc => do
    let page ← Backend.scan ⟨.records, range, reverse, inner.backend.scanPageSize, wantValues⟩
    let acc ← Prog.ofExcept (inner.visitPage visit page.items acc)
    match page.resume with
    | some last =>
      walkPages reverse wantValues visit fuel
        (if reverse then { range with stop := .excluded last }
          else { range with start := .excluded last }) acc
    | none => pure acc

/-- Visit every record in a range, paging until it is exhausted. -/
def walk (start stop : Bound Bytes) (reverse wantValues : Bool)
    (visit : σ → Bytes → Option Bytes → Except Error σ) (acc : σ) : Io ρ σ :=
  if isDegenerate start stop then pure acc
  else
    inner.walkPages reverse wantValues visit inner.backend.walkFuel
      (encodeRangeBytes inner.id start stop) acc

/-- Append the pieces of one group, from piece `seq` on. -/
def appendPieces (pointer : ChunkPointer) : Nat → List (Option Bytes) → Bytes → Except Error Bytes
  | _, [], out => .ok out
  | seq, sealed :: rest, out =>
    match sealed with
    | none => .error (.corrupt s!"missing chunk {seq} of {pointer.valueId}")
    | some stored => do
      let piece ← inner.chain.openStored stored
      let out := out ++ piece
      if out.length > pointer.totalLen.toNat then
        .error (.corrupt s!"chunked value declared {pointer.totalLen} bytes and has already reassembled {out.length}")
      else appendPieces pointer (seq + 1) rest out

/-- Read the groups of pieces from `seq` on. Each group moves `seq`, so `nChunks` rounds reach the
end. -/
def readGroups (pointer : ChunkPointer) : Nat → Nat → Bytes → Io ρ Bytes
  | 0, _, out => pure out
  | rounds + 1, seq, out =>
    if seq < pointer.nChunks.toNat then do
      let upto := min (seq + CHUNK_FETCH_GROUP) pointer.nChunks.toNat
      let keys := (List.range' seq (upto - seq)).map fun s =>
        chunkKey pointer.valueId (UInt32.ofNat s)
      let pieces ← Backend.getMany .chunks keys
      let out ← Prog.ofExcept (inner.appendPieces pointer seq pieces out)
      readGroups pointer rounds upto out
    else pure out

def readChunks (pointer : ChunkPointer) : Io ρ Bytes := do
  let out ← inner.readGroups pointer pointer.nChunks.toNat 0 []
  if out.length ≠ pointer.totalLen.toNat then
    .fail (.corrupt s!"chunked value declared {pointer.totalLen} bytes, reassembled {out.length}")
  else pure out

def loadPayload (stored : Bytes) : Io ρ Bytes :=
  if isPointer stored then do
    let pointer ← Prog.ofExcept (ChunkPointer.parse stored)
    inner.readChunks pointer
  else Prog.ofExcept (inner.chain.openStored stored)

def isRaw (stored : Bytes) : Except Error Bool :=
  if isPointer stored then (ChunkPointer.parse stored).map fun pointer => pointer.flags = FLAG_RAW
  else .ok false

/-- The value of a payload, serialised first when the payload is raw bytes. -/
def valueOf (raw : Bool) (payload : Bytes) : Except Error T :=
  if raw then
    match inner.value.wrapRaw payload with
    | .error e => .error (.filter s!"postcard wrap of raw chunks failed: {e}")
    | .ok wrapped =>
      match inner.value.fromBytes wrapped with
      | .error e => .error (.corrupt s!"raw chunk reconstruct failed: {e}")
      | .ok v => .ok v
  else inner.value.ofPayload payload

def decodeRecord (stored : Bytes) : Io ρ T := do
  let payload ← inner.loadPayload stored
  let raw ← Prog.ofExcept (isRaw stored)
  Prog.ofExcept (inner.valueOf raw payload)

def loadValue (key : Bytes) : Io ρ (Option T) := do
  match ← inner.fetch key with
  | none => pure none
  | some raw => do
    let v ← inner.decodeRecord raw
    pure (some v)

/-! ## Writing -/

/-- The ops that drop the chunks of what is stored. -/
def gcExisting : Option Bytes → Except Error (List Op)
  | none => .ok []
  | some existing =>
    if isPointer existing then do
      let pointer ← ChunkPointer.parse existing
      .ok [gcOps pointer]
    else .ok []

/-- As `gcExisting`, over what is stored under a key, read only when the caller does not know. -/
def gcPrior (key : Bytes) (prior : Prior) : Io ρ (List Op) :=
  if prior.needsRead then do
    let existing ← inner.fetch key
    Prog.ofExcept (gcExisting existing)
  else pure []

/-- Whether a payload of this size and shape is stored inline. -/
def storesInline (payloadLen : Nat) (flags : UInt8) : Bool :=
  payloadLen ≤ inner.config.chunkSize && flags = FLAG_POSTCARD

/-- The ops that store the pieces, and the sequence number after the last. -/
def pieceOps (valueId : UInt64) : UInt32 → List Bytes → Except Error (List Op × UInt32)
  | seq, [] => .ok ([], seq)
  | seq, piece :: rest => do
    let sealed ← inner.chain.sealSlice piece
    if seq.toNat = 2 ^ 32 - 1 then .error (.backend "chunk sequence space is exhausted")
    else do
      let (ops, last) ← pieceOps valueId (seq + 1) rest
      .ok (.put .chunks (chunkKey valueId seq) sealed :: ops, last)

/-- Ops to store a payload at a key, chunked when needed, and to drop what it replaces. -/
def putPayloadOps (key payload : Bytes) (flags : UInt8) (prior : Prior) : Io Shared (List Op) := do
  let gc ← inner.gcPrior key prior
  if inner.storesInline payload.length flags then do
    let sealed ← Prog.ofExcept (inner.chain.sealSlice payload)
    pure (gc ++ [.put .records (inner.encodeKey key) sealed])
  else do
    let valueId ← ValueIds.allocate
    if inner.config.chunkSize = 0 then .stuck -- `chunks(0)` panics
    else do
      let (pieces, seq) ← Prog.ofExcept
        (inner.pieceOps valueId 0 (chunksOf inner.config.chunkSize payload))
      let pointer : ChunkPointer := ⟨valueId, seq, UInt64.ofNat payload.length, flags⟩
      let counter ← Prog.read ValueIds.counterOp
      pure (gc ++ pieces ++ [.put .records (inner.encodeKey key) pointer.encode] ++ counter.toList)

def deleteValueOps (key : Bytes) (prior : Prior) : Io ρ (List Op) := do
  let gc ← inner.gcPrior key prior
  pure (gc ++ [inner.deleteOp key])

/-- The op that drops the chunks of one walked record. A pointer that does not parse has none that
can be located. -/
def gcVisited (ops : List Op) (_key : Bytes) (value : Option Bytes) : Except Error (List Op) :=
  match value with
  | some raw =>
    if isPointer raw then
      match ChunkPointer.parse raw with
      | .ok pointer => .ok (ops ++ [gcOps pointer])
      | .error _ => .ok ops
    else .ok ops
  | none => .ok ops

/-- Ops to clear this locker's records and every chunk they point at. -/
def clearValueOps : Io ρ (List Op) := do
  let ops ← inner.walk .unbounded .unbounded false true gcVisited []
  pure (ops ++ [inner.clearOp])

end Inner
end Crossbank
