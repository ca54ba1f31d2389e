import Crossbank.Locker.Damage
import Crossbank.Locker.Streaming

/-!
# What is stored so that it reads back

A put is stored inline, whatever its length, or cut into pieces. An inline record reads back where the
chain opens what it has sealed, and pieces where their length is one that a reader accepts.

* `Inner.Legible` : a payload that reads back as its value once it is stored;
* `Laid.lookup_put` : the record and the pieces that a batch leaves of one of its puts;
* `LandsBatch.valueStored_iff` : what a commit has stored reads back exactly where it is legible,
  whatever else the commit has stored;
* `WriteCall.Done.answers_iff` : and so does what a call has written, or it is only staged.
-/

namespace Crossbank
open Async

/-- The payload reads back as the value once it is stored: inline, where the chain opens what it has
sealed; in pieces, where its length is one that a reader accepts. -/
def Inner.Legible {T : Type} (inner : Inner T) (payload : Bytes) (v : T) : Prop :=
  if inner.storesInline payload.length FLAG_POSTCARD then
    ∃ sealed, inner.chain.sealSlice payload = .ok sealed ∧
      inner.value.decode inner.chain sealed = .ok v
  else payload.length ≤ MAX_DECODED_BYTES

section
variable {T : Type} {inner : Inner T} {db : Tables} {payload : Bytes} {v : T}

/-- What decodes, and is no longer than a reader accepts, is legible. -/
theorem legible_of_short (chain : inner.chain.Inverts) (short : payload.length ≤ MAX_DECODED_BYTES)
    (seals : ∃ sealed, inner.chain.sealSlice payload = .ok sealed)
    (value : inner.value.ofPayload payload = .ok v) : inner.Legible payload v := by
  unfold Inner.Legible
  split
  · obtain ⟨sealed, hsealed⟩ := seals
    refine ⟨sealed, hsealed, ?_⟩
    rw [Postcard.decode, chain payload sealed short hsealed]
    exact value
  · exact short

/-! ## One write -/

theorem valueStored_inline {key sealed : Bytes} (hsealed : inner.chain.sealSlice payload = .ok sealed)
    (record : db.lookup .records (inner.encodeKey key) = some sealed) :
    inner.valueStored db key = .ok (some v) ↔ inner.value.decode inner.chain sealed = .ok v := by
  have plain := sealed_not_pointer hsealed
  unfold Inner.valueStored
  rw [record]
  dsimp only
  rw [Inner.payloadOf, Inner.isRaw, plain, if_neg (by simp), if_neg (by simp), Postcard.decode]
  cases inner.chain.openStored sealed with
  | error e => simp [bind, Except.bind]
  | ok opened =>
    simp only [bind, Except.bind, Inner.valueOf, Bool.false_eq_true, if_false]
    cases inner.value.ofPayload opened <;> simp

/-- A pointer to the pieces of a payload is read as the payload, where its length is one that a reader
accepts. -/
theorem valueStored_chunked (chain : inner.chain.Inverts) {key : Bytes} {p : ChunkPointer}
    {sealed : List Bytes} (seals : Body.Seals inner FLAG_POSTCARD payload (.chunked p sealed))
    (record : db.lookup .records (inner.encodeKey key) = some p.encode)
    (pieces : Inner.storedPieces db p = sealed.map some) (size : payload.length < 2 ^ 64)
    (value : inner.value.ofPayload payload = .ok v) :
    inner.valueStored db key = .ok (some v) ↔ payload.length ≤ MAX_DECODED_BYTES := by
  obtain ⟨hsize, hall, hcount, htotal, hflags, -⟩ := id seals
  have pos := Nat.pos_of_ne_zero hsize
  have hlen : p.totalLen.toNat = payload.length := by
    rw [htotal]
    exact UInt64.toNat_ofNat_of_lt' size
  constructor
  · intro stored
    have within : p.Within := by_contra fun beyond => Writer.valueStored_beyond record beyond stored
    rw [← hlen]
    exact within.1
  · intro short
    obtain ⟨⟨within, -⟩, -⟩ := Body.Seals.whole seals short
    have flat := Inner.flatten_chunksOf pos payload
    have assembled : inner.assemble db p = .ok payload := by
      rw [Writer.assemble_iff chain hall pieces (by omega) (by rw [flat, hlen]), flat]
      exact ⟨rfl, hlen.symm⟩
    have parsed : ChunkPointer.parse p.encode = .ok p := parse_eq_ok.2 ⟨rfl, within⟩
    unfold Inner.valueStored
    rw [record]
    dsimp only
    rw [Inner.payloadOf, if_pos (isPointer_encode _), Inner.isRaw, if_pos (isPointer_encode _), parsed]
    simp only [bind, Except.bind, Except.map, assembled]
    rw [hflags, show decide (FLAG_POSTCARD = FLAG_RAW) = false by decide, Inner.valueOf,
      if_neg (by simp), value]

/-! ## One commit -/

section
variable {s s' : Shared} {staged : List Pending} {ops more : List Op} {b : Batch}
  {victims : List Bytes}

theorem collapsed_of_put {key : Bytes} (h : stagedView staged key = some (some payload)) :
    (collapsed staged)[key]? = some (.put payload) := by
  rw [stagedView_eq_collapsed] at h
  cases haction : (collapsed staged)[key]? with
  | none =>
    rw [haction] at h
    dsimp only [Option.map_none, Option.none_or] at h
    split at h <;> cases h
  | some action =>
    rw [haction] at h
    cases action with
    | put payload' => rw [Option.some.inj (Option.some.inj h)]
    | delete => cases h

/-- What a commit leaves of one of its puts: its record, and each of its pieces. -/
theorem Laid.lookup_put (laid : Laid inner db s staged ops s' b) (apart : Apart db (idCursor db s))
    (untouched : ∀ v ∈ victims, stagedView staged v = none) (nodup : victims.Nodup)
    (data : dataOps more = dataOps ops ++
      (shedWrites inner db victims).flatMap (KeyWrite.ops inner))
    (counter : written more .meta META_NEXT_VALUE_ID = written ops .meta META_NEXT_VALUE_ID)
    {key : Bytes} (hput : stagedView staged key = some (some payload)) : ∃ body : Body,
    body.Seals inner FLAG_POSTCARD payload ∧ body.Inlines inner FLAG_POSTCARD payload ∧
      (db.commit more).lookup .records (inner.encodeKey key) = body.record ∧
      ∀ p sealed, body = .chunked p sealed →
        Inner.storedPieces (db.commit more) p = sealed.map some := by
  have built := laid.built_shed data counter
  have haction := collapsed_of_put hput
  obtain ⟨w, hfind⟩ : ∃ w, b.find key = some w := by
    rw [← Option.isSome_iff_exists, laid.all key, haction]
    rfl
  obtain ⟨hw, rfl⟩ := mem_writes_of_find hfind
  obtain ⟨action, haction', does⟩ := laid.does w hw
  obtain rfl := Option.some.inj (haction'.symm.trans haction)
  have hw' : w ∈ b.writes ++ shedWrites inner db victims := List.mem_append_left _ hw
  refine ⟨w.body, does, laid.inlines w hw payload haction, ?_, fun p sealed hbody => ?_⟩
  · have found : Batch.find ⟨b.cleared, b.writes ++ shedWrites inner db victims⟩ w.key = some w := by
      rw [Batch.find, List.find?_append]
      exact Option.or_eq_some_iff.2 (.inl hfind)
    rw [Tables.lookup_commit, ← written_dataOps more (by decide), built.data,
      written_batch_record (laid.nodup_shed untouched nodup), found]
    rfl
  · rw [hbody] at does
    obtain ⟨-, -, hcount, -⟩ := id does
    have hnew : p.valueId ∈ newIds (b.writes ++ shedWrites inner db victims) :=
      List.mem_filterMap.2 ⟨w, hw', by rw [hbody]; rfl⟩
    have fresh : p.valueId ∉ (⟨b.cleared, b.writes ++ shedWrites inner db victims⟩ : Batch).collected := by
      intro hcollected
      obtain ⟨k, raw, q, hraw, hparse, hid⟩ := laid.pointer_of_collected hcollected
      have below := apart.below k raw q hraw hparse
      rw [hid] at below
      have past := (built.fresh _ hnew).1
      omega
    have room := p.nChunks.toNat_lt
    refine List.ext_getElem (by simp [Inner.storedPieces, hcount]) fun n hn hn' => ?_
    rw [List.length_map] at hn'
    simp only [Inner.storedPieces, List.getElem_map, List.getElem_range', Nat.zero_add, Nat.one_mul]
    rw [Tables.lookup_commit, ← written_dataOps more (by decide), built.data,
      written_batch_piece built.nodup_newIds hw' hbody fresh (by omega) hn', List.getElem?_eq_getElem hn']
    rfl

/-- What a commit has stored under a key reads back exactly where it is legible. -/
theorem Laid.valueStored_iff (laid : Laid inner db s staged ops s' b) (chain : inner.chain.Inverts)
    (apart : Apart db (idCursor db s)) (untouched : ∀ v ∈ victims, stagedView staged v = none)
    (nodup : victims.Nodup)
    (data : dataOps more = dataOps ops ++
      (shedWrites inner db victims).flatMap (KeyWrite.ops inner))
    (counter : written more .meta META_NEXT_VALUE_ID = written ops .meta META_NEXT_VALUE_ID)
    {key : Bytes} (hput : stagedView staged key = some (some payload))
    (size : payload.length < 2 ^ 64) (value : inner.value.ofPayload payload = .ok v) :
    inner.valueStored (db.commit more) key = .ok (some v) ↔ inner.Legible payload v := by
  obtain ⟨body, seals, inlines, record, pieces⟩ :=
    laid.lookup_put apart untouched nodup data counter hput
  unfold Inner.Legible
  cases body with
  | gone => exact seals.elim
  | inline sealed =>
    rw [if_pos (inlines sealed rfl), valueStored_inline seals record]
    constructor
    · exact fun h => ⟨sealed, seals, h⟩
    · rintro ⟨sealed', hsealed', h⟩
      rwa [← Except.ok.inj (hsealed'.symm.trans seals)]
  | chunked p sealed =>
    obtain ⟨-, -, -, -, -, long⟩ := id seals
    rw [long, if_neg (by simp)]
    exact valueStored_chunked chain seals record (pieces p sealed rfl) size value

end

/-! ## One call -/

section
variable {m m' : Machine Tables (Ram T)} {key : Bytes} {own : List (Staged T)}

theorem LandsBatch.valueStored_iff {batch : List Pending} {ops : List Op}
    (lands : LandsBatch inner m batch ops) (chain : inner.chain.Inverts)
    (apart : Apart m.dev (idCursor m.dev m.mem.shared))
    (hput : stagedView batch key = some (some payload)) (size : payload.length < 2 ^ 64)
    (value : inner.value.ofPayload payload = .ok v) :
    inner.valueStored (m.dev.commit ops) key = .ok (some v) ↔ inner.Legible payload v := by
  obtain ⟨built, s', b, laid, data, counter⟩ := lands
  exact laid.valueStored_iff chain apart (fun v hv => not_touched_of_sheds hv) sheds_nodup data counter
    hput size value

/-- The last of the writes to the key puts the payload of the value there. -/
def LastPut (own : List (Staged T)) (key payload : Bytes) (v : T) : Prop :=
  ∃ before after, own = before ++ .put key payload v :: after ∧
    stagedView (after.map Staged.pending) key = none

theorem LastPut.stagedView (last : LastPut own key payload v) :
    stagedView (own.map Staged.pending) key = some (some payload) := by
  obtain ⟨before, after, rfl, untouched⟩ := last
  rw [List.append_cons, List.map_append, stagedView_append, untouched, List.map_append,
    List.map_singleton, stagedView_concat]
  simp [Staged.pending, Pending.effect]

/-- What a call has written reads back exactly where it is only staged, or legible; a locker that
keeps a byte budget also notes the read. -/
theorem WriteCall.Done.answers_iff {c : WriteCall T} (done : c.Done inner m m')
    (idle : isDeferred inner = false → m.mem.res.staged = []) (chain : inner.chain.Inverts)
    (inverts : inner.value.Inverts) (apart : Apart m.dev (idCursor m.dev m.mem.shared))
    (serialised : inner.value.payload v = .ok payload) (last : LastPut c.own key payload v)
    (size : payload.length < 2 ^ 64) : Answers inner m' key (.ok (some v)) ↔
      c.commits inner m = none ∨
        inner.Legible payload v ∧ (m'.mem.res.lru.isSome = true → ClockRuns m') := by
  have value := ofPayload_of_payload inverts serialised
  cases hcommit : c.commits inner m with
  | none =>
    obtain ⟨-, hstaged, open_⟩ := (WriteCall.done_none hcommit).1 done
    have view : Crossbank.stagedView m'.mem.res.staged key = some (some payload) := by
      rw [hstaged, stagedView_append, last.stagedView]
      rfl
    have gets : Answers inner m' key (.ok (some v)) :=
      (Writer.gets_staged_iff open_ view).2 ⟨payload, rfl, value⟩
    simp [gets]
  | some commit =>
    obtain ⟨ops, lands, hdev, hstaged, open_⟩ := (WriteCall.done_some hcommit).1 done
    have view : Crossbank.stagedView commit.batch key = some (some payload) := by
      rw [WriteCall.stagedView_batch idle hcommit, last.stagedView]
      rfl
    have stored := lands.valueStored_iff chain apart view size value
    have gets : Answers inner m' key (.ok (some v)) ↔ _ :=
      Writer.gets_iff open_ (by rw [hstaged]; rfl)
    rw [gets, hdev, stored]
    simp

end
end
end Crossbank
