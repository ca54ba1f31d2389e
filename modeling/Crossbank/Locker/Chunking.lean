import Crossbank.Async.Total
import Crossbank.Locker.Collapse

/-!
# Chunked values, there and back

* `length_chunksOf`, `chunksOf_append` : how many pieces there are, and where they are cut;
* `putPayloadOps_loads` : what a built put leaves, once it has landed, is what loading answers;
* `readChunks_total` : reading chunks ends, whatever is stored;
* `chunks_round_trip` : chunking round-trips and is robust.
-/

namespace Crossbank
open Async

/-! ## Cutting -/

namespace Inner

theorem chunksOf_go_congr {n fuel fuel' : Nat} (hn : 0 < n) {rest : Bytes}
    (enough : rest.length ≤ fuel) (enough' : rest.length ≤ fuel') :
    chunksOf.go n fuel rest = chunksOf.go n fuel' rest := by
  induction fuel generalizing rest fuel' with
  | zero =>
    obtain rfl := List.eq_nil_of_length_eq_zero (Nat.le_zero.1 enough)
    cases fuel' with
    | zero => rfl
    | succ fuel' => rfl
  | succ fuel ih =>
    cases rest with
    | nil =>
      cases fuel' with
      | zero => rfl
      | succ fuel' => rfl
    | cons b rest =>
      cases fuel' with
      | zero => cases enough'
      | succ fuel' =>
        rw [List.length_cons] at enough enough'
        refine congrArg (_ :: ·) (ih ?_ ?_)
        · rw [List.length_drop, List.length_cons]
          omega
        · rw [List.length_drop, List.length_cons]
          omega

theorem chunksOf_of_ne_nil {n : Nat} (hn : 0 < n) {payload : Bytes} (some : payload ≠ []) :
    chunksOf n payload = payload.take n :: chunksOf n (payload.drop n) := by
  cases payload with
  | nil => exact absurd rfl some
  | cons b rest =>
    refine congrArg (_ :: ·) (chunksOf_go_congr hn ?_ le_rfl)
    rw [List.length_drop, List.length_cons]
    omega

/-- A full piece, then the pieces of what follows it. -/
theorem chunksOf_append {n : Nat} (hn : 0 < n) {piece : Bytes} (full : piece.length = n)
    (rest : Bytes) : chunksOf n (piece ++ rest) = piece :: chunksOf n rest := by
  have some : piece ++ rest ≠ [] := by
    rintro h
    rw [(List.append_eq_nil_iff.1 h).1] at full
    exact absurd full (by simp; omega)
  rw [chunksOf_of_ne_nil hn some, ← full, List.take_left, List.drop_left]

/-- What is shorter than a piece is a piece, unless it is nothing. -/
theorem chunksOf_short {n : Nat} (hn : 0 < n) {tail : Bytes} (short : tail.length < n) :
    chunksOf n tail = if tail = [] then [] else [tail] := by
  split
  · next none =>
    rw [none]
    rfl
  · next some =>
    rw [chunksOf_of_ne_nil hn some, List.take_of_length_le short.le, List.drop_of_length_le short.le]
    rfl

theorem length_chunksOf {n : Nat} (hn : 0 < n) (payload : Bytes) :
    (chunksOf n payload).length = (payload.length + n - 1) / n := by
  induction h : payload.length using Nat.strong_induction_on generalizing payload with
  | _ length ih =>
    by_cases none : payload = []
    · subst none
      rw [List.length_nil] at h
      rw [← h, Nat.zero_add, Nat.div_eq_of_lt (by omega)]
      rfl
    · have some : 0 < payload.length := List.length_pos_iff.2 none
      rw [chunksOf_of_ne_nil hn none, List.length_cons, ih (length - n) (by omega) _ (by simp [h])]
      by_cases more : n ≤ length
      · have split : length + n - 1 = (length - n + n - 1) + n := by omega
        rw [split, Nat.add_div_right _ hn]
      · have one : length + n - 1 = (length - 1) + n := by omega
        have nothing : length - n + n - 1 = n - 1 := by omega
        rw [one, nothing, Nat.add_div_right _ hn, Nat.div_eq_of_lt (by omega),
          Nat.div_eq_of_lt (by omega)]

/-- Where they are cut. Every piece but the last is full. -/
theorem full_of_mem_dropLast {n : Nat} (hn : 0 < n) {payload piece : Bytes}
    (h : piece ∈ (chunksOf n payload).dropLast) : piece.length = n := by
  induction hl : payload.length using Nat.strong_induction_on generalizing payload with
  | _ length ih =>
    by_cases none : payload = []
    · rw [none] at h
      cases h
    · have some : 0 < payload.length := List.length_pos_iff.2 none
      rw [chunksOf_of_ne_nil hn none] at h
      by_cases last : chunksOf n (payload.drop n) = []
      · rw [last] at h
        cases h
      · rw [List.dropLast_cons_of_ne_nil last] at h
        rcases List.mem_cons.1 h with rfl | h
        · have more : payload.drop n ≠ [] := by
            intro empty
            rw [empty] at last
            exact last rfl
          have := List.length_pos_iff.2 more
          rw [List.length_drop] at this
          rw [List.length_take]
          omega
        · exact ih (payload.drop n).length (by rw [List.length_drop]; omega) h rfl

theorem length_le_of_mem_chunksOf {n : Nat} (hn : 0 < n) {payload piece : Bytes}
    (h : piece ∈ chunksOf n payload) : piece.length ≤ n := by
  induction hl : payload.length using Nat.strong_induction_on generalizing payload with
  | _ length ih =>
    by_cases none : payload = []
    · rw [none] at h
      cases h
    · have some : 0 < payload.length := List.length_pos_iff.2 none
      rw [chunksOf_of_ne_nil hn none] at h
      rcases List.mem_cons.1 h with rfl | h
      · exact List.length_take_le n payload
      · exact ih (payload.drop n).length (by rw [List.length_drop]; omega) h rfl

end Inner

/-! ## There and back -/

section
variable {T : Type} {inner : Inner T} {db : Tables} {s : Shared} {ops : List Op}
  {key payload : Bytes} {flags : UInt8} {prior : Prior} {m' : Machine Tables Shared}

theorem mem_putPayloadOps (long : inner.storesInline payload.length flags = false)
    (run : Run Served (inner.putPayloadOps key payload flags prior) ⟨db, s⟩ (.ok ops) m') :
    ∃ p : ChunkPointer, .put .records (inner.encodeKey key) p.encode ∈ ops := by
  obtain ⟨gc, m₁, hgc, h₁⟩ := run_bind_ok.1 run
  rw [if_neg (by simp [long])] at h₁
  obtain ⟨id, m₂, halloc, h₂⟩ := run_bind_ok.1 h₁
  split at h₂
  · exact absurd h₂ run_stuck
  · obtain ⟨⟨pieces, seq⟩, m₃, hpieces, h₃⟩ := run_bind_ok.1 h₂
    obtain ⟨counter, m₄, hcounter, h₄⟩ := run_bind_ok.1 h₃
    obtain rfl := Except.ok.inj (run_pure.1 h₄).1
    exact ⟨⟨id, seq, UInt64.ofNat payload.length, flags⟩, by simp⟩

/-- What a built put leaves. The record under the key holds the payload, in as many pieces as it
takes when it is not inline. -/
theorem putPayloadOps_loads (pos : 0 < inner.config.chunkSize) (inverts : inner.chain.Inverts)
    (wf : WellFormed inner db (idCursor db s)) (small : payload.length ≤ MAX_DECODED_BYTES)
    (run : Run Served (inner.putPayloadOps key payload flags prior) ⟨db, s⟩ (.ok ops) m') :
    ∃ raw, (db.commit ops).lookup .records (inner.encodeKey key) = some raw ∧
      inner.payloadOf (db.commit ops) raw = .ok payload ∧
      (inner.storesInline payload.length flags = false → ∃ p : ChunkPointer, raw = p.encode ∧
        p.nChunks.toNat = (payload.length + inner.config.chunkSize - 1) / inner.config.chunkSize) := by
  obtain ⟨s', body, rfl, seals, -, built⟩ := putPayloadOps_run run
  obtain ⟨whole, holds⟩ := seals.whole small
  have fits := fits_of_built built (List.nodup_singleton _) (fun dropped h => by cases h)
    (fun w hw p hp => by
      obtain rfl := List.mem_singleton.1 hw
      dsimp only [collected] at hp
      split at hp
      · exact hp
      · cases hp)
    fun w hw => by
      obtain rfl := List.mem_singleton.1 hw
      exact whole
  have stored := payloadOf_written inverts wf.apart fits built.data (List.mem_singleton_self _)
    (show Body.Holds _ _ (some payload) from holds) fun bytes h => Option.some.inj h ▸ small
  have record := lookup_commit_record fits built.data key
  rw [Batch.find, List.find?_cons_of_pos (by simp)] at record
  dsimp only at record stored
  cases body with
  | gone => exact holds.elim
  | inline sealed =>
    refine ⟨sealed, record, Option.some.inj stored, fun long => ?_⟩
    -- The record of a payload that is not inline is a pointer, and no sealed payload is one.
    obtain ⟨p, hop⟩ := mem_putPayloadOps long run
    have data : (Op.put .records (inner.encodeKey key) p.encode) ∈ dataOps ops :=
      List.mem_filter.2 ⟨hop, rfl⟩
    rw [built.data] at data
    have record : Op.put .records (inner.encodeKey key) p.encode =
        .put .records (inner.encodeKey key) sealed := by
      simpa [Batch.ops, KeyWrite.ops, Body.ops, gcOps] using data
    have pointer := isPointer_encode p
    rw [(Op.put.inj record).2.2, sealed_not_pointer seals] at pointer
    cases pointer
  | chunked p sealed =>
    obtain ⟨-, hall, hcount, -⟩ := seals
    refine ⟨p.encode, record, Option.some.inj stored, fun _ => ⟨p, rfl, ?_⟩⟩
    rw [hcount, ← hall.length_eq, Inner.length_chunksOf pos]

/-! ## Whatever is stored -/

theorem readGroups_total {ρ : Type} [WriteLock ρ] {m : Machine Tables ρ} (p : ChunkPointer)
    (rounds seq : Nat) (out : Bytes) :
    (inner.readGroups p rounds seq out : Io ρ Bytes).Total Served (fun _ => True) m
      fun _ m' => m' = m := by
  induction rounds generalizing seq out with
  | zero => exact (rfl : m = m)
  | succ rounds ih =>
    rw [Inner.readGroups]
    split
    · have fetched (keys : List Bytes) : (Backend.getMany .chunks keys : Io ρ _).Total Served
          (fun _ => True) m fun _ m' => m' = m := by
        refine ⟨trivial, fun x m' hx => ?_⟩
        obtain rfl : m' = m := hx.1
        exact Prog.total_ofExcept.2 rfl
      refine (fetched _).bind (fun pieces m₁ hm => ?_) fun e m₁ hm => hm
      subst hm
      refine (Prog.total_ofExcept.2 rfl : (Prog.ofExcept _ : Io ρ Bytes).Total Served _ m₁
        fun _ m' => m' = m₁).bind (fun out m₂ hm => ?_) fun e m₂ hm => hm
      subst hm
      exact ih _ out
    · exact (rfl : m = m)

theorem readChunks_total {ρ : Type} [WriteLock ρ] {m : Machine Tables ρ} (p : ChunkPointer) :
    (inner.readChunks p : Io ρ Bytes).Total Served (fun _ => True) m fun r m' =>
      m' = m ∧ ∀ payload, r = .ok payload → payload.length = p.totalLen.toNat := by
  refine (readGroups_total p _ 0 []).bind (fun out m₁ hm => ?_) fun e m₁ hm => ⟨hm, fun _ h => by cases h⟩
  split
  · exact ⟨hm, fun _ h => by cases h⟩
  · next heq =>
    refine ⟨hm, fun payload h => ?_⟩
    rw [← Except.ok.inj h]
    exact not_not.1 heq

/-- Chunking round-trips and is robust. A put that was built and has landed loads as the payload,
cut in as many pieces as it takes; a pointer within the limits and its form are each other's; and
reading chunks ends with an error or with the length that the pointer says, whatever is stored. -/
theorem chunks_round_trip (pos : 0 < inner.config.chunkSize) (inverts : inner.chain.Inverts)
    (wf : WellFormed inner db (idCursor db s)) (small : payload.length ≤ MAX_DECODED_BYTES)
    (run : Run Served (inner.putPayloadOps key payload flags prior) ⟨db, s⟩ (.ok ops) m') :
    (∃ raw, (db.commit ops).lookup .records (inner.encodeKey key) = some raw ∧
      (∀ m : Machine Tables (Ram T), m.dev = db.commit ops →
        Run Answered (inner.loadPayload raw) m (.ok payload) m ∧
        ∀ loaded m₁, Run Served (inner.loadPayload raw) m (.ok loaded) m₁ → loaded = payload) ∧
      (inner.storesInline payload.length flags = false → ∃ p : ChunkPointer, raw = p.encode ∧
        p.nChunks.toNat = (payload.length + inner.config.chunkSize - 1) / inner.config.chunkSize)) ∧
    ((∀ p : ChunkPointer, p.Within → ChunkPointer.parse p.encode = .ok p) ∧
      ∀ raw p, ChunkPointer.parse raw = .ok p → p.encode = raw) ∧
    ∀ (p : ChunkPointer) (m : Machine Tables (Ram T)),
      (inner.readChunks p).Total Served (fun _ => True) m fun r m' =>
        m' = m ∧ ∀ loaded, r = .ok loaded → loaded.length = p.totalLen.toNat := by
  refine ⟨?_, ⟨fun p within => parse_eq_ok.2 ⟨rfl, within⟩, fun raw p h => (parse_eq_ok.1 h).1.symm⟩,
    fun p m => readChunks_total p⟩
  obtain ⟨raw, record, holds, count⟩ := putPayloadOps_loads pos inverts wf small run
  refine ⟨raw, record, fun m hdev => ⟨?_, fun loaded m₁ load => ?_⟩, count⟩
  · have loads := inner.loadPayload_eval raw (m := m)
    rwa [hdev, holds] at loads
  · have loads := inner.loadPayload_run load
    rw [hdev, holds] at loads
    exact (Except.ok.inj loads).symm

end

/-- A locker that stores nothing inline, in pieces of two bytes. -/
def Inner.noInline : Inner Bytes := { Inner.plain with config := { maxInline := 0, chunkSize := 2 } }

/-- Three bytes are two pieces. -/
theorem chunks_round_trip_three : ∃ ops raw, ∃ p : ChunkPointer, raw = p.encode ∧
    p.nChunks.toNat = 2 ∧
    (Tables.empty.commit ops).lookup .records (Inner.noInline.encodeKey [1]) = some raw ∧
    ∀ m : Machine Tables (Ram Bytes), m.dev = Tables.empty.commit ops →
      Run Answered (Inner.noInline.loadPayload raw) m (.ok [1, 2, 3]) m := by
  obtain ⟨ops, m', built⟩ : ∃ ops m', (Inner.noInline.putPayloadOps [1] [1, 2, 3] FLAG_POSTCARD
      .unknown).eval (serve 0) ⟨.empty, .fresh⟩ = some (.ok ops, m') := ⟨_, _, rfl⟩
  obtain ⟨⟨raw, record, loads, count⟩, -⟩ := chunks_round_trip
    (show 0 < Inner.noInline.config.chunkSize by decide) inverts_raw (wellFormed_empty _ _) (by decide)
    (Prog.eval_run (serve_sound 0) built)
  obtain ⟨p, hp, hcount⟩ := count (by decide)
  exact ⟨ops, raw, p, hp, hcount, record, fun m hdev => (loads m hdev).1⟩

end Crossbank
