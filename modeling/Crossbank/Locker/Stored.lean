import Crossbank.Locker.Walk

/-!
# What a stored record holds

* `Inner.payloadOf` : the payload of a stored record, assembled from its pieces when it is a pointer;
* `loadPayload_run`, `loadPayload_eval` : what `loadPayload` answers;
* `Inner.storedAt` : the payload stored under a user key;
* `pieceOps_eq_ok`, `appendPieces_sealed` : the pieces of a payload, sealed one by one, assemble to it.
-/

namespace Crossbank
open Async

namespace Inner
variable {T ρ : Type} (inner : Inner T)

/-- What is stored of the pieces of a pointer. -/
def storedPieces (db : Tables) (p : ChunkPointer) : List (Option Bytes) :=
  (List.range' 0 p.nChunks.toNat).map fun s =>
    db.lookup .chunks (chunkKey p.valueId (UInt32.ofNat s))

def assemble (db : Tables) (p : ChunkPointer) : Except Error Bytes := do
  let out ← inner.appendPieces p 0 (storedPieces db p) []
  if out.length ≠ p.totalLen.toNat then
    .error (.corrupt s!"chunked value declared {p.totalLen} bytes, reassembled {out.length}")
  else .ok out

def payloadOf (db : Tables) (stored : Bytes) : Except Error Bytes :=
  if isPointer stored then ChunkPointer.parse stored >>= inner.assemble db
  else inner.chain.openStored stored

def storedAt (db : Tables) (key : Bytes) : Option (Except Error Bytes) :=
  (db.lookup .records (inner.encodeKey key)).map (inner.payloadOf db)

/-! ## Reading -/

theorem appendPieces_append (p : ChunkPointer) (seq : Nat) (a b : List (Option Bytes)) (out : Bytes) :
    inner.appendPieces p seq (a ++ b) out =
      inner.appendPieces p seq a out >>= inner.appendPieces p (seq + a.length) b := by
  induction a generalizing seq out with
  | nil => rfl
  | cons piece a ih =>
    simp only [List.cons_append, appendPieces, List.length_cons]
    cases piece with
    | none => rfl
    | some stored =>
      dsimp only
      cases inner.chain.openStored stored with
      | error e => rfl
      | ok bytes =>
        simp only [bind, Except.bind]
        split
        · rfl
        · rw [ih, Nat.add_assoc, Nat.add_comm 1]
          rfl

/-- The pieces from `seq` on are those of one group, then those after it. -/
theorem range'_group {seq n : Nat} (h : seq < n) :
    List.range' seq (n - seq) = List.range' seq (min (seq + CHUNK_FETCH_GROUP) n - seq) ++
      List.range' (min (seq + CHUNK_FETCH_GROUP) n) (n - min (seq + CHUNK_FETCH_GROUP) n) := by
  have hpos : 0 < CHUNK_FETCH_GROUP := by decide
  rw [show min (seq + CHUNK_FETCH_GROUP) n = seq + (min (seq + CHUNK_FETCH_GROUP) n - seq) by omega,
    Nat.add_sub_cancel_left, List.range'_append_1]
  congr 1
  omega

section
variable [WriteLock ρ] {m m' : Machine Tables ρ}

theorem readGroups_run {p : ChunkPointer} {rounds seq : Nat} {out b : Bytes}
    (enough : p.nChunks.toNat ≤ seq + rounds)
    (h : Run Served (inner.readGroups p rounds seq out) m (.ok b) m') :
    inner.appendPieces p seq ((List.range' seq (p.nChunks.toNat - seq)).map fun s =>
      m.dev.lookup .chunks (chunkKey p.valueId (UInt32.ofNat s))) out = .ok b := by
  induction rounds generalizing seq out m with
  | zero =>
    rw [Nat.sub_eq_zero_of_le (by omega)]
    exact (run_pure.1 h).1.symm
  | succ rounds ih =>
    rw [readGroups] at h
    split at h
    · next hlt =>
      obtain ⟨pieces, m₁, hget, happend⟩ := run_bind_ok.1 h
      obtain ⟨rfl, hpieces⟩ := run_getMany.1 hget
      obtain ⟨out₁, m₂, happended, hrest⟩ := run_bind_ok.1 happend
      obtain ⟨hout, rfl⟩ := run_ofExcept.1 happended
      have hpieces := hpieces pieces rfl
      rw [List.map_map] at hpieces
      have hgroup : 0 < CHUNK_FETCH_GROUP := by decide
      rw [range'_group hlt, List.map_append, appendPieces_append]
      have hfirst : inner.appendPieces p seq
          ((List.range' seq (min (seq + CHUNK_FETCH_GROUP) p.nChunks.toNat - seq)).map fun s =>
            m₂.dev.lookup .chunks (chunkKey p.valueId (UInt32.ofNat s))) out = .ok out₁ := by
        rw [hout, hpieces]
        rfl
      rw [hfirst, List.length_map, List.length_range']
      have hmid : seq + (min (seq + CHUNK_FETCH_GROUP) p.nChunks.toNat - seq) =
          min (seq + CHUNK_FETCH_GROUP) p.nChunks.toNat := by omega
      rw [hmid]
      exact ih (by omega) hrest
    · next hge =>
      rw [Nat.sub_eq_zero_of_le (by omega)]
      exact (run_pure.1 h).1.symm

theorem readGroups_eval {p : ChunkPointer} {rounds seq : Nat} {out : Bytes}
    (enough : p.nChunks.toNat ≤ seq + rounds) :
    Run Answered (inner.readGroups p rounds seq out) m
      (inner.appendPieces p seq ((List.range' seq (p.nChunks.toNat - seq)).map fun s =>
        m.dev.lookup .chunks (chunkKey p.valueId (UInt32.ofNat s))) out) m := by
  have hgroup : 0 < CHUNK_FETCH_GROUP := by decide
  induction rounds generalizing seq out with
  | zero =>
    rw [Nat.sub_eq_zero_of_le (by omega)]
    exact run_pure.2 ⟨rfl, rfl⟩
  | succ rounds ih =>
    rw [readGroups]
    split
    · next hlt =>
      rw [range'_group hlt, List.map_append, appendPieces_append, List.length_map,
        List.length_range', show seq + (min (seq + CHUNK_FETCH_GROUP) p.nChunks.toNat - seq) =
          min (seq + CHUNK_FETCH_GROUP) p.nChunks.toNat by omega]
      refine run_bind.2 (.inl ⟨_, m, answered_getMany.2 ⟨rfl, rfl⟩, ?_⟩)
      rw [List.map_map]
      exact (run_ofExcept.2 ⟨rfl, rfl⟩).seq fun out₁ _ => ih (by omega)
    · next hge =>
      rw [Nat.sub_eq_zero_of_le (by omega)]
      exact run_pure.2 ⟨rfl, rfl⟩

theorem readChunks_run {p : ChunkPointer} {b : Bytes}
    (h : Run Served (inner.readChunks p) m (.ok b) m') : inner.assemble m.dev p = .ok b := by
  obtain ⟨out, m₁, hgroups, hrest⟩ := run_bind_ok.1 h
  have hout := readGroups_run inner (by omega) hgroups
  rw [assemble, storedPieces]
  rw [Nat.sub_zero] at hout
  rw [hout]
  simp only [bind, Except.bind]
  split at hrest
  · cases (run_fail.1 hrest).1
  · next hlen =>
    rw [if_neg hlen]
    exact (run_pure.1 hrest).1.symm

theorem loadPayload_run {stored b : Bytes}
    (h : Run Served (inner.loadPayload stored) m (.ok b) m') : inner.payloadOf m.dev stored = .ok b := by
  rw [loadPayload] at h
  rw [payloadOf]
  split at h
  · next hp =>
    rw [if_pos hp]
    obtain ⟨p, m₁, hparse, hrest⟩ := run_bind_ok.1 h
    obtain ⟨hp', rfl⟩ := run_ofExcept.1 hparse
    rw [← hp']
    exact readChunks_run inner hrest
  · next hp =>
    rw [if_neg hp]
    exact (run_ofExcept.1 h).1.symm

theorem readChunks_eval (p : ChunkPointer) :
    Run Answered (inner.readChunks p) m (inner.assemble m.dev p) m := by
  have hgroups : Run Answered (inner.readGroups p p.nChunks.toNat 0 []) m _ m :=
    readGroups_eval inner (by omega)
  rw [Nat.sub_zero] at hgroups
  refine hgroups.seq fun out _ => ?_
  split
  · exact run_fail.2 ⟨rfl, rfl⟩
  · exact run_pure.2 ⟨rfl, rfl⟩

/-- A read that is answered ends with the payload of the record. -/
theorem loadPayload_eval (stored : Bytes) :
    Run Answered (inner.loadPayload stored) m (inner.payloadOf m.dev stored) m := by
  rw [loadPayload, payloadOf]
  split
  · exact (run_ofExcept.2 ⟨rfl, rfl⟩).seq fun p _ => readChunks_eval inner p
  · exact run_ofExcept.2 ⟨rfl, rfl⟩

end

/-! ## Pieces -/

theorem flatten_chunksOf {n : Nat} (hn : 0 < n) (payload : Bytes) :
    (chunksOf n payload).flatten = payload := by
  have go (fuel : Nat) (rest : Bytes) (h : rest.length ≤ fuel) :
      (chunksOf.go n fuel rest).flatten = rest := by
    induction fuel generalizing rest with
    | zero =>
      obtain rfl := List.eq_nil_of_length_eq_zero (Nat.le_zero.1 h)
      rfl
    | succ fuel ih =>
      cases rest with
      | nil => rfl
      | cons b rest =>
        rw [chunksOf.go, List.flatten_cons, ih _ (by simp at h ⊢; omega), List.take_append_drop]
        simp
  exact go _ _ le_rfl

theorem ne_nil_of_mem_chunksOf {n : Nat} (hn : 0 < n) {payload piece : Bytes}
    (h : piece ∈ chunksOf n payload) : piece ≠ [] := by
  have go (fuel : Nat) (rest : Bytes) (h : piece ∈ chunksOf.go n fuel rest) : piece ≠ [] := by
    induction fuel generalizing rest with
    | zero => cases h
    | succ fuel ih =>
      cases rest with
      | nil => cases h
      | cons b rest =>
        rw [chunksOf.go] at h
        · rcases List.mem_cons.1 h with rfl | h
          · obtain ⟨n, rfl⟩ := Nat.exists_eq_add_of_lt hn
            simp
          · exact ih _ h
        · simp
  exact go _ _ h

/-- The ops that store sealed pieces from the `seq`th on. -/
def pieceOpsFrom (valueId : UInt64) : Nat → List Bytes → List Op
  | _, [] => []
  | seq, sealed :: rest =>
    .put .chunks (chunkKey valueId (UInt32.ofNat seq)) sealed :: pieceOpsFrom valueId (seq + 1) rest

/-- The ops of the pieces of a value are those of its sealed pieces, numbered in order. -/
theorem pieceOps_eq_ok {valueId : UInt64} {seq last : UInt32} {pieces : List Bytes} {ops : List Op}
    (h : inner.pieceOps valueId seq pieces = .ok (ops, last)) :
    ∃ sealed, List.Forall₂ (fun piece s => inner.chain.sealSlice piece = .ok s) pieces sealed ∧
      ops = pieceOpsFrom valueId seq.toNat sealed ∧ last.toNat = seq.toNat + pieces.length := by
  induction pieces generalizing seq ops with
  | nil =>
    obtain ⟨rfl, rfl⟩ := Prod.mk.inj (Except.ok.inj h)
    exact ⟨[], .nil, rfl, rfl⟩
  | cons piece pieces ih =>
    obtain ⟨s, hs, hrest⟩ := bind_eq_ok.1 h
    split at hrest
    · cases hrest
    · next hroom =>
      obtain ⟨⟨more, last'⟩, hmore, hout⟩ := bind_eq_ok.1 hrest
      obtain ⟨rfl, rfl⟩ := Prod.mk.inj (Except.ok.inj hout)
      obtain ⟨sealed, hall, rfl, hlast⟩ := ih hmore
      have hlt := seq.toNat_lt
      have hsucc : (seq + 1).toNat = seq.toNat + 1 := by
        rw [UInt32.toNat_add]
        exact Nat.mod_eq_of_lt (by simp; omega)
      refine ⟨s :: sealed, .cons hs hall, ?_, ?_⟩
      · rw [pieceOpsFrom, hsucc, UInt32.ofNat_toNat]
      · rw [hlast, hsucc, List.length_cons]
        omega

/-- Sealed pieces that are all there assemble to the payload they were cut from. -/
theorem appendPieces_sealed (inverts : inner.chain.Inverts) {p : ChunkPointer} {seq : Nat}
    {pieces sealed : List Bytes} {out : Bytes}
    (hall : List.Forall₂ (fun piece s => inner.chain.sealSlice piece = .ok s) pieces sealed)
    (hlimit : p.totalLen.toNat ≤ MAX_DECODED_BYTES)
    (hlen : (out ++ pieces.flatten).length ≤ p.totalLen.toNat) :
    inner.appendPieces p seq (sealed.map some) out = .ok (out ++ pieces.flatten) := by
  induction hall generalizing seq out with
  | nil => simp [appendPieces]
  | @cons piece s pieces sealed hs _ ih =>
    have hlen' : ((out ++ piece) ++ pieces.flatten).length ≤ p.totalLen.toNat := by
      simpa using hlen
    have hpiece : piece.length ≤ MAX_DECODED_BYTES := by
      simp at hlen'
      omega
    have hout : ¬ (out ++ piece).length > p.totalLen.toNat := by
      simp at hlen' ⊢
      omega
    have hopen : inner.chain.openStored s = .ok piece := inverts piece s hpiece hs
    simp only [List.map_cons, appendPieces, hopen, bind, Except.bind]
    rw [if_neg hout, ih hlen', List.flatten_cons, List.append_assoc]

end Inner
end Crossbank
