import Crossbank.Locker.Build
import Crossbank.Locker.Session

/-!
# A batch keeps its meaning

Before it is committed, a staged batch is read through an overlay; when it is committed, it is
collapsed into ops. Both are the writes of the batch made one by one.

* `viewOf` : what a locker's reads see of a key; `Source.payload` : and of an entry of a listing;
* `fits_of_built` : a batch that a builder has built fits the store;
* `Collapsed.storedAt_commit` : what is stored once the batch has landed is what the overlay showed;
* `opsForItems_keeps_meaning` : overlay, replay and commit agree, on the payloads and on their sizes,
  and what the commit leaves is well formed.
-/

namespace Crossbank
open Async

section
variable {T : Type} {inner : Inner T} {db : Tables} {s s' : Shared} {ops : List Op} {b : Batch}
  {staged : List Pending}

/-- What reads see of a key's payload: the staged batch first, then storage. -/
def viewOf (inner : Inner T) (db : Tables) (staged : List Pending) (key : Bytes) :
    Option (Except Error Bytes) :=
  match stagedView staged key with
  | some v => v.map .ok
  | none => inner.storedAt db key

/-- The payload of an entry of a listing. -/
def Source.payload (inner : Inner T) (db : Tables) : Source → Except Error Bytes
  | .stored raw => inner.payloadOf db raw
  | .staged payload => .ok payload

/-- What a byte budget counts for a payload. A payload that cannot be read counts for nothing. -/
def payloadSize : Except Error Bytes → Nat
  | .ok payload => payload.length
  | .error _ => 0

def Inner.sizeAt (inner : Inner T) (db : Tables) (key : Bytes) : Option Nat :=
  (inner.storedAt db key).map payloadSize

/-! ## Sealed writes -/

theorem length_chunksOf_le {n : Nat} (hn : 0 < n) (payload : Bytes) :
    (chunksOf n payload).length ≤ payload.length := by
  have all (pieces : List Bytes) (h : ∀ piece ∈ pieces, piece ≠ []) :
      pieces.length ≤ pieces.flatten.length := by
    induction pieces with
    | nil => exact le_rfl
    | cons piece pieces ih =>
      have h1 := List.length_pos_iff.2 (h piece List.mem_cons_self)
      have h2 := ih fun p hp => h p (List.mem_cons_of_mem _ hp)
      rw [List.flatten_cons, List.length_append, List.length_cons]
      omega
  have h := all (chunksOf n payload) fun piece => Inner.ne_nil_of_mem_chunksOf hn
  rwa [Inner.flatten_chunksOf hn] at h

/-- A payload within the limit is stored so that it can be read back. -/
theorem Body.Seals.whole {body : Body} {flags : UInt8} {payload : Bytes}
    (h : body.Seals inner flags payload) (small : payload.length ≤ MAX_DECODED_BYTES) :
    body.Whole ∧ body.Holds inner (some payload) := by
  cases body with
  | gone => exact h.elim
  | inline sealed => exact ⟨sealed_not_pointer h, h⟩
  | chunked p sealed =>
    obtain ⟨hsize, hall, hcount, htotal, -, -⟩ := h
    have hlen : p.totalLen.toNat = payload.length := by
      rw [htotal]
      exact UInt64.toNat_ofNat_of_lt' (lt_of_le_of_lt small (by decide))
    have hle := length_chunksOf_le (Nat.pos_of_ne_zero hsize) payload
    have heq := hall.length_eq
    refine ⟨⟨⟨?_, ?_⟩, hcount.symm⟩, hlen, _, hall, ?_⟩
    · omega
    · omega
    · exact Inner.flatten_chunksOf (Nat.pos_of_ne_zero hsize) payload

theorem Body.Does.whole {body : Body} {action : Action} (h : body.Does inner action)
    (small : ∀ payload, action.leaves = some payload → payload.length ≤ MAX_DECODED_BYTES) :
    body.Whole ∧ body.Holds inner action.leaves := by
  cases action with
  | put payload => exact Body.Seals.whole h (small payload rfl)
  | delete =>
    obtain rfl : body = .gone := h
    exact ⟨trivial, trivial⟩

/-! ## A batch that was built -/

/-- What a batch collects is the value of a record that it replaces. -/
theorem stored_of_collected
    (cleared : ∀ dropped, b.cleared = some dropped → dropped = storedPointers inner db)
    (gc : ∀ w ∈ b.writes, ∀ p, w.gc = some p →
      pointerIn (db.lookup .records (inner.encodeKey w.key)) = some p) {id : UInt64}
    (hid : id ∈ b.collected) : ∃ key raw p, db.lookup .records (inner.encodeKey key) = some raw ∧
      ChunkPointer.parse raw = .ok p ∧ p.valueId = id ∧ (b.cleared.isSome ∨ (b.find key).isSome) := by
  rcases List.mem_append.1 hid with hid | hid
  · obtain ⟨p, hp, rfl⟩ := List.mem_map.1 hid
    cases hc : b.cleared with
    | none => simp [hc] at hp
    | some dropped =>
      rw [hc, Option.getD_some, cleared dropped hc] at hp
      obtain ⟨key, raw, hraw, hparse⟩ := mem_storedPointers.1 hp
      exact ⟨key, raw, p, hraw, hparse, rfl, .inl rfl⟩
  · obtain ⟨w, hw, hp⟩ := List.mem_filterMap.1 hid
    obtain ⟨p, hgc, rfl⟩ := Option.map_eq_some_iff.1 hp
    obtain ⟨raw, hraw, hparse⟩ := pointerIn_eq_some.1 (gc w hw p hgc)
    refine ⟨w.key, raw, p, hraw, hparse, rfl, .inr ?_⟩
    exact List.find?_isSome.2 ⟨w, hw, by simp⟩

theorem Built.nodup_newIds (built : Built inner db s ops s' b) : b.newIds.Nodup :=
  built.ascending.imp fun hlt heq => by rw [heq] at hlt; exact lt_irrefl _ hlt

/-- A batch that was built fits the store it was built on. -/
theorem fits_of_built (built : Built inner db s ops s' b) (nodup : (b.writes.map KeyWrite.key).Nodup)
    (cleared : ∀ dropped, b.cleared = some dropped → dropped = storedPointers inner db)
    (gc : ∀ w ∈ b.writes, ∀ p, w.gc = some p →
      pointerIn (db.lookup .records (inner.encodeKey w.key)) = some p)
    (whole : ∀ w ∈ b.writes, w.body.Whole) :
    b.Fits inner db (idCursor db s) (idCursor db s') :=
  ⟨nodup, fun _ => stored_of_collected cleared gc, built.nodup_newIds, built.fresh, whole, built.le⟩

/-- Nothing else writes the stored counter of value ids. -/
theorem idCursor_commit (built : Built inner db s ops s' b) :
    idCursor (db.commit ops) s' = idCursor db s' := by
  unfold idCursor
  cases hn : s'.values.next with
  | some next => rfl
  | none =>
    rcases built.counted with ⟨-, hw⟩ | ⟨next, hnext, -⟩
    · rw [Tables.lookup_commit, hw]
      rfl
    · simp [hn] at hnext

/-! ## The writes of a collapsed batch -/

section
variable {actions : List (Bytes × Action)} {writes : List KeyWrite}

theorem keys_of_does (h : List.Forall₂ (KeyWrite.Does inner db) actions writes) :
    writes.map KeyWrite.key = actions.map Prod.fst := by
  induction h with
  | nil => rfl
  | cons hd _ ih => rw [List.map_cons, List.map_cons, hd.key, ih]

theorem does_of_mem {R : Bytes × Action → KeyWrite → Prop} (h : List.Forall₂ R actions writes)
    {w : KeyWrite} (hw : w ∈ writes) : ∃ action ∈ actions, R action w := by
  induction h with
  | nil => cases hw
  | cons hd _ ih =>
    rcases List.mem_cons.1 hw with rfl | hmem
    · exact ⟨_, List.mem_cons_self, hd⟩
    · obtain ⟨action, ha, hdoes⟩ := ih hmem
      exact ⟨action, List.mem_cons_of_mem _ ha, hdoes⟩

end

theorem nodup_keys_toList {α : Type} (m : Std.ExtTreeMap Bytes α compare) :
    (m.toList.map Prod.fst).Nodup := by
  rw [List.Nodup, List.pairwise_map]
  refine Std.ExtTreeMap.distinct_keys_toList.imp fun hne heq => hne ?_
  rw [heq]
  exact Std.ReflCmp.compare_self

/-- The actions that the writes since the last clear collapse to. -/
def collapsed (staged : List Pending) : Std.ExtTreeMap Bytes Action compare :=
  actionsOf (afterLastClear staged)

/-- Collapsing a batch keeps what its overlay shows. -/
theorem stagedView_eq_collapsed (staged : List Pending) (key : Bytes) :
    stagedView staged key = ((collapsed staged)[key]?.map Action.leaves).or
      (if .clear ∈ staged then some none else none) := by
  rw [collapsed, getElem?_actionsOf (clear_notMem_afterLastClear staged), stagedView_collapse,
    Option.map_map]
  congr 1
  cases stagedView (afterLastClear staged) key with
  | none => rfl
  | some v => exact congrArg some (Action.leaves_of v).symm

theorem leaves_collapsed {key payload : Bytes} {action : Action}
    (h : (collapsed staged)[key]? = some action) (hl : action.leaves = some payload) :
    .put key payload ∈ staged := by
  refine mem_of_stagedView ?_
  rw [stagedView_eq_collapsed, h, Option.map_some, hl]
  rfl

/-- The batch a list of staged writes collapses to, and what it has been built from. -/
structure Collapsed (inner : Inner T) (db : Tables) (staged : List Pending) (s : Shared)
    (ops : List Op) (s' : Shared) (writes : List KeyWrite) : Prop where
  does : List.Forall₂ (KeyWrite.Does inner db) (collapsed staged).toList writes
  built : Built inner db s ops s' ⟨clearedBy inner db staged, writes⟩

/-- The builder builds the collapsed batch. -/
theorem opsForItems_collapsed {mode : TxMode} {m' : Machine Tables Shared}
    (h : Run Served (opsForItems inner staged mode) ⟨db, s⟩ (.ok ops) m') :
    ∃ s' writes, m' = ⟨db, s'⟩ ∧ Collapsed inner db staged s ops s' writes := by
  obtain ⟨s', writes, rfl, hall, hbuilt⟩ := opsForItems_run h
  exact ⟨s', writes, rfl, hall.imp fun _ _ h => h.toDoes, hbuilt⟩

namespace Collapsed
variable {writes : List KeyWrite}

theorem action_of_mem (c : Collapsed inner db staged s ops s' writes) {w : KeyWrite}
    (hw : w ∈ writes) : ∃ action, (collapsed staged)[w.key]? = some action ∧
      KeyWrite.Does inner db (w.key, action) w := by
  obtain ⟨⟨key, action⟩, hmem, hdoes⟩ := does_of_mem c.does hw
  obtain rfl : w.key = key := hdoes.key
  exact ⟨action, Std.ExtTreeMap.mem_toList_iff_getElem?_eq_some.1 hmem, hdoes⟩

theorem find_isSome (c : Collapsed inner db staged s ops s' writes) (key : Bytes) :
    ((⟨clearedBy inner db staged, writes⟩ : Batch).find key).isSome =
      ((collapsed staged)[key]?).isSome := by
  have hkeys := keys_of_does c.does
  rw [Bool.eq_iff_iff, Batch.find, List.find?_isSome, Option.isSome_iff_exists]
  constructor
  · rintro ⟨w, hw, hk⟩
    obtain rfl : w.key = key := by simpa using hk
    obtain ⟨action, ha, -⟩ := c.action_of_mem hw
    exact ⟨action, ha⟩
  · rintro ⟨action, ha⟩
    have hmem : key ∈ writes.map KeyWrite.key := by
      rw [hkeys]
      exact List.mem_map.2 ⟨(key, action), Std.ExtTreeMap.mem_toList_iff_getElem?_eq_some.2 ha, rfl⟩
    obtain ⟨w, hw, hk⟩ := List.mem_map.1 hmem
    exact ⟨w, hw, by simpa using hk⟩

section
variable (c : Collapsed inner db staged s ops s' writes)
  (small : ∀ key payload, .put key payload ∈ staged → payload.length ≤ MAX_DECODED_BYTES)
include c small

theorem whole_of_mem {w : KeyWrite} (hw : w ∈ writes) : w.body.Whole ∧
    w.body.Holds inner ((collapsed staged)[w.key]?.bind Action.leaves) := by
  obtain ⟨action, ha, hdoes⟩ := c.action_of_mem hw
  rw [ha]
  exact hdoes.body.whole fun payload hl => small _ _ (leaves_collapsed ha hl)

theorem fits : (⟨clearedBy inner db staged, writes⟩ : Batch).Fits inner db (idCursor db s)
    (idCursor db s') := by
  refine fits_of_built c.built ?_ ?_ ?_ fun w hw => (c.whole_of_mem small hw).1
  · dsimp only
    rw [keys_of_does c.does]
    exact nodup_keys_toList _
  · intro dropped hd
    unfold clearedBy at hd
    split at hd
    · exact (Option.some.inj hd).symm
    · cases hd
  · intro w hw p hp
    obtain ⟨action, -, hdoes⟩ := c.action_of_mem hw
    rw [← hdoes.gc]
    exact hp

/-- What is stored once a collapsed batch has landed is what the overlay showed. -/
theorem storedAt_commit (inverts : inner.chain.Inverts) (apart : Apart db (idCursor db s))
    (key : Bytes) : inner.storedAt (db.commit ops) key = viewOf inner db staged key := by
  have hlimit (k bytes : Bytes) (hb : (collapsed staged)[k]?.bind Action.leaves = some bytes) :
      bytes.length ≤ MAX_DECODED_BYTES := by
    obtain ⟨action, ha, hl⟩ := Option.bind_eq_some_iff.1 hb
    exact small _ _ (leaves_collapsed ha hl)
  rw [Crossbank.storedAt_commit inverts apart (c.fits small) c.built.data
    (fun k => (collapsed staged)[k]?.bind Action.leaves)
    (fun w hw => (c.whole_of_mem small hw).2) hlimit, viewOf, stagedView_eq_collapsed]
  have hfind := c.find_isSome key
  cases hf : (⟨clearedBy inner db staged, writes⟩ : Batch).find key with
  | some w =>
    rw [hf] at hfind
    obtain ⟨action, ha⟩ := Option.isSome_iff_exists.1 hfind.symm
    rw [ha]
    rfl
  | none =>
    rw [hf] at hfind
    have ha : (collapsed staged)[key]? = none := by
      rw [← Option.not_isSome_iff_eq_none, ← hfind]
      simp
    rw [ha]
    unfold clearedBy
    by_cases hc : .clear ∈ staged
    · simp [hc]
    · simp [hc]

theorem wellFormed_commit (wf : WellFormed inner db (idCursor db s)) :
    WellFormed inner (db.commit ops) (idCursor (db.commit ops) s') := by
  rw [idCursor_commit c.built]
  exact Crossbank.wellFormed_commit wf (c.fits small) c.built.data

end

end Collapsed

/-! ## What reads see -/

theorem viewOf_eq_replay (inner : Inner T) (db : Tables) (staged : List Pending) (key : Bytes) :
    viewOf inner db staged key = replay .ok staged (inner.storedAt db) key :=
  (replay_eq_stagedView _ _ _ _).symm

/-- A listing shows of each key in its bounds what a read shows. -/
theorem listing_eq_viewOf (inner : Inner T) (db : Tables) (staged : List Pending)
    (start stop : Bound Bytes) (reverse : Bool) (key : Bytes) :
    ((LazyLocker.overlay staged start stop (inner.entriesInOrder reverse db start stop))[key]?).map
        (Source.payload inner db) =
      if inBounds key start stop then viewOf inner db staged key else none := by
  have hmem (k raw : Bytes) : (k, raw) ∈ inner.entriesInOrder reverse db start stop ↔
      db.lookup .records (inner.encodeKey k) = some raw ∧ inBounds k start stop = true := by
    rw [← Inner.mem_entries, Inner.entriesInOrder]
    split
    · exact List.mem_reverse
    · rfl
  split
  · next hin =>
    rw [getElem?_overlay (r := fun k => db.lookup .records (inner.encodeKey k))
      (fun e he => ((hmem _ _).1 he).1) (fun raw hr hin => (hmem _ _).2 ⟨hr, hin⟩) hin, viewOf]
    cases stagedView staged key with
    | some v => cases v <;> rfl
    | none =>
      rw [Inner.storedAt, Option.map_map]
      rfl
  · next hout =>
    rw [getElem?_overlay_of_not_inBounds (fun e he => ((hmem _ _).1 he).2) (by simpa using hout)]
    rfl

theorem replay_sizes (inner : Inner T) (db : Tables) (staged : List Pending) (key : Bytes) :
    replay List.length staged (inner.sizeAt db) key =
      (viewOf inner db staged key).map payloadSize := by
  rw [replay_eq_stagedView, viewOf]
  cases stagedView staged key with
  | some v => cases v <;> rfl
  | none => rfl

/-- Overlay, replay and commit of a batch agree: on each key's payload, on each listing, and on
the sizes; and what the commit leaves is well formed. -/
theorem opsForItems_keeps_meaning (inverts : inner.chain.Inverts) (wf : WellFormed inner db (idCursor db s))
    (small : ∀ key payload, .put key payload ∈ staged → payload.length ≤ MAX_DECODED_BYTES)
    {m' : Machine Tables Shared}
    (run : Run Served (opsForItems inner staged .lazy) ⟨db, s⟩ (.ok ops) m') :
    (∀ key, viewOf inner db staged key = replay .ok staged (inner.storedAt db) key ∧
      inner.storedAt (db.commit ops) key = replay .ok staged (inner.storedAt db) key) ∧
    (∀ start stop reverse key,
      ((LazyLocker.overlay staged start stop (inner.entriesInOrder reverse db start stop))[key]?).map
          (Source.payload inner db) =
        if inBounds key start stop then replay .ok staged (inner.storedAt db) key else none) ∧
    (accounting staged).applyTo (inner.sizeAt db) = inner.sizeAt (db.commit ops) ∧
    WellFormed inner (db.commit ops) (idCursor (db.commit ops) m'.mem) := by
  obtain ⟨s', writes, rfl, c⟩ := opsForItems_collapsed run
  have stored := c.storedAt_commit small inverts wf.apart
  refine ⟨fun key => ⟨viewOf_eq_replay inner db staged key, ?_⟩, ?_, ?_, c.wellFormed_commit small wf⟩
  · rw [stored, viewOf_eq_replay]
  · intro start stop reverse key
    rw [listing_eq_viewOf, viewOf_eq_replay]
  · funext key
    rw [Accounting.applyTo_accounting, replay_sizes, Inner.sizeAt, stored]

/-- A locker that chunks what is over two bytes. -/
def Inner.chunking : Inner Bytes := { Inner.plain with config := { chunkSize := 2 } }

theorem wellFormed_empty {T : Type} (inner : Inner T) (cursor : Nat) :
    WellFormed inner .empty cursor where
  whole key raw h := by simp [Tables.lookup, Tables.get, Tables.empty] at h
  unique k k' raw raw' p p' h := by simp [Tables.lookup, Tables.get, Tables.empty] at h
  below k raw p h := by simp [Tables.lookup, Tables.get, Tables.empty] at h

theorem inverts_raw : FilterChain.raw.Inverts := .of_filters fun _ h => by cases h

/-- A batch that writes one key twice, clears, and writes it again: three bytes in two chunks. -/
theorem opsForItems_keeps_meaning_chunked : ∃ ops m',
    Run Served (opsForItems Inner.chunking
      [.put [1] [7], .put [2] [8], .clear, .put [1] [9], .put [1] [4, 5, 6], .delete [3]] .lazy)
      ⟨.empty, .fresh⟩ (.ok ops) m' ∧
    Inner.chunking.storedAt (Tables.empty.commit ops) [1] = some (.ok [4, 5, 6]) ∧
    WellFormed Inner.chunking (Tables.empty.commit ops) (idCursor (Tables.empty.commit ops) m'.mem) := by
  obtain ⟨⟨r, m'⟩, h⟩ : ∃ x, (opsForItems Inner.chunking
      [.put [1] [7], .put [2] [8], .clear, .put [1] [9], .put [1] [4, 5, 6], .delete [3]] .lazy).eval
      (serve 0) ⟨.empty, .fresh⟩ = some x := Option.isSome_iff_exists.1 (by decide)
  have hr : (((opsForItems Inner.chunking
      [.put [1] [7], .put [2] [8], .clear, .put [1] [9], .put [1] [4, 5, 6], .delete [3]] .lazy).eval
      (serve 0) ⟨.empty, .fresh⟩).map fun x => x.1.isOk) = some true := by decide
  rw [h] at hr
  cases r with
  | error e => simp [Except.isOk, Except.toBool] at hr
  | ok ops =>
    have run := Prog.eval_run (serve_sound 0) h
    obtain ⟨agree, -, -, wf⟩ := opsForItems_keeps_meaning inverts_raw (wellFormed_empty _ _)
      (fun key payload hmem => by
        simp at hmem
        rcases hmem with ⟨-, rfl⟩ | ⟨-, rfl⟩ | ⟨-, rfl⟩ | ⟨-, rfl⟩ <;> decide) run
    refine ⟨ops, m', run, ?_, wf⟩
    rw [(agree [1]).2]
    rfl

end
end Crossbank
