import Crossbank.Locker.Reads
import Crossbank.Locker.Replay
import Crossbank.Locker.Write

/-!
# What the builders build

Each builder of ops, run alone, builds the ops of a batch.

* `idCursor` : the next value id a bank will take;
* `Built` : ops that are those of a batch, with the value ids they take from the cursor;
* `Body.Seals` : a write that stores a payload as `putPayloadOps` does;
* `allocate_run`, `putPayloadOps_run`, `deleteValueOps_run`, `clearValueOps_run`, ... : one lemma for
  each builder;
* `opsForItems_run` : the batch that a list of staged writes is collapsed to.
-/

namespace Crossbank
open Async

/-! ## The cursor -/

/-- The next value id a bank will take: its cursor, or the stored counter where the cursor is not
seeded. -/
def idCursor (db : Tables) (s : Shared) : Nat :=
  match s.values.next with
  | some next => next.toNat
  | none => ((parseCounter (db.lookup .meta META_NEXT_VALUE_ID)).toOption.getD 0).toNat

theorem seedFloor_run {ρ : Type} [WriteLock ρ] {m m' : Machine Tables ρ} {floor : UInt64}
    (h : Run Served ValueIds.seedFloor m (.ok floor) m') :
    ((parseCounter (m.dev.lookup .meta META_NEXT_VALUE_ID)).toOption.getD 0).toNat ≤
      floor.toNat := by
  obtain ⟨raw, m₁, hget, h₁⟩ := run_bind_ok.1 h
  obtain ⟨rfl, hraw⟩ := run_get.1 hget
  obtain rfl := hraw raw rfl
  obtain ⟨stored, m₂, hstored, h₂⟩ := run_bind_ok.1 h₁
  obtain ⟨hparse, rfl⟩ := run_ofExcept.1 hstored
  rw [← hparse]
  obtain ⟨highest, m₃, -, h₃⟩ := run_bind_ok.1 h₂
  cases highest with
  | none =>
    obtain ⟨hfloor, -⟩ := run_pure.1 h₃
    obtain rfl := Except.ok.inj hfloor
    exact le_rfl
  | some id =>
    obtain ⟨past, m₄, -, h₄⟩ := run_bind_ok.1 h₃
    obtain ⟨hfloor, -⟩ := run_pure.1 h₄
    obtain rfl := Except.ok.inj hfloor
    rw [UInt64.toNat_max]
    exact le_max_left _ _

theorem advance_eq_ok {id next : UInt64} (h : ValueIds.advance id = .ok next) :
    next.toNat = id.toNat + 1 := by
  unfold ValueIds.advance at h
  split at h
  · next hsucc =>
    obtain rfl := Except.ok.inj h
    exact checkedSucc_eq_some hsucc
  · cases h

section
variable {db : Tables} {s : Shared} {m' : Machine Tables Shared}

theorem allocate_run {id : UInt64} (h : Run Served ValueIds.allocate ⟨db, s⟩ (.ok id) m') :
    ∃ next : UInt64, m' = ⟨db, { s with values := ⟨some next⟩ }⟩ ∧ idCursor db s ≤ id.toNat ∧
      next.toNat = id.toNat + 1 := by
  obtain ⟨taken, m₁, htake, h₁⟩ := run_bind_ok.1 h
  obtain ⟨htaken, rfl⟩ := run_sync.1 htake
  dsimp only at htaken h₁
  unfold ValueIds.take at htaken h₁
  unfold idCursor
  cases hnext : s.values.next with
  | some current =>
    rw [hnext] at htaken h₁
    dsimp only at htaken h₁ ⊢
    cases hadv : ValueIds.advance current with
    | error e =>
      rw [hadv] at htaken
      cases htaken
    | ok next =>
      rw [hadv] at htaken h₁
      obtain rfl := Except.ok.inj htaken
      obtain ⟨hid, rfl⟩ := run_pure.1 h₁
      obtain rfl := Except.ok.inj hid
      exact ⟨next, rfl, le_rfl, advance_eq_ok hadv⟩
  | none =>
    rw [hnext] at htaken h₁
    obtain rfl := Except.ok.inj htaken
    obtain ⟨floor, m₂, hfloor, h₂⟩ := run_bind_ok.1 h₁
    obtain ⟨hseed, rfl⟩ := run_sync.1 h₂
    obtain rfl := reads_seedFloor.run hfloor
    unfold ValueIds.seedAndTake at hseed ⊢
    rw [hnext] at hseed ⊢
    dsimp only at hseed ⊢
    cases hadv : ValueIds.advance floor with
    | error e =>
      rw [hadv] at hseed
      cases hseed
    | ok next =>
      rw [hadv] at hseed
      obtain rfl := Except.ok.inj hseed
      exact ⟨next, rfl, seedFloor_run hfloor, advance_eq_ok hadv⟩

end

/-! ## Batches, as they are built -/

/-- The value ids that the writes store pieces under. -/
def newIds (writes : List KeyWrite) : List UInt64 := writes.filterMap fun w => w.body.newId

/-- The last op that writes the stored counter of value ids writes the cursor. -/
def Counted (ops : List Op) (s' : Shared) : Prop :=
  ∃ next, s'.values.next = some next ∧
    written ops .meta META_NEXT_VALUE_ID = some (some (u64be next))

/-- The ops are those of the batch. They take its value ids from the cursor, in order, and persist
the cursor when they move it. -/
structure Built {T : Type} (inner : Inner T) (db : Tables) (s : Shared) (ops : List Op) (s' : Shared)
    (b : Batch) : Prop where
  data : dataOps ops = b.ops inner
  ascending : (newIds b.writes).Pairwise fun i j => i.toNat < j.toNat
  fresh : ∀ id ∈ newIds b.writes, idCursor db s ≤ id.toNat ∧ id.toNat < idCursor db s'
  le : idCursor db s ≤ idCursor db s'
  counted : (s'.values = s.values ∧ written ops .meta META_NEXT_VALUE_ID = none) ∨ Counted ops s'

section
variable {T : Type} {inner : Inner T} {db : Tables} {s s' s'' : Shared} {ops more : List Op}
  {b : Batch} {writes : List KeyWrite} {m' : Machine Tables Shared}

theorem newIds_append (a b : List KeyWrite) : newIds (a ++ b) = newIds a ++ newIds b :=
  List.filterMap_append

theorem Built.append (h : Built inner db s ops s' b) (h' : Built inner db s' more s'' ⟨none, writes⟩) :
    Built inner db s (ops ++ more) s'' ⟨b.cleared, b.writes ++ writes⟩ := by
  constructor
  · rw [dataOps_append, h.data, h'.data, Batch.ops, Batch.ops, Batch.ops, List.flatMap_append,
      List.append_assoc]
    rfl
  · rw [newIds_append, List.pairwise_append]
    refine ⟨h.ascending, h'.ascending, fun i hi j hj => ?_⟩
    have h1 := (h.fresh i hi).2
    have h2 := (h'.fresh j hj).1
    omega
  · intro id hid
    have h1 := h.le
    have h2 := h'.le
    rw [newIds_append, List.mem_append] at hid
    rcases hid with hid | hid
    · have h3 := h.fresh id hid
      omega
    · have h3 := h'.fresh id hid
      omega
  · exact le_trans h.le h'.le
  · unfold Counted
    rw [written_append]
    rcases h'.counted with ⟨hs, hw⟩ | ⟨next, hn, hw⟩
    · rw [hw, Option.none_or, hs]
      exact h.counted
    · exact .inr ⟨next, hn, by rw [hw]; rfl⟩

theorem Built.keyWrite {w : KeyWrite} (noId : w.body.newId = none) :
    Built inner db s (w.ops inner) s ⟨none, [w]⟩ := by
  have hids : newIds [w] = [] := by rw [newIds, List.filterMap_cons, noId]; rfl
  refine ⟨by simp [Batch.ops], by simp [hids], by simp [hids], le_rfl, .inl ⟨rfl, ?_⟩⟩
  exact written_of_table fun op hop => table_of_mem_ops hop

theorem Built.nil : Built inner db s [] s ⟨none, []⟩ :=
  ⟨rfl, .nil, by simp [newIds], le_rfl, .inl ⟨rfl, rfl⟩⟩

/-- The ops of the byte budget in between change neither the batch nor the counter. -/
theorem Built.of_dataOps (h : Built inner db s ops s' b) (data : dataOps more = dataOps ops)
    (counter : written more .meta META_NEXT_VALUE_ID = written ops .meta META_NEXT_VALUE_ID) :
    Built inner db s more s' b :=
  ⟨data.trans h.data, h.ascending, h.fresh, h.le, by unfold Counted; rw [counter]; exact h.counted⟩

/-! ## One key -/

/-- What a builder collects of the record under a key, when it reads it. -/
def collected (inner : Inner T) (db : Tables) (key : Bytes) (p : Prior) : Option ChunkPointer :=
  if p.needsRead then pointerIn (db.lookup .records (inner.encodeKey key)) else none

theorem pointerIn_eq_none {raw : Bytes} (h : isPointer raw = false) : pointerIn (some raw) = none := by
  cases hp : ChunkPointer.parse raw with
  | ok p => exact absurd hp (not_pointer_of_isPointer h p)
  | error e => exact pointerIn_of_error hp

theorem gcExisting_eq_ok {existing : Option Bytes} (h : Inner.gcExisting existing = .ok ops) :
    ops = (pointerIn existing).toList.map gcOps := by
  cases existing with
  | none =>
    obtain rfl := Except.ok.inj h
    rfl
  | some raw =>
    unfold Inner.gcExisting at h
    dsimp only at h
    split at h
    · obtain ⟨p, hp, hops⟩ := bind_eq_ok.1 h
      obtain rfl := Except.ok.inj hops
      rw [pointerIn_of_ok hp]
      rfl
    · next hptr =>
      obtain rfl := Except.ok.inj h
      rw [pointerIn_eq_none (by simpa using hptr)]
      rfl

theorem gcParsed_eq (existing : Option Bytes) :
    gcParsed existing = (pointerIn existing).toList.map gcOps := by
  cases existing with
  | none => rfl
  | some raw =>
    unfold gcParsed
    dsimp only
    split
    · cases hp : ChunkPointer.parse raw with
      | ok p => simp [pointerIn_of_ok hp]
      | error e => simp [pointerIn_of_error hp]
    · next hptr =>
      rw [pointerIn_eq_none (by simpa using hptr)]
      rfl

section
variable {ρ : Type} [WriteLock ρ] {m m₁ : Machine Tables ρ}

theorem gcPrior_run {key : Bytes} {p : Prior} (h : Run Served (inner.gcPrior key p) m (.ok ops) m₁) :
    m₁ = m ∧ ops = (collected inner m.dev key p).toList.map gcOps := by
  unfold Inner.gcPrior at h
  unfold collected
  split at h
  · next hread =>
    obtain ⟨existing, m₂, hget, h₁⟩ := run_bind_ok.1 h
    obtain ⟨rfl, hexisting⟩ := run_get.1 hget
    obtain rfl := hexisting existing rfl
    obtain ⟨hops, rfl⟩ := run_ofExcept.1 h₁
    rw [if_pos hread]
    exact ⟨rfl, gcExisting_eq_ok hops.symm⟩
  · next hread =>
    obtain ⟨hops, rfl⟩ := run_pure.1 h
    obtain rfl := Except.ok.inj hops
    rw [if_neg hread]
    exact ⟨rfl, rfl⟩

theorem deleteValueOps_run {key : Bytes} {p : Prior}
    (h : Run Served (inner.deleteValueOps key p) m (.ok ops) m₁) :
    m₁ = m ∧ ops = KeyWrite.ops inner ⟨key, collected inner m.dev key p, .gone⟩ := by
  obtain ⟨gc, m₂, hgc, h₁⟩ := run_bind_ok.1 h
  obtain ⟨rfl, rfl⟩ := gcPrior_run hgc
  obtain ⟨hops, rfl⟩ := run_pure.1 h₁
  exact ⟨rfl, Except.ok.inj hops⟩

theorem eagerPutOps_run {key payload : Bytes}
    (h : Run Served (eagerPutOps inner key payload) m (.ok ops) m₁) :
    m₁ = m ∧ ∃ sealed, inner.chain.sealSlice payload = .ok sealed ∧
      ops = KeyWrite.ops inner ⟨key, collected inner m.dev key .unknown, .inline sealed⟩ := by
  obtain ⟨sealed, m₂, hseal, h₁⟩ := run_bind_ok.1 h
  obtain ⟨hsealed, rfl⟩ := run_ofExcept.1 hseal
  split at h₁
  · cases (run_fail.1 h₁).1
  · obtain ⟨existing, m₃, hget, h₂⟩ := run_bind_ok.1 h₁
    obtain ⟨rfl, hexisting⟩ := run_get.1 hget
    obtain rfl := hexisting existing rfl
    obtain ⟨hops, rfl⟩ := run_pure.1 h₂
    obtain rfl := Except.ok.inj hops
    refine ⟨rfl, sealed, hsealed.symm, ?_⟩
    rw [gcParsed_eq]
    rfl

end

def Body.Seals (inner : Inner T) (flags : UInt8) (payload : Bytes) : Body → Prop
  | .gone => False
  | .inline sealed => inner.chain.sealSlice payload = .ok sealed
  | .chunked p sealed => inner.config.chunkSize ≠ 0 ∧
    List.Forall₂ (fun piece s => inner.chain.sealSlice piece = .ok s)
      (chunksOf inner.config.chunkSize payload) sealed ∧
    p.nChunks.toNat = sealed.length ∧ p.totalLen = UInt64.ofNat payload.length ∧ p.flags = flags ∧
    inner.storesInline payload.length flags = false

/-- A record that holds its payload itself is of one that is stored inline. -/
def Body.Inlines (inner : Inner T) (flags : UInt8) (payload : Bytes) (body : Body) : Prop :=
  ∀ sealed, body = .inline sealed → inner.storesInline payload.length flags = true

theorem putPayloadOps_run {key payload : Bytes} {flags : UInt8} {p : Prior}
    (h : Run Served (inner.putPayloadOps key payload flags p) ⟨db, s⟩ (.ok ops) m') :
    ∃ s' body, m' = ⟨db, s'⟩ ∧ body.Seals inner flags payload ∧ body.Inlines inner flags payload ∧
      Built inner db s ops s' ⟨none, [⟨key, collected inner db key p, body⟩]⟩ := by
  obtain ⟨gc, m₁, hgc, h₁⟩ := run_bind_ok.1 h
  obtain ⟨rfl, rfl⟩ := gcPrior_run hgc
  dsimp only at h₁
  split at h₁
  · next hinline =>
    obtain ⟨sealed, m₂, hseal, h₂⟩ := run_bind_ok.1 h₁
    obtain ⟨hsealed, rfl⟩ := run_ofExcept.1 hseal
    obtain ⟨hops, rfl⟩ := run_pure.1 h₂
    obtain rfl := Except.ok.inj hops
    exact ⟨s, .inline sealed, rfl, hsealed.symm, fun _ _ => hinline,
      Built.keyWrite (w := ⟨key, collected inner db key p, .inline sealed⟩) rfl⟩
  next hinline =>
  obtain ⟨id, m₂, halloc, h₂⟩ := run_bind_ok.1 h₁
  obtain ⟨next, rfl, hid, hnext⟩ := allocate_run halloc
  split at h₂
  · exact absurd h₂ run_stuck
  next hsize =>
  obtain ⟨⟨pieces, seq⟩, m₃, hpieces, h₃⟩ := run_bind_ok.1 h₂
  obtain ⟨hbuilt, rfl⟩ := run_ofExcept.1 hpieces
  obtain ⟨sealed, hall, rfl, hseq⟩ := Inner.pieceOps_eq_ok inner hbuilt.symm
  obtain ⟨counter, m₄, hcounter, h₄⟩ := run_bind_ok.1 h₃
  obtain ⟨hc, rfl⟩ := run_read.1 hcounter
  obtain ⟨hops, rfl⟩ := run_pure.1 h₄
  obtain rfl := Except.ok.inj hc
  obtain rfl := Except.ok.inj hops
  have hcount : seq.toNat = sealed.length := by
    rw [hseq, hall.length_eq]
    exact Nat.zero_add _
  have hzero : (0 : UInt32).toNat = 0 := rfl
  -- The ops are those of the write, then the one that persists the cursor.
  have hsplit : (collected inner db key p).toList.map gcOps ++
      Inner.pieceOpsFrom id (0 : UInt32).toNat sealed ++
      [.put .records (inner.encodeKey key)
        (ChunkPointer.encode ⟨id, seq, UInt64.ofNat payload.length, flags⟩)] ++
      (ValueIds.counterOp { s with values := ⟨some next⟩ }).toList =
      KeyWrite.ops inner ⟨key, collected inner db key p,
        .chunked ⟨id, seq, UInt64.ofNat payload.length, flags⟩ sealed⟩ ++ [counterOpFor next] := by
    simp [KeyWrite.ops, Body.ops, ValueIds.counterOp, hzero]
  rw [hsplit]
  refine ⟨_, .chunked ⟨id, seq, UInt64.ofNat payload.length, flags⟩ sealed, rfl,
    ⟨hsize, hall, hcount, rfl, rfl, by simpa using hinline⟩, fun _ h => (by cases h),
    ?_, ?_, ?_, ?_, .inr ⟨next, rfl, ?_⟩⟩
  · rw [dataOps_append, dataOps_keyWrite, dataOps_of_meta (by simp [counterOpFor, Op.table]),
      List.append_nil, Batch.ops]
    simp
  · simp [newIds, Body.newId]
  · intro i hi
    have hi : i = id := by simpa [newIds, Body.newId] using hi
    subst hi
    refine ⟨hid, ?_⟩
    show i.toNat < next.toNat
    omega
  · show idCursor db s ≤ next.toNat
    omega
  · rw [written_append]
    simp [written_cons, counterOpFor, Op.written]

/-! ## Many keys -/

def Body.Does (inner : Inner T) (body : Body) : Action → Prop
  | .put payload => body.Seals inner FLAG_POSTCARD payload
  | .delete => body = .gone

/-- The write of one collapsed action: of its key, and what it collects is what is stored there. -/
structure KeyWrite.Does (inner : Inner T) (db : Tables) (action : Bytes × Action) (w : KeyWrite) :
    Prop where
  key : w.key = action.1
  gc : w.gc = pointerIn (db.lookup .records (inner.encodeKey action.1))
  body : w.body.Does inner action.2

/-- The write of one collapsed action in a mode: a lazy locker stores inline what is to be. -/
structure KeyWrite.DoesIn (inner : Inner T) (mode : TxMode) (db : Tables) (action : Bytes × Action)
    (w : KeyWrite) : Prop extends KeyWrite.Does inner db action w where
  inlines : mode = .lazy → ∀ payload, action.2 = .put payload →
    w.body.Inlines inner FLAG_POSTCARD payload

theorem actionOps_run {mode : TxMode} {key : Bytes} {action : Action}
    (h : Run Served (actionOps inner mode key action) ⟨db, s⟩ (.ok ops) m') :
    ∃ s' w, m' = ⟨db, s'⟩ ∧ KeyWrite.DoesIn inner mode db (key, action) w ∧
      Built inner db s ops s' ⟨none, [w]⟩ := by
  cases action with
  | delete =>
    obtain ⟨rfl, rfl⟩ := deleteValueOps_run h
    exact ⟨s, ⟨key, collected inner db key .unknown, .gone⟩, rfl,
      ⟨⟨rfl, rfl, rfl⟩, fun _ payload h => by cases h⟩, .keyWrite rfl⟩
  | put payload =>
    cases mode with
    | lazy =>
      obtain ⟨s', body, rfl, hseals, hinlines, hbuilt⟩ := putPayloadOps_run h
      refine ⟨s', ⟨key, collected inner db key .unknown, body⟩, rfl,
        ⟨⟨rfl, rfl, hseals⟩, fun _ payload' hpayload => ?_⟩, hbuilt⟩
      obtain rfl := Action.put.inj hpayload
      exact hinlines
    | eager =>
      obtain ⟨rfl, sealed, hseal, rfl⟩ := eagerPutOps_run h
      exact ⟨s, ⟨key, collected inner db key .unknown, .inline sealed⟩, rfl,
        ⟨⟨rfl, rfl, hseal⟩, fun lazy => by cases lazy⟩, .keyWrite rfl⟩

theorem actionsOps_run {mode : TxMode} {actions : List (Bytes × Action)}
    (h : Run Served (actionsOps inner mode actions) ⟨db, s⟩ (.ok ops) m') :
    ∃ s' writes, m' = ⟨db, s'⟩ ∧ List.Forall₂ (KeyWrite.DoesIn inner mode db) actions writes ∧
      Built inner db s ops s' ⟨none, writes⟩ := by
  induction actions generalizing s ops m' with
  | nil =>
    obtain ⟨hops, rfl⟩ := run_pure.1 h
    obtain rfl := Except.ok.inj hops
    exact ⟨s, [], rfl, .nil, .nil⟩
  | cons entry rest ih =>
    obtain ⟨key, action⟩ := entry
    obtain ⟨first, m₁, hfirst, h₁⟩ := run_bind_ok.1 h
    obtain ⟨s₁, w, rfl, hdoes, hbuilt⟩ := actionOps_run hfirst
    obtain ⟨more, m₂, hmore, h₂⟩ := run_bind_ok.1 h₁
    obtain ⟨s₂, writes, rfl, hall, hrest⟩ := ih hmore
    obtain ⟨hops, rfl⟩ := run_pure.1 h₂
    obtain rfl := Except.ok.inj hops
    exact ⟨s₂, w :: writes, rfl, .cons hdoes hall, hbuilt.append hrest⟩

/-! ## The whole locker -/

/-- The values of the locker's pointers that parse. -/
def storedPointers (inner : Inner T) (db : Tables) : List ChunkPointer :=
  (inner.entries db .unbounded .unbounded).filterMap fun e => pointerIn (some e.2)

theorem mem_storedPointers {p : ChunkPointer} :
    p ∈ storedPointers inner db ↔ ∃ key raw,
      db.lookup .records (inner.encodeKey key) = some raw ∧ ChunkPointer.parse raw = .ok p := by
  rw [storedPointers, List.mem_filterMap]
  constructor
  · rintro ⟨⟨key, raw⟩, he, hp⟩
    obtain ⟨raw', hraw, hparse⟩ := pointerIn_eq_some.1 hp
    exact ⟨key, raw', hraw ▸ ((Inner.mem_entries inner).1 he).1, hparse⟩
  · rintro ⟨key, raw, hraw, hp⟩
    exact ⟨(key, raw), (Inner.mem_entries inner).2 ⟨hraw, rfl⟩, pointerIn_of_ok hp⟩

theorem foldlM_gcVisited (entries : List (Bytes × Bytes)) (ops : List Op) :
    entries.foldlM (fun ops e => Inner.gcVisited ops e.1 (if true then some e.2 else none)) ops =
      .ok (ops ++ (entries.filterMap fun e => pointerIn (some e.2)).map gcOps) := by
  induction entries generalizing ops with
  | nil =>
    rw [List.filterMap_nil, List.map_nil, List.append_nil]
    rfl
  | cons e entries ih =>
    have hvisit : Inner.gcVisited ops e.1 (some e.2) =
        .ok (ops ++ (pointerIn (some e.2)).toList.map gcOps) := by
      rw [← gcParsed_eq]
      unfold Inner.gcVisited gcParsed
      dsimp only
      split
      · cases ChunkPointer.parse e.2 <;> simp
      · simp
    rw [List.foldlM_cons, if_pos rfl, hvisit]
    refine (ih _).trans ?_
    rw [List.filterMap_cons]
    cases pointerIn (some e.2) <;> simp

theorem clearValueOps_run {ρ : Type} [WriteLock ρ] {m m₁ : Machine Tables ρ}
    (h : Run Served inner.clearValueOps m (.ok ops) m₁) :
    m₁ = m ∧ ops = (storedPointers inner m.dev).map gcOps ++ [inner.clearOp] := by
  obtain ⟨walked, m₂, hwalk, h₁⟩ := run_bind_ok.1 h
  have hm := (reads_walk inner _ _ _ _ _ _).run hwalk
  have hvisited := Inner.walk_run inner hwalk
  obtain ⟨hops, rfl⟩ := run_pure.1 h₁
  obtain rfl := Except.ok.inj hops
  rw [Inner.entriesInOrder, if_neg (by simp), foldlM_gcVisited] at hvisited
  obtain rfl := Except.ok.inj hvisited
  exact ⟨hm, rfl⟩

theorem Built.clear (inner : Inner T) (dropped : List ChunkPointer) :
    Built inner db s (dropped.map gcOps ++ [inner.clearOp]) s ⟨some dropped, []⟩ := by
  have htable : ∀ op ∈ dropped.map gcOps ++ [inner.clearOp], op.table ≠ .meta := by
    intro op hop
    rcases List.mem_append.1 hop with hop | hop
    · obtain ⟨p, -, rfl⟩ := List.mem_map.1 hop
      simp [gcOps, Op.table]
    · obtain rfl := List.mem_singleton.1 hop
      simp [Inner.clearOp, Op.table]
  refine ⟨?_, .nil, by simp [newIds], le_rfl, .inl ⟨rfl, written_of_table htable⟩⟩
  rw [dataOps_of_data htable, Batch.ops]
  simp

def clearedBy (inner : Inner T) (db : Tables) (staged : List Pending) : Option (List ChunkPointer) :=
  if .clear ∈ staged then some (storedPointers inner db) else none

/-- The batch that a list of staged writes is collapsed to: the clear if it has one, then one
write for each key, of the last thing done to it since. -/
theorem opsForItems_run {staged : List Pending} {mode : TxMode}
    (h : Run Served (opsForItems inner staged mode) ⟨db, s⟩ (.ok ops) m') :
    ∃ s' writes, m' = ⟨db, s'⟩ ∧
      List.Forall₂ (KeyWrite.DoesIn inner mode db) (actionsOf (afterLastClear staged)).toList writes ∧
      Built inner db s ops s' ⟨clearedBy inner db staged, writes⟩ := by
  obtain ⟨front, m₁, hfront, h₁⟩ := run_bind_ok.1 h
  obtain ⟨more, m₂, hmore, h₂⟩ := run_bind_ok.1 h₁
  have hclear : m₁ = ⟨db, s⟩ ∧ Built inner db s front s ⟨clearedBy inner db staged, []⟩ := by
    unfold clearedBy
    split at hfront
    · next hc =>
      obtain ⟨rfl, rfl⟩ := clearValueOps_run hfront
      rw [if_pos hc]
      exact ⟨rfl, .clear inner _⟩
    · next hc =>
      obtain ⟨hops, rfl⟩ := run_pure.1 hfront
      obtain rfl := Except.ok.inj hops
      rw [if_neg hc]
      exact ⟨rfl, .nil⟩
  obtain ⟨rfl, hbuilt⟩ := hclear
  obtain ⟨s', writes, rfl, hall, hrest⟩ := actionsOps_run hmore
  obtain ⟨hops, rfl⟩ := run_pure.1 h₂
  obtain rfl := Except.ok.inj hops
  exact ⟨s', writes, rfl, hall, hbuilt.append hrest⟩

end
end Crossbank
