import Crossbank.Locker.Answer

/-!
# What a commit does to the values

* `Inner.valueOfWrite` : what a staged write is read as;
* `valueStored_commit` : the values under each key once a batch has landed;
* `Laid` : ops that are those of a list of staged writes;
* `Laid.valueStored` : what is read once they have landed, with the ops that shed other keys;
* `Laid.wellFormed` : and what is stored is well formed under the stored counter of value ids;
* `sheds_nodup`, `not_touched_of_sheds` : the keys a commit sheds are none that it writes.
-/

namespace Crossbank
open Async

/-- What the last write of a batch to a key is read as: it removes the key, or leaves a payload. -/
def Inner.valueOfWrite {T : Type} (inner : Inner T) : Option Bytes → Except Error (Option T)
  | none => .ok none
  | some payload => (inner.value.ofPayload payload).map some

def Body.Serialised : Body → Prop
  | .chunked p _ => p.flags = FLAG_POSTCARD
  | _ => True

section
variable {T : Type} {inner : Inner T} {db : Tables} {lo hi : Nat} {b : Batch} {ops : List Op}

theorem Body.Seals.serialised {body : Body} {payload : Bytes}
    (h : body.Seals inner FLAG_POSTCARD payload) : body.Serialised := by
  cases body with
  | gone => exact h.elim
  | inline sealed => trivial
  | chunked p sealed => exact h.2.2.2.2.1

theorem Body.Does.serialised {body : Body} {action : Action} (h : body.Does inner action) :
    body.Serialised := by
  cases action with
  | put payload => exact Body.Seals.serialised h
  | delete =>
    obtain rfl : body = .gone := h
    trivial

theorem isRaw_of_serialised {body : Body} {raw : Bytes} (h : body.Serialised) (whole : body.Whole)
    (record : body.record = some raw) : Inner.isRaw raw = .ok false := by
  unfold Inner.isRaw
  cases body with
  | gone => cases record
  | inline sealed =>
    obtain rfl := Option.some.inj record
    rw [show isPointer sealed = false from whole, if_neg (by simp)]
  | chunked p sealed =>
    obtain rfl := Option.some.inj record
    have hflag : p.flags = FLAG_POSTCARD := h
    rw [if_pos (isPointer_encode p), parse_eq_ok.2 ⟨rfl, whole.1⟩]
    simp [Except.map, hflag, FLAG_POSTCARD, FLAG_RAW]

/-- The values under each key once a batch has landed. -/
theorem valueStored_commit (inverts : inner.chain.Inverts) (apart : Apart db lo)
    (fits : b.Fits inner db lo hi) (data : dataOps ops = b.ops inner) (want : Bytes → Option Bytes)
    (holds : ∀ w ∈ b.writes, w.body.Holds inner (want w.key))
    (serialised : ∀ w ∈ b.writes, w.body.Serialised)
    (small : ∀ key bytes, want key = some bytes → bytes.length ≤ MAX_DECODED_BYTES) (key : Bytes) :
    inner.valueStored (db.commit ops) key =
      match b.find key with
      | some _ => inner.valueOfWrite (want key)
      | none => if b.cleared.isSome then .ok none else inner.valueStored db key := by
  rw [Inner.valueStored, lookup_commit_record fits data]
  cases hf : b.find key with
  | some w =>
    obtain ⟨hw, rfl⟩ := mem_writes_of_find hf
    have hpayload := payloadOf_written inverts apart fits data hw (holds w hw) (small _)
    dsimp only
    cases hrecord : w.body.record with
    | none =>
      rw [hrecord] at hpayload
      rw [Option.map_eq_none_iff.1 hpayload.symm]
      rfl
    | some raw =>
      rw [hrecord] at hpayload
      obtain ⟨payload, hwant, hraw⟩ := Option.map_eq_some_iff.1 hpayload.symm
      rw [hwant]
      dsimp only
      rw [← hraw, isRaw_of_serialised (serialised w hw) (fits.whole w hw) hrecord]
      simp only [bind, Except.bind, Inner.valueOf, Bool.false_eq_true, if_false, Inner.valueOfWrite]
      cases inner.value.ofPayload payload <;> rfl
  | none =>
    dsimp only
    by_cases hcl : b.cleared.isSome = true
    · rw [if_pos hcl, if_pos hcl]
    · rw [if_neg hcl, if_neg hcl, Inner.valueStored]
      cases hk : db.lookup .records (inner.encodeKey key) with
      | none => rfl
      | some raw =>
        dsimp only
        rw [payloadOf_kept apart fits data hk (by simpa using hcl) hf]

end

/-! ## Ops of staged writes -/

/-- The ops are those of the staged writes: the clear if they have one, then one write for each key,
that collects nothing but what is stored there. -/
structure Laid {T : Type} (inner : Inner T) (db : Tables) (s : Shared) (staged : List Pending)
    (ops : List Op) (s' : Shared) (b : Batch) : Prop where
  built : Built inner db s ops s' b
  cleared : b.cleared = clearedBy inner db staged
  nodup : (b.writes.map KeyWrite.key).Nodup
  gc : ∀ w ∈ b.writes, ∀ p, w.gc = some p →
    pointerIn (db.lookup .records (inner.encodeKey w.key)) = some p
  does : ∀ w ∈ b.writes, ∃ action, (collapsed staged)[w.key]? = some action ∧
    w.body.Does inner action
  inlines : ∀ w ∈ b.writes, ∀ payload, (collapsed staged)[w.key]? = some (.put payload) →
    w.body.Inlines inner FLAG_POSTCARD payload
  all : ∀ key : Bytes, (b.find key).isSome = ((collapsed staged)[key]?).isSome

section
variable {T : Type} {inner : Inner T} {db : Tables} {s s' : Shared} {staged : List Pending}
  {ops : List Op}

theorem Collapsed.laid {writes : List KeyWrite} (c : Collapsed inner db staged s ops s' writes)
    (inlines : ∀ w ∈ writes, ∀ payload, (collapsed staged)[w.key]? = some (.put payload) →
      w.body.Inlines inner FLAG_POSTCARD payload) :
    Laid inner db s staged ops s' ⟨clearedBy inner db staged, writes⟩ where
  built := c.built
  cleared := rfl
  nodup := by
    dsimp only
    rw [keys_of_does c.does]
    exact nodup_keys_toList _
  gc w hw p hp := by
    obtain ⟨action, -, hdoes⟩ := c.action_of_mem hw
    rw [← hdoes.gc]
    exact hp
  does w hw := by
    obtain ⟨action, ha, hdoes⟩ := c.action_of_mem hw
    exact ⟨action, ha, hdoes.body⟩
  inlines := inlines
  all := c.find_isSome

theorem collapsed_singleton_put (key payload : Bytes) :
    collapsed [.put key payload] = (∅ : Std.ExtTreeMap Bytes Action compare).insert key
      (.put payload) := by
  rw [collapsed, show afterLastClear [.put key payload] = [.put key payload] by simp [afterLastClear]]
  rfl

theorem collapsed_singleton_delete (key : Bytes) :
    collapsed [.delete key] = (∅ : Std.ExtTreeMap Bytes Action compare).insert key .delete := by
  rw [collapsed, show afterLastClear [.delete key] = [.delete key] by simp [afterLastClear]]
  rfl

theorem laid_singleton {key : Bytes} {entry : Pending} {action : Action} {gc : Option ChunkPointer}
    {body : Body} (one : collapsed [entry] =
      (∅ : Std.ExtTreeMap Bytes Action compare).insert key action)
    (unclear : entry ≠ .clear) (built : Built inner db s ops s' ⟨none, [⟨key, gc, body⟩]⟩)
    (hgc : ∀ p, gc = some p → pointerIn (db.lookup .records (inner.encodeKey key)) = some p)
    (does : body.Does inner action)
    (inlines : ∀ payload, action = .put payload → body.Inlines inner FLAG_POSTCARD payload) :
    Laid inner db s [entry] ops s' ⟨none, [⟨key, gc, body⟩]⟩ where
  built := built
  cleared := by
    rw [clearedBy, if_neg]
    rw [List.mem_singleton]
    exact fun h => unclear h.symm
  nodup := by simp
  gc w hw p hp := by
    obtain rfl := List.mem_singleton.1 hw
    exact hgc p hp
  does w hw := by
    obtain rfl := List.mem_singleton.1 hw
    exact ⟨action, by rw [one]; simp, does⟩
  inlines w hw payload h := by
    obtain rfl := List.mem_singleton.1 hw
    rw [one] at h
    exact inlines payload (by simpa using h)
  all k := by
    rw [one, Std.ExtTreeMap.getElem?_insert]
    by_cases hk : key = k
    · simp [Batch.find, hk]
    · simp [Batch.find, hk]

theorem collected_of_some {key : Bytes} {prior : Prior} {p : ChunkPointer}
    (h : collected inner db key prior = some p) :
    pointerIn (db.lookup .records (inner.encodeKey key)) = some p := by
  unfold collected at h
  split at h
  · exact h
  · cases h

theorem putPayloadOps_laid {key payload : Bytes} {prior : Prior} {m' : Machine Tables Shared}
    (h : Run Served (inner.putPayloadOps key payload FLAG_POSTCARD prior) ⟨db, s⟩ (.ok ops) m') :
    ∃ s' b, m' = ⟨db, s'⟩ ∧ Laid inner db s [.put key payload] ops s' b := by
  obtain ⟨s', body, rfl, hseals, hinlines, hbuilt⟩ := putPayloadOps_run h
  exact ⟨s', _, rfl, laid_singleton (collapsed_singleton_put key payload) (by simp) hbuilt
    (fun p => collected_of_some) hseals fun payload' h => Action.put.inj h ▸ hinlines⟩

theorem deleteValueOps_laid {ρ : Type} [WriteLock ρ] {m m' : Machine Tables ρ} {key : Bytes}
    {prior : Prior} (h : Run Served (inner.deleteValueOps key prior) m (.ok ops) m') :
    m' = m ∧ ∃ b, Laid inner m.dev s [.delete key] ops s b := by
  obtain ⟨rfl, rfl⟩ := deleteValueOps_run h
  exact ⟨rfl, _, laid_singleton (collapsed_singleton_delete key) (by simp) (Built.keyWrite rfl)
    (fun p => collected_of_some) rfl fun payload h => by cases h⟩

theorem clearValueOps_laid {ρ : Type} [WriteLock ρ] {m m' : Machine Tables ρ}
    (h : Run Served inner.clearValueOps m (.ok ops) m') :
    m' = m ∧ ∃ b, Laid inner m.dev s [.clear] ops s b := by
  obtain ⟨rfl, rfl⟩ := clearValueOps_run h
  refine ⟨rfl, _, Built.clear inner _, by simp [clearedBy], by simp, by simp, by simp, by simp,
    fun key => ?_⟩
  rw [collapsed, show afterLastClear [.clear] = [] by simp [afterLastClear]]
  simp [Batch.find, actionsOf]

theorem opsForItems_laid {m' : Machine Tables Shared}
    (h : Run Served (opsForItems inner staged .lazy) ⟨db, s⟩ (.ok ops) m') :
    ∃ s' b, m' = ⟨db, s'⟩ ∧ Laid inner db s staged ops s' b := by
  obtain ⟨s', writes, rfl, hall, hbuilt⟩ := opsForItems_run h
  have c : Collapsed inner db staged s ops s' writes := ⟨hall.imp fun _ _ h => h.toDoes, hbuilt⟩
  refine ⟨s', _, rfl, c.laid fun w hw payload hput => ?_⟩
  obtain ⟨⟨key, action⟩, hmem, hdoes⟩ := does_of_mem hall hw
  obtain rfl : w.key = key := hdoes.key
  have haction := Std.ExtTreeMap.mem_toList_iff_getElem?_eq_some.1 hmem
  exact hdoes.inlines rfl payload (Option.some.inj (haction.symm.trans hput))

/-! ## With what is shed -/

section
variable {victims : List Bytes}

theorem shedWrites_built (inner : Inner T) (db : Tables) (s : Shared) (victims : List Bytes) :
    Built inner db s ((shedWrites inner db victims).flatMap (KeyWrite.ops inner)) s
      ⟨none, shedWrites inner db victims⟩ := by
  induction victims with
  | nil => exact .nil
  | cons victim rest ih =>
    have hfirst : Built inner db s (KeyWrite.ops inner ⟨victim,
        pointerIn (db.lookup .records (inner.encodeKey victim)), .gone⟩) s _ := Built.keyWrite rfl
    exact hfirst.append ih

theorem key_of_mem_shedWrites {w : KeyWrite} (h : w ∈ shedWrites inner db victims) :
    w.key ∈ victims ∧ w.body = .gone ∧
      w.gc = pointerIn (db.lookup .records (inner.encodeKey w.key)) := by
  obtain ⟨v, hv, rfl⟩ := List.mem_map.1 h
  exact ⟨hv, rfl, rfl⟩

variable {b : Batch} {more : List Op}

/-- What is shed no write of the batch touches. -/
theorem not_collapsed (untouched : ∀ v ∈ victims, stagedView staged v = none) (v : Bytes)
    (hv : v ∈ victims) : (collapsed staged)[v]? = none := by
  have hview := untouched v hv
  rw [stagedView_eq_collapsed] at hview
  exact Option.map_eq_none_iff.1 (Option.or_eq_none_iff.1 hview).1

section
variable (laid : Laid inner db s staged ops s' b)
include laid

/-- The ops that shed follow those of the batch. -/
theorem Laid.built_shed (data : dataOps more = dataOps ops ++
      (shedWrites inner db victims).flatMap (KeyWrite.ops inner))
    (counter : written more .meta META_NEXT_VALUE_ID = written ops .meta META_NEXT_VALUE_ID) :
    Built inner db s more s' ⟨b.cleared, b.writes ++ shedWrites inner db victims⟩ := by
  refine (laid.built.append (shedWrites_built inner db s' victims)).of_dataOps ?_ ?_
  · rw [data, dataOps_append]
    congr 1
    refine (dataOps_of_data fun op hop => ?_).symm
    obtain ⟨w, -, hw⟩ := List.mem_flatMap.1 hop
    exact table_of_mem_ops hw
  · rw [counter, written_append]
    have hnone : written ((shedWrites inner db victims).flatMap (KeyWrite.ops inner)) .meta
        META_NEXT_VALUE_ID = none := written_of_table fun op hop => by
      obtain ⟨w, -, hw⟩ := List.mem_flatMap.1 hop
      exact table_of_mem_ops hw
    rw [hnone, Option.none_or]

theorem Laid.dropped {dropped : List ChunkPointer} (h : b.cleared = some dropped) :
    dropped = storedPointers inner db := by
  rw [laid.cleared] at h
  unfold clearedBy at h
  split at h
  · exact (Option.some.inj h).symm
  · cases h

/-- A write collects what is stored under its key, and so does what is shed. -/
theorem Laid.gc_shed {w : KeyWrite} (hw : w ∈ b.writes ++ shedWrites inner db victims)
    {p : ChunkPointer} (hp : w.gc = some p) :
    pointerIn (db.lookup .records (inner.encodeKey w.key)) = some p := by
  rcases List.mem_append.1 hw with hw | hw
  · exact laid.gc w hw p hp
  · rw [← (key_of_mem_shedWrites hw).2.2]
    exact hp

theorem Laid.pointer_of_collected {id : UInt64}
    (hid : id ∈ (⟨b.cleared, b.writes ++ shedWrites inner db victims⟩ : Batch).collected) :
    ∃ k raw p, db.lookup .records k = some raw ∧ ChunkPointer.parse raw = .ok p ∧ p.valueId = id := by
  obtain ⟨key, raw, p, hraw, hparse, hid, -⟩ := stored_of_collected
    (b := ⟨b.cleared, b.writes ++ shedWrites inner db victims⟩) (fun _ => laid.dropped)
    (fun _ hw _ => laid.gc_shed hw) hid
  exact ⟨_, raw, p, hraw, hparse, hid⟩

/-- Each key is written once, or shed. -/
theorem Laid.nodup_shed (untouched : ∀ v ∈ victims, stagedView staged v = none)
    (nodup : victims.Nodup) :
    ((b.writes ++ shedWrites inner db victims).map KeyWrite.key).Nodup := by
  have hshed : (shedWrites inner db victims).map KeyWrite.key = victims := by
    rw [shedWrites, List.map_map]
    exact List.map_id _
  rw [List.map_append, hshed, List.nodup_append]
  refine ⟨laid.nodup, nodup, fun k hk v hv => ?_⟩
  obtain ⟨w, hw, rfl⟩ := List.mem_map.1 hk
  obtain ⟨action, ha, -⟩ := laid.does w hw
  rintro rfl
  rw [not_collapsed untouched _ hv] at ha
  cases ha

variable (small : ∀ key payload, .put key payload ∈ staged → payload.length ≤ MAX_DECODED_BYTES)
  (untouched : ∀ v ∈ victims, stagedView staged v = none)
include small untouched

/-- Each write can be read back as what the batch leaves. -/
theorem Laid.whole_shed {w : KeyWrite} (hw : w ∈ b.writes ++ shedWrites inner db victims) :
    w.body.Whole ∧ w.body.Holds inner ((collapsed staged)[w.key]?.bind Action.leaves) ∧
      w.body.Serialised := by
  rcases List.mem_append.1 hw with hw | hw
  · obtain ⟨action, ha, hdoes⟩ := laid.does w hw
    rw [ha]
    obtain ⟨h1, h2⟩ := hdoes.whole fun payload hl => small _ _ (leaves_collapsed ha hl)
    exact ⟨h1, h2, hdoes.serialised⟩
  · obtain ⟨hv, hgone, -⟩ := key_of_mem_shedWrites hw
    rw [hgone, not_collapsed untouched _ hv]
    exact ⟨trivial, trivial, trivial⟩

/-- Staged writes and what is shed with them fit the store. -/
theorem Laid.fits_shed (nodup : victims.Nodup)
    (built : Built inner db s more s' ⟨b.cleared, b.writes ++ shedWrites inner db victims⟩) :
    Batch.Fits inner db (idCursor db s) (idCursor db s')
      ⟨b.cleared, b.writes ++ shedWrites inner db victims⟩ :=
  fits_of_built built (laid.nodup_shed untouched nodup) (fun _ => laid.dropped)
    (fun _ hw _ => laid.gc_shed hw) fun _ hw => (laid.whole_shed small untouched hw).1

/-- What is stored once staged writes have landed: nothing under a key that is shed; elsewhere
the last write, or what was stored before. -/
theorem Laid.valueStored (inverts : inner.chain.Inverts) (apart : Apart db (idCursor db s))
    (nodup : victims.Nodup)
    (data : dataOps more = dataOps ops ++
      (shedWrites inner db victims).flatMap (KeyWrite.ops inner))
    (counter : written more .meta META_NEXT_VALUE_ID = written ops .meta META_NEXT_VALUE_ID)
    (key : Bytes) : inner.valueStored (db.commit more) key =
      if key ∈ victims then .ok none
      else match stagedView staged key with
        | some write => inner.valueOfWrite write
        | none => inner.valueStored db key := by
  have built := laid.built_shed data counter
  have fits := laid.fits_shed small untouched nodup built
  have hlimit (k bytes : Bytes) (hb : (collapsed staged)[k]?.bind Action.leaves = some bytes) :
      bytes.length ≤ MAX_DECODED_BYTES := by
    obtain ⟨action, ha, hl⟩ := Option.bind_eq_some_iff.1 hb
    exact small _ _ (leaves_collapsed ha hl)
  have hfind : (Batch.find ⟨b.cleared, b.writes ++ shedWrites inner db victims⟩ key) =
      (b.find key).or ((shedWrites inner db victims).find? fun w => w.key = key) := by
    unfold Batch.find
    rw [List.find?_append]
  rw [valueStored_commit inverts apart fits built.data
    (fun k => (collapsed staged)[k]?.bind Action.leaves)
    (fun w hw => (laid.whole_shed small untouched hw).2.1)
    (fun w hw => (laid.whole_shed small untouched hw).2.2) hlimit, hfind, stagedView_eq_collapsed,
    laid.cleared]
  have hall := laid.all key
  by_cases hv : key ∈ victims
  · have hnone := not_collapsed untouched key hv
    rw [hnone] at hall
    obtain ⟨w, hw⟩ : ∃ w, ((shedWrites inner db victims).find? fun w => w.key = key) = some w :=
      Option.isSome_iff_exists.1 (List.find?_isSome.2 ⟨_, List.mem_map.2 ⟨key, hv, rfl⟩, by simp⟩)
    have hb : b.find key = none := by
      rw [← Option.not_isSome_iff_eq_none, hall]
      simp
    rw [if_pos hv, hb, hw, Option.none_or, hnone]
    rfl
  · have hshed : ((shedWrites inner db victims).find? fun w => w.key = key) = none := by
      rw [List.find?_eq_none]
      intro w hw hk
      obtain rfl : w.key = key := by simpa using hk
      exact hv (key_of_mem_shedWrites hw).1
    rw [if_neg hv, hshed, Option.or_none]
    cases hf : b.find key with
    | some w =>
      rw [hf] at hall
      obtain ⟨action, ha⟩ := Option.isSome_iff_exists.1 hall.symm
      rw [ha]
      rfl
    | none =>
      rw [hf] at hall
      have ha : (collapsed staged)[key]? = none := by
        rw [← Option.not_isSome_iff_eq_none, ← hall]
        simp
      rw [ha]
      unfold clearedBy
      by_cases hc : .clear ∈ staged
      · simp [hc, Inner.valueOfWrite]
      · simp [hc]

/-- What is stored stays well formed under the stored counter, where that was and the cursor is
past the ids that are stored. -/
theorem Laid.wellFormed (wf : WellFormed inner db (idCursor db .fresh))
    (below : ∀ k raw p, db.lookup .records k = some raw → ChunkPointer.parse raw = .ok p →
      p.valueId.toNat < idCursor db s)
    (nodup : victims.Nodup)
    (data : dataOps more = dataOps ops ++
      (shedWrites inner db victims).flatMap (KeyWrite.ops inner))
    (counter : written more .meta META_NEXT_VALUE_ID = written ops .meta META_NEXT_VALUE_ID) :
    WellFormed inner (db.commit more) (idCursor (db.commit more) .fresh) := by
  have built := laid.built_shed data counter
  have fits := laid.fits_shed small untouched nodup built
  have stored : idCursor (db.commit more) .fresh = ((parseCounter (((written more .meta
      META_NEXT_VALUE_ID).getD (db.lookup .meta META_NEXT_VALUE_ID)))).toOption.getD 0).toNat := by
    rw [← Tables.lookup_commit]
    rfl
  rcases built.counted with ⟨still, unwritten⟩ | ⟨next, taken, counted⟩
  · -- No value id was taken.
    rw [stored, unwritten]
    have same : idCursor db s' = idCursor db s := by
      unfold idCursor
      rw [still]
    have untaken (id : UInt64) (hid : id ∈ newIds (b.writes ++ shedWrites inner db victims)) :
        False := by
      have hfresh := built.fresh id hid
      omega
    have quiet : Batch.Fits inner db (idCursor db .fresh) (idCursor db .fresh)
        ⟨b.cleared, b.writes ++ shedWrites inner db victims⟩ :=
      { fits with
        fresh := fun id hid => (untaken id hid).elim
        le := le_rfl }
    exact Crossbank.wellFormed_commit wf quiet built.data
  · have parsed : parseCounter (some (u64be next)) = .ok next := by simp [parseCounter]
    have after : idCursor (db.commit more) .fresh = idCursor db s' := by
      rw [stored, counted, Option.getD_some, parsed]
      unfold idCursor
      rw [taken]
      rfl
    rw [after]
    exact Crossbank.wellFormed_commit ⟨wf.whole, wf.unique, below⟩ fits built.data

end
end
end

/-! ## Which keys are shed -/

theorem LruState.shed_sublist (budget : Nat) (cs : List Candidate) (total : Nat) :
    (shed budget cs total).victims.Sublist (cs.map Candidate.key) := by
  induction cs generalizing total with
  | nil => exact .slnil
  | cons c rest ih =>
    unfold shed
    split
    · exact List.nil_sublist _
    · exact (ih _).cons_cons _

section
variable {T : Type} {ram : Ram T} {updates : List (Bytes × Nat)} {removals : List Bytes}
  {cleared : Bool} {v : Bytes}

theorem candidates_kept (state : LruState) (updates : List (Bytes × Entry)) (removals : List Bytes)
    (cleared : Bool) : ((state.candidates updates removals cleared
      (updates.map Prod.fst)).map Candidate.key).Sublist (state.entries.toList.map Prod.fst) := by
  have hnew : (updates.filterMap fun u => if u.1 ∈ updates.map Prod.fst then none
      else some (⟨u.2.tick, u.1, u.2.bytes⟩ : Candidate)) = [] := by
    rw [List.filterMap_eq_nil_iff]
    intro u hu
    exact if_pos (List.mem_map.2 ⟨u, hu, rfl⟩)
  unfold LruState.candidates
  rw [List.map_append, hnew, List.map_nil, List.append_nil]
  split
  · exact List.nil_sublist _
  · refine LruState.keys_filterMap (fun e c hc => ?_) _
    dsimp only at hc
    split at hc
    · cases hc
    · obtain rfl := Option.some.inj hc
      rfl

theorem sheds_nodup : (ram.sheds updates removals cleared).Nodup := by
  unfold Ram.sheds
  split
  · exact .nil
  · next state _ =>
    unfold LruState.plan
    dsimp only
    split
    · exact .nil
    · refine (LruState.shed_sublist _ _ _).nodup ?_
      refine (((List.perm_insertionSort _ _).map _).nodup_iff).2 ?_
      have hkeys : ((updates.map fun u => (u.1, (⟨0, u.2⟩ : Entry))).map Prod.fst) =
          updates.map Prod.fst := by
        rw [List.map_map]
        rfl
      have hsub := candidates_kept state (updates.map fun u => (u.1, (⟨0, u.2⟩ : Entry))) removals
        cleared
      rw [hkeys] at hsub
      exact hsub.nodup (nodup_keys_toList _)

theorem not_written_of_sheds (h : v ∈ ram.sheds updates removals cleared) :
    cleared = false ∧ v ∉ removals ∧ v ∉ updates.map Prod.fst := by
  unfold Ram.sheds at h
  split at h
  · cases h
  · next state _ =>
    have hkeep := LruState.not_mem_keep_of_victim h
    unfold LruState.plan at h
    dsimp only at h
    split at h
    · cases h
    · obtain ⟨c, hc, rfl⟩ := LruState.mem_candidates_of_shed h
      rcases LruState.mem_candidates.1 ((List.perm_insertionSort _ _).mem_iff.1 hc) with
        ⟨hcl, -, hr, -, -⟩ | ⟨hmem, -⟩
      · exact ⟨hcl, hr, hkeep⟩
      · obtain ⟨u, hu, he⟩ := List.mem_map.1 hmem
        have hkey : u.1 = c.key := (Prod.mk.inj he).1
        exact absurd (List.mem_map.2 ⟨u, hu, hkey⟩) hkeep

/-- The accounting of a batch leaves alone only what the batch does. -/
theorem stagedView_of_unaccounted {staged : List Pending} (hc : (accounting staged).cleared = false)
    (hr : v ∉ (accounting staged).removals) (hu : v ∉ (accounting staged).updates.map Prod.fst) :
    stagedView staged v = none := by
  have hkeeps (m : Bytes → Option Nat) : replay List.length staged m v = m v := by
    rw [← Accounting.applyTo_accounting, Accounting.applyTo_eq]
    have hupdates (updates : List (Bytes × Nat)) (f : Bytes → Option Nat)
        (h : v ∉ updates.map Prod.fst) : updates.foldl setSize f v = f v := by
      induction updates generalizing f with
      | nil => rfl
      | cons u rest ih =>
        rw [List.map_cons, List.mem_cons, not_or] at h
        rw [List.foldl_cons, ih _ h.2, setSize, Function.update_of_ne h.1]
    rw [hupdates _ _ hu, if_neg hr, hc]
    rfl
  have hnone := hkeeps fun _ => none
  have hsome := hkeeps fun _ => some 0
  rw [replay_eq_stagedView] at hnone hsome
  cases hview : stagedView staged v with
  | none => rfl
  | some write =>
    rw [hview] at hnone hsome
    cases write with
    | none => cases hsome
    | some payload => cases hnone

/-- What a commit sheds it does not write. -/
theorem not_touched_of_sheds {staged : List Pending} (h : v ∈ ram.sheds (accounting staged).updates
    (accounting staged).removals (accounting staged).cleared) : stagedView staged v = none := by
  obtain ⟨hc, hr, hu⟩ := not_written_of_sheds h
  exact stagedView_of_unaccounted hc hr hu

end
end Crossbank
