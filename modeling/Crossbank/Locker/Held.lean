import Crossbank.Locker.Collapse
import Crossbank.Locker.TxRead

/-!
# What an eager locker holds, decoded

* `Inner.decoded` : the value that the record under a key decodes to;
* `Inner.replayed` : what staged writes, replayed in order over the stored payloads, decode to;
* `WithinLimit` : no value in memory serialises to more than can be decoded again;
* `EagerLocker.held_eq_replayed` : within the limit memory holds what is staged over what is stored,
  and a flush makes that what is stored; past the limit it need not (`held_not_decoded`).
-/

namespace Crossbank
open Async

section
variable {T : Type} (inner : Inner T)

/-- The value that the record under a key decodes to. -/
def Inner.decoded (db : Tables) (key : Bytes) : Option T :=
  (db.lookup .records (inner.encodeKey key)).bind fun raw =>
    (inner.value.decode inner.chain raw).toOption

/-- The payload that is stored inline under a key. -/
def Inner.inlinePayload (db : Tables) (key : Bytes) : Option Bytes :=
  (db.lookup .records (inner.encodeKey key)).bind fun raw => (inner.chain.openStored raw).toOption

/-- What staged writes, replayed in order over the stored payloads, decode to. -/
def Inner.replayed (db : Tables) (staged : List Pending) (key : Bytes) : Option T :=
  (replay (fun payload => payload) staged (inner.inlinePayload db) key).bind fun payload =>
    (inner.value.ofPayload payload).toOption

variable {inner} {db : Tables} {staged : List Pending} {key : Bytes} {held : Option T}

theorem toOption_decode (raw : Bytes) : (inner.value.decode inner.chain raw).toOption =
    (inner.chain.openStored raw).toOption.bind fun payload =>
      (inner.value.ofPayload payload).toOption := by
  unfold Postcard.decode
  cases inner.chain.openStored raw with
  | ok payload => rfl
  | error e => rfl

theorem replayed_nil : inner.replayed db [] key = inner.decoded db key := by
  rw [Inner.replayed, replay_eq_stagedView, stagedView_nil]
  dsimp only
  rw [Inner.inlinePayload, Inner.decoded, Option.bind_assoc]
  congr 1
  funext raw
  exact (toOption_decode raw).symm

/-- Memory that mirrors a key holds what is staged over what is stored, if it can be decoded. -/
theorem Mirrored.eq_replayed (h : Mirrored inner db staged key held) (inverts : inner.value.Inverts)
    (opens : inner.chain.Inverts) (small : ∀ v payload, held = some v →
      inner.value.payload v = .ok payload → payload.length ≤ MAX_DECODED_BYTES) :
    held = inner.replayed db staged key := by
  rw [Inner.replayed, replay_eq_stagedView]
  unfold Mirrored at h
  cases hview : stagedView staged key with
  | some view =>
    rw [hview] at h
    cases view with
    | none => exact h
    | some payload =>
      obtain ⟨v, rfl, hpayload⟩ := h
      show some v = (inner.value.ofPayload payload).toOption
      rw [ofPayload_of_payload inverts hpayload]
      rfl
  | none =>
    rw [hview] at h
    dsimp only [Inner.inlinePayload]
    cases hraw : db.lookup .records (inner.encodeKey key) with
    | none =>
      rw [hraw] at h
      exact h
    | some raw =>
      rw [hraw] at h
      obtain ⟨-, hdecodes, hfails⟩ := h
      show held = (inner.chain.openStored raw).toOption.bind _
      rw [← toOption_decode]
      cases hd : inner.value.decode inner.chain raw with
      | ok v => exact hdecodes v hd
      | error e =>
        cases held with
        | none => rfl
        | some v =>
          -- A value whose record was sealed here, and is small, opens again.
          obtain ⟨payload, hpayload, hseal⟩ := hfails e hd v rfl
          have hopen := opens payload raw (small v payload rfl hpayload) hseal
          have hok : inner.value.decode inner.chain raw = .ok v :=
            bind_eq_ok.2 ⟨payload, hopen, ofPayload_of_payload inverts hpayload⟩
          rw [hok] at hd
          cases hd

/-- No value in memory serialises to more than can be decoded again. -/
def WithinLimit (inner : Inner T) (ram : Ram T) : Prop :=
  ∀ (key : Bytes) v payload, ram.values[key]? = some v → inner.value.payload v = .ok payload →
    payload.length ≤ MAX_DECODED_BYTES

/-- What a locker holds is what is staged over what is stored, and a flush that succeeds makes it what
is stored. -/
structure HoldsReplayed (inner : Inner T) (m : Machine Tables (Ram T)) : Prop where
  held : ∀ key, m.mem.values[key]? = inner.replayed m.dev m.mem.res.staged key
  flushed : ∀ m', Run Served (EagerLocker.flush inner) m (.ok ()) m' →
    m'.mem.values = m.mem.values ∧ ∀ key, m'.mem.values[key]? = inner.decoded m'.dev key

end

namespace EagerLocker
section
variable {T : Type} {inner : Inner T} {m m' : Machine Tables (Ram T)}

theorem values_of_flush (h : Mirrors inner m)
    (run : Run Served (Resident.flush inner) m (.ok ()) m') :
    m'.mem.values = m.mem.values ∧ m'.mem.res.staged = [] ∧ m'.mem.closed = m.mem.closed := by
  rcases flush_run h.clean run with ⟨⟨s, d, rfl⟩, hnil⟩ | ⟨ops, budget, m₁, -, -, hbuild, rfl⟩
  · exact ⟨rfl, hnil rfl, rfl⟩
  · have hmode : m.mem.res.mode = .eager := h.mode
    rw [hmode] at hbuild
    obtain ⟨rfl, hops⟩ := batchOps_unbudgeted hbuild h.lru
    obtain ⟨-, s, rfl⟩ := recordsAfter_zoom hops
    exact ⟨rfl, rfl, rfl⟩

theorem resident_flush_of_flush (run : Run Served (flush inner) m (.ok ()) m') :
    Run Served (Resident.flush inner) m (.ok ()) m' := by
  unfold flush LazyLocker.both at run
  obtain ⟨a, m₁, ha, h₁⟩ := run_bind_ok.1 run
  obtain ⟨b, m₂, hb, h₂⟩ := run_bind_ok.1 h₁
  obtain ⟨u, m₃, hu, h₃⟩ := run_bind_ok.1 h₂
  obtain ⟨hau, rfl⟩ := run_ofExcept.1 hu
  obtain ⟨-, rfl⟩ := run_ofExcept.1 h₃
  obtain ⟨y, hy, hay⟩ := run_attempt.1 ha
  obtain ⟨z, hz, -⟩ := run_attempt.1 hb
  obtain rfl := run_flushBackend hz
  rw [← Except.ok.inj hay, ← hau] at hy
  exact hy

/-- An eager locker is storage plus what is staged, within the limit of what can be decoded. -/
theorem held_eq_replayed (faithful : inner.chain.Faithful) (opens : inner.chain.Inverts)
    (inverts : inner.value.Inverts) (reached : Reached inner m) (open_ : m.mem.closed = false)
    (within : WithinLimit inner m.mem) : HoldsReplayed inner m := by
  have replays {m : Machine Tables (Ram T)} (mirrors : Mirrors inner m) (open_ : m.mem.closed = false)
      (within : WithinLimit inner m.mem) (key : Bytes) :
      m.mem.values[key]? = inner.replayed m.dev m.mem.res.staged key :=
    (mirrors.mirrored open_ key).eq_replayed inverts opens (within key)
  have mirrors := reached.mirrors faithful inverts
  refine ⟨replays mirrors open_ within, fun m' run => ?_⟩
  have flushed := resident_flush_of_flush run
  obtain ⟨values, staged, closed⟩ := values_of_flush mirrors flushed
  have after := replays (mirrors.flush faithful inverts flushed) (closed.trans open_)
    (fun key v payload hv => within key v payload (values ▸ hv))
  refine ⟨values, fun key => ?_⟩
  rw [after key, staged, replayed_nil]

end

/-! ## Past the limit -/

section
variable {T : Type} {inner : Inner T} {db : Tables} {ram : Ram T} {key payload sealed : Bytes} {v : T}

/-- A put that fits, staged. -/
theorem run_putBy_staged (deferred : inner.config.deferredAfter = some 8)
    (open_ : ram.closed = false) (free : ram.res.staged = [])
    (hpayload : inner.value.payload v = .ok payload) (hseal : inner.chain.sealSlice payload = .ok sealed)
    (fits : sealed.length ≤ inner.config.maxInline) :
    Run Served (putBy inner key v) ⟨db, ram⟩ (.ok v) ⟨db, { ram with
      values := ram.values.insert key v
      events := ram.events ++ [.put key]
      res := { ram.res with staged := [.put key payload], dropped := ram.res.dropped.erase key } }⟩ := by
  have encoded : inner.value.encode inner.chain v = .ok sealed := bind_eq_ok.2 ⟨payload, hpayload, hseal⟩
  have isDef : isDeferred inner = true := by simp [isDeferred, deferred]
  unfold putBy
  refine run_bind_ok.2 ⟨(), _, run_ensureOpen.2 ⟨by simp [open_], rfl⟩, ?_⟩
  refine run_bind_ok.2 ⟨sealed, _, run_ofExcept.2 ⟨encoded.symm, rfl⟩, ?_⟩
  rw [if_neg (by omega), if_pos isDef]
  refine run_bind_ok.2 ⟨payload, _, run_ofExcept.2 ⟨hpayload.symm, rfl⟩, ?_⟩
  refine run_bind_ok.2 ⟨false, _, run_sync.2 ⟨by simp [deferred, free], rfl⟩, run_mirrorPut_bind.2 ?_⟩
  simp [free, Ram.mapRes, Ram.announce, Resident.forgetDropped]

theorem run_flushBackend_ok (m : Machine Tables (Ram T)) :
    Run Served inner.flushBackend m (.ok ()) m := by
  unfold Inner.flushBackend
  split
  · exact run_flush.2 rfl
  · exact run_pure.2 ⟨rfl, rfl⟩

theorem run_flush_put (deferred : ram.res.staged = [.put key payload]) (free : ram.writeLock = false)
    (unbudgeted : ram.res.lru = none) (mode : ram.res.mode = .eager)
    (hseal : inner.chain.sealSlice payload = .ok sealed) (fits : sealed.length ≤ inner.config.maxInline) :
    ∃ m', Run Served (flush inner) ⟨.empty, ram⟩ (.ok ()) m' ∧
      m'.dev.lookup .records (inner.encodeKey key) = some sealed ∧ m'.mem.values = ram.values := by
  have hops : Run Served (opsForItems inner [.put key payload] .eager) ⟨.empty, ram.shared⟩
      (.ok [.put .records (inner.encodeKey key) sealed]) ⟨.empty, ram.shared⟩ := by
    have one : (actionsOf (afterLastClear [.put key payload])).toList = [(key, .put payload)] := by
      have tail : afterLastClear [.put key payload] = [.put key payload] := by simp [afterLastClear]
      rw [tail]
      rfl
    have put : Run Served (eagerPutOps inner key payload) ⟨.empty, ram.shared⟩
        (.ok [.put .records (inner.encodeKey key) sealed]) ⟨.empty, ram.shared⟩ := by
      refine run_bind_ok.2 ⟨sealed, _, run_ofExcept.2 ⟨hseal.symm, rfl⟩, ?_⟩
      rw [if_neg (by omega)]
      refine run_bind_ok.2 ⟨none, _, run_get.2 ⟨rfl, fun v hv => ?_⟩, run_pure.2 ⟨rfl, rfl⟩⟩
      exact (Except.ok.inj hv).symm
    unfold opsForItems
    rw [one, if_neg (by simp)]
    refine run_bind_ok.2 ⟨[], _, run_pure.2 ⟨rfl, rfl⟩, run_bind_ok.2 ⟨_, _, ?_, run_pure.2 ⟨rfl, rfl⟩⟩⟩
    exact run_bind_ok.2 ⟨_, _, put, run_bind_ok.2 ⟨[], _, run_pure.2 ⟨rfl, rfl⟩, run_pure.2 ⟨rfl, rfl⟩⟩⟩
  have hbatch (ram' : Ram T) (hram : ram' = ram.lock.mapRes .drain) :
      Run Served (batchOps inner [.put key payload] .eager) ⟨.empty, ram'⟩
        (.ok ([.put .records (inner.encodeKey key) sealed], {})) ⟨.empty, ram'⟩ := by
    subst hram
    refine run_bind_ok.2 ⟨_, _, (draws_opsForItems inner _ .eager).run_zoom_iff.2 ⟨_, hops, rfl⟩, ?_⟩
    unfold budgetOps
    refine run_read_bind.2 ?_
    have hnone : ram.res.lru = none := unbudgeted
    simp [Ram.mapRes, Resident.drain, Ram.lock, hnone, sharedPart]
  have hflush : Run Served (flushLocked inner) ⟨.empty, ram.lock⟩ (.ok ())
      ⟨Tables.empty.commit [.put .records (inner.encodeKey key) sealed],
        dropDrained (applyBudget {} (ram.lock.mapRes .drain))⟩ := by
    refine run_bind_ok.2 ⟨_, _, run_takeStaged.2 ⟨rfl, rfl⟩,
      run_guarded.2 ⟨⟨_, applyBudget {} (ram.lock.mapRes .drain)⟩, ?_, rfl⟩⟩
    rw [show ram.lock.res.staged = [.put key payload] from deferred, if_neg (by simp)]
    refine run_read_bind.2 ?_
    rw [show (ram.lock.mapRes .drain).res.mode = .eager from mode]
    refine run_bind_ok.2 ⟨_, _, run_restagingOnError_ok.2 (hbatch _ rfl), ?_⟩
    refine run_bind_ok.2 ⟨(), _, run_restagingOnError_ok.2 (run_innerCommit.2 (.inl ⟨rfl, rfl⟩)), ?_⟩
    exact run_update.2 ⟨rfl, rfl⟩
  have hres : Run Served (Resident.flush inner) ⟨.empty, ram⟩ (.ok ())
      ⟨Tables.empty.commit [.put .records (inner.encodeKey key) sealed],
        (dropDrained (applyBudget {} (ram.lock.mapRes .drain))).unlock⟩ := by
    unfold Resident.flush
    refine run_read_bind.2 ?_
    rw [deferred, if_neg (by simp)]
    exact run_withWriteLock.2 ⟨free, _, hflush, rfl⟩
  refine ⟨⟨Tables.empty.commit [.put .records (inner.encodeKey key) sealed],
    (dropDrained (applyBudget {} (ram.lock.mapRes .drain))).unlock⟩, ?_, ?_, rfl⟩
  · refine run_bind_ok.2 ⟨.ok (), _, run_attempt.2 ⟨_, hres, rfl⟩, ?_⟩
    refine run_bind_ok.2 ⟨.ok (), _, run_attempt.2 ⟨.ok (), run_flushBackend_ok _, rfl⟩, ?_⟩
    exact run_bind_ok.2 ⟨(), _, run_pure.2 ⟨rfl, rfl⟩, run_pure.2 ⟨rfl, rfl⟩⟩
  · simp [Tables.lookup_commit, written_cons, Op.written]

end
end EagerLocker

/-- A filter that makes long strings short, as compression can. It restores nothing past the limit. -/
def Filter.packing : Filter where
  name := "packing"
  forward x := if x.length ≤ MAX_DECODED_BYTES then .ok (0 :: x) else .ok [1]
  reverse
    | 0 :: x => .ok x
    | _ => .error (.corrupt s!"over the {MAX_DECODED_BYTES} byte limit")

/-- A deferred locker whose chain packs its values. -/
def Inner.packed : Inner Bytes :=
  { Inner.plain with chain := ⟨1, [Filter.packing]⟩, config := { commit := .deferred 8 } }

theorem packing_forward {x y : Bytes} (h : Filter.packing.forward x = .ok y) :
    (x.length ≤ MAX_DECODED_BYTES ∧ y = 0 :: x) ∨ (MAX_DECODED_BYTES < x.length ∧ y = [1]) := by
  unfold Filter.packing at h
  dsimp only at h
  split at h
  · next small => exact .inl ⟨small, (Except.ok.inj h).symm⟩
  · next large => exact .inr ⟨not_le.1 large, (Except.ok.inj h).symm⟩

theorem packed_sealSlice {payload sealed : Bytes}
    (h : Inner.packed.chain.sealSlice payload = .ok sealed) :
    ∃ body, Filter.packing.forward payload = .ok body ∧ sealed = header 1 ++ body ∧
      Inner.packed.chain.openStored sealed = Filter.packing.reverse body := by
  obtain ⟨body, hbody, rfl⟩ := FilterChain.sealSlice_eq_ok.1 h
  refine ⟨body, ?_, rfl, ?_⟩
  · simpa [Inner.packed] using hbody
  · rw [FilterChain.openStored_header]
    simp [Inner.packed]

theorem packed_inverts : Inner.packed.chain.Inverts := by
  intro payload sealed small h
  obtain ⟨body, hbody, -, hopen⟩ := packed_sealSlice h
  rcases packing_forward hbody with ⟨-, rfl⟩ | ⟨large, -⟩
  · exact hopen
  · omega

theorem packed_faithful : Inner.packed.chain.Faithful := by
  intro payload sealed opened h hopened
  obtain ⟨body, hbody, -, hopen⟩ := packed_sealSlice h
  rw [hopen] at hopened
  rcases packing_forward hbody with ⟨-, rfl⟩ | ⟨-, rfl⟩
  · exact (Except.ok.inj hopened).symm
  · cases hopened

namespace EagerLocker

theorem reached_packed : Reached Inner.packed ⟨.empty, .opened .fresh (.new .eager none none) ∅⟩ := by
  have h : (openLocker Inner.packed : Io Shared _).eval (serve 0) ⟨.empty, .fresh⟩ =
      some (.ok (∅, .new .eager none none), ⟨.empty, .fresh⟩) := by rfl
  exact .opened (Prog.eval_run (serve_sound 0) h)

/-- A put within the limit, staged. -/
theorem held_eq_replayed_put : ∃ m : Machine Tables (Ram Bytes), m.mem.res.staged ≠ [] ∧
    HoldsReplayed Inner.packed m := by
  have hseal : Inner.packed.chain.sealSlice [1, 7] = .ok (header 1 ++ [0, 1, 7]) := by decide
  have hpayload : Inner.packed.value.payload [7] = .ok [1, 7] := by decide
  have run (key : Bytes) : Run Served (putBy Inner.packed key [7])
      ⟨.empty, .opened .fresh (.new .eager none none) ∅⟩ (.ok [7]) _ :=
    run_putBy_staged rfl rfl rfl hpayload hseal (by decide)
  refine ⟨_, ?_, held_eq_replayed packed_faithful packed_inverts Postcard.vecU8_inverts
    (.called reached_packed (.put [1] [7]) (run_map.2 ⟨_, run [1], rfl⟩)) rfl ?_⟩
  · simp
  · intro key v payload hv hp
    dsimp only [Ram.opened] at hv
    rw [Std.ExtTreeMap.getElem?_insert] at hv
    split at hv
    · rw [← Option.some.inj hv, hpayload] at hp
      rw [← Except.ok.inj hp]
      decide
    · simp at hv

/-- A value past the limit is in memory, and what is stored does not decode to it. -/
theorem held_not_decoded : (Inner.packed.chain.Faithful ∧ Inner.packed.chain.Inverts ∧
    Inner.packed.value.Inverts) ∧ ¬ ∀ m, Reached Inner.packed m → m.mem.closed = false →
      HoldsReplayed Inner.packed m := by
  refine ⟨⟨packed_faithful, packed_inverts, Postcard.vecU8_inverts⟩, fun h => ?_⟩
  obtain ⟨v, hv⟩ : ∃ v : Bytes, v.length = MAX_DECODED_BYTES :=
    ⟨List.replicate MAX_DECODED_BYTES 0, List.length_replicate⟩
  -- The value fits, with its length in front its payload does not.
  obtain ⟨payload, hpayload, large⟩ : ∃ payload, Inner.packed.value.payload v = .ok payload ∧
      MAX_DECODED_BYTES < payload.length := by
    refine ⟨Postcard.varint 10 v.length ++ v, ?_, ?_⟩
    · unfold Postcard.payload Inner.packed Inner.plain Postcard.vecU8
      dsimp only
      rw [if_pos (by rw [hv]; decide)]
    · have front : 0 < (Postcard.varint 10 v.length).length := by
        rw [hv]
        decide
      rw [List.length_append, hv]
      rw [hv] at front
      omega
  have hseal : Inner.packed.chain.sealSlice payload = .ok (header 1 ++ [1]) := by
    refine FilterChain.sealSlice_eq_ok.2 ⟨[1], ?_, rfl⟩
    have hforward : Filter.packing.forward payload = .ok [1] := by
      unfold Filter.packing
      dsimp only
      rw [if_neg (by omega)]
    simp [Inner.packed, hforward]
  have broken : Inner.packed.value.decode Inner.packed.chain (header 1 ++ [1]) =
      .error (.corrupt s!"over the {MAX_DECODED_BYTES} byte limit") := by
    obtain ⟨body, -, hbody, hopen⟩ := packed_sealSlice hseal
    obtain rfl := List.append_cancel_left hbody
    rw [Postcard.decode, hopen]
    rfl
  let ram : Ram Bytes := .opened .fresh (.new .eager none none) ∅
  let after : Ram Bytes := { ram with
    values := ram.values.insert [1] v
    events := ram.events ++ [.put [1]]
    res := { ram.res with staged := [.put [1] payload], dropped := ram.res.dropped.erase [1] } }
  have put : Run Served (putBy Inner.packed [1] v) ⟨.empty, ram⟩ (.ok v) ⟨.empty, after⟩ :=
    run_putBy_staged rfl rfl rfl hpayload hseal (by decide)
  have holds := h _ (Reached.called reached_packed (.put [1] v) (run_map.2 ⟨_, put, rfl⟩)) rfl
  have flushes : ∃ m', Run Served (flush Inner.packed) ⟨.empty, after⟩ (.ok ()) m' ∧
      m'.dev.lookup .records (Inner.packed.encodeKey [1]) = some (header 1 ++ [1]) ∧
      m'.mem.values = after.values := run_flush_put rfl rfl rfl rfl hseal (by decide)
  obtain ⟨m', run, hrecord, hvalues⟩ := flushes
  have held := (holds.flushed m' run).2 [1]
  rw [hvalues, Inner.decoded, hrecord, Option.bind_some, broken] at held
  simp [after, Except.toOption] at held

end EagerLocker
end Crossbank
