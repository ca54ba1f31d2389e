import Crossbank.Async.Vault
import Crossbank.Locker.Issuers
import Crossbank.Locker.Listing
import Crossbank.Locker.Outcome
import Crossbank.Sessions

/-!
# A lazy locker is a vault

What is stored under the keys of a locker is a map on a device, and what is staged are its pending
edits. Calls fail, the process dies in the middle of one, the power is cut, the locker is dropped and
opened again.

* `Asks` : what a call is for; `LazyLocker.Lived` : the states of a locker across deaths and cuts;
* `ReadAs` : a store is read as a map; `Represents` : a store and a staged batch are the vault;
  `Represents.put`, `Represents.staging`, `Represents.shed` : what a call does to both;
* `Below`, `LazyCall.below` : no call of a locker stores a pointer past the cursor of value ids;
* `Deals`, `LazyCall.answers` : what a call leaves is what the vault's answer leaves;
* `Backs`, `StandsOn` : a disk and its locker are the vault, and what a cut may bring back of them;
* `LazyLocker.refines_vault` : a lazy locker refines a vault, and its reads show what that shows;
* `LazyLocker.write_lasts` : what is acknowledged of a locker that commits at once, and durably, it
  shows, until a call is for its key, whatever fails, dies and is cut; `LazyLocker.flush_lasts` : of
  any other it does from the next flush.
-/

namespace Crossbank
open Async

/-! ## What calls are for -/

section
variable {T : Type} (inner : Inner T)

/-- A value whose payload can be read back. -/
def Inner.Fits (value : T) : Prop :=
  ∀ payload, inner.value.payload value = .ok payload → payload.length ≤ MAX_DECODED_BYTES

def Staged.edit : Staged T → Edit Bytes T
  | .put key _ value => .put key value
  | .delete key => .delete key
  | .clear => .clear

/-- A put carries the payload of its value, and it can be read back. -/
def Staged.Sound : Staged T → Prop
  | .put _ payload value => inner.value.payload value = .ok payload ∧
    payload.length ≤ MAX_DECODED_BYTES
  | .delete _ | .clear => True

/-- Every value that the closure may put can be read back. -/
def TxBody.Sized : TxBody T → Prop
  | .done _ => True
  | .put _ value next => inner.Fits value ∧ ∀ x, (next x).Sized
  | .delete _ next => next.Sized
  | .clear next => next.Sized
  | .get _ next => ∀ x, (next x).Sized

def LazyCall.Sized : LazyCall T → Prop
  | .put _ value => inner.Fits value
  | .transact body => body.Sized inner
  | .putAll entries => ∀ e ∈ entries, inner.Fits e.2
  | _ => True

/-- What the closure leaves staged, over the stored map `f`: its reads see its own writes first, then
the map, and may fail. A closure that fails leaves nothing. -/
def TxBody.Leaves (f : Bytes → Option T) : TxBody T → List (Staged T) → List (Staged T) → Prop
  | .done (.ok ()), own, out => out = own
  | .done (.error _), _, out => out = []
  | .put key value next, own, out =>
    match inner.value.payload value with
    | .ok payload => (next (.ok ())).Leaves f (own ++ [.put key payload value]) out
    | .error e => (next (.error e)).Leaves f own out
  | .delete key next, own, out => next.Leaves f (own ++ [.delete key]) out
  | .clear next, own, out => next.Leaves f (own ++ [.clear]) out
  | .get key next, own, out => (next (.ok (applyAll (own.map Staged.edit) f key))).Leaves f own out ∨
    ∃ e, (next (.error e)).Leaves f own out

/-- What a call is for, on a vault. A transaction reads what is stored, not what is pending. -/
def Asks : LazyCall T → Vault Bytes T → Deed Bytes T → Prop
  | .get _, _, d | .list .., _, d => d = .look
  | .put key value, _, d => d = .edit (.put key value)
  | .delete key, _, d => d = .edit (.delete key)
  | .clear, _, d => d = .edit .clear
  | .transact body, s, d => ∃ own, body.Leaves inner s.durable [] own ∧ d = .batch (own.map Staged.edit)
  | .putAll entries, _, d => d = .batch (entries.map fun e => .put e.1 e.2)
  | .deleteAll keys, _, d => d = .batch (keys.map .delete)
  | .flush, _, d | .close, _, d => d = .flush
  | .evictTo _, _, d => d = .shed
  | .writer _, _, _ | .writeChunk .., _, _ | .finish _, _, _ | .abort _, _, _ => False

/-- A deferred locker keeps edits back, and one with a byte budget sheds. What an immediate commit has
stored is safe at once. -/
def Inner.kind : Vault.Kind where
  behind := isDeferred inner
  sheds := decide (inner.config.policy ≠ .precious)
  syncs := decide (inner.config.durability = .immediate)

/-- A locker that is alone in its bank. The cursors of a bank are those of its process. -/
def LazyLocker.service : Service Req Resp Error (Ram T) Tables (LazyCall T) where
  sem := Served
  mark := Req.mark
  prog := LazyCall.prog inner
  may c := c.Plain ∧ c.Sized inner
  opens d old m := ∃ res n, Run OnDisk (LazyLocker.openLocker inner)
    ⟨d, (old.map Ram.shared).getD .fresh⟩ (.ok res) n ∧ m = ⟨n.dev, .opened n.mem res ∅⟩

/-- The states of a locker across failures, deaths and cuts. -/
abbrev LazyLocker.Lived (db : Tables) :
    List (Turn (LazyCall T)) → Machine (Disk Tables) (Ram T) → Prop :=
  (LazyLocker.service inner).Lived db

end

/-! ## Staged edits -/

section
variable {T : Type} {inner : Inner T} {own more : List (Staged T)} {f : Bytes → Option T} {key : Bytes}

theorem Staged.Sound.serialised {w : Staged T} (h : w.Sound inner) : w.Serialised inner := by
  cases w with
  | put key payload value => exact h.1
  | delete key => trivial
  | clear => trivial

theorem sound_small (sound : ∀ w ∈ own, w.Sound inner) (key payload : Bytes)
    (h : .put key payload ∈ own.map Staged.pending) : payload.length ≤ MAX_DECODED_BYTES := by
  obtain ⟨w, hw, heq⟩ := List.mem_map.1 h
  have hsound := sound w hw
  cases w with
  | put k p value =>
    obtain ⟨rfl, rfl⟩ := Pending.put.inj heq
    exact hsound.2
  | delete k => cases heq
  | clear => cases heq

theorem sound_concat {last : Staged T} (sound : ∀ w ∈ own, w.Sound inner) (hlast : last.Sound inner) :
    ∀ w ∈ own ++ [last], w.Sound inner := by
  intro w hw
  rcases List.mem_append.1 hw with hw | hw
  · exact sound w hw
  · obtain rfl := List.mem_singleton.1 hw
    exact hlast

theorem applyAll_edits (own : List (Staged T)) (f : Bytes → Option T) (key : Bytes) :
    applyAll (own.map Staged.edit) f key = (lastWrite own key).getD (f key) := by
  induction own using List.reverseRecOn with
  | nil => rfl
  | append_singleton own last ih =>
    have hlast : lastWrite (own ++ [last]) key = (lastWrite [last] key).or (lastWrite own key) := by
      simp only [lastWrite, List.reverse_append, List.findSome?_append]
    rw [List.map_append, List.map_singleton, applyAll_append, applyAll_singleton, hlast]
    have one (k : Bytes) (v : Option T) (hone : lastWrite [last] key = if k = key then some v else none)
        (hedit : last.edit.apply (applyAll (own.map Staged.edit) f) =
          Function.update (applyAll (own.map Staged.edit) f) k v) :
        last.edit.apply (applyAll (own.map Staged.edit) f) key =
          ((lastWrite [last] key).or (lastWrite own key)).getD (f key) := by
      rw [hone, hedit, Function.update_apply]
      by_cases hk : k = key
      · rw [if_pos hk, if_pos hk.symm]
        rfl
      · rw [if_neg hk, if_neg (Ne.symm hk), ih]
        rfl
    cases last with
    | put k payload value => exact one k (some value) (by simp [lastWrite]) rfl
    | delete k => exact one k none (by simp [lastWrite]) rfl
    | clear => rfl

/-- The last write of a batch is read as the edits have it. -/
theorem valueOfWrite_edits (inverts : inner.value.Inverts) (sound : ∀ w ∈ own, w.Sound inner)
    {write : Option Bytes} (h : stagedView (own.map Staged.pending) key = some write) :
    inner.valueOfWrite write = .ok (applyAll (own.map Staged.edit) f key) := by
  have hwrite := stagedView_eq_lastWrite key inverts fun w hw => (sound w hw).serialised
  rw [applyAll_edits]
  cases hlast : lastWrite own key with
  | none =>
    rw [hlast] at hwrite
    rw [hwrite] at h
    cases h
  | some v =>
    rw [hlast] at hwrite
    obtain ⟨write', hview, hv⟩ := hwrite
    obtain rfl := Option.some.inj (hview.symm.trans h)
    exact hv

theorem applyAll_of_unwritten (inverts : inner.value.Inverts) (sound : ∀ w ∈ own, w.Sound inner)
    (h : stagedView (own.map Staged.pending) key = none) :
    applyAll (own.map Staged.edit) f key = f key := by
  have hwrite := stagedView_eq_lastWrite key inverts fun w hw => (sound w hw).serialised
  rw [applyAll_edits]
  cases hlast : lastWrite own key with
  | none => rfl
  | some v =>
    rw [hlast] at hwrite
    obtain ⟨write, hview, -⟩ := hwrite
    rw [hview] at h
    cases h

theorem untouched_of_unwritten (h : stagedView (own.map Staged.pending) key = none) :
    Untouched (own.map Staged.edit) key := by
  rw [stagedView_eq_findSome?, List.findSome?_eq_none_iff] at h
  intro e he
  obtain ⟨w, hw, rfl⟩ := List.mem_map.1 he
  have hnone := h w.pending (List.mem_reverse.2 (List.mem_map_of_mem hw))
  cases w with
  | put k payload value =>
    intro hk
    simp [Staged.pending, Pending.effect, hk] at hnone
  | delete k =>
    intro hk
    simp [Staged.pending, Pending.effect, hk] at hnone
  | clear => cases hnone

/-! ## The vault that a locker is -/

/-- Each key that is stored is read as the map has it. -/
structure ReadAs (inner : Inner T) (db : Tables) (f : Bytes → Option T) : Prop where
  stored : ∀ key, inner.valueStored db key = .ok (f key)
  wellFormed : WellFormed inner db (idCursor db .fresh)

/-- The store and the staged batch are the vault: the store holds the map, and the staged writes are the
pending edits. -/
structure Represents (inner : Inner T) (db : Tables) (staged : List Pending) (s : Vault Bytes T) :
    Prop extends ReadAs inner db s.durable where
  staged : ∃ own : List (Staged T), staged = own.map Staged.pending ∧
    s.pending = own.map Staged.edit ∧ ∀ w ∈ own, w.Sound inner

/-- Every value id that is stored is below the cursor. -/
def Below (db : Tables) (cursor : Nat) : Prop :=
  ∀ k raw p, db.lookup .records k = some raw → ChunkPointer.parse raw = .ok p →
    p.valueId.toNat < cursor

section
variable {m m' : Machine Tables (Ram T)} {s : Vault Bytes T}

/-- What reads see is what the vault shows. -/
theorem Represents.seen (h : Represents inner m.dev m.mem.res.staged s) (inverts : inner.value.Inverts)
    (key : Bytes) : inner.seen m key = .ok (s.shows key) := by
  obtain ⟨own, hstaged, hpending, sound⟩ := h.staged
  unfold Inner.seen Vault.shows
  rw [hstaged, hpending]
  cases hview : stagedView (own.map Staged.pending) key with
  | some write => exact valueOfWrite_edits inverts sound hview
  | none => exact (h.stored key).trans (congrArg Except.ok (applyAll_of_unwritten inverts sound hview).symm)

theorem Represents.kept (h : Represents inner m.dev m.mem.res.staged s) (kept : StoreKept m m') :
    Represents inner m'.dev m'.mem.res.staged s := by
  rw [kept.dev, kept.staged]
  exact h

theorem Represents.staging {w : Staged T} (h : Represents inner m.dev m.mem.res.staged s)
    (sound : w.Sound inner) (dev : m'.dev = m.dev)
    (staged : m'.mem.res.staged = m.mem.res.staged ++ [w.pending]) :
    Represents inner m'.dev m'.mem.res.staged (s.stage [w.edit]) where
  stored := dev ▸ h.stored
  wellFormed := dev ▸ h.wellFormed
  staged := by
    obtain ⟨own, hstaged, hpending, hsound⟩ := h.staged
    refine ⟨own ++ [w], ?_, ?_, sound_concat hsound sound⟩
    · rw [staged, hstaged, List.map_append, List.map_singleton]
    · rw [List.map_append, List.map_singleton, ← hpending]
      rfl

section
variable (h : Represents inner m.dev m.mem.res.staged s) (chain : inner.chain.Inverts)
  (value : inner.value.Inverts) (below : Below m.dev (idCursor m.dev m.mem.shared))
include h chain value below

theorem Represents.stores {lost : List Bytes} {db : Tables} (sound : ∀ w ∈ own, w.Sound inner)
    (stores : StoresBatch inner m (own.map Staged.pending) lost db) :
    ReadAs inner db (Vault.without lost (applyAll (own.map Staged.edit) s.durable)) := by
  have small := sound_small sound
  refine ⟨fun key => ?_, stores.wellFormed h.wellFormed below small⟩
  rw [stores.valueStored chain ⟨h.wellFormed.unique, below⟩ small key, Vault.without]
  split
  · rfl
  · cases hview : stagedView (own.map Staged.pending) key with
    | some write => exact valueOfWrite_edits value sound hview
    | none =>
      exact (h.stored key).trans (congrArg Except.ok (applyAll_of_unwritten value sound hview).symm)

/-- What is staged is stored, with more writes. -/
theorem Represents.put (sound : ∀ w ∈ more, w.Sound inner)
    (unbudgeted : inner.config.policy = .precious → m.mem.res.lru = none)
    (put : Put inner m (mergeBatches m.mem.res.staged more) m') :
    ∃ s', Vault.Stores inner.kind (more.map Staged.edit) s s' ∧
      Represents inner m'.dev m'.mem.res.staged s' := by
  obtain ⟨own, hstaged, hpending, hsound⟩ := h.staged
  obtain ⟨lost, stores, nil⟩ := put
  have merged : mergeBatches m.mem.res.staged more = (own ++ more).map Staged.pending := by
    rw [mergeBatches, hstaged, List.map_append]
  have edits : s.pending ++ more.map Staged.edit = (own ++ more).map Staged.edit := by
    rw [hpending, List.map_append]
  have all : ∀ w ∈ own ++ more, w.Sound inner := by
    intro w hw
    rcases List.mem_append.1 hw with hw | hw
    · exact hsound w hw
    · exact sound w hw
  rw [merged] at stores
  have holds := h.stores chain value below all stores
  refine ⟨(s.stage (more.map Staged.edit)).store inner.kind lost,
    ⟨lost, fun key hkey => ?_, fun sheds => ?_, rfl⟩, ?_, [], ?_, rfl, by simp⟩
  · rw [edits]
    exact untouched_of_unwritten (stores.untouched key hkey)
  · have precious : inner.config.policy = .precious := by simpa [Inner.kind] using sheds
    exact stores.unbudgeted (unbudgeted precious)
  · rw [← edits] at holds
    exact holds
  · exact nil

theorem Represents.shed {lost : List Bytes} (stores : StoresBatch inner m [] lost m'.dev)
    (staged : m'.mem.res.staged = m.mem.res.staged) :
    Represents inner m'.dev m'.mem.res.staged (s.shed inner.kind lost) := by
  have none : ∀ w ∈ ([] : List (Staged T)), w.Sound inner := by simp
  exact ⟨h.stores chain value below none stores, staged ▸ h.staged⟩

end
end

/-! ## The cursor of value ids -/

section
variable {m m' : Machine Tables (Ram T)} {c : LazyCall T} {r : Except Error Unit}

/-- A call that is run alone keeps the rules of value ids, and leaves to another call what is its. -/
theorem issues_run {α : Type} {p : Io (Ram T) α} {r : Except Error α} {issue : Issue}
    {K : Sight → Prop} {G : Except Error α → Sight → Prop} (issues : Issues Ram.ids 0 K p G)
    (run : Run Served p m r m') (kept : IdsKept ⟨m.dev, m.mem.ids, issue⟩)
    (here : K ⟨m.dev, m.mem.ids, issue⟩) :
    ∃ issue', IdsKept ⟨m'.dev, m'.mem.ids, issue'⟩ ∧ G r ⟨m'.dev, m'.mem.ids, issue'⟩ ∧
      Continues 1 ⟨m.dev, m.mem.ids, issue⟩ ⟨m'.dev, m'.mem.ids, issue'⟩ := by
  have locks (s s' : Ram T) (h : WriteLock.acquire s = some s') : Ram.ids s' = Ram.ids s := by
    simp only [WriteLock.acquire] at h
    split at h
    · cases h
    · obtain rfl := Option.some.inj h
      rfl
  have shown : Run (Shown Ram.ids) p m r m' :=
    run.mono fun q n x n' h => Bank.shown_of_served locks h
  obtain ⟨issue', kept', ends, leaves⟩ := Triple.run
    (x := (⟨m, issue⟩ : Scene Tables (Ram T) Issue))
    (N := fun y z => LeavesTo 1 (seen Ram.ids y) (seen Ram.ids z)) issues here kept
    (fun y => ⟨.refl 1 _, rfl⟩) (fun _ _ _ first second =>
      ⟨first.1.trans second.1, second.2.trans first.2⟩) (fun _ _ guar => guar 1 (by decide)) shown
  exact ⟨issue', kept', ends, leaves.1⟩

theorem LazyCall.below (plain : c.Plain) (run : Run Served (c.prog inner) m r m')
    (below : Below m.dev (idCursor m.dev m.mem.shared)) :
    Below m'.dev (idCursor m'.dev m'.mem.shared) := by
  -- Before the call nobody has taken a value id that is not published.
  have start : IdsKept ⟨m.dev, m.mem.ids, ⟨fun _ => none, fun _ => none⟩⟩ :=
    ⟨by simp, fun key raw p hrow hparse => ⟨below key raw p hrow hparse, rfl⟩⟩
  obtain ⟨issue, kept, -⟩ := issues_run (c.behaves plain) run start trivial
  exact fun k raw p hrow hparse => (kept.pointed k raw p hrow hparse).1

theorem only_openLocker : (LazyLocker.openLocker inner).Only Req.isRead
    fun s s' : Shared => s'.values = s.values := by
  have reads {ρ β : Type} {C : ρ → ρ → Prop} {p : Io ρ β} (hp : Reads p) : p.Only Req.isRead C :=
    hp.mono (fun _ h => h) fun _ _ h => h.elim
  unfold LazyLocker.openLocker openLru
  refine (reads (reads_walk _ _ _ _ _ _ _)).bind fun index => Prog.Only.bind ?_ fun _ => Prog.only_pure
  split
  · exact Prog.only_pure
  · exact Prog.Only.bind (only_loadLru _ _ _) fun state => Prog.only_pure

/-- Opening a locker writes nothing, and leaves the cursor. -/
theorem opened_same {n n' : Machine Tables Shared} {res : Resident}
    (run : Run Served (LazyLocker.openLocker inner) n (.ok res) n') :
    n'.dev = n.dev ∧ n'.mem.values = n.mem.values := by
  refine Prog.Only.run (I := fun o => o.dev = n.dev ∧ o.mem.values = n.mem.values) only_openLocker run
    ⟨rfl, rfl⟩ (fun o s h hs => ⟨h.1, hs.trans h.2⟩) fun o q x o' h hq hs => ?_
  rw [served_read hq hs]
  exact h

theorem unbudgeted_opened {n n' : Machine Tables Shared} {res : Resident}
    (run : Run Served (LazyLocker.openLocker inner) n (.ok res) n')
    (precious : inner.config.policy = .precious) : res.lru = none := by
  obtain ⟨index, n₁, -, hrest⟩ := run_bind_ok.1 run
  obtain ⟨lru, n₂, hlru, hpure⟩ := run_bind_ok.1 hrest
  obtain rfl := Except.ok.inj (run_pure.1 hpure).1
  unfold openLru at hlru
  rw [precious] at hlru
  exact Except.ok.inj (run_pure.1 hlru).1

end

/-! ## Transactions -/

section
variable {m m' : Machine Tables (Ram T)} {s : Vault Bytes T} {out : List (Staged T)}

theorem loadValue_run {found : Option T}
    (h : Run Served (inner.loadValue key : Io (Ram T) (Option T)) m (.ok found) m') :
    inner.valueStored m.dev key = .ok found := by
  obtain ⟨raw, m₁, hfetch, hrest⟩ := run_bind_ok.1 h
  obtain ⟨rfl, hraw⟩ := run_get.1 hfetch
  obtain rfl := hraw raw rfl
  unfold Inner.valueStored
  cases hlookup : m₁.dev.lookup .records (inner.encodeKey key) with
  | none =>
    rw [hlookup] at hrest
    exact (run_pure.1 hrest).1.symm
  | some raw =>
    rw [hlookup] at hrest
    obtain ⟨v, m₂, hdecode, hpure⟩ := run_bind_ok.1 hrest
    obtain ⟨hv, -⟩ := LazyLocker.decodeRecord_run inner hdecode
    obtain rfl := Except.ok.inj (run_pure.1 hpure).1
    unfold Inner.valueOfRecord at hv
    obtain ⟨payload, hpayload, h₁⟩ := bind_eq_ok.1 hv
    obtain ⟨flag, hflag, h₂⟩ := bind_eq_ok.1 h₁
    simp only [bind, Except.bind, hpayload, hflag, h₂]

/-- A read inside a transaction that returns has found its last write, or what is stored. -/
theorem txGet_found (inverts : inner.value.Inverts) (sound : ∀ w ∈ own, w.Sound inner)
    (stored : ∀ key, inner.valueStored m.dev key = .ok (f key)) {found : Option T}
    (h : Run Served (txGet inner own key : Io (Ram T) (Option T)) m (.ok found) m') :
    found = applyAll (own.map Staged.edit) f key := by
  unfold txGet at h
  split at h
  · next hview =>
    have hwrite : inner.valueOfWrite none = .ok (applyAll (own.map Staged.edit) f key) :=
      valueOfWrite_edits inverts sound hview
    obtain rfl := Except.ok.inj (run_pure.1 h).1
    exact Except.ok.inj hwrite
  · next payload hview =>
    have hwrite : inner.valueOfWrite (some payload) = .ok (applyAll (own.map Staged.edit) f key) :=
      valueOfWrite_edits inverts sound hview
    have hfound : .ok found = (inner.value.ofPayload payload).map some := (run_ofExcept.1 h).1
    exact Except.ok.inj (hfound.trans hwrite)
  · next hview =>
    rw [applyAll_of_unwritten inverts sound hview]
    exact Except.ok.inj ((loadValue_run h).symm.trans (stored key))

/-- What a closure leaves staged is what it leaves over the stored map. -/
theorem txBody_leaves (inverts : inner.value.Inverts) {body : TxBody T} (sized : body.Sized inner)
    (sound : ∀ w ∈ own, w.Sound inner) (stored : ∀ key, inner.valueStored m.dev key = .ok (f key))
    (h : Run Served (body.run inner own : Io (Ram T) _) m (.ok out) m') :
    body.Leaves inner f own out ∧ ∀ w ∈ out, w.Sound inner := by
  induction body generalizing own m m' with
  | done result =>
    cases result with
    | ok u =>
      obtain rfl := Except.ok.inj (run_pure.1 h).1
      exact ⟨rfl, sound⟩
    | error e => cases (run_fail.1 h).1
  | put key value next ih =>
    obtain ⟨fits, sized⟩ := sized
    cases hp : inner.value.payload value with
    | ok payload =>
      rw [TxBody.run, hp] at h
      rw [TxBody.Leaves, hp]
      exact ih _ (sized _) (sound_concat sound ⟨hp, fits payload hp⟩) stored h
    | error e =>
      rw [TxBody.run, hp] at h
      rw [TxBody.Leaves, hp]
      exact ih _ (sized _) sound stored h
  | delete key next ih => exact ih sized (sound_concat sound trivial) stored h
  | clear next ih => exact ih sized (sound_concat sound trivial) stored h
  | get key next ih =>
    obtain ⟨found, m₁, hget, hrest⟩ := run_bind_ok.1 h
    obtain ⟨x, hx, hfound⟩ := run_attempt.1 hget
    obtain rfl := Except.ok.inj hfound
    obtain rfl := (reads_txGet inner own key).run hx
    obtain ⟨leaves, hsound⟩ := ih _ (sized _) sound stored hrest
    refine ⟨?_, hsound⟩
    cases found with
    | ok v =>
      rw [txGet_found inverts sound stored hx] at leaves
      exact .inl leaves
    | error e => exact .inr ⟨e, leaves⟩

/-- Some writes are what a closure leaves. -/
theorem exists_leaves (body : TxBody T) (own : List (Staged T)) : ∃ out, body.Leaves inner f own out := by
  induction body generalizing own with
  | done result =>
    cases result with
    | ok u => exact ⟨own, rfl⟩
    | error e => exact ⟨[], rfl⟩
  | put key value next ih =>
    cases hp : inner.value.payload value with
    | ok payload =>
      obtain ⟨out, leaves⟩ := ih (.ok ()) (own ++ [.put key payload value])
      exact ⟨out, by rw [TxBody.Leaves, hp]; exact leaves⟩
    | error e =>
      obtain ⟨out, leaves⟩ := ih (.error e) own
      exact ⟨out, by rw [TxBody.Leaves, hp]; exact leaves⟩
  | delete key next ih => exact ih (own ++ [.delete key])
  | clear next ih => exact ih (own ++ [.clear])
  | get key next ih =>
    obtain ⟨out, leaves⟩ := ih (.ok (applyAll (own.map Staged.edit) f key)) own
    exact ⟨out, .inl leaves⟩

theorem sized_putAllBody {entries : List (Bytes × T)} (fits : ∀ e ∈ entries, inner.Fits e.2) :
    (putAllBody entries).Sized inner := by
  induction entries with
  | nil => trivial
  | cons e rest ih =>
    obtain ⟨key, value⟩ := e
    refine ⟨fits (key, value) List.mem_cons_self, fun x => ?_⟩
    cases x with
    | ok u => exact ih fun e he => fits e (List.mem_cons_of_mem _ he)
    | error er => trivial

theorem sized_deleteAllBody (keys : List Bytes) : (deleteAllBody keys : TxBody T).Sized inner := by
  induction keys with
  | nil => trivial
  | cons key rest ih => exact ih

/-- The closure of `put_all` puts each entry, or fails. -/
theorem putAllBody_run {entries : List (Bytes × T)}
    (h : Run Served ((putAllBody entries).run inner own : Io (Ram T) _) m (.ok out) m') :
    out.map Staged.edit = own.map Staged.edit ++ entries.map fun e => .put e.1 e.2 := by
  induction entries generalizing own with
  | nil =>
    obtain rfl := Except.ok.inj (run_pure.1 h).1
    exact (List.append_nil _).symm
  | cons e rest ih =>
    obtain ⟨key, value⟩ := e
    rw [putAllBody, TxBody.run] at h
    split at h
    · rw [ih h, List.map_append, List.append_assoc]
      rfl
    · cases (run_fail.1 h).1

theorem deleteAllBody_run {keys : List Bytes}
    (h : Run Served ((deleteAllBody keys).run inner own : Io (Ram T) _) m (.ok out) m') :
    out.map Staged.edit = own.map Staged.edit ++ keys.map .delete := by
  induction keys generalizing own with
  | nil =>
    obtain rfl := Except.ok.inj (run_pure.1 h).1
    exact (List.append_nil _).symm
  | cons key rest ih =>
    rw [deleteAllBody, TxBody.run] at h
    rw [ih h, List.map_append, List.append_assoc]
    rfl

end

/-! ## What a call answers -/

/-- A locker that is a vault: its calls keep it one. -/
structure Stands (inner : Inner T) (m : Machine Tables (Ram T)) (s : Vault Bytes T) : Prop
    extends Represents inner m.dev m.mem.res.staged s where
  below : Below m.dev (idCursor m.dev m.mem.shared)
  unbudgeted : inner.config.policy = .precious → m.mem.res.lru = none
  clean : Clean m.mem
  lazy : IsLazy m.mem
  idle : isDeferred inner = false → m.mem.res.staged = []

section
variable {m m' : Machine Tables (Ram T)} {s : Vault Bytes T} {c : LazyCall T} {r : Except Error Unit}

def Deals (inner : Inner T) (c : LazyCall T) (ok : Bool) (s : Vault Bytes T)
    (m' : Machine Tables (Ram T)) : Prop :=
  ∃ d s', Asks inner c s d ∧ Vault.Answers inner.kind d ok s s' ∧
    Represents inner m'.dev m'.mem.res.staged s'

/-- A call that is not answered may have failed. -/
theorem LazyCall.unanswered (plain : c.Plain) (s : Vault Bytes T) :
    ∃ d, Asks inner c s d ∧ Vault.Answers inner.kind d false s s := by
  cases c with
  | get key => exact ⟨_, rfl, rfl⟩
  | list start stop reverse limit => exact ⟨_, rfl, rfl⟩
  | put key value => exact ⟨_, rfl, .inr (.inr ⟨rfl, rfl⟩)⟩
  | delete key => exact ⟨_, rfl, .inr (.inr ⟨rfl, rfl⟩)⟩
  | clear => exact ⟨_, rfl, .inr (.inr ⟨rfl, rfl⟩)⟩
  | transact body =>
    obtain ⟨own, leaves⟩ : ∃ own, body.Leaves inner s.durable [] own := exists_leaves body []
    exact ⟨_, ⟨own, leaves, rfl⟩, .inr ⟨by simp, rfl⟩⟩
  | putAll entries => exact ⟨_, rfl, .inr ⟨by simp, rfl⟩⟩
  | deleteAll keys => exact ⟨_, rfl, .inr ⟨by simp, rfl⟩⟩
  | flush => exact ⟨_, rfl, s, .inr ⟨by simp, rfl⟩, rfl⟩
  | evictTo bytes => exact ⟨_, rfl, .inl rfl⟩
  | close => exact ⟨_, rfl, s, .inr ⟨by simp, rfl⟩, rfl⟩
  | writer key => exact plain.elim
  | writeChunk w bytes => exact plain.elim
  | finish w => exact plain.elim
  | abort w => exact plain.elim

section
variable (stands : Stands inner m s) (chain : inner.chain.Inverts) (value : inner.value.Inverts)
include stands chain value

theorem Stands.wrote {w : Staged T} (sound : w.Sound inner) (wrote : WriteLeft inner m w.pending r m') :
    ∃ s', Vault.Answers inner.kind (.edit w.edit) r.isOk s s' ∧
      Represents inner m'.dev m'.mem.res.staged s' := by
  rcases wrote with ⟨rfl, put⟩ | ⟨deferred, dev, staged⟩ | ⟨failed, kept⟩
  · have one : ∀ x ∈ [w], x.Sound inner := by simpa using sound
    obtain ⟨s', stores, represents⟩ := stands.toRepresents.put chain value stands.below one
      stands.unbudgeted put
    exact ⟨s', .inl ⟨rfl, stores⟩, represents⟩
  · exact ⟨_, .inr (.inl ⟨deferred, rfl⟩), stands.toRepresents.staging sound dev staged⟩
  · refine ⟨s, .inr (.inr ⟨?_, rfl⟩), stands.toRepresents.kept kept⟩
    cases r with
    | ok u => exact absurd rfl failed
    | error e => rfl

theorem Stands.took {body : TxBody T} (sized : body.Sized inner) (took : Took inner m body r m') :
    r.isOk = false ∧ Represents inner m'.dev m'.mem.res.staged s ∨
    ∃ own s', Run Served (body.run inner []) ⟨m.dev, m.mem.lock⟩ (.ok own) ⟨m.dev, m.mem.lock⟩ ∧
      body.Leaves inner s.durable [] own ∧
      Vault.Answers inner.kind (.batch (own.map Staged.edit)) r.isOk s s' ∧
      Represents inner m'.dev m'.mem.res.staged s' := by
  rcases took with ⟨failed, kept⟩ | ⟨own, run, rest⟩
  · refine .inl ⟨?_, stands.toRepresents.kept kept⟩
    cases r with
    | ok u => exact absurd rfl failed
    | error e => rfl
  · have stored : ∀ key, inner.valueStored (⟨m.dev, m.mem.lock⟩ : Machine Tables (Ram T)).dev key =
        .ok (s.durable key) := stands.stored
    obtain ⟨leaves, sound⟩ := txBody_leaves value sized (by simp) stored run
    rcases rest with ⟨rfl, put⟩ | ⟨rfl, rfl, kept⟩
    · obtain ⟨s', stores, represents⟩ := stands.toRepresents.put chain value stands.below sound
        stands.unbudgeted put
      exact .inr ⟨own, s', run, leaves, .inl ⟨rfl, stores⟩, represents⟩
    · exact .inr ⟨[], s, run, leaves, .inr ⟨fun _ => rfl, rfl⟩, stands.toRepresents.kept kept⟩

theorem Stands.flushed (flushed : Flushed inner m r m') :
    ∃ s', Vault.Answers inner.kind .flush r.isOk s s' ∧
      Represents inner m'.dev m'.mem.res.staged s' := by
  have synced {s₁ : Vault Bytes T} (represents : Represents inner m'.dev m'.mem.res.staged s₁) :
      Represents inner m'.dev m'.mem.res.staged (if r.isOk then s₁.synced else s₁) := by
    split
    · exact ⟨represents.toReadAs, represents.staged⟩
    · exact represents
  rcases flushed with put | ⟨nil, kept⟩
  · have none : ∀ x ∈ ([] : List (Staged T)), x.Sound inner := by simp
    have merged : mergeBatches m.mem.res.staged ([] : List (Staged T)) = m.mem.res.staged :=
      List.append_nil _
    obtain ⟨s₁, stores, represents⟩ := stands.toRepresents.put chain value stands.below none
      stands.unbudgeted (by rw [merged]; exact put)
    exact ⟨_, ⟨s₁, .inl stores, rfl⟩, synced represents⟩
  · refine ⟨_, ⟨s, .inr ⟨fun ok => ?_, rfl⟩, rfl⟩, synced (stands.toRepresents.kept kept)⟩
    obtain ⟨own, hstaged, hpending, -⟩ := stands.staged
    have empty : m.mem.res.staged = [] := nil (by
      cases r with
      | ok u => rfl
      | error e => cases ok)
    rw [empty] at hstaged
    rw [hpending, List.map_eq_nil_iff.1 hstaged.symm]
    rfl

/-- What a call leaves is what the vault's answer leaves. -/
theorem LazyCall.answers (plain : c.Plain) (sized : c.Sized inner)
    (run : Run Served (c.prog inner) m r m') : Deals inner c r.isOk s m' := by
  have looks {α : Type} {p : Io (Ram T) α} (hp : Looks p) {x : Except Error α}
      (h : Run Served p m x m') : Represents inner m'.dev m'.mem.res.staged s := by
    obtain ⟨dev, staged⟩ := hp.run h
    exact stands.toRepresents.kept ⟨dev, staged⟩
  cases c with
  | get key =>
    obtain ⟨x, hx, -⟩ := run_map.1 run
    exact ⟨.look, s, rfl, rfl, looks looks_getBy hx⟩
  | list start stop reverse limit =>
    obtain ⟨x, hx, -⟩ := run_map.1 run
    exact ⟨.look, s, rfl, rfl, looks looks_collect hx⟩
  | put key v =>
    rcases putBy_wrote stands.clean stands.lazy stands.idle run with ⟨payload, hp, wrote⟩ | ⟨failed, kept⟩
    · have sound : (Staged.put key payload v).Sound inner := ⟨hp, sized payload hp⟩
      obtain ⟨s', answers, represents⟩ := stands.wrote chain value sound wrote
      exact ⟨_, s', rfl, answers, represents⟩
    · refine ⟨_, s, rfl, .inr (.inr ⟨?_, rfl⟩), stands.toRepresents.kept kept⟩
      cases r with
      | ok u => exact absurd rfl failed
      | error e => rfl
  | delete key =>
    have wrote : WriteLeft inner m (Staged.delete key : Staged T).pending r m' :=
      deleteBy_wrote stands.clean stands.lazy stands.idle run
    obtain ⟨s', answers, represents⟩ := stands.wrote chain value (w := .delete key) trivial wrote
    exact ⟨_, s', rfl, answers, represents⟩
  | clear =>
    have wrote : WriteLeft inner m (Staged.clear : Staged T).pending r m' :=
      clear_wrote stands.clean stands.lazy stands.idle run
    obtain ⟨s', answers, represents⟩ := stands.wrote chain value (w := .clear) trivial wrote
    exact ⟨_, s', rfl, answers, represents⟩
  | transact body =>
    rcases stands.took chain value sized (transact_took stands.clean run) with
      ⟨failed, represents⟩ | ⟨own, s', -, leaves, answers, represents⟩
    · obtain ⟨own, leaves⟩ : ∃ own, body.Leaves inner s.durable [] own := exists_leaves body []
      refine ⟨_, s, ⟨own, leaves, rfl⟩, .inr ⟨fun ok => ?_, rfl⟩, represents⟩
      rw [failed] at ok
      cases ok
    · exact ⟨_, s', ⟨own, leaves, rfl⟩, answers, represents⟩
  | putAll entries =>
    refine ⟨.batch (entries.map fun e => .put e.1 e.2), ?_⟩
    simp only [LazyCall.prog, LazyLocker.putAll] at run
    split at run
    · next hempty =>
      obtain ⟨rfl, rfl⟩ := run_pure.1 run
      obtain rfl := List.isEmpty_iff.1 hempty
      exact ⟨s, rfl, .inr ⟨fun _ => rfl, rfl⟩, stands.toRepresents⟩
    · rcases stands.took chain value (sized_putAllBody sized) (transact_took stands.clean run) with
        ⟨failed, represents⟩ | ⟨own, s', hown, -, answers, represents⟩
      · refine ⟨s, rfl, .inr ⟨fun ok => ?_, rfl⟩, represents⟩
        rw [failed] at ok
        cases ok
      · rw [putAllBody_run hown] at answers
        exact ⟨s', rfl, answers, represents⟩
  | deleteAll keys =>
    refine ⟨.batch (keys.map .delete), ?_⟩
    simp only [LazyCall.prog, LazyLocker.deleteAll] at run
    split at run
    · next hempty =>
      obtain ⟨rfl, rfl⟩ := run_pure.1 run
      obtain rfl := List.isEmpty_iff.1 hempty
      exact ⟨s, rfl, .inr ⟨fun _ => rfl, rfl⟩, stands.toRepresents⟩
    · rcases stands.took chain value (sized_deleteAllBody keys) (transact_took stands.clean run) with
        ⟨failed, represents⟩ | ⟨own, s', hown, -, answers, represents⟩
      · refine ⟨s, rfl, .inr ⟨fun ok => ?_, rfl⟩, represents⟩
        rw [failed] at ok
        cases ok
      · rw [deleteAllBody_run hown] at answers
        exact ⟨s', rfl, answers, represents⟩
  | flush =>
    obtain ⟨s', answers, represents⟩ :=
      stands.flushed chain value (flush_flushed stands.clean stands.lazy run)
    exact ⟨_, s', rfl, answers, represents⟩
  | evictTo bytes =>
    obtain ⟨x, hx, -⟩ := run_map.1 run
    rcases evictTo_evicted hx with kept | ⟨budgeted, staged, lost, stores⟩
    · exact ⟨_, s, rfl, .inl rfl, stands.toRepresents.kept kept⟩
    · have sheds : inner.kind.sheds = true := by
        have evictable : inner.config.policy ≠ .precious := fun precious =>
          budgeted (stands.unbudgeted precious)
        simpa [Inner.kind] using evictable
      exact ⟨_, s.shed inner.kind lost, rfl, .inr ⟨sheds, lost, rfl⟩,
        stands.toRepresents.shed chain value stands.below stores staged⟩
  | close =>
    obtain ⟨s', answers, represents⟩ :=
      stands.flushed chain value (close_flushed stands.clean stands.lazy run)
    exact ⟨_, s', rfl, answers, represents⟩
  | writer key => exact plain.elim
  | writeChunk w bytes => exact plain.elim
  | finish w => exact plain.elim
  | abort w => exact plain.elim

end

/-- A call that is for a flush, and returns, has synced the store of an eventual locker. -/
theorem LazyCall.forced {m m' : Machine (Disk Tables) (Ram T)} (asks : Asks inner c s .flush)
    (eventual : inner.config.isEventual = true) (run : Run OnDisk (c.prog inner) m (.ok ()) m') :
    m'.dev.older = [] := by
  cases c with
  | flush => exact flush_forced eventual run
  | close => exact close_forced eventual run
  | transact body =>
    obtain ⟨own, -, bad⟩ := asks
    cases bad
  | get | list | put | delete | clear | putAll | deleteAll | evictTo => cases asks
  | writer | writeChunk | finish | abort => exact asks.elim

end

/-! ## Runs -/

/-- The disk is what the vault has on its device, and what a cut may bring back it may too. -/
structure Backs (inner : Inner T) (d : Disk Tables) (s : Vault Bytes T) : Prop where
  holds : ReadAs inner d.live s.durable
  older : ∀ left ∈ d.older, ∃ f, (f = s.durable ∨ f ∈ s.older) ∧ ReadAs inner left f
  synced : inner.config.durability = .immediate → d.older = []

/-- A locker on a disk that is a vault. -/
structure StandsOn (inner : Inner T) (m : Machine (Disk Tables) (Ram T)) (s : Vault Bytes T) : Prop
    extends Stands inner m.live s where
  backs : Backs inner m.dev s

section
variable {m m' : Machine (Disk Tables) (Ram T)} {s s' s₁ : Vault Bytes T} {c : LazyCall T}
  {r : Except Error Unit} {d d' : Disk Tables} {deed : Deed Bytes T} {ok : Bool}

theorem Inner.kind_syncs (eventual : inner.config.durability ≠ .immediate) :
    inner.kind.syncs = false := by
  simp [Inner.kind, eventual]

/-- What is left of a disk when the process dies or the power is cut is left of the vault. -/
theorem Backs.left (backs : Backs inner d s) (left : d.Left d') : ∃ s', s.Left s' ∧ Backs inner d' s' := by
  rcases left with rfl | ⟨image, himage, rfl⟩
  · exact ⟨s.reopened, .inl rfl, backs.holds, backs.older, backs.synced⟩
  · obtain ⟨f, hf, holds⟩ : ∃ f, (f = s.durable ∨ f ∈ s.older) ∧ ReadAs inner image f := by
      rcases himage with rfl | himage
      · exact ⟨s.durable, .inl rfl, backs.holds⟩
      · exact backs.older image himage
    exact ⟨⟨f, [], []⟩, .inr ⟨f, hf, rfl⟩, holds, by simp, fun _ => rfl⟩

/-- What a cut may bring back of the time of a call it may bring back of the vault. -/
theorem Backs.dies (backs : Backs inner m.dev s) (plain : c.Plain) (dies : Dies OnDisk (c.prog inner) m d)
    (moves : Vault.Moves inner.kind deed.edits s s₁) (holds : ReadAs inner d.live s₁.durable) :
    Backs inner d s₁ where
  holds := holds
  older left hleft := by
    by_cases immediate : inner.config.durability = .immediate
    · have none : d.older = [] := c.synced plain dies immediate (backs.synced immediate)
      rw [none] at hleft
      exact absurd hleft List.not_mem_nil
    · obtain ⟨f, hf, reads⟩ : ∃ f, (f = s.durable ∨ f ∈ s.older) ∧ ReadAs inner left f := by
        rcases c.older plain dies left hleft with rfl | before
        · exact ⟨s.durable, .inl rfl, backs.holds⟩
        · exact backs.older left before
      exact ⟨f, moves.older (inner.kind_syncs immediate) hf, reads⟩
  synced immediate := c.synced plain dies immediate (backs.synced immediate)

/-- A locker that is opened over a disk that backs a vault stands, with nothing pending. -/
theorem standsOn_opened {shared : Shared} {n : Machine (Disk Tables) Shared} {res : Resident}
    (backs : Backs inner d s) (idle : s.pending = []) (below : Below d.live (idCursor d.live shared))
    (run : Run OnDisk (LazyLocker.openLocker inner) ⟨d, shared⟩ (.ok res) n) :
    StandsOn inner ⟨n.dev, .opened n.mem res ∅⟩ s := by
  obtain ⟨dev, values⟩ := opened_same run.live
  have live : n.dev.live = d.live := dev
  have older : ∀ left ∈ n.dev.older, left ∈ d.older :=
    (only_openLocker.mono (fun q hq x => q.mark_quiet x (isRead_not_lands hq)) fun _ _ h => h).older
      run.dies
  have kept : n.mem.values = shared.values := values
  have cursor : idCursor n.dev.live n.mem = idCursor d.live shared := by
    unfold idCursor
    rw [kept, live]
  have holds : ReadAs inner n.dev.live s.durable := by
    rw [live]
    exact backs.holds
  have clean : Clean (Ram.opened (T := T) n.mem res ∅) := clean_opened run.live
  have unbudgeted := unbudgeted_opened run.live
  obtain ⟨index, lru, rfl⟩ := opened_eq_new run.live
  refine ⟨⟨⟨holds, [], rfl, idle, by simp⟩, ?_, unbudgeted, clean, rfl, fun _ => rfl⟩,
    holds, fun left hleft => backs.older left (older left hleft), fun immediate => ?_⟩
  · show Below n.dev.live (idCursor n.dev.live n.mem)
    rw [cursor, live]
    exact below
  · have none : d.older = [] := backs.synced immediate
    rw [none] at older
    exact List.eq_nil_iff_forall_not_mem.2 fun left hleft => absurd (older left hleft) List.not_mem_nil

theorem Stands.next {m m' : Machine Tables (Ram T)} (stands : Stands inner m s) (plain : c.Plain)
    (run : Run Served (c.prog inner) m r m')
    (represents : Represents inner m'.dev m'.mem.res.staged s') : Stands inner m' s' where
  toRepresents := represents
  below := c.below plain run stands.below
  unbudgeted precious := by
    have staging : Staging (Unbudgeted (T := T)) := ⟨fun _ _ h => h, fun _ _ h => h⟩
    exact Keeps.run (c.keeps staging) run (stands.unbudgeted precious)
  clean := Keeps.run c.keepsClean run stands.clean
  lazy := Keeps.run (c.keeps ⟨fun _ _ h => h, fun _ _ h => h⟩) run stands.lazy
  idle immediate := idle_call immediate c run (stands.idle immediate)

theorem StandsOn.next (stands : StandsOn inner m s) (plain : c.Plain)
    (run : Run OnDisk (c.prog inner) m r m') (asks : Asks inner c s deed)
    (answers : Vault.Answers inner.kind deed r.isOk s s')
    (represents : Represents inner m'.dev.live m'.mem.res.staged s') : StandsOn inner m' s' where
  toStands := stands.toStands.next plain run.live represents
  backs := by
    obtain ⟨s₁, moves, rfl | ⟨rfl, ok, rfl⟩⟩ := answers.moves
    · exact stands.backs.dies plain run.dies moves represents.toReadAs
    · have none : m'.dev.older = [] := by
        by_cases immediate : inner.config.durability = .immediate
        · exact c.synced plain run.dies immediate (stands.backs.synced immediate)
        · have eventual : inner.config.isEventual = true := by
            unfold LockerConfig.isEventual
            cases hd : inner.config.durability with
            | immediate => exact absurd hd immediate
            | eventual => rfl
          cases r with
          | ok u => exact LazyCall.forced asks eventual run
          | error e => cases ok
      exact ⟨represents.toReadAs, by simp [none], fun _ => none⟩

/-- A locker that dies has answered the call that it dies in, or not, as the vault has. -/
theorem StandsOn.dies (stands : StandsOn inner m s) (chain : inner.chain.Inverts)
    (value : inner.value.Inverts) (plain : c.Plain) (sized : c.Sized inner)
    (dies : Dies OnDisk (c.prog inner) m d) : ∃ deed ok s₁, Asks inner c s deed ∧
      Vault.Answers inner.kind deed ok s s₁ ∧ Backs inner d s₁ := by
  rcases c.dies plain dies.live with same | ⟨r, m₁, ended, same⟩
  · obtain ⟨deed, asks, answers⟩ : ∃ d, Asks inner c s d ∧ Vault.Answers inner.kind d false s s :=
      c.unanswered plain s
    have holds : ReadAs inner d.live s.durable := same ▸ stands.toReadAs
    have moves : Vault.Moves inner.kind deed.edits s s := .still
    exact ⟨deed, false, s, asks, answers, stands.backs.dies plain dies moves holds⟩
  · obtain ⟨deed, s', asks, answers, represents⟩ := c.answers stands.toStands chain value plain sized ended
    obtain ⟨ok, s₁, cut, moves, durable⟩ := answers.cut
    have holds : ReadAs inner d.live s₁.durable := by
      rw [durable, ← same]
      exact represents.toReadAs
    exact ⟨deed, ok, s₁, asks, cut, stands.backs.dies plain dies moves holds⟩

end

section
variable (chain : inner.chain.Inverts) (value : inner.value.Inverts) {db : Tables}
  (holds : ReadAs inner db f)
include chain value holds

/-- What a locker has lived through a vault may have, and the locker is what that leaves. -/
theorem LazyLocker.Lived.runs {log : List (Turn (LazyCall T))} {m : Machine (Disk Tables) (Ram T)}
    (lived : Lived inner db log m) :
    ∃ s, Vault.Runs inner.kind (Asks inner) ⟨f, [], []⟩ log s ∧ StandsOn inner m s := by
  induction lived with
  | opened run =>
    obtain ⟨res, n, opening, rfl⟩ := run
    have backs : Backs inner ⟨db, []⟩ ⟨f, [], []⟩ := ⟨holds, by simp, fun _ => rfl⟩
    exact ⟨_, .nil, standsOn_opened backs rfl holds.wellFormed.below opening⟩
  | ended before may run ih =>
    obtain ⟨s, runs, stands⟩ := ih
    obtain ⟨d, s', asks, answers, represents⟩ :=
      LazyCall.answers stands.toStands chain value may.1 may.2 run.live
    exact ⟨s', runs.ended asks answers, stands.next may.1 run asks answers represents⟩
  | died before may died left run ih =>
    obtain ⟨s, runs, stands⟩ := ih
    obtain ⟨res, n, opening, rfl⟩ := run
    obtain ⟨deed, ok, s₁, asks, answers, backs⟩ := stands.dies chain value may.1 may.2 died
    obtain ⟨s', fallen, backs'⟩ := backs.left left
    exact ⟨s', runs.died asks answers fallen,
      standsOn_opened backs' fallen.idle backs'.holds.wellFormed.below opening⟩
  | @reopened log m n before run ih =>
    obtain ⟨s, runs, stands⟩ := ih
    obtain ⟨res, o, opening, rfl⟩ := run
    have backs : Backs inner m.dev s.reopened :=
      ⟨stands.toReadAs, stands.backs.older, stands.backs.synced⟩
    exact ⟨s.reopened, runs.reopened, standsOn_opened backs rfl stands.below opening⟩
  | restarted before left run ih =>
    obtain ⟨s, runs, stands⟩ := ih
    obtain ⟨res, n, opening, rfl⟩ := run
    obtain ⟨s', fallen, backs⟩ := stands.backs.left left
    exact ⟨s', runs.restarted fallen,
      standsOn_opened backs fallen.idle backs.holds.wellFormed.below opening⟩

end
end

/-! ## What reads show -/

section
variable {T : Type} {inner : Inner T} {m m' : Machine Tables (Ram T)} {s : Vault Bytes T}

theorem Stands.get (stands : Stands inner m s) (value : inner.value.Inverts) {key : Bytes}
    {found : Option T} (run : Run Served (LazyLocker.getBy inner key) m (.ok found) m') :
    found = s.shows key := by
  have seen := stands.toRepresents.seen value key
  unfold Inner.seen at seen
  obtain ⟨_, m₁, hopen, h₁⟩ := run_bind_ok.1 run
  obtain ⟨-, rfl⟩ := run_ensureOpen.1 hopen
  rw [run_read_bind] at h₁
  split at h₁
  · next hview =>
    rw [hview] at seen
    obtain rfl := Except.ok.inj (run_pure.1 h₁).1
    exact Except.ok.inj seen
  · next payload hview =>
    rw [hview] at seen
    have hfound : .ok found = (inner.value.ofPayload payload).map some := (run_ofExcept.1 h₁).1
    exact Except.ok.inj (hfound.trans seen)
  · next hview =>
    rw [hview] at seen
    obtain ⟨found', m₂, hload, hrest⟩ := run_bind_ok.1 h₁
    have loaded : inner.valueStored m₁.dev key = .ok found' := by
      obtain ⟨x, m₃, hattempt, hcase⟩ := run_bind_ok.1 hload
      obtain ⟨y, hy, hx⟩ := run_attempt.1 hattempt
      obtain rfl := Except.ok.inj hx
      cases x with
      | ok v =>
        obtain rfl := Except.ok.inj (run_pure.1 hcase).1
        exact loadValue_run hy
      | error e =>
        dsimp only at hcase
        split at hcase
        · rw [run_update_bind] at hcase
          cases (run_fail.1 hcase).1
        · cases (run_fail.1 hcase).1
    have same : found = found' := by
      dsimp only at hrest
      split at hrest
      · obtain ⟨_, m₃, -, hpure⟩ := run_bind_ok.1 hrest
        exact Except.ok.inj (run_pure.1 hpure).1
      · exact Except.ok.inj (run_pure.1 hrest).1
    rw [same]
    exact Except.ok.inj (loaded.symm.trans seen)

theorem valueMap_of_seen {key : Bytes} {v : Option T} (h : inner.seen m key = .ok v) :
    inner.valueMap m.dev m.mem.res.staged key = v.map .ok := by
  unfold Inner.seen at h
  rw [inner.valueMap_eq, Inner.sourceOf]
  cases hview : stagedView m.mem.res.staged key with
  | some write =>
    rw [hview] at h
    cases write with
    | none =>
      obtain rfl := Except.ok.inj h
      rfl
    | some payload =>
      have hvalue : (inner.value.ofPayload payload).map some = .ok v := h
      show some (inner.value.ofPayload payload) = v.map .ok
      cases hpayload : inner.value.ofPayload payload with
      | error e =>
        rw [hpayload] at hvalue
        cases hvalue
      | ok w =>
        rw [hpayload] at hvalue
        obtain rfl := Except.ok.inj hvalue
        rfl
  | none =>
    rw [hview] at h
    dsimp only at h ⊢
    unfold Inner.valueStored at h
    cases hraw : m.dev.lookup .records (inner.encodeKey key) with
    | none =>
      rw [hraw] at h
      obtain rfl := Except.ok.inj h
      rfl
    | some raw =>
      rw [hraw] at h
      show some (inner.valueOfRecord m.dev raw) = v.map .ok
      obtain ⟨payload, hpayload, h₁⟩ := bind_eq_ok.1 h
      obtain ⟨flag, hflag, h₂⟩ := bind_eq_ok.1 h₁
      obtain ⟨w, hw, h₃⟩ := bind_eq_ok.1 h₂
      obtain rfl := Except.ok.inj h₃
      simp only [Inner.valueOfRecord, bind, Except.bind, hpayload, hflag, hw, Option.map_some]

theorem Stands.list (stands : Stands inner m s) (value : inner.value.Inverts) {start stop : Bound Bytes}
    {reverse : Bool} {limit : Option Nat} {out : List (Bytes × T)}
    (run : Run Served (LazyLocker.collect inner start stop reverse limit) m (.ok out) m') :
    ∃ full, Listing (fun key => (s.shows key).map .ok) start stop reverse full ∧
      out = atMost limit full := by
  have shown : inner.valueMap m.dev m.mem.res.staged = fun key => (s.shows key).map .ok := by
    funext key
    exact valueMap_of_seen (stands.toRepresents.seen value key)
  have decodes : ∀ item ∈ LazyLocker.sources inner m.dev m.mem.res.staged start stop reverse,
      ∃ v, inner.valueOfSource m.dev item.2 = .ok v := by
    intro item hitem
    have hsource : inner.sourceOf m.dev m.mem.res.staged item.1 = some item.2 :=
      ((LazyLocker.mem_sources inner).1 hitem).2
    have hmap := congrFun shown item.1
    rw [inner.valueMap_eq, hsource] at hmap
    obtain ⟨v, -, hv⟩ := Option.map_eq_some_iff.1 hmap.symm
    exact ⟨v, hv.symm⟩
  obtain ⟨full, hfull⟩ := LazyLocker.exists_decoded inner decodes
  refine ⟨full, shown ▸ LazyLocker.listing_of_decodes inner hfull, ?_⟩
  exact (LazyLocker.decodes_rightUnique inner m.dev).forall₂ (LazyLocker.collect_run inner run)
    (LazyLocker.forall₂_atMost limit hfull)

end

/-! ## Lockers that are served -/

theorem openedOver_eq {T : Type} {inner : Inner T} {d : Disk Tables} {m : Machine Tables (Ram T)}
    (h : openedOver inner d.live = some m) : ∃ res older n,
    Run OnDisk (LazyLocker.openLocker inner) ⟨d, .fresh⟩ (.ok res) ⟨⟨m.dev, older⟩, n⟩ ∧
      m.mem = .opened n res ∅ := by
  obtain ⟨⟨res, n⟩, hopen, hm⟩ := Option.bind_eq_some_iff.1 h
  obtain rfl := Option.some.inj hm
  have run : Run Served (LazyLocker.openLocker inner) (Machine.live ⟨d, .fresh⟩) (.ok res) n :=
    run_of_served hopen
  obtain ⟨older, onDisk⟩ : ∃ older, Run OnDisk (LazyLocker.openLocker inner) ⟨d, .fresh⟩ (.ok res)
      ⟨⟨n.dev, older⟩, n.mem⟩ := run.journaled
  exact ⟨res, older, n.mem, onDisk, rfl⟩

section
variable {T : Type} {inner : Inner T} {db : Tables} {log : List (Turn (LazyCall T))}

theorem LazyLocker.Lived.opened_of_served {n : Machine Tables (Ram T)} (h : openedOver inner db = some n) :
    ∃ older, Lived inner db [] ⟨⟨n.dev, older⟩, n.mem⟩ := by
  obtain ⟨res, older, o, run, hmem⟩ := openedOver_eq (d := ⟨db, []⟩) h
  have same : (⟨⟨n.dev, older⟩, n.mem⟩ : Machine (Disk Tables) (Ram T)) =
      ⟨⟨n.dev, older⟩, .opened o res ∅⟩ := by rw [hmem]
  exact ⟨older, .opened ⟨res, _, run, same⟩⟩

variable {m : Machine (Disk Tables) (Ram T)} (before : LazyLocker.Lived inner db log m)
  {n : Machine Tables (Ram T)} {c : LazyCall T} {x : Unit × Machine Tables (Ram T)}
include before

theorem LazyLocker.Lived.ended_of_served (h : served (c.prog inner) m.live = some x) (plain : c.Plain)
    (sized : c.Sized inner) :
    ∃ older, Lived inner db (log ++ [.ended c true]) ⟨⟨x.2.dev, older⟩, x.2.mem⟩ := by
  obtain ⟨older, run⟩ := (run_of_served h).journaled
  exact ⟨older, .ended before ⟨plain, sized⟩ run⟩

/-- It dies just as it ends. -/
theorem LazyLocker.Lived.died_of_served (h : served (c.prog inner) m.live = some x)
    (again : openedOver inner x.2.dev = some n) (plain : c.Plain) (sized : c.Sized inner) :
    ∃ older, Lived inner db (log ++ [.died c]) ⟨⟨n.dev, older⟩, n.mem⟩ := by
  obtain ⟨kept, run⟩ : ∃ kept, Run OnDisk (c.prog inner) m (.ok x.1) ⟨⟨x.2.dev, kept⟩, x.2.mem⟩ :=
    (run_of_served h).journaled
  obtain ⟨res, older, o, opening, hmem⟩ := openedOver_eq (d := ⟨x.2.dev, kept⟩) again
  have same : (⟨⟨n.dev, older⟩, n.mem⟩ : Machine (Disk Tables) (Ram T)) =
      ⟨⟨n.dev, older⟩, .opened o res ∅⟩ := by rw [hmem]
  exact ⟨older, .died before ⟨plain, sized⟩ run.dies (.inl rfl) ⟨res, _, opening, same⟩⟩

/-- The power is cut when nothing runs, and brings nothing back. -/
theorem LazyLocker.Lived.restarted_of_served (h : openedOver inner m.dev.live = some n) :
    ∃ older, Lived inner db (log ++ [.restarted]) ⟨⟨n.dev, older⟩, n.mem⟩ := by
  obtain ⟨res, older, o, run, hmem⟩ := openedOver_eq (d := ⟨m.dev.live, []⟩) h
  have same : (⟨⟨n.dev, older⟩, n.mem⟩ : Machine (Disk Tables) (Ram T)) =
      ⟨⟨n.dev, older⟩, .opened o res ∅⟩ := by rw [hmem]
  exact ⟨older, .restarted before (.inr ⟨_, .inl rfl, rfl⟩) ⟨res, _, run, same⟩⟩

end

theorem fits_of_payload {T : Type} {inner : Inner T} {value : T} {payload : Bytes}
    (h : inner.value.payload value = .ok payload) (short : payload.length ≤ MAX_DECODED_BYTES) :
    inner.Fits value := by
  intro payload' h'
  obtain rfl := Except.ok.inj (h.symm.trans h')
  exact short

theorem fits_two : Inner.plain.Fits [1, 2] := fits_of_payload rfl (by decide)

theorem fits_one : Inner.plain.Fits [3] := fits_of_payload rfl (by decide)

theorem readAs_empty {T : Type} (inner : Inner T) : ReadAs inner .empty fun _ => none :=
  ⟨fun _ => by rfl, wellFormed_empty _ _⟩

/-- A locker that has stored `k`, has died in a put of `j`, and has lost its power. -/
theorem lived_put : ∃ m m' : Machine (Disk Tables) (Ram Bytes), LazyLocker.Lived Inner.plain .empty
      [.ended (.put (ascii "k") [1, 2]) true, .died (.put (ascii "j") [3]), .restarted] m ∧
    Run OnDisk (LazyLocker.getBy Inner.plain (ascii "k")) m (.ok (some [1, 2])) m' := by
  have h : (do
      let m₀ ← openedOver Inner.plain .empty
      let m₁ ← served ((LazyCall.put (ascii "k") [1, 2]).prog Inner.plain) m₀
      let m₂ ← served ((LazyCall.put (ascii "j") [3]).prog Inner.plain) m₁.2
      let m₃ ← openedOver Inner.plain m₂.2.dev
      let m₄ ← openedOver Inner.plain m₃.dev
      (served (LazyLocker.getBy Inner.plain (ascii "k")) m₄).map Prod.fst) =
        some (some [1, 2]) := by
    decide
  obtain ⟨m₀, opened, h⟩ := Option.bind_eq_some_iff.1 h
  obtain ⟨m₁, put, h⟩ := Option.bind_eq_some_iff.1 h
  obtain ⟨m₂, died, h⟩ := Option.bind_eq_some_iff.1 h
  obtain ⟨m₃, again, h⟩ := Option.bind_eq_some_iff.1 h
  obtain ⟨m₄, last, h⟩ := Option.bind_eq_some_iff.1 h
  obtain ⟨⟨found, m'⟩, get, rfl⟩ := Option.map_eq_some_iff.1 h
  obtain ⟨_, lived₀⟩ := LazyLocker.Lived.opened_of_served opened
  obtain ⟨_, lived₁⟩ := lived₀.ended_of_served put trivial fits_two
  obtain ⟨_, lived₂⟩ := lived₁.died_of_served died again trivial fits_one
  obtain ⟨older, lived₃⟩ := lived₂.restarted_of_served last
  obtain ⟨_, run⟩ := Run.journaled (m := ⟨⟨m₄.dev, older⟩, m₄.mem⟩) (run_of_served get)
  exact ⟨_, _, lived₃, run⟩

/-- A locker that commits by eights, and lets the platform choose when to sync. -/
def Inner.lagging : Inner Bytes :=
  { Inner.plain with config := { commit := .deferred 8, durability := .eventual } }

/-- That locker, when it has flushed what it has put, and then died. -/
theorem lived_flush : ∃ m m' : Machine (Disk Tables) (Ram Bytes), LazyLocker.Lived Inner.lagging .empty
      [.ended (.put (ascii "k") [1, 2]) true, .ended .flush true, .died (.put (ascii "j") [3])] m ∧
    Run OnDisk (LazyLocker.getBy Inner.lagging (ascii "k")) m (.ok (some [1, 2])) m' := by
  have h : (do
      let m₀ ← openedOver Inner.lagging .empty
      let m₁ ← served ((LazyCall.put (ascii "k") [1, 2]).prog Inner.lagging) m₀
      let m₂ ← served (LazyCall.flush.prog Inner.lagging) m₁.2
      let m₃ ← served ((LazyCall.put (ascii "j") [3]).prog Inner.lagging) m₂.2
      let m₄ ← openedOver Inner.lagging m₃.2.dev
      (served (LazyLocker.getBy Inner.lagging (ascii "k")) m₄).map Prod.fst) =
        some (some [1, 2]) := by
    decide
  obtain ⟨m₀, opened, h⟩ := Option.bind_eq_some_iff.1 h
  obtain ⟨m₁, put, h⟩ := Option.bind_eq_some_iff.1 h
  obtain ⟨m₂, flush, h⟩ := Option.bind_eq_some_iff.1 h
  obtain ⟨m₃, died, h⟩ := Option.bind_eq_some_iff.1 h
  obtain ⟨m₄, again, h⟩ := Option.bind_eq_some_iff.1 h
  obtain ⟨⟨found, m'⟩, get, rfl⟩ := Option.map_eq_some_iff.1 h
  obtain ⟨_, lived₀⟩ := LazyLocker.Lived.opened_of_served opened
  obtain ⟨_, lived₁⟩ := lived₀.ended_of_served put trivial fits_two
  obtain ⟨_, lived₂⟩ := lived₁.ended_of_served flush trivial trivial
  obtain ⟨older, lived₃⟩ := lived₂.died_of_served died again trivial fits_one
  obtain ⟨_, run⟩ := Run.journaled (m := ⟨⟨m₄.dev, older⟩, m₄.mem⟩) (run_of_served get)
  exact ⟨_, _, lived₃, run⟩

/-! ## Through failures, deaths and cuts -/

section
variable {T : Type} {inner : Inner T} (chain : inner.chain.Inverts) (value : inner.value.Inverts)
  {db : Tables} {f : Bytes → Option T} (holds : ReadAs inner db f)
include chain value holds

/-- A lazy locker refines a vault. From an open over a store that holds a map, whatever calls return
and fail, whenever the process dies or the power is cut and the locker is opened again: what is stored,
and what a cut may bring back, is what a vault has there that has been through the same, and every read
that returns shows what that shows. -/
theorem LazyLocker.refines_vault {log : List (Turn (LazyCall T))} {m : Machine (Disk Tables) (Ram T)}
    (lived : Lived inner db log m) : ∃ s, Vault.Runs inner.kind (Asks inner) ⟨f, [], []⟩ log s ∧
      (∀ key, inner.valueStored m.dev.live key = .ok (s.durable key)) ∧
      (∀ left ∈ m.dev.older, ∃ g, (g = s.durable ∨ g ∈ s.older) ∧
        ∀ key, inner.valueStored left key = .ok (g key)) ∧
      (∀ key found m', Run OnDisk (getBy inner key) m (.ok found) m' → found = s.shows key) ∧
      ∀ start stop reverse limit out m',
        Run OnDisk (collect inner start stop reverse limit) m (.ok out) m' →
        ∃ full, Listing (fun key => (s.shows key).map .ok) start stop reverse full ∧
          out = atMost limit full := by
  obtain ⟨s, runs, stands⟩ := lived.runs chain value holds
  refine ⟨s, runs, stands.stored, fun left hleft => ?_, fun key found m' run => ?_,
    fun start stop reverse limit out m' run => ?_⟩
  · obtain ⟨g, hg, reads⟩ := stands.backs.older left hleft
    exact ⟨g, hg, reads.stored⟩
  · exact stands.toStands.get value run.live
  · exact stands.toStands.list value run.live

end

/-- A locker that has put, died and lost its power has a vault that shows the put. -/
theorem LazyLocker.refines_vault_put : ∃ s : Vault Bytes Bytes,
    Vault.Runs Inner.plain.kind (Asks Inner.plain) ⟨fun _ => none, [], []⟩
      [.ended (.put (ascii "k") [1, 2]) true, .died (.put (ascii "j") [3]), .restarted] s ∧
    s.shows (ascii "k") = some [1, 2] := by
  obtain ⟨m, m', lived, run⟩ := lived_put
  obtain ⟨s, runs, -, -, gets, -⟩ := LazyLocker.refines_vault inverts_raw Postcard.vecU8_inverts
    (readAs_empty _) lived
  exact ⟨s, runs, (gets _ _ _ run).symm⟩

/-- What a write leaves under a key that it is for. -/
def LazyCall.sets {T : Type} : LazyCall T → Bytes → Option (Option T)
  | .put k value, key => if k = key then some (some value) else none
  | .delete k, key => if k = key then some none else none
  | .clear, _ => some none
  | _, _ => none

section
variable {T : Type} {inner : Inner T} {c : LazyCall T} {key : Bytes} {v : Option T}

variable (inner) in
theorem LazyCall.edits (sets : c.sets key = some v) :
    ∃ e : Edit Bytes T, (∀ s d, Asks inner c s d → d = .edit e) ∧ ∀ f, e.apply f key = v := by
  cases c with
  | put k value =>
    obtain ⟨rfl, hv⟩ := Option.ite_none_right_eq_some.1 sets
    obtain rfl := Option.some.inj hv
    exact ⟨.put k value, fun _ _ h => h, fun f => Function.update_self ..⟩
  | delete k =>
    obtain ⟨rfl, hv⟩ := Option.ite_none_right_eq_some.1 sets
    obtain rfl := Option.some.inj hv
    exact ⟨.delete k, fun _ _ h => h, fun f => Function.update_self ..⟩
  | clear =>
    obtain rfl := Option.some.inj sets
    exact ⟨.clear, fun _ _ h => h, fun f => rfl⟩
  | get | list | transact | putAll | deleteAll | flush | evictTo | writer | writeChunk | finish | abort
  | close => cases sets

theorem Inner.kind_sheds (precious : inner.config.policy = .precious) : inner.kind.sheds = false := by
  simp [Inner.kind, precious]

variable (chain : inner.chain.Inverts) (value : inner.value.Inverts) {db : Tables}
  {f : Bytes → Option T} (holds : ReadAs inner db f) (precious : inner.config.policy = .precious)
  {m m' : Machine (Disk Tables) (Ram T)} {found : Option T}
  {log between later : List (Turn (LazyCall T))}
include chain value holds precious

/-- What a locker has acknowledged that commits at once, and durably, it shows, until a call is for
its key: whatever other calls fail, wherever the process dies, whenever the power is cut, and however
often the locker is opened again. -/
theorem LazyLocker.write_lasts (immediate : isDeferred inner = false)
    (durable : inner.config.durability = .immediate)
    (lived : Lived inner db (log ++ .ended c true :: later) m) (sets : c.sets key = some v)
    (leaves : ∀ turn ∈ later, Vault.Leaves (Asks inner) key turn)
    (run : Run OnDisk (getBy inner key) m (.ok found) m') : found = v := by
  obtain ⟨s, runs, stands⟩ := lived.runs chain value holds
  have sheds := inner.kind_sheds precious
  have syncs : inner.kind.syncs = true := decide_eq_true durable
  obtain ⟨e, edits, applies⟩ := LazyCall.edits inner sets
  obtain ⟨s₁, first, rest⟩ := runs.split
  obtain ⟨d, s₂, asks, answers, last⟩ := rest.first
  obtain rfl := edits _ _ asks
  have idle : s₂.pending = [] := answers.idle immediate (first.idle immediate rfl)
  have synced : s₂.older = [] := answers.synced syncs (first.synced syncs rfl)
  calc found = s.shows key := stands.toStands.get value run.live
    _ = s₂.shows key := (last.safe sheds (Vault.safe_of_synced idle synced) leaves).2
    _ = v := answers.edited sheds applies

/-- What any locker has acknowledged, and then flushed, it shows, until a call is for its key,
whichever of the two knobs it turned. Before the flush returns the process may not die, after it it
may, and the power may be cut. -/
theorem LazyLocker.flush_lasts
    (lived : Lived inner db (log ++ .ended c true :: (between ++ .ended .flush true :: later)) m)
    (sets : c.sets key = some v)
    (calm : ∀ turn ∈ between, Vault.Leaves (Asks inner) key turn ∧ ∃ c ok, turn = .ended c ok)
    (leaves : ∀ turn ∈ later, Vault.Leaves (Asks inner) key turn)
    (run : Run OnDisk (getBy inner key) m (.ok found) m') : found = v := by
  obtain ⟨s, runs, stands⟩ := lived.runs chain value holds
  have sheds := inner.kind_sheds precious
  obtain ⟨e, edits, applies⟩ := LazyCall.edits inner sets
  obtain ⟨s₁, -, rest⟩ := runs.split
  obtain ⟨d, s₂, asks, answers, rest⟩ := rest.first
  obtain rfl := edits _ _ asks
  obtain ⟨s₃, middle, rest⟩ := rest.split
  obtain ⟨d, s₄, asks, flushes, last⟩ := rest.first
  obtain rfl : d = .flush := asks
  obtain ⟨safe, same⟩ := flushes.flushed sheds
  calc found = s.shows key := stands.toStands.get value run.live
    _ = s₄.shows key := (last.safe sheds (safe key) leaves).2
    _ = s₃.shows key := congrFun same key
    _ = s₂.shows key := middle.shows sheds calm
    _ = v := answers.edited sheds applies

end

/-- A put of `j` is not for `k`. -/
theorem leaves_put_other {inner : Inner Bytes} :
    Vault.Leaves (Asks inner) (ascii "k") (.died (.put (ascii "j") [3])) := by
  intro s d asks
  obtain rfl : d = .edit (.put (ascii "j") [3]) := asks
  intro e he
  obtain rfl := List.mem_singleton.1 he
  show ascii "j" ≠ ascii "k"
  decide

/-- What that locker put before it died, all its reads find. -/
theorem LazyLocker.write_lasts_put : ∃ m : Machine (Disk Tables) (Ram Bytes),
    (∃ m', Run OnDisk (getBy Inner.plain (ascii "k")) m (.ok (some [1, 2])) m') ∧
    ∀ found m', Run OnDisk (getBy Inner.plain (ascii "k")) m (.ok found) m' → found = some [1, 2] := by
  obtain ⟨m, m', lived, run⟩ := lived_put
  have whole : LazyLocker.Lived Inner.plain .empty ([] ++ .ended (.put (ascii "k") [1, 2]) true ::
      [.died (.put (ascii "j") [3]), .restarted]) m := lived
  refine ⟨m, ⟨m', run⟩, fun found n get => ?_⟩
  refine LazyLocker.write_lasts inverts_raw Postcard.vecU8_inverts (readAs_empty _) rfl rfl rfl whole rfl
    (fun turn ht => ?_) get
  rcases List.mem_cons.1 ht with rfl | ht
  · exact leaves_put_other
  · obtain rfl := List.mem_singleton.1 ht
    trivial

/-- What the other flushed before it died, too. -/
theorem LazyLocker.flush_lasts_put : ∃ m : Machine (Disk Tables) (Ram Bytes),
    (∃ m', Run OnDisk (getBy Inner.lagging (ascii "k")) m (.ok (some [1, 2])) m') ∧
    ∀ found m', Run OnDisk (getBy Inner.lagging (ascii "k")) m (.ok found) m' →
      found = some [1, 2] := by
  obtain ⟨m, m', lived, run⟩ := lived_flush
  have whole : LazyLocker.Lived Inner.lagging .empty ([] ++ .ended (.put (ascii "k") [1, 2]) true ::
      ([] ++ .ended .flush true :: [.died (.put (ascii "j") [3])])) m := lived
  refine ⟨m, ⟨m', run⟩, fun found n get => ?_⟩
  refine LazyLocker.flush_lasts inverts_raw Postcard.vecU8_inverts (readAs_empty _) rfl whole rfl
    (by simp) (fun turn ht => ?_) get
  obtain rfl := List.mem_singleton.1 ht
  exact leaves_put_other

end Crossbank
