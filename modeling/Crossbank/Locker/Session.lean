import Crossbank.Locker.Reads

/-!
# Runs of one open locker

* `LazyCall`, `EagerCall` : the calls of an open locker, with those of its writers;
* `LazyLocker.Reached` : the states that calls, one after the other, reach from an open;
* `run_withWriteLock`, `run_restagingOnError_ok`, ... : the scopes of a call, run alone;
* `Unmoved m m'` : nothing but the cursors of the bank differs;
* `budgetOps_unmoved` : reckoning the byte budget changes nothing else.
-/

namespace Crossbank
open Async

inductive LazyCall (T : Type) where
  | get (key : Bytes)
  | list (start stop : Bound Bytes) (reverse : Bool) (limit : Option Nat)
  | put (key : Bytes) (value : T)
  | delete (key : Bytes)
  | clear
  | transact (body : TxBody T)
  | putAll (entries : List (Bytes × T))
  | deleteAll (keys : List Bytes)
  | flush
  | evictTo (bytes : Nat)
  | writer (key : String)
  | writeChunk (w : Writer) (bytes : Bytes)
  | finish (w : Writer)
  | abort (w : Writer)
  | close

inductive EagerCall (T : Type) where
  | put (key : Bytes) (value : T)
  | delete (key : Bytes)
  | clear
  | transact (body : TxBody T)
  | putAll (entries : List (Bytes × T))
  | deleteAll (keys : List Bytes)
  | flush
  | close

section
variable {T : Type} (inner : Inner T)

def LazyCall.prog : LazyCall T → Io (Ram T) Unit
  | .get key => (fun _ => ()) <$> LazyLocker.getBy inner key
  | .list start stop reverse limit =>
    (fun _ => ()) <$> LazyLocker.collect inner start stop reverse limit
  | .put key value => LazyLocker.putBy inner key value
  | .delete key => LazyLocker.deleteBy inner key
  | .clear => LazyLocker.clear inner
  | .transact body => LazyLocker.transact inner body
  | .putAll entries => LazyLocker.putAll inner entries
  | .deleteAll keys => LazyLocker.deleteAll inner keys
  | .flush => LazyLocker.flush inner
  | .evictTo bytes => (fun _ => ()) <$> LazyLocker.evictTo inner bytes
  | .writer key => (fun _ => ()) <$> LazyLocker.writer inner key
  | .writeChunk w bytes => (fun _ => ()) <$> w.writeChunk inner bytes
  | .finish w => w.finish inner
  | .abort w => w.abort inner
  | .close => LazyLocker.close inner

def EagerCall.prog : EagerCall T → Io (Ram T) Unit
  | .put key value => (fun _ => ()) <$> EagerLocker.putBy inner key value
  | .delete key => EagerLocker.deleteBy inner key
  | .clear => EagerLocker.clear inner
  | .transact body => EagerLocker.transact inner body
  | .putAll entries => EagerLocker.putAll inner entries
  | .deleteAll keys => EagerLocker.deleteAll inner keys
  | .flush => EagerLocker.flush inner
  | .close => EagerLocker.close inner

/-- What other lockers of the bank and other handles do to a machine between two calls: the store
and the cursors change, and the name may become a shared one. -/
def Outside (m m' : Machine Tables (Ram T)) : Prop :=
  ∃ db shared nameShared, (m.mem.nameShared = true → nameShared = true) ∧
    m' = ⟨db, { m.mem with shared := shared, nameShared := nameShared }⟩

inductive LazyLocker.Reached : Machine Tables (Ram T) → Prop
  | opened {m m' : Machine Tables Shared} {res : Resident}
      (run : Run Served (LazyLocker.openLocker inner) m (.ok res) m') :
      Reached ⟨m'.dev, .opened m'.mem res ∅⟩
  | called {m m' : Machine Tables (Ram T)} {r : Except Error Unit} (before : Reached m)
      (c : LazyCall T) (run : Run Served (c.prog inner) m r m') : Reached m'
  | outside {m m' : Machine Tables (Ram T)} (before : Reached m) (change : Outside m m') : Reached m'

end

/-- An immediate locker of byte vectors under the raw chain. -/
def Inner.plain : Inner Bytes := ⟨⟨DEFAULT_SCAN_PAGE, 64, DEFAULT_SCAN_PAGE_pos⟩, .raw, 0, "notes", {}, .vecU8⟩

/-- A locker of byte vectors that commits by eights. -/
def Inner.batching : Inner Bytes := { Inner.plain with config := { commit := .deferred 8 } }

def Inner.pairing : Inner Bytes := { Inner.plain with config := { commit := .deferred 2 } }

def openedEmpty : Machine Tables (Ram Bytes) :=
  ⟨.empty, .opened .fresh (.new .lazy (some ∅) none) ∅⟩

def openedEager : Machine Tables (Ram Bytes) := ⟨.empty, .opened .fresh (.new .eager none none) ∅⟩

/-! ## Lockers that are served -/

section
variable {T : Type} {inner : Inner T} {db : Tables} {m : Machine Tables (Ram T)}

def openedOver (inner : Inner T) (db : Tables) : Option (Machine Tables (Ram T)) := do
  let (res, n) ← served (LazyLocker.openLocker inner) ⟨db, .fresh⟩
  return ⟨n.dev, .opened n.mem res ∅⟩

theorem LazyLocker.reached_openedOver (h : openedOver inner db = some m) :
    LazyLocker.Reached inner m := by
  obtain ⟨⟨res, n⟩, hopen, hm⟩ := Option.bind_eq_some_iff.1 h
  obtain rfl := Option.some.inj hm
  exact .opened (run_of_served hopen)

theorem LazyLocker.Reached.called_served {c : LazyCall T} {x : Unit × Machine Tables (Ram T)}
    (before : LazyLocker.Reached inner m) (h : served (c.prog inner) m = some x) :
    LazyLocker.Reached inner x.2 :=
  before.called c (run_of_served h)

end

/-! ## Scopes, run alone -/

section
variable {T α : Type} {m m' : Machine Tables (Ram T)}
  {sem : (q : Req) → Machine Tables (Ram T) → Resp q → Machine Tables (Ram T) → Prop}

theorem run_ensureOpen {r : Except Error Unit} :
    Run sem Ram.ensureOpen m r m' ↔ r = (if m.mem.closed then .error .closed else .ok ()) ∧ m' = m := by
  simp [Ram.ensureOpen]

theorem run_withWriteLock {body : Io (Ram T) α} {r : Except Error α} :
    Run Served (withWriteLock body) m r m' ↔ m.mem.writeLock = false ∧
      ∃ m₁, Run Served body ⟨m.dev, m.mem.lock⟩ r m₁ ∧ m' = ⟨m₁.dev, m₁.mem.unlock⟩ := by
  simp only [withWriteLock, run_bind, run_ask, run_guarded, Served, WriteLock.acquire]
  constructor
  · rintro (⟨_, m₁, ⟨_, ⟨s, hs, rfl⟩, -⟩, m₂, hr, rfl⟩ | ⟨e, ⟨_, -, he⟩, -⟩)
    · split at hs
      · cases hs
      · next hl =>
        obtain rfl := Option.some.inj hs
        exact ⟨by simpa using hl, m₂, hr, rfl⟩
    · cases he
  · rintro ⟨hl, m₂, hr, rfl⟩
    exact .inl ⟨(), _, ⟨(), ⟨_, by simp [hl], rfl⟩, trivial⟩, m₂, hr, rfl⟩

theorem run_restagingOnError_error {entries : List Pending} {p : Io (Ram T) α} {e : Error} :
    Run Served (restagingOnError entries p) m (.error e) m' ↔
      ∃ m₁, Run Served p m (.error e) m₁ ∧ m' = ⟨m₁.dev, m₁.mem.mapRes (.putBack entries)⟩ := by
  simp only [restagingOnError, run_bind, run_attempt]
  constructor
  · rintro (⟨x, m₁, ⟨y, hp, hx⟩, hr⟩ | ⟨e', ⟨y, -, he⟩, -⟩)
    · obtain rfl := Except.ok.inj hx
      cases x with
      | ok a => exact absurd (run_pure.1 hr).1 (by simp)
      | error e' =>
        simp only [restage, run_bind, run_update, run_fail] at hr
        obtain ⟨_, _, ⟨-, rfl⟩, hee, rfl⟩ | ⟨_, ⟨hbad, -⟩, -⟩ := hr
        · obtain rfl := Except.error.inj hee
          exact ⟨m₁, hp, rfl⟩
        · cases hbad
    · cases he
  · rintro ⟨m₁, hp, rfl⟩
    refine .inl ⟨.error e, m₁, ⟨_, hp, rfl⟩, ?_⟩
    simp only [restage, run_bind, run_update, run_fail]
    exact .inl ⟨(), _, ⟨trivial, rfl⟩, trivial, rfl⟩

theorem run_restagingOnError_ok {entries : List Pending} {p : Io (Ram T) α} {a : α} :
    Run sem (restagingOnError entries p) m (.ok a) m' ↔ Run sem p m (.ok a) m' := by
  simp only [restagingOnError, run_bind, run_attempt]
  constructor
  · rintro (⟨x, m₁, ⟨y, hp, hx⟩, hr⟩ | ⟨e', -, he⟩)
    · obtain rfl := Except.ok.inj hx
      cases x with
      | ok a' =>
        obtain ⟨haa, rfl⟩ := run_pure.1 hr
        obtain rfl := Except.ok.inj haa
        exact hp
      | error e' =>
        simp only [restage, run_bind, run_update, run_fail] at hr
        obtain ⟨_, _, -, hbad, -⟩ | ⟨_, -, hbad⟩ := hr
        · cases hbad
        · cases hbad
    · cases he
  · intro hp
    exact .inl ⟨.ok a, m', ⟨_, hp, rfl⟩, run_pure.2 ⟨rfl, rfl⟩⟩

theorem run_takeStaged {r : Except Error (List Pending)} :
    Run sem takeStaged m r m' ↔ r = .ok m.mem.res.staged ∧
      m' = ⟨m.dev, m.mem.mapRes Resident.drain⟩ := run_sync

@[simp] theorem run_innerCommit {inner : Inner T} {ops : List Op} {r : Except Error Unit} :
    Run Served (inner.commit ops) m r m' ↔
      (r = .ok () ∧ m' = { m with dev := m.dev.commit ops }) ∨ ∃ e, r = .error e ∧ m' = m :=
  run_commitWith

end

/-! ## Nothing moved -/

section
variable {T : Type} {m m₁ m' : Machine Tables (Ram T)}

/-- Nothing but the cursors of the bank differs. (`drained` is what a call in flight holds.) -/
def Unmoved (m m' : Machine Tables (Ram T)) : Prop :=
  ∃ shared drained, m' =
    ⟨m.dev, { m.mem with shared := shared, res := { m.mem.res with drained := drained } }⟩

theorem Unmoved.refl (m : Machine Tables (Ram T)) : Unmoved m m := ⟨_, _, rfl⟩

theorem Unmoved.trans (first : Unmoved m m₁) (second : Unmoved m₁ m') : Unmoved m m' := by
  obtain ⟨s, d, rfl⟩ := first
  obtain ⟨s', d', rfl⟩ := second
  exact ⟨s', d', rfl⟩

theorem Draws.unmoved {α : Type} {p : Io Shared α} (hp : Draws p) {r : Except Error α}
    (h : Run Served (p.zoom (sharedPart T)) m r m') : Unmoved m m' := by
  obtain ⟨s, rfl⟩ := hp.run_zoom h
  exact ⟨s, _, rfl⟩

theorem Reads.unmoved {α : Type} {p : Io (Ram T) α} (hp : Reads p) {r : Except Error α}
    (h : Run Served p m r m') : Unmoved m m' := hp.run h ▸ .refl m

/-- A part that fails and moved nothing has, under the write lock, moved nothing. -/
theorem Unmoved.unlock (hl : m.mem.writeLock = false)
    (h : Unmoved ⟨m.dev, m.mem.lock⟩ m₁) : Unmoved m ⟨m₁.dev, m₁.mem.unlock⟩ := by
  obtain ⟨s, d, rfl⟩ := h
  refine ⟨s, d, ?_⟩
  simp only [Ram.lock, Ram.unlock, ← hl]

/-- The accounting is not known to be incomplete. -/
def Clean (ram : Ram T) : Prop := ∀ state, ram.res.lru = some state → state.dirty = false

theorem Unmoved.clean (h : Unmoved m m') (hm : Clean m.mem) : Clean m'.mem := by
  obtain ⟨s, d, rfl⟩ := h
  exact hm

theorem reloadLruIfDirty_unmoved {inner : Inner T} (hm : Clean m.mem) {r : Except Error Unit}
    (h : Run Served (reloadLruIfDirty inner) m r m') : Unmoved m m' := by
  rw [reloadLruIfDirty, run_read_bind] at h
  cases hlru : m.mem.res.lru with
  | none =>
    rw [hlru] at h
    exact (run_pure.1 h).2 ▸ .refl _
  | some state =>
    simp only [hlru, hm state hlru, Bool.not_false, if_true] at h
    exact (run_pure.1 h).2 ▸ .refl _

/-- Reckoning the byte budget changes nothing but the clock. -/
theorem budgetOps_unmoved {inner : Inner T} (hm : Clean m.mem) {ops : List Op}
    {updates : List (Bytes × Nat)} {removals keep : List Bytes} {cleared : Bool}
    {r : Except Error (List Op × Budget)}
    (h : Run Served (budgetOps inner ops updates removals cleared keep) m r m') : Unmoved m m' := by
  rw [budgetOps, run_read_bind] at h
  split at h
  · exact (run_pure.1 h).2 ▸ .refl _
  refine Run.of_bind Unmoved Unmoved.trans h (fun _ _ => reloadLruIfDirty_unmoved hm) ?_
  intro _ m₁ _ h
  refine Run.of_bind Unmoved Unmoved.trans h (fun _ _ => draws_allocateTick.unmoved) ?_
  intro tick m₂ _ h
  rw [run_read_bind] at h
  split at h
  · exact (run_pure.1 h).2 ▸ .refl _
  refine Run.of_bind Unmoved Unmoved.trans h (fun _ _ => (reads_victimOps inner _).unmoved) ?_
  intro shed m₃ _ h
  rw [run_read_bind] at h
  exact (run_pure.1 h).2 ▸ .refl _

end
end Crossbank
