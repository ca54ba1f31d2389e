import Crossbank.Async.Pool
import Crossbank.Bank

/-!
# Names and ids under concurrent opens

* `Distinct db` : no two names share an id, and the counter is greater than every registered id;
* `lockerId_waits`, `prepare_waits` : the commits an open waits at;
* `Reached` : the pools of opens of one bank, through any number of reopens;
* `InTime` : a registration lands while the counter its call has read is still above the ids of
  the other names;
* `distinct_commit_registration` : landing a registration keeps `Distinct` exactly when it is in
  time;
* `distinct_of_inTime` : runs whose registrations are in time keep `Distinct`, which others need not
  (`lockerId_collides`).
-/

namespace Crossbank
open Async

namespace Bank
variable {V : Type} {env : BankEnv}

/-! ## Registrations -/

def Registered (db : Tables) (name : Bytes) (id : LockerId) : Prop :=
  ∃ raw, db.lookup .meta (META_LOCKER_PREFIX ++ name) = some raw ∧ u32FromBe raw = some id

/-- No two names share an id, and the counter is greater than every registered id. -/
structure Distinct (db : Tables) : Prop where
  injective : ∀ a b id, Registered db a id → Registered db b id → a = b
  below : ∃ next, nextFree (db.lookup .meta META_NEXT_LOCKER_ID) = .ok next ∧
    ∀ name id, Registered db name id → id < next

/-- A commit that writes no registration and does not write the counter. -/
def SparesRegistry (ops : List Op) : Prop :=
  (∀ name, written ops .meta (META_LOCKER_PREFIX ++ name) = none) ∧
    written ops .meta META_NEXT_LOCKER_ID = none

theorem SparesRegistry.registered {ops : List Op} (h : SparesRegistry ops) {db : Tables}
    {name : Bytes} {id : LockerId} :
    Registered (db.commit ops) name id ↔ Registered db name id := by
  simp [Registered, Tables.lookup_commit, h.1]

theorem SparesRegistry.distinct {ops : List Op} (h : SparesRegistry ops) {db : Tables} :
    Distinct (db.commit ops) ↔ Distinct db := by
  constructor
  · rintro ⟨hi, next, hn, hb⟩
    refine ⟨fun a b id ha hb => hi a b id (h.registered.2 ha) (h.registered.2 hb), next, ?_,
      fun name id hr => hb name id (h.registered.2 hr)⟩
    simpa [Tables.lookup_commit, h.2] using hn
  · rintro ⟨hi, next, hn, hb⟩
    refine ⟨fun a b id ha hb => hi a b id (h.registered.1 ha) (h.registered.1 hb), next, ?_,
      fun name id hr => hb name id (h.registered.1 hr)⟩
    simpa [Tables.lookup_commit, h.2] using hn

/-- Keys of two families whose prefixes differ early are different keys. -/
theorem append_ne_append (p p' : Bytes) (hp : p.take 2 ≠ p'.take 2) (hl : 2 ≤ p.length)
    (hl' : 2 ≤ p'.length) (x y : Bytes) : p ++ x ≠ p' ++ y := by
  intro h
  have h2 := congrArg (List.take 2) h
  rw [List.take_append_of_le_length hl, List.take_append_of_le_length hl'] at h2
  exact hp h2

theorem locker_prefix_ne_counter (name : Bytes) :
    META_LOCKER_PREFIX ++ name ≠ META_NEXT_LOCKER_ID := by
  simpa using append_ne_append META_LOCKER_PREFIX META_NEXT_LOCKER_ID (by decide) (by decide)
    (by decide) name []

theorem sparesRegistry_put {p : Bytes} (key value : Bytes) (hp : 2 ≤ p.length)
    (hl : p.take 2 ≠ META_LOCKER_PREFIX.take 2) (hc : p.take 2 ≠ META_NEXT_LOCKER_ID.take 2) :
    SparesRegistry [.put .meta (p ++ key) value] := by
  have hkl (name : Bytes) : p ++ key ≠ META_LOCKER_PREFIX ++ name :=
    append_ne_append _ _ hl hp (by decide) key name
  have hkc : p ++ key ≠ META_NEXT_LOCKER_ID := by
    simpa using append_ne_append _ _ hc hp (by decide) key []
  constructor
  · intro name
    simp [written_cons, Op.written, hkl]
  · simp [written_cons, Op.written, hkc]

theorem written_registration (name : String) (id bumped : LockerId) (other : Bytes) :
    written (registration name id bumped) .meta (META_LOCKER_PREFIX ++ other) =
      if asBytes name = other then some (some (u32be id)) else none := by
  have hne := locker_prefix_ne_counter other
  by_cases h : asBytes name = other
  · simp [registration, lockerKey, written_cons, Op.written, h, hne.symm]
  · simp [registration, lockerKey, written_cons, Op.written, h, hne.symm]

theorem written_registration_counter (name : String) (id bumped : LockerId) :
    written (registration name id bumped) .meta META_NEXT_LOCKER_ID = some (some (u32be bumped)) := by
  simp [registration, written_cons, Op.written]

theorem registered_commit_registration {db : Tables} {name : String} {id bumped : LockerId}
    {other : Bytes} {id' : LockerId} :
    Registered (db.commit (registration name id bumped)) other id' ↔
      (other = asBytes name ∧ id' = id) ∨ (other ≠ asBytes name ∧ Registered db other id') := by
  rw [Registered, Tables.lookup_commit, written_registration]
  by_cases h : asBytes name = other
  · subst h
    simp [eq_comm]
  · simp [h, Ne.symm h, Registered]

/-- Landing a registration keeps names and ids apart exactly when it is in time: when the id
it registers is still above the ids of the other names. -/
theorem distinct_commit_registration {db : Tables} (hdb : Distinct db) {name : String}
    {next : LockerId} (room : next.toNat ≠ 2 ^ 32 - 1) :
    Distinct (db.commit (registration name next (next + 1))) ↔
      ∀ other id, other ≠ asBytes name → Registered db other id → id < next := by
  have hlt := next.toNat_lt
  have hsucc : (next + 1).toNat = next.toNat + 1 := by
    rw [UInt32.toNat_add]
    exact Nat.mod_eq_of_lt (by simp; omega)
  have hcounter : nextFree ((db.commit (registration name next (next + 1))).lookup .meta
      META_NEXT_LOCKER_ID) = .ok (next + 1) := by
    simp [Tables.lookup_commit, written_registration_counter, nextFree, u32From]
  constructor
  · rintro ⟨inj, bumped, hb, below⟩ other id hne hr
    have hr' : Registered (db.commit (registration name next (next + 1))) other id :=
      registered_commit_registration.2 (.inr ⟨hne, hr⟩)
    obtain rfl : next + 1 = bumped := by simpa [hcounter] using hb
    have hid : id ≠ next := by
      rintro rfl
      exact hne (inj other (asBytes name) id hr'
        (registered_commit_registration.2 (.inl ⟨rfl, rfl⟩)))
    have h1 : id.toNat < next.toNat + 1 := by simpa [UInt32.lt_iff_toNat_lt, hsucc] using below other id hr'
    have h2 : id.toNat ≠ next.toNat := fun h => hid (UInt32.toNat_inj.1 h)
    exact UInt32.lt_iff_toNat_lt.2 (by omega)
  · intro inTime
    refine ⟨fun a b id ha hb => ?_, next + 1, hcounter, fun other id hr => ?_⟩
    · rcases registered_commit_registration.1 ha with ⟨rfl, rfl⟩ | ⟨hna, ha'⟩
      · rcases registered_commit_registration.1 hb with ⟨rfl, -⟩ | ⟨hnb, hb'⟩
        · rfl
        · exact absurd (inTime b id hnb hb') (by simp)
      · rcases registered_commit_registration.1 hb with ⟨rfl, rfl⟩ | ⟨hnb, hb'⟩
        · exact absurd (inTime a id hna ha') (by simp)
        · exact hdb.injective a b id ha' hb'
    · rw [UInt32.lt_iff_toNat_lt, hsucc]
      rcases registered_commit_registration.1 hr with ⟨rfl, rfl⟩ | ⟨hne, hr⟩
      · omega
      · have := UInt32.lt_iff_toNat_lt.1 (inTime other id hne hr)
        omega

/-! ## What an open waits at -/

/-- The call has read `next` off the counter, and that `name` is not registered. -/
def CounterRead (h : List (Event Req Resp (Bank V))) (name : String) (next : LockerId) : Prop :=
  ∃ found, .io (.getMany .meta [lockerKey name, META_NEXT_LOCKER_ID]) (.ok found) ∈ h ∧
    found.dropLast.getLast?.join = none ∧ nextFree found.getLast?.join = .ok next

/-- A commit spares the registry, or registers a name under the counter the call has read. -/
def OpenWaits (h : List (Event Req Resp (Bank V))) (q : Req) : Prop :=
  ∀ ops options, q = .commit ops options → SparesRegistry ops ∨
    ∃ name next, CounterRead h name next ∧ next.toNat ≠ 2 ^ 32 - 1 ∧
      ops = registration name next (next + 1)

theorem CounterRead.append_left {h h' : List (Event Req Resp (Bank V))} {name : String}
    {next : LockerId} (hr : CounterRead h' name next) : CounterRead (h ++ h') name next := by
  obtain ⟨found, hmem, hf⟩ := hr
  exact ⟨found, List.mem_append_right _ hmem, hf⟩

theorem OpenWaits.append_left {h h' : List (Event Req Resp (Bank V))} {q : Req}
    (hw : OpenWaits h' q) : OpenWaits (h ++ h') q := by
  intro ops options hq
  refine (hw ops options hq).imp_right ?_
  rintro ⟨name, next, hr, rest⟩
  exact ⟨name, next, hr.append_left, rest⟩

theorem OpenWaits.of_not_commit {h : List (Event Req Resp (Bank V))} {q : Req}
    (hq : ∀ ops options, q ≠ .commit ops options) : OpenWaits h q :=
  fun ops options h => absurd h (hq ops options)

theorem lockerId_waits {name : String} {h : List (Event Req Resp (Bank V))} {q : Req}
    {d : Bank V → Bank V} (hw : Waits (lockerId name) h q d) : OpenWaits h q := by
  rw [lockerId, waits_bind] at hw
  obtain hw | ⟨cachedId, h₁, h₂, rfl, -, hw⟩ := hw
  · exact absurd hw waits_read
  cases cachedId with
  | some id => exact absurd hw waits_ret
  | none =>
    refine OpenWaits.append_left ?_
    simp only [waits_bind, Backend.waits_getMany, Backend.ends_getMany] at hw
    obtain ⟨-, rfl, -⟩ | ⟨found, _, h₄, rfl, rfl, hw⟩ := hw
    · exact .of_not_commit fun ops options hq => by cases hq
    split at hw
    · simp [waits_bind] at hw
    · next hnone =>
      simp only [waits_bind, waits_ofExcept, ends_ofExcept, false_or] at hw
      obtain ⟨next, _, _, rfl, ⟨rfl, hnext⟩, hw⟩ := hw
      split at hw
      · exact absurd hw waits_fail
      · next room =>
        simp only [waits_bind, Backend.commit_eq, Backend.waits_commitWith, waits_update,
          false_or] at hw
        obtain ⟨rfl, rfl, -⟩ | ⟨_, _, _, rfl, -, _, _, _, rfl, -, hw⟩ := hw
        · intro ops options hq
          obtain ⟨rfl, -⟩ := Req.commit.inj hq
          exact .inr ⟨name, next, ⟨found, by simp, hnone, hnext.symm⟩, room, rfl⟩
        · exact absurd hw waits_ret

theorem lockerExists_waits {name : String} {h : List (Event Req Resp (Bank V))} {q : Req}
    {d : Bank V → Bank V} (hw : Waits (lockerExists name) h q d) : OpenWaits h q := by
  rw [lockerExists, waits_bind] at hw
  obtain hw | ⟨cachedId, h₁, h₂, rfl, -, hw⟩ := hw
  · exact absurd hw waits_read
  cases cachedId with
  | some id => exact absurd hw waits_ret
  | none =>
    simp only [waits_bind, Backend.waits_get] at hw
    obtain ⟨-, rfl, -⟩ | ⟨_, _, _, -, -, hw⟩ := hw
    · exact .of_not_commit fun ops options hq => by cases hq
    · exact absurd hw waits_ret

theorem bindSchema_waits {id : LockerId} {tag : String} {h : List (Event Req Resp (Bank V))}
    {q : Req} {d : Bank V → Bank V} (hw : Waits (bindSchema id tag) h q d) : OpenWaits h q := by
  simp only [bindSchema, waits_bind, Backend.waits_get] at hw
  obtain ⟨-, rfl, -⟩ | ⟨raw, _, _, -, -, hw⟩ := hw
  · exact .of_not_commit fun ops options hq => by cases hq
  cases raw with
  | some raw =>
    simp only at hw
    split at hw
    · exact absurd hw waits_fail
    · split at hw
      · exact absurd hw waits_fail
      · exact absurd hw waits_ret
  | none =>
    simp only [Backend.commit_eq, Backend.waits_commitWith] at hw
    obtain ⟨-, rfl, -⟩ := hw
    intro ops options hq
    obtain ⟨rfl, -⟩ := Req.commit.inj hq
    exact .inl (sparesRegistry_put _ _ (by decide) (by decide) (by decide))

theorem bindChain_waits {id : LockerId} {chain : FilterChain} {preExisting : Bool}
    {h : List (Event Req Resp (Bank V))} {q : Req} {d : Bank V → Bank V}
    (hw : Waits (bindChain env id chain preExisting) h q d) : OpenWaits h q := by
  simp only [bindChain, waits_bind, Backend.waits_get] at hw
  obtain ⟨-, rfl, -⟩ | ⟨raw, _, _, -, -, hw⟩ := hw
  · exact .of_not_commit fun ops options hq => by cases hq
  cases raw with
  | some raw =>
    simp only [waits_bind, waits_ofExcept, false_or] at hw
    obtain ⟨stored, _, _, -, -, hw⟩ := hw
    split at hw
    · exact absurd hw waits_fail
    · exact absurd hw waits_ret
  | none =>
    simp only at hw
    split at hw
    · exact absurd hw waits_fail
    · simp only [Backend.commit_eq, Backend.waits_commitWith] at hw
      obtain ⟨-, rfl, -⟩ := hw
      intro ops options hq
      obtain ⟨rfl, -⟩ := Req.commit.inj hq
      exact .inl (sparesRegistry_put _ _ (by decide) (by decide) (by decide))

theorem prepare_waits {name tag : String} {chain : FilterChain}
    {h : List (Event Req Resp (Bank V))} {q : Req} {d : Bank V → Bank V}
    (hw : Waits (prepare env name tag chain) h q d) : OpenWaits h q := by
  simp only [prepare, waits_bind] at hw
  obtain hw | ⟨_, _, _, rfl, -, hw⟩ := hw
  · exact lockerExists_waits hw
  refine OpenWaits.append_left ?_
  obtain hw | ⟨_, _, _, rfl, -, hw⟩ := hw
  · exact lockerId_waits hw
  refine OpenWaits.append_left ?_
  obtain hw | ⟨_, _, _, rfl, -, hw⟩ := hw
  · exact bindSchema_waits hw
  refine OpenWaits.append_left ?_
  obtain hw | ⟨_, _, _, -, -, hw⟩ := hw
  · exact bindChain_waits hw
  · exact absurd hw waits_ret

/-! ## Pools of opens -/

/-- The calls of an open that resolve its id. -/
def Opens (env : BankEnv) (p : Io (Bank V) LockerId) : Prop :=
  (∃ name, p = lockerId name) ∨ ∃ name tag chain, p = prepare env name tag chain

abbrev OpenPool (V : Type) := Pool Req Resp Error (Bank V) LockerId Tables

abbrev OpenMove (V : Type) := Move Req Resp Error (Bank V) LockerId

/-- The pools that a bank over the store `db` and its reopens reach, by moves that `may` allows. A
reopen drops the calls in flight and starts from the store with a fresh memory. -/
inductive Reached (env : BankEnv) (may : OpenPool V → OpenMove V → Prop) (db : Tables) :
    OpenPool V → Prop
  | opened {m : Machine Tables (Bank V)}
      (start : Run Served checkOrWriteFormatVersion ⟨db, Bank.fresh V⟩ (.ok ()) m) :
      Reached env may db ⟨m, []⟩
  | moved {P P' : OpenPool V} {l : OpenMove V} (run : Reached env may db P)
      (move : Pool.Step Served P l P') (starts : ∀ p, l = .start p → Opens env p)
      (allowed : may P l) : Reached env may db P'
  | reopened {P : OpenPool V} {m : Machine Tables (Bank V)} (run : Reached env may db P)
      (start : Run Served checkOrWriteFormatVersion ⟨P.machine.dev, Bank.fresh V⟩ (.ok ()) m) :
      Reached env may db ⟨m, []⟩

/-- A registration that lands with this move is in time: the counter its call has read is still
above the id of every other name. -/
def InTime (P : OpenPool V) (l : OpenMove V) : Prop :=
  ∀ i t ops options name next, l = .io i (.commit ops options) (.ok ()) → P.tasks[i]? = some t →
    CounterRead t.hist name next → (∃ value, .put .meta (lockerKey name) value ∈ ops) →
    ∀ other id, other ≠ asBytes name → Registered P.machine.dev other id → id < next

theorem Reached.trans {may : OpenPool V → OpenMove V → Prop} {db : Tables} {P P' : OpenPool V}
    (first : Reached env may db P)
    (run : Pool.Reach Served (fun P l => (∀ p, l = .start p → Opens env p) ∧ may P l) P P') :
    Reached env may db P' := by
  induction run with
  | refl => exact first
  | step _ move allowed ih => exact .moved ih move allowed.1 allowed.2

theorem Reached.tidy {may : OpenPool V → OpenMove V → Prop} {db : Tables} {P : OpenPool V}
    (run : Reached env may db P) : Pool.Tidy (Opens env) P := by
  induction run with
  | opened start => exact fun t ht => absurd ht List.not_mem_nil
  | moved run move starts allowed ih => exact ih.step move starts
  | reopened run start ih => exact fun t ht => absurd ht List.not_mem_nil

theorem distinct_checkOrWriteFormatVersion {m m' : Machine Tables (Bank V)} {r : Except Error Unit}
    (run : Run Served checkOrWriteFormatVersion m r m') (hdb : Distinct m.dev) :
    Distinct m'.dev := by
  rw [checkOrWriteFormatVersion, run_bind] at run
  obtain ⟨found, m₁, hget, run⟩ | ⟨e, hget, rfl⟩ := run
  · obtain ⟨rfl, -⟩ := run_get.1 hget
    cases found with
    | some raw =>
      simp only [run_bind, run_ofExcept] at run
      obtain ⟨version, m₂, ⟨-, rfl⟩, run⟩ | ⟨e, ⟨-, rfl⟩, -⟩ := run
      · split at run
        · obtain ⟨-, rfl⟩ := run_fail.1 run
          exact hdb
        · obtain ⟨-, rfl⟩ := run_pure.1 run
          exact hdb
      · exact hdb
    | none =>
      simp only [Backend.commit_eq, run_commitWith] at run
      obtain ⟨-, rfl⟩ | ⟨-, -, rfl⟩ := run
      · have spares : SparesRegistry [.put .meta META_FORMAT_VERSION (u32be FORMAT_VERSION)] := by
          simpa using sparesRegistry_put (p := META_FORMAT_VERSION) [] _ (by decide) (by decide)
            (by decide)
        exact spares.distinct.2 hdb
      · exact hdb
  · obtain ⟨rfl, -⟩ := run_get.1 hget
    exact hdb

theorem Opens.waits {p : Io (Bank V) LockerId} (hp : Opens env p)
    {h : List (Event Req Resp (Bank V))} {q : Req} {d : Bank V → Bank V} (hw : Waits p h q d) :
    OpenWaits h q := by
  obtain ⟨name, rfl⟩ | ⟨name, tag, chain, rfl⟩ := hp
  · exact lockerId_waits hw
  · exact prepare_waits hw

/-- A move keeps names and ids apart when the registration it lands, if any, is in time. -/
theorem distinct_step {P P' : OpenPool V} {l : OpenMove V} (tidy : Pool.Tidy (Opens env) P)
    (hdb : Distinct P.machine.dev) (move : Pool.Step Served P l P') (inTime : InTime P l) :
    Distinct P'.machine.dev := by
  cases move with
  | start p => exact hdb
  | ram at_i rest => exact hdb
  | @io i t q d k x m at_i rest answer =>
    obtain ⟨call, after⟩ := tidy t (List.mem_of_getElem? at_i)
    have waits : OpenWaits t.hist q := call.waits ⟨k, rest ▸ after⟩
    cases q with
    | commit ops options =>
      obtain ⟨rfl, rfl⟩ | ⟨e, rfl, rfl⟩ := answer
      · obtain spares | ⟨name, next, hread, room, rfl⟩ := waits ops options rfl
        · exact spares.distinct.2 hdb
        · refine (distinct_commit_registration hdb room).2 ?_
          exact inTime i t _ options name next rfl at_i hread ⟨_, List.mem_cons_self⟩
      · exact hdb
    | get | getMany | scan =>
      obtain ⟨rfl, -⟩ := answer
      exact hdb
    | flush | idle =>
      obtain rfl := answer
      exact hdb
    | lock =>
      obtain ⟨s, -, rfl⟩ := answer
      exact hdb

/-- Names and ids stay apart in every run of opens and reopens whose registrations are all in
time. -/
theorem distinct_of_inTime {db : Tables} (hdb : Distinct db) {P : OpenPool V}
    (run : Reached env InTime db P) : Distinct P.machine.dev := by
  induction run with
  | opened start => exact distinct_checkOrWriteFormatVersion start hdb
  | moved run move starts allowed ih => exact distinct_step run.tidy ih move allowed
  | reopened run start ih => exact distinct_checkOrWriteFormatVersion start ih

/-! ## Runs -/

/-- A store that a bank has been opened over, and nothing else. -/
def marked : Tables := Tables.empty.commit [.put .meta META_FORMAT_VERSION (u32be FORMAT_VERSION)]

theorem not_registered_marked (name : Bytes) (id : LockerId) : ¬ Registered marked name id := by
  have spares : SparesRegistry [.put .meta META_FORMAT_VERSION (u32be FORMAT_VERSION)] := by
    simpa using sparesRegistry_put (p := META_FORMAT_VERSION) [] _ (by decide) (by decide)
      (by decide)
  rw [marked, spares.registered]
  rintro ⟨raw, hraw, -⟩
  simp [Tables.lookup, Tables.get, Tables.empty] at hraw

theorem distinct_empty : Distinct Tables.empty where
  injective a b id := by
    rintro ⟨raw, hraw, -⟩
    simp [Tables.lookup, Tables.get, Tables.empty] at hraw
  below := by
    refine ⟨0, rfl, fun name id => ?_⟩
    rintro ⟨raw, hraw, -⟩
    simp [Tables.lookup, Tables.get, Tables.empty] at hraw

theorem reached_marked (may : OpenPool V → OpenMove V → Prop) :
    Reached env may Tables.empty ⟨⟨marked, Bank.fresh V⟩, []⟩ := by
  refine .opened ?_
  rw [checkOrWriteFormatVersion, run_bind_ok]
  exact ⟨none, _, run_get.2 ⟨rfl, fun v hv => by cases hv; rfl⟩, run_commitWith.2 (.inl ⟨rfl, rfl⟩)⟩

theorem inTime_of_not_registered {P : OpenPool V} {l : OpenMove V}
    (h : ∀ name id, ¬ Registered P.machine.dev name id) : InTime P l :=
  fun _ _ _ _ _ _ _ _ _ _ other id _ hr => absurd hr (h other id)

/-- A move that is no commit lands no registration. -/
theorem inTime_of_not_commit {P : OpenPool V} {l : OpenMove V}
    (h : ∀ i ops options x, l ≠ .io i (.commit ops options) x) : InTime P l :=
  fun _ _ _ _ _ _ hl => absurd hl (h _ _ _ _)

theorem inTime_of_counterRead {P : OpenPool V} {i : Nat} {t : Task Req Resp Error (Bank V) LockerId}
    {ops : List Op} {options : CommitOptions} (next : LockerId) (at_i : P.tasks[i]? = some t)
    (reads : ∀ name n, CounterRead t.hist name n → n = next)
    (below : ∀ other id, Registered P.machine.dev other id → id < next) :
    InTime P (.io i (.commit ops options) (.ok ())) := by
  intro j t' ops' options' name n hl ht hread _ other id _ hr
  obtain ⟨rfl, -⟩ := Move.io.inj hl
  rw [at_i] at ht
  obtain rfl := Option.some.inj ht
  rw [reads name n hread]
  exact below other id hr

/-- Two opens are under way at once, and the second reads the counter after the first has
registered its name. -/
theorem distinct_of_inTime_two_opens :
    Distinct ((marked.commit (registration "a" 0 1)).commit (registration "b" 1 2)) := by
  have early {P : OpenPool Unit} {l : OpenMove Unit} (hdev : P.machine.dev = marked) : InTime P l :=
    inTime_of_not_registered fun name id => hdev ▸ not_registered_marked name id
  have opened : Reached BankEnv.plain InTime Tables.empty ⟨⟨marked, Bank.fresh Unit⟩, []⟩ :=
    reached_marked _
  have first := opened.moved (.start _ (lockerId "a"))
    (fun p hp => by cases hp; exact .inl ⟨"a", rfl⟩) (early rfl)
  have second := first.moved (.start _ (lockerId "b"))
    (fun p hp => by cases hp; exact .inl ⟨"b", rfl⟩) (early rfl)
  have looked := second.moved (.ram (i := 0) rfl rfl) (fun p hp => by cases hp) (early rfl)
  have both := looked.moved (.ram (i := 1) rfl rfl) (fun p hp => by cases hp) (early rfl)
  have read := both.moved (.io (i := 0) (x := .ok [none, none]) rfl rfl
    ⟨rfl, fun vs hv => by cases hv; rfl⟩) (fun p hp => by cases hp) (early rfl)
  have landed := read.moved (.io (i := 0) (x := .ok ()) rfl rfl (.inl ⟨rfl, rfl⟩))
    (fun p hp => by cases hp) (early rfl)
  have later := landed.moved (.io (i := 1) (x := .ok [none, some (u32be 1)]) rfl rfl
    ⟨rfl, fun vs hv => by cases hv; decide⟩) (fun p hp => by cases hp)
    (inTime_of_not_commit fun i ops options x hl => by cases hl)
  have last := later.moved (.io (i := 1) (x := .ok ()) rfl rfl (.inl ⟨rfl, rfl⟩))
    (fun p hp => by cases hp) ?_
  · exact distinct_of_inTime distinct_empty last
  refine inTime_of_counterRead 1 rfl (fun name n hread => ?_) fun other id hr => ?_
  · obtain ⟨found, hmem, -, hnext⟩ := hread
    have hfound : found = [none, some (u32be 1)] := by
      rcases List.mem_cons.1 hmem with h | h
      · cases h
      · obtain ⟨-, hx⟩ := Event.io.inj (List.mem_singleton.1 h)
        exact Except.ok.inj (eq_of_heq hx)
    subst hfound
    exact Except.ok.inj (hnext.symm.trans (show nextFree _ = .ok 1 by decide))
  · rcases registered_commit_registration.1 hr with ⟨-, rfl⟩ | ⟨-, hr⟩
    · decide
    · exact absurd hr (not_registered_marked other id)

/-- Two opens on a new store that both read the counter before either registers. -/
def racingOpens : List (Pool.Choice Req Resp Error (Bank Unit) LockerId) :=
  [.start (lockerId "a"), .start (lockerId "b"), .run 0, .run 1, .answer 0 0, .answer 1 0,
    .answer 0 0, .answer 1 0]

/-- Two names that are opened at once can get one id. -/
theorem lockerId_collides :
    ¬ ∀ P : OpenPool Unit, Reached BankEnv.plain (fun _ _ => True) Tables.empty P →
      Distinct P.machine.dev := by
  intro h
  obtain ⟨P, hP⟩ : ∃ P, Pool.exec serve racingOpens ⟨⟨marked, Bank.fresh Unit⟩, []⟩ = some P :=
    Option.isSome_iff_exists.1 (by decide)
  have ha : (Pool.exec serve racingOpens ⟨⟨marked, Bank.fresh Unit⟩, []⟩).map
      (fun P => P.machine.dev.lookup .meta (lockerKey "a")) = some (some (u32be 0)) := by decide
  have hb : (Pool.exec serve racingOpens ⟨⟨marked, Bank.fresh Unit⟩, []⟩).map
      (fun P => P.machine.dev.lookup .meta (lockerKey "b")) = some (some (u32be 0)) := by decide
  rw [hP] at ha hb
  have reached : Reached BankEnv.plain (fun _ _ => True) Tables.empty P := by
    refine (reached_marked _).trans ((Pool.exec_reach serve_sound (fun p hp => ?_) hP).mono
      fun P l starts => ⟨starts, trivial⟩)
    have hp : p = lockerId "a" ∨ p = lockerId "b" := by simpa [racingOpens] using hp
    rcases hp with rfl | rfl
    · exact .inl ⟨"a", rfl⟩
    · exact .inl ⟨"b", rfl⟩
  have same := (h P reached).injective (asBytes "a") (asBytes "b") 0
    ⟨_, Option.some.inj ha, u32FromBe_u32be 0⟩ ⟨_, Option.some.inj hb, u32FromBe_u32be 0⟩
  exact absurd (asBytes_inj.1 same) (by decide)

end Bank
end Crossbank
