import Crossbank.Locker.Readers
import Crossbank.Registry
import Crossbank.Retry
import Crossbank.System

/-!
# Readers of a bank

The lockers of a bank draw their value ids from one cursor, so what one of them stores is never stored
under an id of another.

* `BankUse` : the calls of a bank, with writers and readers from their start to their end;
* `sessionRules` : the rules of value ids for all calls of a bank; `BankUse.abides` : every call keeps
  them;
* `Bank.reader_yields` : whatever else is called, a reader answers with what was stored when it was
  opened, or fails;
* `Bank.reader_skips` : one that goes past a piece that does not open.
-/

namespace Crossbank
open Async

/-! ## Calls -/

inductive Outcome (V : Type) where
  | done
  | read (inner : Inner V) (answers : List (Except Error (Option Bytes)))

/-- A call of a bank, a writer of a locker from its start to its end, or a reader that is asked some
times. -/
inductive BankUse (V : Type) where
  | call (c : BankCall V)
  | streams (slot : Nat) (key : String) (bufs : List Bytes) (ending : Ending)
  | reads (slot : Nat) (key : Bytes) (n : Nat)

namespace Bank
variable {V α : Type}

/-- A call of the lazy locker in a slot. -/
def onLazy (k : Nat) (call : Inner V → Io (Ram V) α) : SysIo V α := do
  match ← Prog.read fun bank : Bank V => bank.slots[k]?.filter (·.ram.res.mode = .lazy) with
  | some slot => ((call slot.inner).within (ramOf k) (setRam k)).tagged (some k)
  | none => .stuck

end Bank

def BankUse.prog {V : Type} (env : BankEnv) : BankUse V → Bank.SysIo V (Outcome V)
  | .call c => (fun _ => .done) <$> c.prog env
  | .streams slot key bufs ending => Bank.onLazy slot fun inner =>
    (fun _ => .done) <$> LazyLocker.streaming inner key bufs ending
  | .reads slot key n => Bank.onLazy slot fun inner =>
    .read inner <$> LazyLocker.reading inner key n

/-- The calls of a writer are made by its own session. -/
def BankUse.Sound {V : Type} : BankUse V → Prop
  | .call (.lazy _ c) => c.Plain
  | _ => True

namespace Bank
variable {V α β : Type} {env : BankEnv} {i : Nat} {K : Sight → Prop}

/-! ## Rules -/

/-- The cursor of value ids that the lockers of a bank share. -/
def ids (bank : Bank V) : ValueIds := bank.shared.values

def unslotted : Event SysReq SysResp (Bank V) → Event Req Resp (Bank V)
  | .ram s s' => .ram s s'
  | .io (_, q) x => .io q x

/-- What a step of a call does to who has taken which value id. -/
def noteSession (i : Nat) (e : Event SysReq SysResp (Bank V)) (m m' : Machine Tables (Bank V))
    (g : Issue) : Issue := noteIssue ids i (unslotted e) m m' g

def sessionSetting (V : Type) : Setting SysReq SysResp Tables (Bank V) Issue where
  sem := SysServed
  next := noteSession
  inv x := IdsKept (seen ids x)

abbrev sessionRules (V : Type) : Rules SysReq SysResp Tables (Bank V) Issue :=
  ⟨sessionSetting V, issueTerms ids⟩

/-- The call `i` of a bank keeps the rules of value ids, from `K` to `G`. -/
abbrev Abides (i : Nat) (K : Sight → Prop) (p : SysIo V α) (G : Except Error α → Sight → Prop) : Prop :=
  Triple (sessionRules V) (seen ids) i K p G

theorem untag_sessionRules (t : Option Nat) :
    (sessionRules V).untag t = issueRules ids fun q => SysServed (t, q) := by
  have notes : (fun i e => noteSession i (e.tagged t)) = noteIssue (ids (V := V)) := by
    funext i e
    cases e <;> rfl
  exact congrArg (fun next => (⟨⟨fun q => SysServed (t, q), next, fun x => IdsKept (seen ids x)⟩,
    issueTerms ids⟩ : Rules Req Resp Tables (Bank V) Issue)) notes

/-- A backend call leaves the cursor. -/
theorem shown_of_served {ρ : Type} [WriteLock ρ] {view : ρ → ValueIds}
    (locks : ∀ s s', WriteLock.acquire s = some s' → view s' = view s) {q : Req}
    {m m' : Machine Tables ρ} {x : Resp q} (h : Served q m x m') : Shown view q m x m' := by
  cases q with
  | get table key =>
    obtain ⟨rfl, hv⟩ := h
    exact ⟨rfl, rfl, hv⟩
  | commit ops options =>
    rcases h with ⟨hx, rfl⟩ | ⟨e, hx, rfl⟩
    · exact ⟨rfl, .inl ⟨hx, rfl⟩⟩
    · exact ⟨rfl, .inr ⟨e, hx, rfl⟩⟩
  | getMany table keys =>
    obtain ⟨rfl, -⟩ := h
    exact ⟨rfl, rfl⟩
  | scan request =>
    obtain ⟨rfl, -⟩ := h
    exact ⟨rfl, rfl⟩
  | flush =>
    obtain rfl := h
    exact ⟨rfl, rfl⟩
  | idle =>
    obtain rfl := h
    exact ⟨rfl, rfl⟩
  | lock =>
    obtain ⟨s, hs, rfl⟩ := h
    exact ⟨locks _ _ hs, rfl⟩

/-- What a locker is shown, its bank is. -/
theorem shown_of_sysServed {k : Nat} {q : Req} {m m' : Machine Tables (Bank V)} {x : Resp q}
    (h : SysServed (some k, q) m x m') : Shown ids q m x m' := by
  obtain ⟨ram, m₁, hram, hserved, rfl⟩ := h
  have shown : Shown Ram.ids q ⟨m.dev, ram⟩ x m₁ := by
    refine shown_of_served (fun s s' hs => ?_) hserved
    simp only [WriteLock.acquire] at hs
    split at hs
    · cases hs
    · obtain rfl := Option.some.inj hs
      rfl
  have same : Ram.ids ram = ids m.mem := by
    obtain ⟨slot, -, rfl⟩ := Option.map_eq_some_iff.1 hram
    rfl
  have moved : ids (m.mem.setRam k m₁.mem) = Ram.ids m₁.mem := rfl
  cases q with
  | get table key => exact ⟨moved.trans (shown.1.trans same), shown.2⟩
  | commit ops options => exact ⟨moved.trans (shown.1.trans same), shown.2⟩
  | getMany | scan | flush | lock | idle => exact ⟨moved.trans (shown.1.trans same), shown.2⟩

/-- A call of a locker keeps the rules of its bank. -/
theorem Abides.slot {k : Nat} {p : Io (Ram V) α} {G : Except Error α → Sight → Prop}
    (hp : Issues Ram.ids i K p G) : Abides i K ((p.within (ramOf k) (setRam k)).tagged (some k)) G := by
  refine Triple.tagged ?_
  rw [untag_sessionRules]
  refine hp.within (fun q m x m' h => shown_of_sysServed h) (fun s r h => ?_) (fun s r r' _ => rfl)
    fun s => ⟨.opened s.shared (.new .lazy none none) ∅, rfl⟩
  obtain ⟨slot, -, rfl⟩ := Option.map_eq_some_iff.1 h
  rfl

/-- A call of the bank itself. -/
theorem Abides.bank {p : Io (Bank V) α} {G : Except Error α → Sight → Prop}
    (hp : Issues ids i K p G) : Abides i K (p.tagged none) G := by
  refine Triple.tagged ?_
  rw [untag_sessionRules]
  exact Triple.answered hp fun q m x m' h => shown_of_served (fun s s' hs => by cases hs) h

theorem abides_calm {p : SysIo V α} (only : p.Only (fun _ => False) fun b b' => ids b' = ids b) :
    Abides i (fun _ => True) p fun _ _ => True := by
  refine Triple.of_only only (fun _ _ _ _ _ => trivial) (fun y s _ hy hs => ?_) fun _ _ _ _ _ _ h => h.elim
  refine ⟨?_, trivial⟩
  obtain ⟨allowed, -⟩ : (issueRules ids fun q => SysServed (none, q)).Allows i _ y _ ∧
      Continues i (seen ids y) _ := allows_ram hy hs
  exact allowed

/-! ## Opens and deletions -/

/-- A row of the registry, of a schema or of a chain is not the stored counter of value ids. -/
theorem harmless_meta {key value : Bytes} (other : key ≠ META_NEXT_VALUE_ID) :
    Harmless [.put .meta key value] := harmless_singleton.2 fun _ _ hkey => absurd hkey other

theorem lockerKey_ne_counter (name : String) : lockerKey name ≠ META_NEXT_VALUE_ID := by
  simpa [lockerKey] using append_ne_append META_LOCKER_PREFIX META_NEXT_VALUE_ID (by decide) (by decide)
    (by decide) (asBytes name) []

theorem schemaKey_ne_counter (id : LockerId) : schemaKey id ≠ META_NEXT_VALUE_ID := by
  simpa [schemaKey] using append_ne_append META_SCHEMA_PREFIX META_NEXT_VALUE_ID (by decide) (by decide)
    (by decide) (u32be id) []

theorem chainKey_ne_counter (id : LockerId) : chainKey id ≠ META_NEXT_VALUE_ID := by
  simpa [chainKey] using append_ne_append META_CHAIN_PREFIX META_NEXT_VALUE_ID (by decide) (by decide)
    (by decide) (u32be id) []

theorem only_commit {ρ : Type} {C : ρ → ρ → Prop} {ops : List Op} (h : Harmless ops) :
    (Backend.commit ops : Io ρ Unit).Only Req.Harmless C := by
  refine Backend.only_commitWith.2 fun ops' options heq => ?_
  obtain ⟨rfl, -⟩ := Req.commit.inj heq
  exact h

theorem Req.harmless_of_isRead {q : Req} (hq : q.isRead) : q.Harmless :=
  Req.harmless_of_not_lands (isRead_not_lands hq)

abbrev KeepsIds (b b' : Bank V) : Prop := ids b' = ids b

theorem calm_lockerId (name : String) :
    (lockerId name : Io (Bank V) LockerId).Only Req.Harmless KeepsIds := by
  unfold lockerId
  refine Prog.Only.bind (Prog.only_read.2 fun _ => rfl) fun found => ?_
  cases found with
  | some id => exact Prog.only_pure
  | none =>
    refine Prog.Only.bind (Backend.only_getMany.2 (Req.harmless_of_isRead trivial)) fun rows => ?_
    dsimp only
    split
    · refine Prog.only_ofExcept.bind fun id => Prog.Only.bind ?_ fun _ => Prog.only_pure
      exact Prog.only_update.2 fun _ => rfl
    · refine Prog.only_ofExcept.bind fun next => ?_
      split
      · exact Prog.only_fail
      · refine Prog.Only.bind (only_commit ?_) fun _ => ?_
        · refine (harmless_meta (lockerKey_ne_counter name)).append (harmless_meta ?_)
          decide
        · exact Prog.Only.bind (Prog.only_update.2 fun _ => rfl) fun _ => Prog.only_pure

theorem calm_lockerExists (name : String) :
    (lockerExists name : Io (Bank V) Bool).Only Req.Harmless KeepsIds := by
  refine (reads_lockerExists name).mono (fun _ => Req.harmless_of_isRead) fun b b' hb => ?_
  rw [hb]

theorem calm_prepare (name tag : String) (chain : FilterChain) :
    (prepare env name tag chain : Io (Bank V) LockerId).Only Req.Harmless KeepsIds := by
  have get {key : Bytes} : (Backend.get .meta key : Io (Bank V) _).Only Req.Harmless KeepsIds :=
    Backend.only_get.2 (Req.harmless_of_isRead trivial)
  unfold prepare bindSchema bindChain
  refine (calm_lockerExists name).bind fun preExisting => (calm_lockerId name).bind fun id => ?_
  refine Prog.Only.bind (get.bind fun found => ?_) fun _ => ?_
  · split
    · split
      · exact Prog.only_fail
      · split
        · exact Prog.only_fail
        · exact Prog.only_pure
    · exact only_commit (harmless_meta (schemaKey_ne_counter id))
  refine Prog.Only.bind (get.bind fun found => ?_) fun _ => Prog.only_pure
  split
  · refine Prog.only_ofExcept.bind fun stored => ?_
    split
    · exact Prog.only_fail
    · exact Prog.only_pure
  · split
    · exact Prog.only_fail
    · exact only_commit (harmless_meta (chainKey_ne_counter id))

theorem calm_loadRam (inner : Inner V) (kind : TxMode) :
    (loadRam inner kind).Only Req.Harmless KeepsIds := by
  have reads {ρ β : Type} {C : ρ → ρ → Prop} {p : Io ρ β} (hp : Reads p) : p.Only Req.Harmless C :=
    hp.mono (fun _ => Req.harmless_of_isRead) fun _ _ h => h.elim
  cases kind with
  | lazy =>
    have opens : (LazyLocker.openLocker inner).Only Req.Harmless
        fun s s' : Shared => s'.values = s.values := by
      unfold LazyLocker.openLocker openLru
      refine (reads (reads_walk _ _ _ _ _ _ _)).bind fun index => Prog.Only.bind ?_ fun _ => Prog.only_pure
      split
      · exact Prog.only_pure
      · refine Prog.Only.bind ?_ fun state => Prog.only_pure
        exact (only_loadLru _ _ _).mono (fun _ => Req.harmless_of_isRead) fun _ _ h => h
    unfold loadRam
    refine Prog.Only.map (opens.zoom.mono (fun _ h => h) ?_)
    rintro b _ ⟨shared, values, rfl⟩
    exact values
  | eager =>
    unfold loadRam EagerLocker.openLocker
    refine Prog.Only.map ?_
    split
    · exact Prog.only_fail
    · refine (reads (reads_walk _ _ _ _ _ _ _)).bind fun acc => ?_
      split
      · exact Prog.only_fail
      · exact Prog.only_pure

theorem issues_openAs (kind : TxMode) (name tag : String) (value : Postcard V) (config : LockerConfig) :
    Issues ids i (fun _ => True) (openAs env kind name tag value config) fun _ _ => True := by
  refine issues_harmless ?_
  rw [openAs_eq]
  refine Prog.Only.bind (Prog.only_sync.2 fun _ => rfl) fun _ => Prog.Only.bind ?_ fun chain => ?_
  · unfold chainFor
    split
    · exact Prog.Only.bind (Prog.only_update.2 fun _ => rfl) fun _ => Prog.only_pure
    · exact Prog.only_pure
  refine Prog.Only.bind (Prog.only_read.2 fun _ => rfl) fun found => ?_
  cases found with
  | some o => exact Prog.only_ofExcept
  | none =>
    refine (calm_prepare name tag chain).bind fun id => (calm_loadRam _ kind).bind fun ram => ?_
    rw [claimOpen_eq]
    refine Prog.only_sync.2 fun bank => ?_
    split
    · rfl
    · rfl

theorem issues_deleteLocker (name : String) :
    Issues ids i (fun _ => True) (deleteLocker env name : Io (Bank V) Bool) fun _ _ => True := by
  have calm {β : Type} {p : Io (Bank V) β} (hp : p.Only Req.Harmless KeepsIds) :
      Issues ids i (fun _ => True) p fun _ _ => True := issues_harmless hp
  unfold deleteLocker
  refine Triple.bind (calm (Prog.only_read.2 fun _ => rfl)) (fun busy => ?_) fun _ _ _ => trivial
  split
  · exact calm Prog.only_fail
  refine Triple.bind (calm (calm_lockerExists name)) (fun known => ?_) fun _ _ _ => trivial
  split
  · exact calm Prog.only_pure
  refine Triple.bind (calm (calm_lockerId name)) (fun id => ?_) fun _ _ _ => trivial
  refine Triple.bind (calm ?_) (fun chain => ?_) fun _ _ _ => trivial
  · unfold lockerChainOrBank
    refine Prog.Only.bind (Backend.only_get.2 (Req.harmless_of_isRead trivial)) fun found => ?_
    cases found with
    | none => exact Prog.only_pure
    | some raw =>
      refine Prog.only_ofExcept.bind fun stored => ?_
      split
      · exact Prog.only_pure
      · exact Prog.Only.bind (Prog.only_read.2 fun _ => rfl) fun _ => Prog.only_pure
  refine Triple.bind ((issues_reads firm_true (reads_clearValueOps _)).gives harmless_clearValueOps)
    (fun ops => ?_) fun _ _ _ => trivial
  refine Triple.given (fun a h => h.2 ops rfl) fun hops => ?_
  refine Triple.mono (K := fun _ => True) ?_ (fun _ _ => trivial) fun _ _ h => h
  refine calm (Prog.Only.bind (only_commit (hops.append ?_)) fun _ => ?_)
  · refine harmless_of_forall fun op hop i a => ?_
    rcases List.mem_pair.1 hop with rfl | rfl
    · exact lockerKey_ne_counter name
    · exact schemaKey_ne_counter id
  · refine Prog.Only.bind (Prog.only_update.2 fun _ => rfl) fun _ => ?_
    exact Prog.Only.bind (Prog.only_update.2 fun _ => rfl) fun _ => Prog.only_pure

/-! ## All calls -/

theorem abides_onLazy {call : Inner V → Io (Ram V) α} {k : Nat} {G : Except Error α → Sight → Prop}
    (hcall : ∀ inner, Issues Ram.ids i (fun _ => True) (call inner) G)
    (failed : ∀ e a, G (.error e) a) : Abides i (fun _ => True) (onLazy k call) G := by
  unfold onLazy
  refine Triple.bind (abides_calm (Prog.only_read.2 fun _ => rfl)) (fun found => ?_)
    fun e a _ => failed e a
  cases found with
  | none => exact Triple.stuck
  | some slot => exact Abides.slot (hcall slot.inner)

theorem abides_onSlot {call : Inner V → Io (Ram V) Unit} {k : Nat} {mode : TxMode}
    (hcall : ∀ inner, Behaves i (call inner)) :
    Abides i (fun _ => True) (onSlot k mode call) fun _ _ => True := by
  unfold onSlot
  refine Triple.bind (abides_calm (Prog.only_read.2 fun _ => rfl)) (fun found => ?_) fun _ _ _ => trivial
  cases found with
  | none => exact Triple.stuck
  | some slot => exact Triple.map (Abides.slot (hcall slot.inner))

end Bank

/-- The answers of a reader are those that it may give. -/
def Outcome.Faithful {V : Type} (i : Nat) (key : Bytes) (n : Nat) : Outcome V → Sight → Prop
  | .done, _ => True
  | .read inner xs, a => LazyLocker.ReadsOver inner i key n xs a

section
variable {V : Type} {env : BankEnv} {i : Nat}

open Bank

theorem BankCall.abides {c : BankCall V} (sound : (BankUse.call c).Sound) :
    Abides i (fun _ => True) (c.prog env) fun _ _ => True := by
  cases c with
  | opens kind name tag value config =>
    refine Triple.map ?_
    exact Abides.bank (issues_openAs kind name tag value config)
  | deletes name =>
    refine Triple.map ?_
    exact Abides.bank (issues_deleteLocker name)
  | lazy slot call =>
    have plain : call.Plain := sound
    unfold BankCall.prog
    exact abides_onSlot fun _ => LazyCall.behaves plain
  | eager slot call =>
    unfold BankCall.prog
    exact abides_onSlot fun _ => call.behaves
  | release slot =>
    refine Triple.map ?_
    exact abides_calm (Prog.only_update.2 fun _ => rfl)

/-- Every call of a bank keeps the rules of value ids. -/
theorem BankUse.abides {u : BankUse V} (sound : u.Sound) :
    Abides i (fun _ => True) (u.prog env) fun _ _ => True := by
  have onLazy {call : Inner V → Io (Ram V) (Outcome V)} {k : Nat}
      (hcall : ∀ inner, Issues Ram.ids i (fun _ => True) (call inner) fun _ _ => True) :
      Abides i (fun _ => True) (onLazy k call) fun _ _ => True := abides_onLazy hcall fun _ _ => trivial
  cases u with
  | call c =>
    unfold BankUse.prog
    exact Triple.map (BankCall.abides sound)
  | streams slot key bufs ending =>
    unfold BankUse.prog
    exact onLazy fun _ => Triple.map (LazyLocker.behaves_streaming key bufs ending)
  | reads slot key n =>
    unfold BankUse.prog
    refine onLazy fun _ => Triple.map ?_
    exact (LazyLocker.reading_yields key n).mono (fun _ h => h) fun _ _ _ => trivial

theorem BankUse.reads_faithful (slot : Nat) (key : Bytes) (n : Nat) :
    Abides i (fun _ => True) ((BankUse.reads slot key n : BankUse V).prog env)
      fun r a => ∀ x, r = .ok x → x.Faithful i key n a := by
  have onLazy {call : Inner V → Io (Ram V) (Outcome V)} (hcall : ∀ inner, Issues Ram.ids i
      (fun _ => True) (call inner) fun r a => ∀ x, r = .ok x → x.Faithful i key n a) :
      Abides i (fun _ => True) (onLazy slot call) fun r a => ∀ x, r = .ok x → x.Faithful i key n a :=
    abides_onLazy hcall fun _ _ _ h => by cases h
  unfold BankUse.prog
  refine onLazy fun inner => Triple.map ?_
  refine (LazyLocker.reading_yields key n).mono (fun _ h => h) fun r a h x hx => ?_
  cases r with
  | error e => cases hx
  | ok xs =>
    obtain rfl := Except.ok.inj hx
    exact h xs rfl

end

/-! ## Runs -/

/-- No call has taken a value id, or read a record. -/
def Issue.fresh : Issue := ⟨fun _ => none, fun _ => none⟩

namespace Bank
variable {V : Type} {env : BankEnv}

abbrev UsePool (V : Type) := Pool SysReq SysResp Error (Bank V) (Outcome V) Tables

/-- The runs of any calls of a bank. -/
abbrev BankUses (env : BankEnv) (start : Machine Tables (Bank V)) (P : UsePool V) (g : Issue) : Prop :=
  Pool.Noted SysServed noteSession
    (fun _ _ l _ => ∀ p, l = .start p → ∃ u : BankUse V, u.Sound ∧ p = u.prog env) ⟨start, .fresh⟩ P g

/-- A reader answers with what was stored when it was opened, or fails, whatever else is called. -/
theorem reader_yields {start : Machine Tables (Bank V)}
    (apart : Apart start.dev (idCursor start.dev start.mem.shared)) {P : UsePool V} {g : Issue}
    (run : BankUses env start P g) {i : Nat} {t : Task SysReq SysResp Error (Bank V) (Outcome V)}
    (at_i : P.tasks[i]? = some t) {slot : Nat} {key : Bytes} {n : Nat}
    (reads : t.call = (BankUse.reads slot key n).prog env) {inner : Inner V}
    {xs : List (Except Error (Option Bytes))} (returned : t.rest = .ret (.read inner xs)) :
    ∃ db, g.opened i = some db ∧ ∀ raw p, db.lookup .records (inner.encodeKey key) = some raw →
      ChunkPointer.parse raw = .ok p →
        xs.length = n ∧ Reader.Yields inner (piecesOf db p.valueId) p.nChunks 0 xs ∧
          Reader.EndsAccounted inner (piecesOf db p.valueId) p.nChunks xs := by
  have outlines := Pool.Noted.safe (sessionSetting V) (fun _ => issueTerms ids) (fun _ => True)
    (fun _ _ _ _ _ _ => True)
    (fun p i _ r y => p = (BankUse.reads slot key n).prog env →
      ∀ x, r = .ok x → x.Faithful i key n (seen ids y)) run ?_ ?_ ?_ ?_
  · obtain ⟨inv, safe⟩ := outlines
    have moved : t.hist ≠ [] := by
      intro hnil
      have tidy : Pool.Tidy (fun _ => True) P := run.tidy fun _ _ _ _ _ => trivial
      have after := (tidy t (List.mem_of_getElem? at_i)).2
      rw [hnil, reads, returned] at after
      cases after
    have done := (safe i t at_i).2 ⟨moved, .inl trivial⟩
    rw [returned] at done
    obtain ⟨db, opened, yields⟩ := done _ ((issueTerms ids).rely_refl i _) inv reads _ rfl
    refine ⟨db, opened, fun raw p hraw hp => ?_⟩
    obtain ⟨hlen, hxs⟩ := yields raw p hraw hp
    exact ⟨hlen, hxs, hxs.accounted⟩
  · refine ⟨fun id i h => (by cases h), fun k raw p hrow hp => ⟨?_, rfl⟩⟩
    exact apart.below k raw p hrow hp
  · rintro P g p P' starts i y -
    obtain ⟨u, sound, rfl⟩ := starts p rfl
    by_cases same : u.prog env = (BankUse.reads slot key n).prog env
    · rw [same]
      exact (BankUse.reads_faithful slot key n [] y trivial).mono fun _ _ _ _ h _ => h
    · exact (BankUse.abides sound [] y trivial).mono fun _ _ _ _ _ h => absurd h same
  · exact fun _ _ _ _ _ _ _ _ _ _ _ _ => trivial
  · intro P g l P' i t e rest j t' _ _ _ _ hj _ _ _ guar
    exact guar j hj

/-! ## A value that goes, and one that is damaged -/

section
open Pool.Choice

def twoPieces (first second : Bytes) : Tables :=
  Tables.empty.commit [.put .records (Inner.plain.encodeKey (ascii "k"))
      (ChunkPointer.encode ⟨0, 2, 2, FLAG_RAW⟩),
    .put .chunks (chunkKey 0 0) first, .put .chunks (chunkKey 0 1) second,
    .put .meta META_NEXT_VALUE_ID (u64be 1)]

def openedTwo (first second : Bytes) : Machine Tables (Bank Bytes) :=
  ⟨twoPieces first second, { Bank.fresh Bytes with
    slots := [⟨Inner.plain, .opened .fresh (.new .lazy (some ((∅ : KeySet).insert (ascii "k"))) none) ∅,
      true⟩] }⟩

/-- The one record of the store is its pointer. -/
theorem apart_openedTwo (first second : Bytes) : Apart (openedTwo first second).dev
    (idCursor (openedTwo first second).dev (openedTwo first second).mem.shared) := by
  have row {k raw : Bytes} (h : (twoPieces first second).lookup .records k = some raw) :
      k = Inner.plain.encodeKey (ascii "k") ∧ raw = ChunkPointer.encode ⟨0, 2, 2, FLAG_RAW⟩ := by
    rw [twoPieces, Tables.lookup_commit] at h
    by_cases hk : Inner.plain.encodeKey (ascii "k") = k
    · simp [written_cons, Op.written, hk] at h
      exact ⟨hk.symm, h.symm⟩
    · simp [written_cons, Op.written, hk, Tables.lookup, Tables.get, Tables.empty] at h
  refine ⟨fun k k' raw raw' p p' h h' _ _ _ => ?_, fun k raw p h hp => ?_⟩
  · rw [(row h).1, (row h').1]
  · rw [(row h).2] at hp
    have hid : (ChunkPointer.parse (ChunkPointer.encode ⟨0, 2, 2, FLAG_RAW⟩)).map (·.valueId) = .ok 0 := by
      decide
    rw [hp] at hid
    have hcursor : idCursor (openedTwo first second).dev (openedTwo first second).mem.shared = 1 := by
      have hmeta : (twoPieces first second).lookup .meta META_NEXT_VALUE_ID = some (u64be 1) := by
        rw [twoPieces, Tables.lookup_commit]
        simp [written_cons, Op.written]
      show ((parseCounter ((twoPieces first second).lookup .meta META_NEXT_VALUE_ID)).toOption.getD 0).toNat = 1
      rw [hmeta]
      decide
    have hzero : p.valueId = 0 := Except.ok.inj hid
    rw [hcursor, hzero]
    decide

abbrev UseChoice := Pool.Choice SysReq SysResp Error (Bank Bytes) (Outcome Bytes)

def asksThrice : BankUse Bytes := .reads 0 (ascii "k") 3

def deletesIt : BankUse Bytes := .call (.lazy 0 (.delete (ascii "k")))

/-- The reader opens and yields the first piece, then the value is deleted. -/
def deleteBetween : List UseChoice :=
  start (asksThrice.prog BankEnv.plain) :: [run 0, run 0, answer 0 0, answer 0 0] ++
  start (deletesIt.prog BankEnv.plain) :: [run 1, run 1, answer 1 0, run 1, answer 1 0, run 1, answer 1 0,
    run 1, run 1, run 1, run 1] ++ [answer 0 0, answer 0 0]

/-- The second piece of the value is damaged, and the reader is asked to its end. -/
def readDamaged : List UseChoice :=
  start (asksThrice.prog BankEnv.plain) :: [run 0, run 0, answer 0 0, answer 0 0, answer 0 0]

/-- The answers of a reader, and the record and the second piece of the store it has opened over. -/
abbrev Found := List (Option (Option Bytes)) × Option (Option Bytes × Option Bytes)

def readOf (Pg : UsePool Bytes × Issue) : Option Found :=
  match (Pg.1.tasks[0]?.bind fun t => t.rest.returned : Option (Outcome Bytes)) with
  | some (.read inner xs) => some (xs.map Except.toOption,
    (Pg.2.opened 0).map fun db => (db.lookup .records (inner.encodeKey (ascii "k")),
      (db.lookup .chunks (chunkKey 0 1)).bind fun raw => (inner.chain.openStored raw).toOption))
  | _ => none

def readAfter (cs : List UseChoice) (start : Machine Tables (Bank Bytes)) : Option Found :=
  (Pool.execNoting serveSys noteSession (fun _ _ _ => true) cs (⟨start, []⟩, .fresh)).bind readOf

/-- A computed run whose first call is the reader. -/
theorem read_of_exec {cs : List UseChoice} {start : Machine Tables (Bank Bytes)}
    {found : Found} (h : readAfter cs start = some found)
    (starts : ∀ p, .start p ∈ cs → ∃ u : BankUse Bytes, u.Sound ∧ p = u.prog BankEnv.plain)
    (first : (Pool.started cs)[0]? = some (asksThrice.prog BankEnv.plain)) :
    ∃ (P : UsePool Bytes) (g : Issue) (t : Task SysReq SysResp Error (Bank Bytes) (Outcome Bytes))
      (inner : Inner Bytes) (xs : List (Except Error (Option Bytes))),
      BankUses BankEnv.plain start P g ∧ P.tasks[0]? = some t ∧
        t.call = (BankUse.reads 0 (ascii "k") 3).prog BankEnv.plain ∧ t.rest = .ret (.read inner xs) ∧
        found = (xs.map Except.toOption,
          (g.opened 0).map fun db => (db.lookup .records (inner.encodeKey (ascii "k")),
            (db.lookup .chunks (chunkKey 0 1)).bind fun raw =>
              (inner.chain.openStored raw).toOption)) := by
  obtain ⟨Pg, hPg, hread⟩ := Option.bind_eq_some_iff.1 h
  have hcalls := congrArg (·[0]?) (Pool.calls_of_execNoting hPg)
  rw [List.map_nil, List.nil_append, first, List.getElem?_map] at hcalls
  obtain ⟨t, ht, hcall⟩ := Option.map_eq_some_iff.1 hcalls
  unfold readOf at hread
  rw [ht, Option.bind_some] at hread
  split at hread
  · next inner xs hret =>
    refine ⟨Pg.1, Pg.2, t, inner, xs, ?_, ht, hcall, Prog.eq_ret_of_returned hret,
      (Option.some.inj hread).symm⟩
    exact Pool.Noted.exec (x := ⟨start, Issue.fresh⟩) serveSys_sound .start
      (fun P g l P' _ hl _ p hp => starts p (hl p hp)) hPg
  · cases hread

def sealedPiece (b : UInt8) : Bytes := (Inner.plain.chain.sealSlice [b]).toOption.getD []

theorem parse_twoPieces : ChunkPointer.parse (ChunkPointer.encode ⟨0, 2, 2, FLAG_RAW⟩) =
    .ok ⟨0, 2, 2, FLAG_RAW⟩ := rfl

/-- The value goes while it is read. -/
theorem reader_yields_deleted : ∃ (xs : List (Except Error (Option Bytes))) (inner : Inner Bytes)
    (db : Tables), xs.map Except.toOption = [some (some [7]), none, none] ∧
      xs.length = 3 ∧ Reader.Yields inner (piecesOf db 0) 2 0 xs ∧
        Reader.EndsAccounted inner (piecesOf db 0) 2 xs := by
  have h : readAfter deleteBetween (openedTwo (sealedPiece 7) (sealedPiece 8)) =
      some ([some (some [7]), none, none],
        some (some (ChunkPointer.encode ⟨0, 2, 2, FLAG_RAW⟩), some [8])) := by decide +kernel
  have starts (p : SysIo Bytes (Outcome Bytes)) (hp : .start p ∈ deleteBetween) :
      ∃ u : BankUse Bytes, u.Sound ∧ p = u.prog BankEnv.plain := by
    have hmem : p = asksThrice.prog BankEnv.plain ∨ p = deletesIt.prog BankEnv.plain := by
      simpa [deleteBetween] using hp
    rcases hmem with rfl | rfl
    · exact ⟨asksThrice, trivial, rfl⟩
    · exact ⟨deletesIt, trivial, rfl⟩
  obtain ⟨P, g, t, inner, xs, run, ht, hcall, hret, hfound⟩ := read_of_exec h starts rfl
  obtain ⟨hxs, hdb⟩ := Prod.mk.inj hfound
  obtain ⟨db, opened, yields⟩ := reader_yields (apart_openedTwo _ _) run ht hcall hret
  rw [opened, Option.map_some, Option.some.injEq, Prod.mk.injEq] at hdb
  have answered := yields _ _ hdb.1.symm parse_twoPieces
  exact ⟨xs, inner, db, hxs.symm, answered⟩

/-- A reader goes past a piece that does not open, and then reports the end. -/
theorem reader_skips : ¬ ∀ (start : Machine Tables (Bank Bytes)) (P : UsePool Bytes) (g : Issue) (i : Nat)
    (t : Task SysReq SysResp Error (Bank Bytes) (Outcome Bytes)) (slot : Nat) (key : Bytes) (n : Nat)
    (inner : Inner Bytes) (xs : List (Except Error (Option Bytes))),
    Apart start.dev (idCursor start.dev start.mem.shared) → BankUses BankEnv.plain start P g →
    P.tasks[i]? = some t → t.call = (BankUse.reads slot key n).prog BankEnv.plain →
    t.rest = .ret (.read inner xs) →
    ∃ db, g.opened i = some db ∧ ∀ raw p, db.lookup .records (inner.encodeKey key) = some raw →
      ChunkPointer.parse raw = .ok p →
        Reader.Yields inner (piecesOf db p.valueId) p.nChunks 0 xs ∧
          Reader.EndsWhole inner (piecesOf db p.valueId) p.nChunks xs := by
  intro h
  have hread : readAfter readDamaged (openedTwo (sealedPiece 7) []) =
      some ([some (some [7]), none, some none],
        some (some (ChunkPointer.encode ⟨0, 2, 2, FLAG_RAW⟩), none)) := by decide +kernel
  obtain ⟨P, g, t, inner, xs, run, ht, hcall, hret, hfound⟩ :=
    read_of_exec hread (fun p hp => ⟨asksThrice, trivial, by simpa [readDamaged] using hp⟩) rfl
  obtain ⟨db, opened, ends⟩ := h _ P g 0 t 0 (ascii "k") 3 inner xs (apart_openedTwo _ _) run ht hcall hret
  obtain ⟨hxs, hdb⟩ := Prod.mk.inj hfound
  rw [opened, Option.map_some, Option.some.injEq, Prod.mk.injEq] at hdb
  obtain ⟨hrow, hpiece⟩ := hdb
  obtain ⟨-, whole⟩ := ends _ _ hrow.symm parse_twoPieces
  obtain ⟨x, xs, rfl, -, hxs⟩ := List.map_eq_cons_iff.1 hxs.symm
  obtain ⟨y, xs, rfl, -, hxs⟩ := List.map_eq_cons_iff.1 hxs
  obtain ⟨z, xs, rfl, hz, hxs⟩ := List.map_eq_cons_iff.1 hxs
  obtain rfl := List.map_eq_nil_iff.1 hxs
  cases z with
  | error e => cases hz
  | ok v =>
    obtain rfl : v = none := Option.some.inj hz
    obtain ⟨b, ⟨stored, hstored, hopen⟩, -⟩ := whole [x, y] [] rfl 1 (by decide)
    rw [piecesOf] at hstored
    rw [hstored, Option.bind_some, hopen] at hpiece
    cases hpiece

end
end Bank
end Crossbank
