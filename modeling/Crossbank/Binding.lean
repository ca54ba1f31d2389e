import Crossbank.Backend.Outline
import Crossbank.Retry

/-!
# The recorded schema and chain

Opens of one name, interleaved. Each binds the schema and the chain of its locker by a read and a
later write, and the open that claims the name need not be the one whose writes landed last.

* `Recorded db id tag chain` : the schema and the chain recorded for a locker;
* `BindsInTime` : a schema or a chain lands only where none, or the same one, is recorded;
* `bindingTerms` : what the steps of an open keep, and what it counts on (`safe_openAs`);
* `recorded_of_bindsInTime` : in such runs the records are those of the locker that is open, which
  others need not have (`recorded_late`).
-/

namespace Crossbank
open Async

namespace Bank
variable {V : Type} {env : BankEnv}

/-! ## Records -/

/-- The key of a schema record or of a chain record. -/
def IsBinding (key : Bytes) : Prop := (∃ id, key = schemaKey id) ∨ ∃ id, key = chainKey id

structure Recorded (db : Tables) (id : LockerId) (tag : String) (chain : UInt8) : Prop where
  schema : db.lookup .meta (schemaKey id) = some (asBytes tag)
  chain : db.lookup .meta (chainKey id) = some [chain]

def KeepsBindings (db db' : Tables) : Prop :=
  ∀ key v, IsBinding key → db.lookup .meta key = some v → db'.lookup .meta key = some v

theorem KeepsBindings.refl (db : Tables) : KeepsBindings db db := fun _ _ _ h => h

theorem KeepsBindings.trans {db db' db'' : Tables} (first : KeepsBindings db db')
    (second : KeepsBindings db' db'') : KeepsBindings db db'' :=
  fun key v hkey h => second key v hkey (first key v hkey h)

theorem Recorded.keeps {db db' : Tables} {id : LockerId} {tag : String} {chain : UInt8}
    (h : Recorded db id tag chain) (keeps : KeepsBindings db db') : Recorded db' id tag chain :=
  ⟨keeps _ _ (.inl ⟨id, rfl⟩) h.schema, keeps _ _ (.inr ⟨id, rfl⟩) h.chain⟩

theorem keepsBindings_registration (db : Tables) (name : String) (id bumped : LockerId) :
    KeepsBindings db (db.commit (registration name id bumped)) := by
  rintro key v hkey h
  rw [← h]
  refine lookup_commit_of_family fun op hop => ?_
  have hfamily : key.take 2 = [115, 99] ∨ key.take 2 = [99, 104] := by
    rcases hkey with ⟨id, rfl⟩ | ⟨id, rfl⟩
    · exact .inl (family_schemaKey id)
    · exact .inr (family_chainKey id)
  simp only [registration, List.mem_cons, List.not_mem_nil, or_false] at hop
  rcases hop with rfl | rfl
  · refine ⟨_, _, rfl, ?_⟩
    rw [family_lockerKey]
    rcases hfamily with hf | hf
    · rw [hf]
      decide
    · rw [hf]
      decide
  · refine ⟨_, _, rfl, ?_⟩
    rw [family_counter]
    rcases hfamily with hf | hf
    · rw [hf]
      decide
    · rw [hf]
      decide

theorem keepsBindings_put {db : Tables} {key value : Bytes}
    (h : db.lookup .meta key = none ∨ db.lookup .meta key = some value) :
    KeepsBindings db (db.commit [.put .meta key value]) := by
  intro key' v _ hv
  rw [Tables.lookup_commit, written_cons, written_nil]
  by_cases hk : key = key'
  · subst hk
    rcases h with h | h
    · rw [h] at hv
      cases hv
    · rw [h] at hv
      obtain rfl := Option.some.inj hv
      simp [Op.written]
  · simpa [Op.written, hk] using hv

theorem lookup_commit_put (db : Tables) (key value : Bytes) :
    (db.commit [.put .meta key value]).lookup .meta key = some value := by
  simp [Tables.lookup_commit, written_cons, Op.written]

theorem eq_of_chainIdFrom {raw : Bytes} {stored : UInt8} (h : chainIdFrom raw = .ok stored) :
    raw = [stored] := by
  unfold chainIdFrom at h
  split at h
  · rw [Except.ok.inj h]
  · cases h

/-! ## What an open keeps -/

abbrev BankScene (V : Type) := Scene Tables (Bank V) Unit

/-- An open locker has the records of its id. -/
def bindingSetting (V : Type) (name : String) : Setting Req Resp Tables (Bank V) Unit where
  sem := Served
  next _ _ _ _ g := g
  inv x := ∀ o, openLocker name x.machine.mem = some o → ∃ slot : Slot V,
    x.machine.mem.slots[o.slot]? = some slot ∧
      Recorded x.machine.dev slot.inner.id o.typeTag slot.inner.chain.id

/-- Records stay, and a slot stays what it was opened with. -/
structure KeepsBound (x y : BankScene V) : Prop where
  rows : KeepsBindings x.machine.dev y.machine.dev
  slots : ∀ (k : Nat) (slot : Slot V), x.machine.mem.slots[k]? = some slot →
    ∃ slot' : Slot V, y.machine.mem.slots[k]? = some slot' ∧ slot'.inner = slot.inner

theorem KeepsBound.refl (x : BankScene V) : KeepsBound x x :=
  ⟨.refl _, fun _ slot h => ⟨slot, h, rfl⟩⟩

theorem KeepsBound.trans {x y z : BankScene V} (first : KeepsBound x y) (second : KeepsBound y z) :
    KeepsBound x z := by
  refine ⟨first.rows.trans second.rows, fun k slot h => ?_⟩
  obtain ⟨slot', h', hi⟩ := first.slots k slot h
  obtain ⟨slot'', h'', hi'⟩ := second.slots k slot' h'
  exact ⟨slot'', h'', hi'.trans hi⟩

def bindingTerms (V : Type) : Terms Tables (Bank V) Unit where
  rely _ := KeepsBound
  guar _ := KeepsBound
  rely_refl _ := .refl
  rely_trans _ _ _ _ := .trans

def bindingRules (V : Type) (name : String) : Rules Req Resp Tables (Bank V) Unit :=
  ⟨bindingSetting V name, bindingTerms V⟩

/-- A schema or a chain lands only where none, or the same one, is recorded. -/
def LandsInTime (e : Event Req Resp (Bank V)) (db : Tables) : Prop :=
  ∀ ops options, e = .io (.commit ops options) (.ok ()) → ∀ key value, IsBinding key →
    .put .meta key value ∈ ops → db.lookup .meta key = none ∨ db.lookup .meta key = some value

section
variable {name tag : String} {id : LockerId} {chain : FilterChain} {i : Nat}
  {h : List (Event Req Resp (Bank V))} {x : BankScene V} {α : Type}

abbrev inTime (_ : List (Event Req Resp (Bank V))) (e : Event Req Resp (Bank V)) (y : BankScene V)
    (_ : Machine Tables (Bank V)) : Prop :=
  LandsInTime e y.machine.dev

def SameOpen (b b' : Bank V) : Prop := b'.openLockers = b.openLockers ∧ b'.slots = b.slots

theorem SameOpen.openLocker {b b' : Bank V} (same : SameOpen b b') :
    openLocker name b' = openLocker name b := by
  simp only [Bank.openLocker, same.1, same.2]

theorem allows_of_keeps {y : BankScene V} (hy : (bindingRules V name).inv y)
    {m : Machine Tables (Bank V)} (e : Event Req Resp (Bank V))
    (rows : KeepsBindings y.machine.dev m.dev) (same : SameOpen y.machine.mem m.mem) :
    (bindingRules V name).Allows i e y m ∧ KeepsBound y ((bindingRules V name).move i e y m) := by
  have kept : KeepsBound y ((bindingRules V name).move i e y m) :=
    ⟨rows, fun k slot hk => ⟨slot, (congrArg (·[k]?) same.2).trans hk, rfl⟩⟩
  refine ⟨⟨fun o ho => ?_, kept⟩, kept⟩
  obtain ⟨slot, hslot, hrec⟩ := hy o (same.openLocker ▸ ho)
  exact ⟨slot, (congrArg (·[o.slot]?) same.2).trans hslot, hrec.keeps rows⟩

theorem safe_reading {K : BankScene V → Prop} {p : Io (Bank V) α} (hp : p.Only Req.isRead SameOpen)
    (stable : ∀ y z, K y → KeepsBound y z → K z) (hx : K x) :
    p.Safe (bindingRules V name) i inTime (fun _ _ y => K y) h x := by
  refine Prog.Safe.of_only hp (fun y z hy hyz _ => stable y z hy hyz) ?_ ?_ hx
  · intro y s hK hy hs
    obtain ⟨allowed, kept⟩ := allows_of_keeps (i := i) (m := { y.machine with mem := s }) hy
      (.ram y.machine.mem s) (.refl _) hs
    exact ⟨allowed, stable _ _ hK kept⟩
  · intro y q a m hK hy hq ha
    obtain rfl := served_read hq ha
    obtain ⟨allowed, kept⟩ := allows_of_keeps (i := i) (m := y.machine) hy (.io q a) (.refl _)
      ⟨rfl, rfl⟩
    exact ⟨allowed, stable _ _ hK kept⟩

/-- A commit that keeps the records, when it is in time. -/
theorem safe_landing {K : BankScene V → Prop} {ops : List Op}
    (rows : ∀ db, LandsInTime (.io (.commit ops .immediate) (.ok ()) : Event Req Resp (Bank V)) db →
      KeepsBindings db (db.commit ops))
    (landed : ∀ y : BankScene V, (∃ db : Tables, y.machine.dev = db.commit ops) → K y)
    (stable : ∀ y z, K y → KeepsBound y z → K z) :
    (Backend.commit ops : Io (Bank V) Unit).Safe (bindingRules V name) i inTime
      (fun _ r y => ∀ u, r = .ok u → K y) h x := by
  refine Backend.safe_commitWith fun y _ hy a m ha may => ?_
  rcases ha with ⟨rfl, rfl⟩ | ⟨e, rfl, rfl⟩
  · obtain ⟨allowed, -⟩ := allows_of_keeps (i := i)
      (m := { y.machine with dev := y.machine.dev.commit ops }) hy
      (.io (.commit ops .immediate) (.ok ())) (rows _ may) ⟨rfl, rfl⟩
    exact ⟨allowed, fun z hyz _ _ _ => stable _ _ (landed _ ⟨_, rfl⟩) hyz⟩
  · obtain ⟨allowed, -⟩ := allows_of_keeps (i := i) (m := y.machine) hy
      (.io (.commit ops .immediate) (.error e)) (.refl _) ⟨rfl, rfl⟩
    exact ⟨allowed, fun z _ _ u hu => by cases hu⟩

/-! ## The outline of an open -/

theorem safe_lockerId (name' : String) : (lockerId name' : Io (Bank V) LockerId).Safe
    (bindingRules V name) i inTime (fun _ _ _ => True) h x := by
  unfold lockerId
  refine Prog.Safe.bind (fun _ _ _ => True) (safe_reading (by simp [SameOpen])
    (fun _ _ _ _ => trivial) trivial) ?_ fun _ _ _ _ _ => trivial
  intro h found y _ _
  cases found with
  | some id => exact fun _ _ _ => trivial
  | none =>
    refine Prog.Safe.bind (fun _ _ _ => True) (safe_reading (Backend.only_getMany.2 trivial)
      (fun _ _ _ _ => trivial) trivial) ?_ fun _ _ _ _ _ => trivial
    intro h found y _ _
    dsimp only
    split
    · exact safe_reading (Prog.only_ofExcept.bind fun id =>
        Prog.Only.bind (by simp [cache, SameOpen]) fun _ => Prog.only_pure)
        (fun _ _ _ _ => trivial) trivial
    · refine Prog.Safe.bind (fun _ _ _ => True) (safe_reading Prog.only_ofExcept
        (fun _ _ _ _ => trivial) trivial) ?_ fun _ _ _ _ _ => trivial
      intro h next y _ _
      split
      · exact fun _ _ _ => trivial
      · refine Prog.Safe.bind _ (safe_landing (K := fun _ => True)
          (fun db _ => keepsBindings_registration db name' next (next + 1)) (fun _ _ => trivial)
          fun _ _ _ _ => trivial) ?_ fun _ _ _ _ _ => trivial
        intro h _ y _ _
        exact safe_reading (Prog.Only.bind (by simp [cache, SameOpen]) fun _ => Prog.only_pure)
          (fun _ _ _ _ => trivial) trivial

theorem safe_bindSchema : (bindSchema id tag : Io (Bank V) Unit).Safe (bindingRules V name) i inTime
    (fun _ r y => ∀ u, r = .ok u → y.machine.dev.lookup .meta (schemaKey id) = some (asBytes tag))
    h x := by
  have stable (y z : BankScene V)
      (hy : y.machine.dev.lookup .meta (schemaKey id) = some (asBytes tag)) (hyz : KeepsBound y z) :
      z.machine.dev.lookup .meta (schemaKey id) = some (asBytes tag) :=
    hyz.rows _ _ (.inl ⟨id, rfl⟩) hy
  unfold bindSchema
  refine Prog.Safe.bind (fun _ r y => ∀ raw, r = .ok (some raw) →
    y.machine.dev.lookup .meta (schemaKey id) = some raw) ?_ ?_ fun _ _ _ _ _ _ hu => by cases hu
  · refine Backend.safe_get fun y _ hy a m ha _ => ?_
    obtain ⟨rfl, hfound⟩ := ha
    obtain ⟨allowed, -⟩ := allows_of_keeps (i := i) (m := y.machine) hy
      (.io (.get .meta (schemaKey id)) a) (.refl _) ⟨rfl, rfl⟩
    refine ⟨allowed, fun z hyz _ raw hraw => ?_⟩
    exact hyz.rows _ _ (.inl ⟨id, rfl⟩) (hfound (some raw) hraw).symm
  · intro h raw y _ hraw
    cases raw with
    | some raw =>
      have hrow := hraw raw rfl
      dsimp only
      split
      · exact fun _ _ _ _ hu => by cases hu
      · next stored hstored =>
        split
        · exact fun _ _ _ _ hu => by cases hu
        · next same =>
          intro z hyz _ _ _
          rw [asBytes_of_fromUtf8 hstored, not_not.1 same] at hrow
          exact stable y z hrow hyz
    | none =>
      refine safe_landing (fun db may => ?_) (fun y hy => ?_) stable
      · exact keepsBindings_put (may _ _ rfl _ _ (.inl ⟨id, rfl⟩) List.mem_cons_self)
      · obtain ⟨db, hdb⟩ := hy
        rw [hdb]
        exact lookup_commit_put db _ _

theorem safe_bindChain (preExisting : Bool) :
    (bindChain env id chain preExisting : Io (Bank V) Unit).Safe (bindingRules V name) i inTime
    (fun _ r y => ∀ u, r = .ok u → y.machine.dev.lookup .meta (chainKey id) = some [chain.id])
    h x := by
  have stable (y z : BankScene V)
      (hy : y.machine.dev.lookup .meta (chainKey id) = some [chain.id]) (hyz : KeepsBound y z) :
      z.machine.dev.lookup .meta (chainKey id) = some [chain.id] :=
    hyz.rows _ _ (.inr ⟨id, rfl⟩) hy
  unfold bindChain
  refine Prog.Safe.bind (fun _ r y => ∀ raw, r = .ok (some raw) →
    y.machine.dev.lookup .meta (chainKey id) = some raw) ?_ ?_ fun _ _ _ _ _ _ hu => by cases hu
  · refine Backend.safe_get fun y _ hy a m ha _ => ?_
    obtain ⟨rfl, hfound⟩ := ha
    obtain ⟨allowed, -⟩ := allows_of_keeps (i := i) (m := y.machine) hy
      (.io (.get .meta (chainKey id)) a) (.refl _) ⟨rfl, rfl⟩
    refine ⟨allowed, fun z hyz _ raw hraw => ?_⟩
    exact hyz.rows _ _ (.inr ⟨id, rfl⟩) (hfound (some raw) hraw).symm
  · intro h raw y _ hraw
    cases raw with
    | some raw =>
      have hrow := hraw raw rfl
      dsimp only
      refine Prog.Safe.bind (fun _ r z => z.machine.dev.lookup .meta (chainKey id) = some raw ∧
        r = chainIdFrom raw) ?_ ?_ fun _ _ _ _ _ _ hu => by cases hu
      · exact Prog.Safe.ofExcept fun z hyz _ => ⟨hyz.rows _ _ (.inr ⟨id, rfl⟩) hrow, rfl⟩
      · rintro h stored y _ ⟨hrow, hstored⟩
        split
        · exact fun _ _ _ _ hu => by cases hu
        · next same =>
          intro z hyz _ _ _
          rw [eq_of_chainIdFrom hstored.symm, not_not.1 same] at hrow
          exact stable y z hrow hyz
    | none =>
      dsimp only
      split
      · exact fun _ _ _ _ hu => by cases hu
      refine safe_landing (fun db may => ?_) (fun y hy => ?_) stable
      · exact keepsBindings_put (may _ _ rfl _ _ (.inr ⟨id, rfl⟩) List.mem_cons_self)
      · obtain ⟨db, hdb⟩ := hy
        rw [hdb]
        exact lookup_commit_put db _ _

/-- A resolved id has both records. -/
theorem safe_prepare : (prepare env name tag chain).Safe (bindingRules V name) i inTime
    (fun _ r y => ∀ id, r = .ok id → Recorded y.machine.dev id tag chain.id) h x := by
  unfold prepare
  refine Prog.Safe.bind (fun _ _ _ => True) (safe_reading ((reads_lockerExists name).mono
    (fun _ hq => hq) fun b b' hb => by rw [hb]; exact ⟨rfl, rfl⟩) (fun _ _ _ _ => trivial) trivial) ?_
    fun _ _ _ _ _ _ hu => by cases hu
  intro h preExisting y _ _
  refine Prog.Safe.bind (fun _ _ _ => True) (safe_lockerId name) ?_ fun _ _ _ _ _ _ hu => by cases hu
  intro h id y _ _
  refine Prog.Safe.bind _ safe_bindSchema ?_ fun _ _ _ _ _ _ hu => by cases hu
  intro h _ y _ hschema
  have schema := hschema () rfl
  have stable (y z : BankScene V)
      (hy : y.machine.dev.lookup .meta (schemaKey id) = some (asBytes tag)) (hyz : KeepsBound y z) :
      z.machine.dev.lookup .meta (schemaKey id) = some (asBytes tag) :=
    hyz.rows _ _ (.inl ⟨id, rfl⟩) hy
  refine Prog.Safe.bind _ ((safe_bindChain preExisting).frame stable
    (fun e y m hy ok => stable y _ hy ok.2) schema) ?_ fun _ _ _ _ _ _ hu => by cases hu
  rintro h _ y _ ⟨hchain, schema⟩
  intro z hyz _ found hfound
  obtain rfl := Except.ok.inj hfound
  exact Recorded.keeps ⟨schema, hchain () rfl⟩ hyz.rows

/-- The locker in a slot has the records of its id, and this tag. -/
def BoundAt (k : Nat) (tag : String) (y : BankScene V) : Prop :=
  ∃ slot : Slot V, y.machine.mem.slots[k]? = some slot ∧
    Recorded y.machine.dev slot.inner.id tag slot.inner.chain.id

theorem BoundAt.keeps {k : Nat} {y z : BankScene V} (hy : BoundAt k tag y) (hyz : KeepsBound y z) :
    BoundAt k tag z := by
  obtain ⟨slot, hslot, hrec⟩ := hy
  obtain ⟨slot', hslot', hi⟩ := hyz.slots k slot hslot
  exact ⟨slot', hslot', hi ▸ hrec.keeps hyz.rows⟩

theorem safe_claimOpen {kind : TxMode} {config : LockerConfig} {slot : Slot V}
    (hx : Recorded x.machine.dev slot.inner.id tag slot.inner.chain.id) :
    (claimOpen name kind tag config slot).Safe (bindingRules V name) i inTime
      (fun _ r y => ∀ k, r = .ok k → BoundAt k tag y) h x := by
  rw [claimOpen_eq]
  refine Prog.Safe.sync fun y hxy hy _ => ?_
  have bound := hx.keeps hxy.rows
  cases hopen : openLocker name y.machine.mem with
  | some winner =>
    have held : BoundAt winner.slot winner.typeTag y := hy winner hopen
    have kept : KeepsBound y ⟨{ y.machine with mem := y.machine.mem.share winner.slot }, y.record⟩ := by
      refine ⟨.refl _, fun k slot hk => ?_⟩
      dsimp only
      rw [getElem?_share, hk]
      refine ⟨_, rfl, ?_⟩
      split <;> rfl
    refine ⟨⟨fun o ho => ?_, kept⟩, fun z hyz _ k hk => ?_⟩
    · have same : openLocker name y.machine.mem = some o := openLocker_share.symm.trans ho
      exact BoundAt.keeps (hy o same) kept
    · obtain ⟨rfl, -, rfl⟩ := eq_of_checkShared hk
      exact held.keeps (kept.trans hyz)
  | none =>
    have kept : KeepsBound y ⟨{ y.machine with mem := y.machine.mem.claim name kind tag config slot },
        y.record⟩ := ⟨.refl _, fun k slot' hk => ⟨slot', getElem?_claim_of_some hk, rfl⟩⟩
    have new : BoundAt y.machine.mem.slots.length tag
        ⟨{ y.machine with mem := y.machine.mem.claim name kind tag config slot }, y.record⟩ :=
      ⟨slot, getElem?_claim_last, bound⟩
    refine ⟨⟨fun o ho => ?_, kept⟩, fun z hyz _ k hk => ?_⟩
    · obtain rfl := eq_of_openLocker_claim ho
      exact new
    · obtain rfl := Except.ok.inj hk
      exact new.keeps hyz

theorem safe_openAs (kind : TxMode) (value : Postcard V) (config : LockerConfig) :
    (openAs env kind name tag value config).Safe (bindingRules V name) i inTime
      (fun _ r y => ∀ k, r = .ok k → BoundAt k tag y) h x := by
  rw [openAs_eq]
  refine Prog.Safe.bind (fun _ _ _ => True) (safe_reading (by simp [ensureOpen, SameOpen])
    (fun _ _ _ _ => trivial) trivial) ?_ fun _ _ _ _ _ _ hu => by cases hu
  intro h _ y _ _
  refine Prog.Safe.bind (fun _ _ _ => True) (safe_reading ?_ (fun _ _ _ _ => trivial) trivial) ?_
    fun _ _ _ _ _ _ hu => by cases hu
  · unfold chainFor
    split
    · exact Prog.Only.bind (by simp [SameOpen]) fun _ => Prog.only_pure
    · exact Prog.only_pure
  intro h chain y _ _
  refine Prog.Safe.bind (fun _ r y => ∀ o, r = .ok (some o) → BoundAt o.slot o.typeTag y) ?_ ?_
    fun _ _ _ _ _ _ hu => by cases hu
  · refine Prog.Safe.read fun y _ hy _ => ?_
    obtain ⟨allowed, kept⟩ := allows_of_keeps (i := i) (m := y.machine) hy
      (.ram y.machine.mem y.machine.mem) (.refl _) ⟨rfl, rfl⟩
    refine ⟨allowed, fun z hyz _ o ho => ?_⟩
    have bound : BoundAt o.slot o.typeTag y := hy o (Except.ok.inj ho)
    exact bound.keeps (kept.trans hyz)
  · intro h found y _ hfound
    cases found with
    | some o =>
      refine Prog.Safe.ofExcept fun z hyz _ k hk => ?_
      obtain ⟨rfl, -, rfl⟩ := eq_of_checkShared hk
      exact (hfound o rfl).keeps hyz
    | none =>
      refine Prog.Safe.bind _ safe_prepare ?_ fun _ _ _ _ _ _ hu => by cases hu
      intro h id y _ hid
      have recorded := hid id rfl
      refine Prog.Safe.bind (fun _ _ y => Recorded y.machine.dev id tag chain.id)
        (safe_reading ?_ (fun _ _ hy hyz => hy.keeps hyz.rows) recorded) ?_
        fun _ _ _ _ _ _ hu => by cases hu
      · refine (only_loadRam _ kind).mono (fun _ hq => hq) ?_
        rintro b _ ⟨s, rfl⟩
        exact ⟨rfl, rfl⟩
      · intro h ram y _ recorded
        exact safe_claimOpen recorded

end

/-! ## Runs of opens -/

abbrev OpensPool (V : Type) := Pool Req Resp Error (Bank V) Nat Tables

/-- A schema or a chain that lands with this move lands where none, or the same one, is recorded. -/
def BindsInTime (P : OpensPool V) (l : Move Req Resp Error (Bank V) Nat) : Prop :=
  ∀ i q x, l = .io i q x → LandsInTime (.io q x : Event Req Resp (Bank V)) P.machine.dev

/-- The runs of opens of one name, of any kinds, tags, values and configs. -/
abbrev OpensOf (env : BankEnv) (name : String)
    (may : OpensPool V → Move Req Resp Error (Bank V) Nat → Prop) (start : Machine Tables (Bank V))
    (P : OpensPool V) : Prop :=
  Pool.Noted Served (fun _ _ _ _ (_ : Unit) => ())
    (fun P _ l _ => (∀ p, l = .start p → ∃ kind tag value config,
      p = openAs env kind name tag value config) ∧ may P l) ⟨start, ()⟩ P ()

/-- A later open with this tag and this chain passes the checks against the records of an id. -/
def Passes (V : Type) (env : BankEnv) (db : Tables) (id : LockerId) (tag : String)
    (chain : FilterChain) : Prop :=
  ∃ (preExisting : Bool) (bank : Bank V) (m m' : Machine Tables (Bank V)),
    Run Served (bindSchema id tag) ⟨db, bank⟩ (.ok ()) m ∧
      Run Served (bindChain env id chain preExisting) m (.ok ()) m'

/-- A value of this codec, sealed under this chain, has a payload that decodes within the limit. -/
def Seals (value : Postcard V) (chain : FilterChain) (v : V) (sealed : Bytes) : Prop :=
  value.encode chain v = .ok sealed ∧
    ∀ payload, value.toAllocvec v = .ok payload → payload.length ≤ MAX_DECODED_BYTES

/-- The records of its id are those of the locker in this slot, and whoever passes the checks against
them reads what it writes, where a tag names one codec and an id one chain. -/
structure ReadBack (env : BankEnv) (tag : String) (slot : Slot V) (db : Tables) : Prop where
  recorded : Recorded db slot.inner.id tag slot.inner.chain.id
  readable : ∀ tag' chain', Passes V env db slot.inner.id tag' chain' →
    tag' = tag ∧ chain'.id = slot.inner.chain.id ∧
    ∀ (value' : Postcard V) v sealed, (tag' = tag → value' = slot.inner.value) →
      (chain'.id = slot.inner.chain.id → chain' = slot.inner.chain) →
      slot.inner.value.Inverts → slot.inner.chain.Inverts →
      Seals slot.inner.value slot.inner.chain v sealed → value'.decode chain' sealed = .ok v

section
variable {name tag : String} {id : LockerId} {chain : FilterChain} {m m' : Machine Tables (Bank V)}

theorem Recorded.passes {db : Tables} {tag' : String} {chain' : FilterChain} {n : UInt8}
    (h : Recorded db id tag n) (passes : Passes V env db id tag' chain') :
    tag' = tag ∧ chain'.id = n := by
  obtain ⟨preExisting, bank, m, m', hschema, hchain⟩ := passes
  obtain ⟨raw, m₁, hget, hcheck⟩ := run_bind_ok.1 hschema
  obtain ⟨rfl, hraw⟩ := run_get.1 hget
  obtain rfl : raw = some (asBytes tag) := (hraw raw rfl).trans h.schema
  simp only [fromUtf8_asBytes] at hcheck
  split at hcheck
  · cases (run_fail.1 hcheck).1
  next sameTag =>
  obtain ⟨-, rfl⟩ := run_pure.1 hcheck
  obtain ⟨raw, m₂, hget, hcheck⟩ := run_bind_ok.1 hchain
  obtain ⟨rfl, hraw⟩ := run_get.1 hget
  obtain rfl : raw = some [n] := (hraw raw rfl).trans h.chain
  dsimp only at hcheck
  obtain ⟨stored, m₃, hstored, hlast⟩ := run_bind_ok.1 hcheck
  obtain ⟨hn, rfl⟩ := run_ofExcept.1 hstored
  obtain rfl : stored = n := Except.ok.inj hn
  split at hlast
  · cases (run_fail.1 hlast).1
  · next sameChain => exact ⟨(not_not.1 sameTag).symm, (not_not.1 sameChain).symm⟩

theorem readBack_of_recorded {slot : Slot V} {db : Tables}
    (h : Recorded db slot.inner.id tag slot.inner.chain.id) : ReadBack env tag slot db := by
  refine ⟨h, fun tag' chain' passes => ?_⟩
  obtain ⟨sameTag, sameChain⟩ := h.passes passes
  refine ⟨sameTag, sameChain, fun value' v sealed hvalue hchain inverts opens seals => ?_⟩
  obtain rfl := hvalue sameTag
  obtain rfl := hchain sameChain
  obtain ⟨hseal, small⟩ := seals
  obtain ⟨payload, hpayload, hsealed⟩ := bind_eq_ok.1 hseal
  have hbytes : slot.inner.value.toAllocvec v = .ok payload := by
    unfold Postcard.payload at hpayload
    split at hpayload
    · next bytes hb => rw [hb, Except.ok.inj hpayload]
    · cases hpayload
  refine bind_eq_ok.2 ⟨payload, opens payload sealed (small payload hbytes) hsealed, ?_⟩
  rw [Postcard.ofPayload, inverts v payload hbytes]

/-- The recorded schema and chain are those of the locker that is open, in every run in which a
schema or a chain lands only where none, or the same one, is recorded. -/
theorem recorded_of_bindsInTime {start : Machine Tables (Bank V)}
    (free : openLocker name start.mem = none) {P : OpensPool V}
    (run : OpensOf env name BindsInTime start P) {t : Task Req Resp Error (Bank V) Nat}
    (ht : t ∈ P.tasks) {kind : TxMode} {value : Postcard V} {config : LockerConfig}
    (opened : t.call = openAs env kind name tag value config) {k : Nat} (returned : t.rest = .ret k) :
    ∃ slot : Slot V, P.machine.mem.slots[k]? = some slot ∧ ReadBack env tag slot P.machine.dev := by
  obtain ⟨i, at_i⟩ := List.mem_iff_getElem?.1 ht
  have outlines := Pool.Noted.safe (bindingSetting V name) (fun _ => bindingTerms V) (fun _ => True)
    (fun _ _ => inTime) (fun p _ _ r y => p = openAs env kind name tag value config →
      ∀ k, r = .ok k → BoundAt k tag y) run ?_ ?_ ?_ ?_
  · obtain ⟨inv, safe⟩ := outlines
    have moved : t.hist ≠ [] := by
      intro hnil
      have tidy : Pool.Tidy (fun _ => True) P := run.tidy fun _ _ _ _ _ => trivial
      have after := (tidy t ht).2
      rw [hnil, opened, returned, openAs_eq] at after
      cases after
    have done := (safe i t at_i).2 ⟨moved, .inl trivial⟩
    rw [returned] at done
    obtain ⟨slot, hslot, recorded⟩ := done _ (.refl _) inv opened k rfl
    exact ⟨slot, hslot, readBack_of_recorded recorded⟩
  · intro o ho
    rw [free] at ho
    cases ho
  · rintro P g p P' ⟨starts, -⟩ i y -
    obtain ⟨kind', tag', value', config', rfl⟩ := starts p rfl
    by_cases same : openAs env kind' name tag' value' config' = openAs env kind name tag value config
    · rw [same]
      exact (safe_openAs kind value config).mono fun _ _ _ _ hpost _ => hpost
    · exact (safe_openAs kind' value' config').mono fun _ _ _ _ _ habs => absurd habs same
  · rintro P g l P' i t e rest ⟨-, inTime⟩ move mover moved
    rcases moved.cases move mover with ⟨f, k, -, -, rfl, -, -⟩ | ⟨q, d, k, x, rfl, -, rfl, -, -⟩
    · intro ops options hops
      cases hops
    · exact inTime i q x rfl
  · intro P g l P' i t e rest j t' _ _ _ _ _ _ _ _ guar
    exact guar

end

/-! ## Two opens -/

section
open Pool.Choice

abbrev OpensChoice := Pool.Choice Req Resp Error (Bank Bytes) Nat

def openTagged (tag : String) : Io (Bank Bytes) Nat :=
  openAs BankEnv.plain .lazy "a" tag .vecU8 {}

/-- Two opens under way at once. The second finds the schema of the first, which is still to claim the
name. -/
def earlyOpen : List OpensChoice :=
  start (openTagged "x") :: start (openTagged "y") :: [run 0, run 0, run 0, run 1, run 1, run 1,
    answer 0 0, run 0, answer 0 0, answer 0 0, run 0, answer 0 0, answer 0 0, answer 1 0, run 1,
    answer 1 0, answer 0 0, answer 0 0, answer 0 0, run 0]

/-- Two opens that both find no schema. The first binds its own and claims the name, and then the
second binds its own. -/
def lateOpen : List OpensChoice :=
  start (openTagged "x") :: start (openTagged "y") :: [run 0, run 0, run 0, answer 0 0, run 0,
    answer 0 0, answer 0 0, run 0, answer 0 0, run 1, run 1, run 1, run 1, answer 1 0, answer 0 0,
    answer 0 0, answer 0 0, answer 0 0, run 0, answer 1 0]

def overwritesNothing (P P' : OpensPool Bytes) : Bool :=
  P'.tasks.all fun t =>
    match t.hist.getLast? with
    | some (.io (.commit ops _) (.ok ())) => ops.all fun
      | .put .meta key value =>
        P.machine.dev.lookup .meta key = none || P.machine.dev.lookup .meta key = some value
      | _ => true
    | _ => true

theorem bindsInTime_of_overwritesNothing {P P' : OpensPool Bytes}
    {l : Move Req Resp Error (Bank Bytes) Nat} (move : Pool.Step Served P l P')
    (h : overwritesNothing P P' = true) : BindsInTime P l := by
  intro i q x hl ops options hlanded key value _ hop
  obtain ⟨rfl, hx⟩ := Event.io.inj hlanded
  obtain rfl := eq_of_heq hx
  subst hl
  cases move with
  | @io i t q d k x m at_i rest answer =>
    have moved := Pool.moved_set at_i m (.io (.commit ops options) (.ok ())) (k (.ok ()))
    have here := List.all_eq_true.1 h _ (List.mem_of_getElem? moved.after)
    simp only [List.getLast?_append, List.getLast?_singleton, Option.some_or] at here
    simpa using List.all_eq_true.1 here _ hop

/-- The first has bound its schema before the second reads it, which is refused. -/
theorem recorded_of_bindsInTime_two_opens : ∃ P : OpensPool Bytes, ∃ slot : Slot Bytes,
    P.machine.mem.slots[0]? = some slot ∧ ReadBack BankEnv.plain "x" slot P.machine.dev ∧
    P.tasks.map (fun t => (t.rest.finished, t.rest.returned)) =
      [(true, some 0), (true, none)] := by
  obtain ⟨Pg, hPg⟩ : ∃ Pg, Pool.execNoting serve (fun _ _ _ _ (_ : Unit) => ())
      (fun P _ P' => overwritesNothing P P') earlyOpen (⟨⟨.empty, Bank.fresh Bytes⟩, []⟩, ()) = some Pg :=
    Option.isSome_iff_exists.1 (by decide)
  have hcalls := congrArg (·[0]?) (Pool.calls_of_execNoting hPg)
  have hrest : (Pool.execNoting serve (fun _ _ _ _ (_ : Unit) => ())
      (fun P _ P' => overwritesNothing P P') earlyOpen (⟨⟨.empty, Bank.fresh Bytes⟩, []⟩, ())).map
      (fun Pg => (Pg.1.tasks[0]?.bind fun t => t.rest.returned,
        Pg.1.tasks.map fun t => (t.rest.finished, t.rest.returned))) =
      some (some 0, [(true, some 0), (true, none)]) := by decide
  rw [hPg] at hrest
  obtain ⟨hdone, hboth⟩ := Prod.mk.inj (Option.some.inj hrest)
  obtain ⟨t, ht, hdone⟩ := Option.bind_eq_some_iff.1 hdone
  simp only [List.getElem?_map, ht, Option.map_some] at hcalls
  have run : OpensOf BankEnv.plain "a" BindsInTime ⟨.empty, Bank.fresh Bytes⟩ Pg.1 := by
    refine Pool.Noted.exec serve_sound .start (fun P g l P' move hl hcheck => ⟨fun p hp => ?_, ?_⟩) hPg
    · have hmem : p = openTagged "x" ∨ p = openTagged "y" := by simpa [earlyOpen] using hl p hp
      rcases hmem with rfl | rfl
      · exact ⟨.lazy, "x", .vecU8, {}, rfl⟩
      · exact ⟨.lazy, "y", .vecU8, {}, rfl⟩
    · exact bindsInTime_of_overwritesNothing move hcheck
  obtain ⟨slot, hslot, back⟩ := recorded_of_bindsInTime (idle_fresh "a").free run
    (List.mem_of_getElem? ht) (Option.some.inj hcalls) (Prog.eq_ret_of_returned hdone)
  exact ⟨Pg.1, slot, hslot, back, hboth⟩

/-- An open can have returned a locker whose schema is not the recorded one. -/
theorem recorded_late : ¬ ∀ (P : OpensPool Bytes) (t : Task Req Resp Error (Bank Bytes) Nat) (k : Nat),
    OpensOf BankEnv.plain "a" (fun _ _ => True) ⟨.empty, Bank.fresh Bytes⟩ P → t ∈ P.tasks →
      t.call = openTagged "x" → t.rest = .ret k → ∃ slot : Slot Bytes,
        P.machine.mem.slots[k]? = some slot ∧ ReadBack BankEnv.plain "x" slot P.machine.dev := by
  intro h
  obtain ⟨Pg, hPg⟩ : ∃ Pg, Pool.execNoting serve (fun _ _ _ _ (_ : Unit) => ()) (fun _ _ _ => true)
      lateOpen (⟨⟨.empty, Bank.fresh Bytes⟩, []⟩, ()) = some Pg :=
    Option.isSome_iff_exists.1 (by decide)
  have hcall : (Pool.execNoting serve (fun _ _ _ _ (_ : Unit) => ()) (fun _ _ _ => true)
      lateOpen (⟨⟨.empty, Bank.fresh Bytes⟩, []⟩, ())).map
      (fun Pg => Pg.1.tasks[0]?.map Task.call) = some (some (openTagged "x")) := by rfl
  have hrest : (Pool.execNoting serve (fun _ _ _ _ (_ : Unit) => ()) (fun _ _ _ => true)
      lateOpen (⟨⟨.empty, Bank.fresh Bytes⟩, []⟩, ())).map
      (fun Pg => Pg.1.tasks[0]?.map Task.rest) = some (some (.ret 0)) := by rfl
  have hrow : (Pool.execNoting serve (fun _ _ _ _ (_ : Unit) => ()) (fun _ _ _ => true)
      lateOpen (⟨⟨.empty, Bank.fresh Bytes⟩, []⟩, ())).map (fun Pg =>
        (Pg.1.machine.mem.slots[0]?.map fun s => s.inner.id,
          Pg.1.machine.dev.lookup .meta (schemaKey 0))) = some (some 0, some (asBytes "y")) := by decide
  rw [hPg] at hcall hrest hrow
  obtain ⟨t, ht, hopen⟩ := Option.map_eq_some_iff.1 (Option.some.inj hcall)
  obtain ⟨t', ht', hdone⟩ := Option.map_eq_some_iff.1 (Option.some.inj hrest)
  obtain rfl := Option.some.inj (ht.symm.trans ht')
  have run : OpensOf BankEnv.plain "a" (fun _ _ => True) ⟨.empty, Bank.fresh Bytes⟩ Pg.1 := by
    refine Pool.Noted.exec serve_sound .start (fun P g l P' _ hl _ => ⟨fun p hp => ?_, trivial⟩) hPg
    have hmem : p = openTagged "x" ∨ p = openTagged "y" := by simpa [lateOpen] using hl p hp
    rcases hmem with rfl | rfl
    · exact ⟨.lazy, "x", .vecU8, {}, rfl⟩
    · exact ⟨.lazy, "y", .vecU8, {}, rfl⟩
  obtain ⟨slot, hslot, back⟩ := h Pg.1 t 0 run (List.mem_of_getElem? ht) hopen hdone
  obtain ⟨hid, hschema⟩ := Prod.mk.inj (Option.some.inj hrow)
  rw [hslot] at hid
  have hrecorded := back.recorded.schema
  rw [show slot.inner.id = 0 from Option.some.inj hid, hschema] at hrecorded
  exact absurd (asBytes_inj.1 (Option.some.inj hrecorded)) (by decide)

end

end Bank
end Crossbank
