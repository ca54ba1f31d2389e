import Crossbank.Backend.Outline
import Crossbank.Locker.Mirror
import Crossbank.System

/-!
# What an open starts from

An open scans the store and claims the name later, and other calls move in between.

* `Truthful slot db` : a locker holds what is stored: the keys of a lazy one, the values of an eager
  one;
* `noteOpens` : the stores that the scans of a call have seen, and the lockers as they were claimed;
* `openRules` : what every step of the system keeps (`BankCall.truthful`);
* `opened_truthful` : a locker starts from what is stored, if its records have not changed between
  the open's scans and its claim, which they may have (`opened_stale`).
-/

namespace Crossbank
open Async

namespace Bank
variable {V : Type} {env : BankEnv}

/-! ## The truth -/

def SameRecords (id : LockerId) (db db' : Tables) : Prop :=
  ∀ key, db.lookup .records (encodeBytes id key) = db'.lookup .records (encodeBytes id key)

theorem SameRecords.get {id : LockerId} {db db' : Tables} (h : SameRecords id db db')
    {key : Bytes} (own : ∃ k, key = encodeBytes id k) :
    (db.get .records)[key]? = (db'.get .records)[key]? := by
  obtain ⟨k, rfl⟩ := own
  exact h k

/-- What a locker holds is what is stored. -/
def Truthful (slot : Slot V) (db : Tables) : Prop :=
  match slot.ram.res.mode with
  | .lazy => ∃ index, slot.ram.res.index = some index ∧ ∀ key,
      index.contains key = (db.lookup .records (slot.inner.encodeKey key)).isSome
  | .eager => ∀ key, slot.ram.values[key]? = (db.lookup .records (slot.inner.encodeKey key)).bind
      fun raw => (slot.inner.value.decode slot.inner.chain raw).toOption

/-- What is recorded of a run: the stores that the scans of each call have seen, and each slot as it
was claimed, with the store of that moment. -/
structure OpenLog (V : Type) where
  seen : Nat → List Tables
  births : List (Slot V × Tables)

/-- A scan sees the store, and a step that adds a slot is the birth of its locker. -/
def noteOpens (i : Nat) (e : Event SysReq SysResp (Bank V)) (m m' : Machine Tables (Bank V))
    (g : OpenLog V) : OpenLog V where
  seen := match e with
    | .io (none, .scan request) _ =>
      if request.table = .records then Function.update g.seen i (g.seen i ++ [m.dev]) else g.seen
    | _ => g.seen
  births := match m'.mem.slots[m.mem.slots.length]? with
    | some slot => g.births ++ [(slot, m'.dev)]
    | none => g.births

abbrev SysScene (V γ : Type) := Scene Tables (Bank V) γ

/-- Every slot has a birth, and every birth was truthful. -/
structure BornTrue (x : SysScene V (OpenLog V)) : Prop where
  births : x.record.births.map (fun b => b.1.inner) = x.machine.mem.slots.map Slot.inner
  truthful : ∀ b ∈ x.record.births, Truthful b.1 b.2

/-- What others do to a call: its scans have seen what they have seen, and slots stay. -/
structure KeepsSeen (i : Nat) (x y : SysScene V (OpenLog V)) : Prop where
  seen : y.record.seen i = x.record.seen i
  slots : x.machine.mem.slots.map Slot.inner <+: y.machine.mem.slots.map Slot.inner

def openSetting (V : Type) : Setting SysReq SysResp Tables (Bank V) (OpenLog V) where
  sem := SysServed
  next := noteOpens
  inv := BornTrue

def openTerms (V : Type) : Terms Tables (Bank V) (OpenLog V) where
  rely := KeepsSeen
  guar i x y := ∀ j, j ≠ i → KeepsSeen j x y
  rely_refl _ _ := ⟨rfl, List.prefix_rfl⟩
  rely_trans _ _ _ _ hxy hyz := ⟨hyz.seen.trans hxy.seen, hxy.slots.trans hyz.slots⟩

def openRules (V : Type) : Rules SysReq SysResp Tables (Bank V) (OpenLog V) :=
  ⟨openSetting V, openTerms V⟩

/-- The rules of a call of the bank. -/
abbrev bankRules (V : Type) : Rules Req Resp Tables (Bank V) (OpenLog V) := (openRules V).untag none

/-- A slot is claimed only when the records of its locker are what the scans of the call have seen. -/
def ClaimsInTime (i : Nat) (x : SysScene V (OpenLog V)) (m : Machine Tables (Bank V)) : Prop :=
  ∀ slot, m.mem.slots[x.machine.mem.slots.length]? = some slot → ∀ db ∈ x.record.seen i,
    SameRecords slot.inner.id db m.dev

/-! ## Steps that claim nothing -/

section
variable {i : Nat} {x y : SysScene V (OpenLog V)} {m : Machine Tables (Bank V)} {α : Type}

def SameInners (b b' : Bank V) : Prop := b'.slots.map Slot.inner = b.slots.map Slot.inner

theorem sameInners_of_getElem? {b b' : Bank V}
    (h : ∀ k : Nat, b'.slots[k]?.map Slot.inner = b.slots[k]?.map Slot.inner) : SameInners b b' := by
  refine List.ext_getElem? fun k => ?_
  rw [List.getElem?_map, List.getElem?_map, h]

theorem SameInners.length {b b' : Bank V} (h : SameInners b b') :
    b'.slots.length = b.slots.length := by
  have := congrArg List.length h
  rwa [List.length_map, List.length_map] at this

theorem seen_noteOpens (e : Event SysReq SysResp (Bank V)) (m' : Machine Tables (Bank V))
    (g : OpenLog V) {j : Nat} (hj : j ≠ i) : (noteOpens i e m m' g).seen j = g.seen j := by
  unfold noteOpens
  dsimp only
  split
  · split
    · exact Function.update_of_ne hj _ _
    · rfl
  · rfl

theorem seen_subset_noteOpens (e : Event SysReq SysResp (Bank V)) (m' : Machine Tables (Bank V))
    (g : OpenLog V) : g.seen i ⊆ (noteOpens i e m m' g).seen i := by
  unfold noteOpens
  dsimp only
  split
  · split
    · rw [Function.update_self]
      exact List.subset_append_left _ _
    · exact List.Subset.refl _
  · exact List.Subset.refl _

theorem births_noteOpens (e : Event SysReq SysResp (Bank V)) {m m' : Machine Tables (Bank V)}
    (g : OpenLog V) (same : SameInners m.mem m'.mem) :
    (noteOpens i e m m' g).births = g.births := by
  have none_new : m'.mem.slots[m.mem.slots.length]? = none :=
    List.getElem?_eq_none_iff.2 (le_of_eq same.length)
  simp only [noteOpens, none_new]

theorem allows_of_sameInners (hy : BornTrue y) (e : Event SysReq SysResp (Bank V))
    (same : SameInners y.machine.mem m.mem) : (openRules V).Allows i e y m := by
  have births : (noteOpens i e y.machine m y.record).births = y.record.births :=
    births_noteOpens e y.record same
  refine ⟨⟨?_, ?_⟩, fun j hj => ⟨seen_noteOpens e m y.record hj, ?_⟩⟩
  · show (noteOpens i e y.machine m y.record).births.map _ = _
    rw [births, hy.births]
    exact same.symm
  · show ∀ b ∈ (noteOpens i e y.machine m y.record).births, _
    rw [births]
    exact hy.truthful
  · show _ <+: m.mem.slots.map Slot.inner
    rw [same]

/-- Backend calls change no slot of a bank. -/
theorem mem_of_served {q : Req} {m m' : Machine Tables (Bank V)} {a : Resp q}
    (h : Served q m a m') : m'.mem = m.mem := by
  cases q with
  | commit ops options =>
    rcases h with ⟨-, rfl⟩ | ⟨e, -, rfl⟩
    · rfl
    · rfl
  | lock =>
    obtain ⟨s, hs, -⟩ := h
    cases hs
  | flush =>
    obtain rfl := h
    rfl
  | idle =>
    obtain rfl := h
    rfl
  | _ =>
    obtain ⟨rfl, -⟩ := h
    rfl

theorem sameInners_of_sysServed {q : SysReq} {m m' : Machine Tables (Bank V)} {a : SysResp q}
    (h : SysServed q m a m') : SameInners m.mem m'.mem := by
  obtain ⟨k, q⟩ := q
  cases k with
  | none =>
    unfold SameInners
    rw [mem_of_served h]
  | some k =>
    obtain ⟨ram, m₁, -, -, rfl⟩ := h
    exact sameInners_of_getElem? fun k' => inner_setRam k'

end

/-! ## Scans -/

section
variable {i : Nat} {may : List (Event Req Resp (Bank V)) → Event Req Resp (Bank V) →
    SysScene V (OpenLog V) → Machine Tables (Bank V) → Prop}
  {h : List (Event Req Resp (Bank V))} {x : SysScene V (OpenLog V)} {σ α : Type} {inner : Inner V}

/-- The scans of a call have seen no other records than those of `db`. -/
def SeenAs (i : Nat) (id : LockerId) (db : Tables) (x : SysScene V (OpenLog V)) : Prop :=
  ∀ db' ∈ x.record.seen i, SameRecords id db' db

theorem SeenAs.of_keepsSeen {id : LockerId} {db : Tables} {x y : SysScene V (OpenLog V)}
    (hxy : KeepsSeen i x y) (hy : SeenAs i id db y) : SeenAs i id db x := by
  intro db' hdb
  rw [← hxy.seen] at hdb
  exact hy db' hdb

def OwnRange (id : LockerId) (range : KeyRange) : Prop :=
  ∀ key, range.contains key = true → ∃ k, key = encodeBytes id k

/-- What a walk visits is what its scans have seen. -/
theorem safe_walkPages {reverse wantValues : Bool}
    {visit : σ → Bytes → Option Bytes → Except Error σ} {fuel : Nat} {range : KeyRange} {acc : σ} :
    (inner.walkPages reverse wantValues visit fuel range acc : Io (Bank V) σ).Safe (bankRules V) i may
      (fun _ r y => OwnRange inner.id range → ∀ db, SeenAs i inner.id db y → ∀ acc', r = .ok acc' →
        inner.visitPage visit ((Tree.inOrder reverse db.records range).map (shown wantValues)) acc =
          .ok acc') h x := by
  induction fuel generalizing range acc h x with
  | zero => trivial
  | succ fuel ih =>
    unfold Inner.walkPages
    refine Prog.Safe.bind (fun _ r y => OwnRange inner.id range → ∀ db, SeenAs i inner.id db y →
      ∀ page, r = .ok page → page = scanTree db.records
        ⟨.records, range, reverse, inner.backend.scanPageSize, wantValues⟩) ?_ ?_
      fun _ _ _ _ _ _ _ _ _ hr => by cases hr
    · refine Backend.safe_scan fun y _ hy a m ha _ => ?_
      obtain ⟨rfl, hpage⟩ := ha
      refine ⟨Rules.allows_untag.2 (allows_of_sameInners hy _ rfl), fun z hyz _ own db hseen page hp => ?_⟩
      have here : y.machine.dev ∈ z.record.seen i := by
        rw [hyz.seen]
        simp [Rules.untag, openRules, openSetting, Setting.move, noteOpens, Event.tagged]
      rw [hpage page hp]
      exact scanTree_congr fun key hkey => (hseen _ here).get (own key hkey)
    · intro h page y _ hpage
      refine Prog.Safe.bind (fun _ r z => KeepsSeen i y z ∧ r = inner.visitPage visit page.items acc)
        (Prog.Safe.ofExcept fun z hyz _ => ⟨hyz, rfl⟩) ?_ fun _ _ _ _ _ _ _ _ _ hr => by cases hr
      rintro h acc₁ z _ ⟨hyz, hvisit⟩
      have scanned (own : OwnRange inner.id range) (db : Tables) (hseen : SeenAs i inner.id db z) :=
        hpage own db (hseen.of_keepsSeen hyz) page rfl
      cases hresume : page.resume with
      | none =>
        intro z' hz _ own db hseen acc' hacc
        obtain rfl := Except.ok.inj hacc
        have hscan := scanned own db (hseen.of_keepsSeen hz)
        rw [hscan] at hresume hvisit
        have all := scanTree_last inner.backend.scanPageSize_pos hresume
        dsimp only at all
        rw [← all]
        exact hvisit.symm
      | some last =>
        refine (ih.frame (K := fun z' => z.record.seen i ⊆ z'.record.seen i) ?_ ?_
          (List.Subset.refl _)).mono ?_
        · intro z₁ z₂ h₁ h₂
          rw [h₂.seen]
          exact h₁
        · intro e z₁ m h₁ _
          exact List.Subset.trans h₁ (seen_subset_noteOpens (e.tagged none) m z₁.record)
        · rintro h r z' _ ⟨hrest, hz⟩ own db hseen acc' hacc
          have hscan := scanned own db fun db' hdb => hseen db' (hz hdb)
          rw [hscan] at hresume hvisit
          have hlast := contains_resume hresume
          have all := (scanTree_next hresume).1
          dsimp only at hlast all
          rw [all, Inner.visitPage_append, ← hvisit]
          exact hrest (fun key hkey => own key (KeyRange.contains_of_after hlast hkey)) db hseen acc' hacc

theorem safe_walk {reverse wantValues : Bool} {start stop : Bound Bytes}
    {visit : σ → Bytes → Option Bytes → Except Error σ} {acc : σ} :
    (inner.walk start stop reverse wantValues visit acc : Io (Bank V) σ).Safe (bankRules V) i may
      (fun _ r y => ∀ db, SeenAs i inner.id db y → ∀ acc', r = .ok acc' →
        (inner.entriesInOrder reverse db start stop).foldlM
          (fun acc e => visit acc e.1 (if wantValues then some e.2 else none)) acc = .ok acc') h x := by
  unfold Inner.walk
  by_cases degenerate : isDegenerate start stop = true
  · rw [if_pos degenerate]
    intro y _ _ db _ acc' hacc
    rw [Inner.entriesInOrder, Inner.entries_of_isDegenerate inner degenerate]
    simp only [List.reverse_nil, ite_self]
    exact hacc
  · rw [if_neg degenerate]
    refine safe_walkPages.mono fun _ r y _ hpages db hseen acc' hacc => ?_
    rw [← Inner.map_inOrder, ← Inner.visitPage_shown inner visit wantValues
      fun e => Inner.own_of_mem_inOrder inner]
    exact hpages (fun key => exists_of_contains_encodeRangeBytes) db hseen acc' hacc

/-- What the scans have seen stays seen, by a part that claims nothing. -/
theorem safe_claimless {K : SysScene V (OpenLog V) → Prop} {p : Io (Bank V) α}
    (hp : p.Only (fun _ => True) SameInners)
    (later : ∀ y z, K y → y.record.seen i ⊆ z.record.seen i → K z) (hx : K x) :
    p.Safe (bankRules V) i may (fun _ _ y => K y) h x := by
  refine Prog.Safe.of_only hp (fun y z hK hyz _ => ?_) (fun y s hK hy hs => ?_)
    (fun y q a m hK hy _ ha => ?_) hx
  · refine later y z hK ?_
    rw [hyz.seen]
    exact List.Subset.refl _
  · refine ⟨Rules.allows_untag.2 (allows_of_sameInners hy _ hs), later y _ hK ?_⟩
    exact seen_subset_noteOpens (.ram y.machine.mem s) _ y.record
  · refine ⟨Rules.allows_untag.2 (allows_of_sameInners hy _ ?_), later y _ hK ?_⟩
    · unfold SameInners
      rw [mem_of_served (V := V) ha]
    · exact seen_subset_noteOpens (.io (none, q) a) m y.record

theorem SeenAs.mono {id : LockerId} {db : Tables} {y z : SysScene V (OpenLog V)}
    (hyz : y.record.seen i ⊆ z.record.seen i) (hz : SeenAs i id db z) : SeenAs i id db y :=
  fun db' hdb => hz db' (hyz hdb)

/-- What an open loads is what its scans have seen. -/
theorem safe_loadRam (kind : TxMode) : (loadRam inner kind).Safe (bankRules V) i may
    (fun _ r y => ∀ ram, r = .ok ram → ∀ db, SeenAs i inner.id db y → Truthful ⟨inner, ram, true⟩ db)
    h x := by
  cases kind with
  | lazy =>
    unfold loadRam LazyLocker.openLocker
    refine Prog.Safe.map ?_
    rw [Prog.zoom_bind, Inner.zoom_walk]
    refine Prog.Safe.bind _ safe_walk ?_ fun _ _ _ _ _ ram hr => by cases hr
    intro h index y _ hindex
    rw [Prog.zoom_bind]
    have later (z z' : SysScene V (OpenLog V))
        (hz : ∀ db, SeenAs i inner.id db z → ∀ key,
          index.contains key = (db.lookup .records (inner.encodeKey key)).isSome)
        (hzz : z.record.seen i ⊆ z'.record.seen i) : ∀ db, SeenAs i inner.id db z' → ∀ key,
          index.contains key = (db.lookup .records (inner.encodeKey key)).isSome :=
      fun db hdb => hz db (hdb.mono hzz)
    refine Prog.Safe.bind _ (safe_claimless ?_ later fun db hdb key => ?_) ?_
      fun _ _ _ _ _ ram hr => by cases hr
    · refine Prog.Only.mono Prog.only_any.zoom (fun _ h => h) fun b b' ⟨s, _, hs⟩ => ?_
      rw [hs]
      rfl
    · rw [Inner.contains_of_visited inner (hindex db hdb index rfl) key]
      simp
    · intro h lru z _ hz z' hzz' _ ram hram db hdb
      obtain rfl := Except.ok.inj hram
      refine ⟨index, rfl, fun key => hz db (hdb.of_keepsSeen hzz') key⟩
  | eager =>
    unfold loadRam EagerLocker.openLocker
    refine Prog.Safe.map ?_
    split
    · exact fun _ _ _ ram hr => by cases hr
    · refine Prog.Safe.bind _ safe_walk ?_ fun _ _ _ _ _ ram hr => by cases hr
      intro h acc y _ hacc
      split
      · exact fun _ _ _ ram hr => by cases hr
      · next whole =>
        intro z hyz _ ram hram db hdb
        obtain rfl := Except.ok.inj hram
        obtain ⟨c, hc⟩ := EagerLocker.corrupt_frame acc.corrupt (Resident.new .eager none none)
        unfold Truthful
        dsimp only [Ram.opened]
        rw [hc]
        exact EagerLocker.loaded_values (hacc db (hdb.of_keepsSeen hyz) acc rfl) (by simpa using whole)

/-! ## Claims -/

def Held (k : Nat) (x : SysScene V (OpenLog V)) : Prop := k < x.machine.mem.slots.length

theorem Held.of_keepsSeen {k : Nat} {x y : SysScene V (OpenLog V)} (hxy : KeepsSeen i x y)
    (hx : Held k x) : Held k y := by
  have := hxy.slots.length_le
  rw [List.length_map, List.length_map] at this
  exact lt_of_lt_of_le hx this

theorem held_of_openLocker {name : String} {bank : Bank V} {o : OpenLocker}
    (h : openLocker name bank = some o) : o.slot < bank.slots.length := by
  obtain ⟨-, hany⟩ := Option.filter_eq_some_iff.1 h
  obtain ⟨slot, hslot, -⟩ := (Option.any_eq_true _ _).1 hany
  exact (List.getElem?_eq_some_iff.1 hslot).1

theorem sameInners_share (k : Nat) (bank : Bank V) : SameInners bank (bank.share k) := by
  refine sameInners_of_getElem? fun k' => ?_
  rw [getElem?_share, Option.map_map]
  congr 1
  funext slot
  dsimp only [Function.comp]
  split <;> rfl

/-- The claim of a call bears the time of the claim. -/
abbrev claimsInTime (i : Nat) (_ : List (Event Req Resp (Bank V))) (_ : Event Req Resp (Bank V))
    (y : SysScene V (OpenLog V)) (m : Machine Tables (Bank V)) : Prop := ClaimsInTime i y m

/-- A claim in time is the birth of a truthful locker. -/
theorem safe_claimOpen_truthful {name tag : String} {kind : TxMode} {config : LockerConfig}
    {slot : Slot V} (truth : ∀ db, SeenAs i slot.inner.id db x → Truthful slot db) :
    (claimOpen name kind tag config slot).Safe (bankRules V) i (claimsInTime i)
      (fun _ r y => ∀ k, r = .ok k → Held k y) h x := by
  rw [claimOpen_eq]
  refine Prog.Safe.sync fun y hxy hy inTime => ?_
  cases hopen : openLocker name y.machine.mem with
  | some winner =>
    have same := sameInners_share winner.slot y.machine.mem
    refine ⟨Rules.allows_untag.2 (allows_of_sameInners hy _ same), fun z hyz _ k hk => ?_⟩
    obtain ⟨rfl, -, -⟩ := eq_of_checkShared hk
    refine Held.of_keepsSeen hyz ?_
    show winner.slot < (y.machine.mem.share winner.slot).slots.length
    rw [same.length]
    exact held_of_openLocker hopen
  | none =>
    rw [hopen] at inTime
    have new : (y.machine.mem.claim name kind tag config slot).slots[y.machine.mem.slots.length]? =
        some slot := getElem?_claim_last
    have birth (e : Event SysReq SysResp (Bank V)) : (noteOpens i e y.machine
        { y.machine with mem := y.machine.mem.claim name kind tag config slot } y.record).births =
          y.record.births ++ [(slot, y.machine.dev)] := by
      simp only [noteOpens, new]
    have here : Truthful slot y.machine.dev := by
      refine truth _ fun db hdb => inTime slot new db ?_
      rw [hxy.seen]
      exact hdb
    refine ⟨Rules.allows_untag.2 ⟨⟨?_, ?_⟩, fun j _ => ⟨rfl, ?_⟩⟩,
      fun z hyz _ k hk => ?_⟩
    · show (noteOpens i _ y.machine _ y.record).births.map _ = _
      rw [birth, List.map_append, hy.births]
      show _ = (y.machine.mem.slots ++ [slot]).map Slot.inner
      rw [List.map_append]
      rfl
    · show ∀ b ∈ (noteOpens i _ y.machine _ y.record).births, _
      rw [birth]
      intro b hb
      rcases List.mem_append.1 hb with hb | hb
      · exact hy.truthful b hb
      · obtain rfl := List.mem_singleton.1 hb
        exact here
    · show _ <+: (y.machine.mem.slots ++ [slot]).map Slot.inner
      rw [List.map_append]
      exact List.prefix_append _ _
    · obtain rfl := Except.ok.inj hk
      refine Held.of_keepsSeen hyz ?_
      show y.machine.mem.slots.length < (y.machine.mem.slots ++ [slot]).length
      rw [List.length_append]
      exact Nat.lt_succ_self _

end

section
variable {name tag : String} {i : Nat} {may : List (Event Req Resp (Bank V)) →
    Event Req Resp (Bank V) → SysScene V (OpenLog V) → Machine Tables (Bank V) → Prop}
  {h : List (Event Req Resp (Bank V))} {x : SysScene V (OpenLog V)}

/-! ## The outline of an open -/

theorem only_lockerId (name : String) :
    (lockerId name : Io (Bank V) LockerId).Only (fun _ => True) SameInners := by
  unfold lockerId
  refine Prog.Only.bind (by simp [SameInners]) fun found => ?_
  cases found with
  | some id => exact Prog.only_pure
  | none =>
    refine Prog.Only.bind (Backend.only_getMany.2 trivial) fun rows => ?_
    dsimp only
    split
    · refine Prog.only_ofExcept.bind fun id => Prog.Only.bind ?_ fun _ => Prog.only_pure
      simp [cache, SameInners]
    · refine Prog.only_ofExcept.bind fun next => ?_
      split
      · exact Prog.only_fail
      · refine Prog.Only.bind (Backend.only_commitWith.2 trivial) fun _ => ?_
        refine Prog.Only.bind ?_ fun _ => Prog.only_pure
        simp [cache, SameInners]

theorem only_lockerExists (name : String) :
    (lockerExists name : Io (Bank V) Bool).Only (fun _ => True) SameInners := by
  refine (reads_lockerExists name).mono (fun _ _ => trivial) fun b b' hb => ?_
  rw [hb]
  rfl

theorem only_prepare (name tag : String) (chain : FilterChain) :
    (prepare env name tag chain : Io (Bank V) LockerId).Only (fun _ => True) SameInners := by
  unfold prepare bindSchema bindChain
  refine (only_lockerExists name).bind fun preExisting => (only_lockerId name).bind fun id => ?_
  refine Prog.Only.bind (Prog.Only.bind (Backend.only_get.2 trivial) fun found => ?_) fun _ => ?_
  · split
    · split
      · exact Prog.only_fail
      · split
        · exact Prog.only_fail
        · exact Prog.only_pure
    · exact Backend.only_commitWith.2 trivial
  refine Prog.Only.bind (Prog.Only.bind (Backend.only_get.2 trivial) fun found => ?_) fun _ =>
    Prog.only_pure
  split
  · refine Prog.only_ofExcept.bind fun stored => ?_
    split
    · exact Prog.only_fail
    · exact Prog.only_pure
  · split
    · exact Prog.only_fail
    · exact Backend.only_commitWith.2 trivial

theorem only_chainFor (config : LockerConfig) :
    (chainFor env config : Io (Bank V) FilterChain).Only (fun _ => True) SameInners := by
  unfold chainFor
  split
  · exact Prog.Only.bind (by simp [SameInners]) fun _ => Prog.only_pure
  · exact Prog.only_pure

/-- The outline of an open. -/
theorem safe_openAs_truthful (kind : TxMode) (value : Postcard V) (config : LockerConfig) :
    (openAs env kind name tag value config).Safe (bankRules V) i (claimsInTime i)
      (fun _ r y => ∀ k, r = .ok k → Held k y) h x := by
  have claimless {α : Type} {p : Io (Bank V) α} (hp : p.Only (fun _ => True) SameInners)
      {h : List (Event Req Resp (Bank V))} {y : SysScene V (OpenLog V)} :
      p.Safe (bankRules V) i (claimsInTime i) (fun _ _ _ => True) h y :=
    safe_claimless hp (fun _ _ _ _ => trivial) trivial
  rw [openAs_eq]
  refine Prog.Safe.bind _ (claimless (by simp [ensureOpen, SameInners])) ?_
    fun _ _ _ _ _ _ hk => by cases hk
  intro h _ y _ _
  refine Prog.Safe.bind _ (claimless (only_chainFor config)) ?_ fun _ _ _ _ _ _ hk => by cases hk
  intro h chain y _ _
  refine Prog.Safe.bind (fun _ r y => ∀ o, r = .ok (some o) → Held o.slot y) ?_ ?_
    fun _ _ _ _ _ _ hk => by cases hk
  · refine Prog.Safe.read fun y _ hy _ => ?_
    refine ⟨Rules.allows_untag.2 (allows_of_sameInners hy _ rfl), fun z hyz _ o ho => ?_⟩
    have held : Held o.slot y := held_of_openLocker (Except.ok.inj ho)
    exact Held.of_keepsSeen hyz held
  · intro h found y _ hfound
    cases found with
    | some o =>
      refine Prog.Safe.ofExcept fun z hyz _ k hk => ?_
      obtain ⟨rfl, -, -⟩ := eq_of_checkShared hk
      exact (hfound o rfl).of_keepsSeen hyz
    | none =>
      refine Prog.Safe.bind _ (claimless (only_prepare name tag chain)) ?_
        fun _ _ _ _ _ _ hk => by cases hk
      intro h id y _ _
      refine Prog.Safe.bind _ (safe_loadRam kind) ?_ fun _ _ _ _ _ _ hk => by cases hk
      intro h ram y _ hram
      exact safe_claimOpen_truthful (hram ram rfl)

end

/-! ## The other calls -/

section
variable {i : Nat} {may : List (Event SysReq SysResp (Bank V)) → Event SysReq SysResp (Bank V) →
    SysScene V (OpenLog V) → Machine Tables (Bank V) → Prop}
  {h : List (Event SysReq SysResp (Bank V))} {x : SysScene V (OpenLog V)} {α : Type}

theorem safe_sysClaimless {p : SysIo V α} (hp : p.Only (fun _ => True) SameInners) :
    p.Safe (openRules V) i may (fun _ _ _ => True) h x := by
  refine Prog.Safe.of_only (K := fun _ => True) hp (fun _ _ _ _ _ => trivial) ?_ ?_ trivial
  · exact fun y s _ hy hs => ⟨allows_of_sameInners hy _ hs, trivial⟩
  · exact fun y q a m _ hy _ ha => ⟨allows_of_sameInners hy _ (sameInners_of_sysServed ha), trivial⟩

theorem only_deleteLocker (name : String) :
    (deleteLocker env name : Io (Bank V) Bool).Only (fun _ => True) SameInners := by
  have reads {β : Type} {p : Io (Bank V) β} (hp : Reads p) :
      p.Only (fun _ => True) SameInners := hp.mono (fun _ _ => trivial) fun _ _ hs => hs.elim
  unfold deleteLocker
  refine Prog.Only.bind (by simp [SameInners]) fun busy => ?_
  split
  · exact Prog.only_fail
  refine (only_lockerExists name).bind fun known => ?_
  split
  · exact Prog.only_pure
  refine (only_lockerId name).bind fun id => Prog.Only.bind ?_ fun chain => ?_
  · unfold lockerChainOrBank
    refine Prog.Only.bind (Backend.only_get.2 trivial) fun found => ?_
    cases found with
    | none => exact Prog.only_pure
    | some raw =>
      refine Prog.only_ofExcept.bind fun stored => ?_
      split
      · exact Prog.only_pure
      · exact Prog.Only.bind (by simp [SameInners]) fun _ => Prog.only_pure
  refine (reads (reads_clearValueOps _)).bind fun ops => ?_
  refine Prog.Only.bind (Backend.only_commitWith.2 trivial) fun _ => ?_
  refine Prog.Only.bind (by simp [SameInners]) fun _ => ?_
  exact Prog.Only.bind (by simp [SameInners]) fun _ => Prog.only_pure

theorem only_onSlot (k : Nat) (mode : TxMode) (call : Inner V → Io (Ram V) Unit) :
    (onSlot k mode call).Only (fun _ => True) SameInners := by
  unfold onSlot
  refine Prog.Only.bind (by simp [SameInners]) fun found => ?_
  cases found with
  | none => exact Prog.only_stuck
  | some slot =>
    refine Prog.Only.map ((Prog.only_any.within.tagged).mono (fun _ _ => trivial) ?_)
    rintro b b' (rfl | ⟨ram, ram', -, -, rfl⟩)
    · rfl
    · exact sameInners_of_getElem? fun k' => inner_setRam k'

theorem sameInners_letGo (k : Nat) (bank : Bank V) : SameInners bank (bank.letGo k) := by
  refine sameInners_of_getElem? fun k' => ?_
  rw [letGo, List.getElem?_modify, Option.map_eq_map, Option.map_map]
  congr 1
  funext slot
  dsimp only [Function.comp]
  split <;> rfl

end

end Bank

/-- What every call of the system keeps. -/
theorem BankCall.truthful {V : Type} {env : BankEnv} (c : BankCall V) {i : Nat}
    {x : Bank.SysScene V (Bank.OpenLog V)} : (c.prog env).Safe (Bank.openRules V) i
    (fun _ _ y m => Bank.ClaimsInTime i y m)
    (fun _ r y => (∃ kind name tag value config, c = .opens kind name tag value config) →
      ∀ k, r = .ok (some k) → Bank.Held k y) [] x := by
  have other {p : Bank.SysIo V (Option Nat)} (hp : p.Only (fun _ => True) Bank.SameInners)
      (hc : ¬ ∃ kind name tag value config, c = .opens kind name tag value config) :
      p.Safe (Bank.openRules V) i (fun _ _ y m => Bank.ClaimsInTime i y m)
        (fun _ r y => (∃ kind name tag value config, c = .opens kind name tag value config) →
          ∀ k, r = .ok (some k) → Bank.Held k y) [] x :=
    (Bank.safe_sysClaimless hp).mono fun _ _ _ _ _ h => absurd h hc
  cases c with
  | opens kind name tag value config =>
    refine Prog.Safe.map (Prog.Safe.tagged (h := []) ?_)
    refine (Bank.safe_openAs_truthful kind value config).mono fun _ r y _ hr _ k hk => ?_
    cases r with
    | ok k' =>
      obtain rfl := Option.some.inj (Except.ok.inj hk)
      exact hr k' rfl
    | error e => cases hk
  | deletes name =>
    refine other ?_ (by simp)
    exact Prog.Only.map ((Bank.only_deleteLocker name).tagged.mono (fun _ _ => trivial) fun _ _ h => h)
  | lazy slot call => exact other (Bank.only_onSlot slot .lazy call.prog) (by simp)
  | eager slot call => exact other (Bank.only_onSlot slot .eager call.prog) (by simp)
  | release slot =>
    refine other (Prog.Only.map ?_) (by simp)
    exact Prog.only_update.2 fun bank => Bank.sameInners_letGo slot bank

namespace Bank
variable {V : Type} {env : BankEnv}

/-! ## Runs -/

abbrev SysPool (V : Type) := Pool SysReq SysResp Error (Bank V) (Option Nat) Tables

abbrev SysMove (V : Type) := Move SysReq SysResp Error (Bank V) (Option Nat)

/-- The runs of any calls of a bank that is opened over a store. -/
abbrev BankRuns (env : BankEnv) (may : SysPool V → OpenLog V → SysMove V → SysPool V → Prop)
    (db : Tables) (P : SysPool V) (g : OpenLog V) : Prop :=
  Pool.Noted SysServed noteOpens
    (fun P g l P' => (∀ p, l = .start p → ∃ c : BankCall V, p = c.prog env) ∧ may P g l P')
    ⟨⟨db, Bank.fresh V⟩, ⟨fun _ => [], []⟩⟩ P g

/-- A call that claims a slot with this move claims it in time. -/
def MovesInTime (P : SysPool V) (g : OpenLog V) (l : SysMove V) (P' : SysPool V) : Prop :=
  ∀ i, l.mover = some i → ClaimsInTime i ⟨P.machine, g⟩ P'.machine

/-- The locker in a slot held, when it was claimed, what was stored. -/
def StartedTrue (P : SysPool V) (g : OpenLog V) (k : Nat) : Prop :=
  ∃ (slot now : Slot V) (db : Tables), g.births[k]? = some (slot, db) ∧
    P.machine.mem.slots[k]? = some now ∧ now.inner = slot.inner ∧ Truthful slot db

/-- An opened locker starts from the truth, in every run in which each claim finds the records
that the scans of its call have seen. -/
theorem opened_truthful {db : Tables} {P : SysPool V} {g : OpenLog V}
    (run : BankRuns env MovesInTime db P g) {t : Task SysReq SysResp Error (Bank V) (Option Nat)}
    (ht : t ∈ P.tasks) {kind : TxMode} {name tag : String} {value : Postcard V}
    {config : LockerConfig} (opened : t.call = (BankCall.opens kind name tag value config).prog env)
    {k : Nat} (returned : t.rest = .ret (some k)) : StartedTrue P g k := by
  obtain ⟨i, at_i⟩ := List.mem_iff_getElem?.1 ht
  have outlines := Pool.Noted.safe (openSetting V) (fun _ => openTerms V) (fun _ => True)
    (fun _ i _ _ y m => ClaimsInTime i y m)
    (fun p _ _ r y => p = (BankCall.opens kind name tag value config).prog env →
      ∀ k, r = .ok (some k) → Held k y) run ?_ ?_ ?_ ?_
  · obtain ⟨inv, safe⟩ := outlines
    have moved : t.hist ≠ [] := by
      intro hnil
      have tidy : Pool.Tidy (fun _ => True) P := run.tidy fun _ _ _ _ _ => trivial
      have after := (tidy t ht).2
      rw [hnil, opened, returned, BankCall.prog, openAs_eq] at after
      cases after
    have done := (safe i t at_i).2 ⟨moved, .inl trivial⟩
    rw [returned] at done
    have held : Held k ⟨P.machine, g⟩ := done _ ((openTerms V).rely_refl i _) inv opened k rfl
    have now : P.machine.mem.slots[k]? = some P.machine.mem.slots[k] := List.getElem?_eq_getElem held
    have births := congrArg (·[k]?) inv.births
    simp only [List.getElem?_map, now, Option.map_some, Option.map_eq_some_iff] at births
    obtain ⟨⟨slot, db'⟩, hbirth, hinner⟩ := births
    exact ⟨slot, _, db', hbirth, now, hinner.symm, inv.truthful _ (List.mem_of_getElem? hbirth)⟩
  · exact ⟨rfl, fun b hb => absurd hb List.not_mem_nil⟩
  · rintro P g p P' ⟨starts, -⟩ i y -
    obtain ⟨c, rfl⟩ := starts p rfl
    by_cases same : c.prog env = (BankCall.opens kind name tag value config).prog env
    · rw [same]
      exact (BankCall.truthful (.opens kind name tag value config)).mono
        fun _ _ _ _ hpost _ => hpost ⟨kind, name, tag, value, config, rfl⟩
    · exact (BankCall.truthful c).mono fun _ _ _ _ _ habs => absurd habs same
  · rintro P g l P' i t e rest ⟨-, inTime⟩ _ mover _
    exact inTime i mover
  · intro P g l P' i t e rest j t' _ _ _ _ hj _ _ _ guar
    exact guar j hj

/-! ## Between a scan and a claim -/

section
open Pool.Choice

abbrev SysChoice := Pool.Choice SysReq SysResp Error (Bank Bytes) (Option Nat)

def opensA : BankCall Bytes := .opens .lazy "a" "x" .vecU8 {}

def opensWhole (i : Nat) : List SysChoice :=
  [run i, run i, run i, answer i 0, run i, answer i 0, answer i 0, run i, answer i 0, answer i 0,
    answer i 0, answer i 0, answer i 0, run i]

/-- The calls of another: it opens the locker, puts a value under the key `[1]`, and closes it. -/
def putsAndCloses : List SysChoice :=
  start (opensA.prog BankEnv.plain) :: opensWhole 1 ++
  start ((BankCall.lazy 0 (.put [1] [7]) : BankCall Bytes).prog BankEnv.plain) :: [run 2, run 2,
    answer 2 0, run 2, run 2, answer 2 0, run 2, run 2, run 2, run 2, run 2] ++
  start ((BankCall.lazy 0 .close : BankCall Bytes).prog BankEnv.plain) :: [run 3, run 3, run 3, run 3,
    run 3, run 3]

/-- An open that has found no open locker waits, while another does. Then it scans the store. -/
def openAfter : List SysChoice :=
  start (opensA.prog BankEnv.plain) :: [run 0, run 0, run 0] ++ putsAndCloses ++
    [answer 0 0, run 0, answer 0 0, answer 0 0, answer 0 0, run 0]

/-- An open that has scanned the store waits, while another opens the locker, puts a value under the
key `[1]` and closes it again. Then it claims the name. -/
def openLate : List SysChoice :=
  start (opensA.prog BankEnv.plain) :: [run 0, run 0, run 0, answer 0 0, run 0, answer 0 0,
    answer 0 0, run 0, answer 0 0, answer 0 0, answer 0 0, answer 0 0, answer 0 0] ++
  start (opensA.prog BankEnv.plain) :: [run 1, run 1, run 1, run 1, answer 1 0, answer 1 0,
    answer 1 0, run 1] ++
  start ((BankCall.lazy 0 (.put [1] [7]) : BankCall Bytes).prog BankEnv.plain) :: [run 2, run 2,
    answer 2 0, run 2, run 2, answer 2 0, run 2, run 2, run 2, run 2, run 2] ++
  start ((BankCall.lazy 0 .close : BankCall Bytes).prog BankEnv.plain) :: [run 3, run 3, run 3, run 3,
    run 3, run 3] ++ [run 0]

abbrev idleScene : SysScene Bytes (OpenLog Bytes) := ⟨⟨.empty, Bank.fresh Bytes⟩, ⟨fun _ => [], []⟩⟩

abbrev idleSys : SysPool Bytes × OpenLog Bytes := (⟨idleScene.machine, []⟩, idleScene.record)

def hasMoved (P P' : SysPool Bytes) (i : Nat) : Bool :=
  P'.tasks[i]?.map (·.hist.length) != P.tasks[i]?.map (·.hist.length)

/-- A slot is claimed only over the store that the scans of its call have seen. -/
def claimsUnmoved (P : SysPool Bytes) (g : OpenLog Bytes) (P' : SysPool Bytes) : Bool :=
  P'.machine.mem.slots.length = P.machine.mem.slots.length ||
    (List.range P.tasks.length).all fun i =>
      !hasMoved P P' i || (g.seen i).all fun db => db = P'.machine.dev

theorem hasMoved_of_mover {P P' : SysPool Bytes} {l : SysMove Bytes} {i : Nat}
    (move : Pool.Step SysServed P l P') (mover : l.mover = some i) :
    i < P.tasks.length ∧ hasMoved P P' i = true := by
  cases move with
  | start p => cases mover
  | ram at_i rest | io at_i rest =>
    obtain rfl := Option.some.inj mover
    obtain ⟨here, -⟩ := List.getElem?_eq_some_iff.1 at_i
    refine ⟨here, ?_⟩
    unfold hasMoved
    rw [List.getElem?_set_self here, at_i]
    simp

theorem movesInTime_of_claimsUnmoved {P P' : SysPool Bytes} {g : OpenLog Bytes} {l : SysMove Bytes}
    (move : Pool.Step SysServed P l P') (h : claimsUnmoved P g P' = true) :
    MovesInTime P g l P' := by
  intro i mover slot hslot db hdb
  rcases Bool.or_eq_true_iff.1 h with same | seen
  · have := (List.getElem?_eq_some_iff.1 hslot).1
    have same := of_decide_eq_true same
    dsimp only at this
    omega
  · obtain ⟨here, moved⟩ := hasMoved_of_mover move mover
    have own := List.all_eq_true.1 seen i (List.mem_range.2 here)
    rw [moved, Bool.not_true, Bool.false_or] at own
    have all := List.all_eq_true.1 own db hdb
    rw [of_decide_eq_true all]
    exact fun _ => rfl

/-- An open that waited while another put a record and closed starts with the record. -/
theorem opened_truthful_after : ∃ (P : SysPool Bytes) (g : OpenLog Bytes), StartedTrue P g 1 ∧
    g.births[1]?.map (fun b => (b.2.lookup .records (b.1.inner.encodeKey [1])).isSome) = some true := by
  obtain ⟨Pg, hPg⟩ : ∃ Pg, Pool.execNoting serveSys noteOpens claimsUnmoved openAfter idleSys =
      some Pg := Option.isSome_iff_exists.1 (by decide +kernel)
  have hrest : (Pool.execNoting serveSys noteOpens claimsUnmoved openAfter idleSys).map
      (fun Pg => (Pg.1.tasks[0]?.bind fun t => t.rest.returned, Pg.2.births[1]?.map fun b =>
        (b.2.lookup .records (b.1.inner.encodeKey [1])).isSome)) =
      some (some (some 1), some true) := by decide +kernel
  have hcalls := congrArg (·[0]?) (Pool.calls_of_execNoting hPg)
  rw [hPg] at hrest
  obtain ⟨hdone, hstored⟩ := Prod.mk.inj (Option.some.inj hrest)
  obtain ⟨t, ht, hdone⟩ := Option.bind_eq_some_iff.1 hdone
  simp only [List.getElem?_map, ht, Option.map_some] at hcalls
  have run : BankRuns BankEnv.plain MovesInTime .empty Pg.1 Pg.2 := by
    refine Pool.Noted.exec (x := idleScene) serveSys_sound .start
      (fun P g l P' move hl hcheck => ⟨fun p hp => ?_, movesInTime_of_claimsUnmoved move hcheck⟩) hPg
    have hmem := hl p hp
    simp only [openAfter, putsAndCloses, opensWhole, List.cons_append, List.nil_append, List.mem_cons,
      start.injEq, List.not_mem_nil, reduceCtorEq, false_or, or_false] at hmem
    rcases hmem with rfl | rfl | rfl | rfl
    · exact ⟨_, rfl⟩
    · exact ⟨_, rfl⟩
    · exact ⟨_, rfl⟩
    · exact ⟨_, rfl⟩
  have started : StartedTrue Pg.1 Pg.2 1 := opened_truthful run (List.mem_of_getElem? ht)
    (Option.some.inj hcalls) (Prog.eq_ret_of_returned hdone)
  exact ⟨Pg.1, Pg.2, started, hstored⟩

/-- An open can return a locker that does not know of a stored record. -/
theorem opened_stale : ¬ ∀ (P : SysPool Bytes) (g : OpenLog Bytes)
    (t : Task SysReq SysResp Error (Bank Bytes) (Option Nat)) (k : Nat),
    BankRuns BankEnv.plain (fun _ _ _ _ => True) .empty P g → t ∈ P.tasks →
      t.call = opensA.prog BankEnv.plain → t.rest = .ret (some k) → StartedTrue P g k := by
  intro h
  obtain ⟨Pg, hPg⟩ : ∃ Pg, Pool.execNoting serveSys noteOpens (fun _ _ _ => true) openLate idleSys =
      some Pg := Option.isSome_iff_exists.1 (by decide +kernel)
  have hrest : (Pool.execNoting serveSys noteOpens (fun _ _ _ => true) openLate idleSys).map
      (fun Pg => Pg.1.tasks[0]?.bind fun t => t.rest.returned) = some (some (some 1)) := by
    decide +kernel
  have hbirth : (Pool.execNoting serveSys noteOpens (fun _ _ _ => true) openLate idleSys).map
      (fun Pg => Pg.2.births[1]?.map fun b => (b.1.ram.res.mode,
        b.1.ram.res.index.map (·.contains [1]),
        (b.2.lookup .records (b.1.inner.encodeKey [1])).isSome)) =
      some (some (.lazy, some false, true)) := by decide +kernel
  have hcalls := congrArg (·[0]?) (Pool.calls_of_execNoting hPg)
  rw [hPg] at hrest hbirth
  obtain ⟨t, ht, hdone⟩ := Option.bind_eq_some_iff.1 (Option.some.inj hrest)
  simp only [List.getElem?_map, ht, Option.map_some] at hcalls
  have run : BankRuns BankEnv.plain (fun _ _ _ _ => True) .empty Pg.1 Pg.2 := by
    refine Pool.Noted.exec (x := idleScene) serveSys_sound .start
      (fun P g l P' _ hl _ => ⟨fun p hp => ?_, trivial⟩) hPg
    have hmem := hl p hp
    simp only [openLate, List.cons_append, List.nil_append, List.mem_cons, start.injEq,
      List.not_mem_nil, reduceCtorEq, false_or, or_false] at hmem
    rcases hmem with rfl | rfl | rfl | rfl
    · exact ⟨_, rfl⟩
    · exact ⟨_, rfl⟩
    · exact ⟨_, rfl⟩
    · exact ⟨_, rfl⟩
  obtain ⟨slot, now, db, hslot, -, -, truth⟩ := h Pg.1 Pg.2 t 1 run (List.mem_of_getElem? ht)
    (Option.some.inj hcalls) (Prog.eq_ret_of_returned hdone)
  simp only [Option.map_some, hslot, Option.some.injEq, Prod.mk.injEq, Option.map_eq_some_iff] at hbirth
  obtain ⟨mode, ⟨index, hindex, absent⟩, stored⟩ := hbirth
  unfold Truthful at truth
  rw [mode] at truth
  obtain ⟨index', hindex', truth⟩ := truth
  obtain rfl := Option.some.inj (hindex.symm.trans hindex')
  rw [truth, stored] at absent
  cases absent

end

end Bank
end Crossbank
