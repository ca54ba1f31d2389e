import Crossbank.Locker.Answer
import Crossbank.Locker.Batch
import Crossbank.Locker.Failure
import Crossbank.Locker.Issuing

/-!
# Calls that issue value ids

Every call of a locker stores pieces and pointers only under ids that it has taken itself.

* `Harmless` : ops that any call may land; `harmless_deleteValueOps`, ... : builders of such ops;
* `Mints i K p` : the call `i` builds ops of its own; `mints_putPayloadOps`, `mints_opsForItems`,
  `issues_budgetOps` : builders that do;
* `Behaves i p` : the call `i` keeps the rules of value ids; `LazyCall.behaves`, `EagerCall.behaves` :
  the calls of a locker do, those of its writers apart.
-/

namespace Crossbank
open Async

def Harmless (ops : List Op) : Prop := ∀ i a, Mine i ops a

theorem Harmless.nil : Harmless [] := fun _ _ => .nil

theorem Harmless.append {a b : List Op} (ha : Harmless a) (hb : Harmless b) : Harmless (a ++ b) :=
  fun i s => (ha i s).append (hb i s)

theorem harmless_singleton {op : Op} : Harmless [op] ↔ ∀ i a, op.Own i a :=
  forall_congr' fun _ => forall_congr' fun _ => mine_singleton

theorem harmless_of_forall {ops : List Op} (h : ∀ op ∈ ops, ∀ i a, op.Own i a) : Harmless ops :=
  fun i a op hop => h op hop i a

theorem harmless_gcOps (pointers : List ChunkPointer) : Harmless (pointers.map gcOps) := by
  refine harmless_of_forall fun op hop i a => ?_
  obtain ⟨p, -, rfl⟩ := List.mem_map.1 hop
  trivial

section
variable {T ρ : Type} {inner : Inner T} {i : Nat} {a : Sight}

theorem harmless_gcParsed (existing : Option Bytes) : Harmless (gcParsed existing) := by
  unfold gcParsed
  cases existing with
  | none => exact .nil
  | some raw =>
    dsimp only
    split
    · split
      · exact harmless_gcOps [_]
      · exact .nil
    · exact .nil

theorem harmless_deleteOp (key : Bytes) : Harmless [inner.deleteOp key] :=
  harmless_singleton.2 fun _ _ => trivial

theorem harmless_clearOp : Harmless [inner.clearOp] := harmless_singleton.2 fun _ _ => trivial

/-- A sealed payload is no pointer. -/
theorem not_parse_sealed {payload sealed : Bytes} (h : inner.chain.sealSlice payload = .ok sealed)
    (p : ChunkPointer) : ChunkPointer.parse sealed ≠ .ok p := by
  obtain ⟨body, -, rfl⟩ := FilterChain.sealSlice_eq_ok.1 h
  intro hp
  have hpointer := isPointer_of_parse hp
  have hm : MAGIC = [67, 66, 78, 75] := by decide
  simp [isPointer, header, hm, pointer_magic_eq] at hpointer

theorem harmless_put_sealed {key payload sealed : Bytes}
    (h : inner.chain.sealSlice payload = .ok sealed) :
    Harmless [.put .records (inner.encodeKey key) sealed] :=
  harmless_singleton.2 fun _ _ p hp => absurd hp (not_parse_sealed h p)

theorem harmless_gcExisting {existing : Option Bytes} {ops : List Op}
    (h : Inner.gcExisting existing = .ok ops) : Harmless ops := by
  rw [gcExisting_eq_ok h]
  exact harmless_gcOps _

/-- The request lands no other ops than such. -/
def Req.Harmless (q : Req) : Prop := ∀ ops options, q = .commit ops options → Crossbank.Harmless ops

theorem Req.harmless_of_not_lands {q : Req} (hq : ¬ q.lands) : q.Harmless := by
  rintro ops options rfl
  exact absurd trivial hq

theorem issues_harmless {α : Type} {view : ρ → ValueIds} {p : Io ρ α}
    (only : p.Only Req.Harmless fun s s' => view s' = view s) :
    Issues view i (fun _ => True) p fun _ _ => True := by
  refine Triple.of_only only (fun _ _ _ _ _ => trivial)
    (fun y s _ hy hs => ⟨(allows_ram hy hs).1, trivial⟩) fun y q x m _ hy hq answer => ⟨?_, trivial⟩
  by_cases lands : q.lands
  · cases q with
    | commit ops options => exact (allows_commit hy (hq ops options rfl i _) answer).1
    | get | getMany | scan | flush | lock | idle => exact lands.elim
  · exact (allows_io hy lands answer).1

/-! ## Builders that only read -/

theorem harmless_gcPrior (key : Bytes) (prior : Prior) :
    (inner.gcPrior key prior : Io ρ (List Op)).Gives Harmless := by
  unfold Inner.gcPrior
  split
  · exact Prog.Gives.next fun existing => Prog.gives_ofExcept fun ops h => harmless_gcExisting h
  · exact Harmless.nil

theorem harmless_deleteValueOps (key : Bytes) (prior : Prior) :
    (inner.deleteValueOps key prior : Io ρ (List Op)).Gives Harmless :=
  Prog.Gives.bind (harmless_gcPrior key prior) fun _ hops => hops.append (harmless_deleteOp key)

theorem harmless_clearValueOps : (inner.clearValueOps : Io ρ (List Op)).Gives Harmless := by
  refine Prog.Gives.bind (gives_walk Harmless.nil ?_) fun ops hops => hops.append harmless_clearOp
  intro ops key value ops' hops h
  unfold Inner.gcVisited at h
  cases value with
  | none =>
    obtain rfl := Except.ok.inj h
    exact hops
  | some raw =>
    dsimp only at h
    split at h
    · split at h
      · obtain rfl := Except.ok.inj h
        exact hops.append (harmless_gcOps [_])
      · obtain rfl := Except.ok.inj h
        exact hops
    · obtain rfl := Except.ok.inj h
      exact hops

theorem harmless_eagerPutOps (key payload : Bytes) :
    (eagerPutOps inner key payload : Io ρ (List Op)).Gives Harmless := by
  unfold eagerPutOps
  refine Prog.Gives.bind (Prog.gives_ofExcept fun sealed h => h) fun sealed hseal => ?_
  split
  · trivial
  · exact Prog.Gives.next fun existing =>
      (harmless_gcParsed existing).append (harmless_put_sealed hseal)

theorem harmless_accounts {ops : List Op} (h : ∀ op ∈ ops, AccountOp op) : Harmless ops := by
  refine harmless_of_forall fun op hop i a => ?_
  obtain ⟨htable, hleaves⟩ := h op hop
  cases op with
  | put table key value =>
    obtain rfl : table = .meta := htable
    intro hkey
    simp [Op.written, hkey] at hleaves
  | delete table key =>
    obtain rfl : table = .meta := htable
    intro hkey
    simp [Op.written, hkey] at hleaves
  | deleteRange table range =>
    obtain rfl : table = .meta := htable
    rw [Op.Own, Bool.eq_false_iff]
    intro hrange
    simp [Op.written, hrange] at hleaves

theorem harmless_victimOps (victims : List Bytes) :
    (victimOps inner victims : Io ρ (List Op)).Gives Harmless := by
  induction victims with
  | nil => exact Harmless.nil
  | cons victim rest ih =>
    unfold victimOps
    refine Prog.Gives.bind (harmless_deleteValueOps victim .unknown) fun ops hops => ?_
    exact ih.bind fun more hmore => (hops.append (harmless_accounts fun op hop => by
      rw [List.mem_singleton.1 hop]
      exact accountOp_deleteOp _ _)).append hmore

end

/-! ## Building -/

section
variable {T ρ : Type} {inner : Inner T} {view : ρ → ValueIds} {i : Nat} {K : Sight → Prop}

/-- The call `i` builds ops of its own, while `K` holds. -/
abbrev Mints (view : ρ → ValueIds) (i : Nat) (K : Sight → Prop) (p : Io ρ (List Op)) : Prop :=
  Issues view i K p fun r a => K a ∧ ∀ ops, r = .ok ops → Mine i ops a

theorem isRead_not_lands {q : Req} (hq : q.isRead) : ¬ q.lands := by
  cases q with
  | get | getMany | scan => exact fun h => h
  | commit | flush | lock | idle => exact hq.elim

theorem issues_reads {α : Type} {p : Io ρ α} (firm : Firm i K) (reads : Reads p) :
    Issues view i K p fun _ => K :=
  issues_still firm (reads.mono (fun _ => isRead_not_lands) fun _ _ h => h.elim)

theorem mints_of_reads {p : Io ρ (List Op)} (firm : Firm i K) (reads : Reads p)
    (gives : p.Gives Harmless) : Mints view i K p :=
  ((issues_reads firm reads).gives gives).mono (fun _ h => h)
    fun _ a h => ⟨h.1, fun ops hops => h.2 ops hops i a⟩

theorem Mints.bind {p : Io ρ (List Op)} {f : List Op → Io ρ (List Op)} (hp : Mints view i K p)
    (hf : ∀ ops, Issues view i (fun a => K a ∧ Mine i ops a) (f ops)
      fun r a => K a ∧ ∀ ops', r = .ok ops' → Mine i ops' a) : Mints view i K (p >>= f) :=
  Triple.bind hp (fun ops => (hf ops).mono (fun _ h => ⟨h.1, h.2 ops rfl⟩) fun _ _ h => h)
    fun _ _ h => ⟨h.1, fun _ hops => by cases hops⟩

theorem mints_pure {ops : List Op} (firm : Firm i K) (mine : ∀ a, K a → Mine i ops a) :
    Mints view i K (pure ops : Io ρ (List Op)) := by
  refine (Triple.ret firm.steady ops).mono (fun _ h => h) ?_
  rintro r a ⟨rfl, hK⟩
  exact ⟨hK, fun ops' h => Except.ok.inj h ▸ mine a hK⟩

theorem Mints.map_append {p : Io ρ (List Op)} {before : List Op} (firm : Firm i K)
    (hp : Mints view i (fun a => K a ∧ Mine i before a) p) :
    Issues view i (fun a => K a ∧ Mine i before a) (p >>= fun more => pure (before ++ more))
      fun r a => K a ∧ ∀ ops, r = .ok ops → Mine i ops a := by
  refine (Mints.bind hp fun more => ?_).mono (fun _ h => h) fun _ _ h => ⟨h.1.1, h.2⟩
  have firm' := (firm.and (firm_mine before)).and (firm_mine more)
  refine (Triple.ret firm'.steady (before ++ more)).mono (fun _ h => h) ?_
  rintro r a ⟨rfl, hK, hmore⟩
  exact ⟨hK, fun ops h => Except.ok.inj h ▸ hK.2.append hmore⟩

theorem mine_pieceOps {id : UInt64} {seq last : UInt32} {pieces : List Bytes} {ops : List Op}
    {a : Sight} (h : inner.pieceOps id seq pieces = .ok (ops, last))
    (own : a.issue.holder id = some i) : Mine i ops a := by
  induction pieces generalizing seq ops last with
  | nil =>
    obtain ⟨rfl, -⟩ := Prod.mk.inj (Except.ok.inj h)
    exact .nil
  | cons piece rest ih =>
    obtain ⟨sealed, -, h₁⟩ := bind_eq_ok.1 h
    split at h₁
    · cases h₁
    · obtain ⟨⟨more, last'⟩, hmore, h₂⟩ := bind_eq_ok.1 h₁
      obtain ⟨rfl, -⟩ := Prod.mk.inj (Except.ok.inj h₂)
      have first : Mine i [.put .chunks (chunkKey id seq) sealed] a :=
        mine_singleton.2 ⟨id, seq, rfl, own⟩
      exact first.append (ih hmore)

/-- The ops that store a payload. -/
theorem mints_putPayloadOps (firm : Firm i K) (key payload : Bytes) (flags : UInt8) (prior : Prior) :
    Mints Shared.values i K (inner.putPayloadOps key payload flags prior) := by
  unfold Inner.putPayloadOps
  refine Mints.bind (mints_of_reads firm (reads_gcPrior inner key prior)
    (harmless_gcPrior key prior)) fun gc => ?_
  have firm₁ : Firm i fun a => K a ∧ Mine i gc a := firm.and (firm_mine gc)
  split
  · refine Triple.bind (Triple.ofExcept firm₁.steady (inner.chain.sealSlice payload)) ?_
      fun _ _ h => ⟨h.2.1, fun _ hops => by cases hops⟩
    intro sealed
    refine (Triple.ret (K := fun a => inner.chain.sealSlice payload = .ok sealed ∧ K a ∧ Mine i gc a)
      (Firm.and (fun _ _ h _ => h) firm₁).steady _).mono (fun a h => ⟨h.1.symm, h.2⟩) ?_
    rintro r a ⟨rfl, hseal, hK, hgc⟩
    exact ⟨hK, fun ops h => Except.ok.inj h ▸ hgc.append (harmless_put_sealed hseal i a)⟩
  refine Triple.bind (issues_allocate firm₁) ?_ fun _ _ h => ⟨h.1.1, fun _ hops => by cases hops⟩
  intro id
  split
  · exact Triple.stuck
  have firm₂ : Firm i fun a => (K a ∧ Mine i gc a) ∧ a.issue.holder id = some i :=
    firm₁.and (firm_holds id)
  refine Triple.bind ((Triple.ofExcept firm₂.steady _).mono (fun a h => ⟨h.1, h.2 id rfl⟩)
    fun _ _ h => h) ?_ fun _ _ h => ⟨h.2.1.1, fun _ hops => by cases hops⟩
  rintro ⟨pieces, seq⟩
  dsimp only
  have firm₃ : Firm i fun a => .ok (pieces, seq) =
      inner.pieceOps id 0 (chunksOf inner.config.chunkSize payload) ∧
        (K a ∧ Mine i gc a) ∧ a.issue.holder id = some i := Firm.and (fun _ _ h _ => h) firm₂
  refine Triple.bind (issues_read (F := fun (counter : Option Op) a => Mine i counter.toList a) firm₃
    (fun counter => firm_mine counter.toList) ?_) ?_ ?_
  · intro a s _ hs op hop
    obtain ⟨next, hnext, rfl⟩ := Option.map_eq_some_iff.1 (Option.mem_toList.1 hop)
    intro _
    rw [← hs, hnext]
    simp
  · intro counter
    refine (Triple.ret (firm₃.and (firm_mine counter.toList)).steady _).mono (fun a h => ⟨h.1, h.2 counter rfl⟩) ?_
    rintro r a ⟨rfl, ⟨hpieces, ⟨hK, hgc⟩, hid⟩, hcounter⟩
    refine ⟨hK, fun ops h => Except.ok.inj h ▸ ?_⟩
    have hpointer : Mine i [.put .records (inner.encodeKey key)
        (ChunkPointer.encode ⟨id, seq, UInt64.ofNat payload.length, flags⟩)] a := by
      refine mine_singleton.2 fun p hp => ?_
      rw [← encode_inj (parse_eq_ok.1 hp).1]
      exact hid
    exact ((hgc.append (mine_pieceOps hpieces.symm hid)).append hpointer).append hcounter
  · exact fun _ _ h => ⟨h.1.2.1.1, fun _ hops => by cases hops⟩

theorem mints_actionOps (firm : Firm i K) (mode : TxMode) (key : Bytes) (action : Action) :
    Mints Shared.values i K (actionOps inner mode key action) := by
  cases action with
  | delete =>
    exact mints_of_reads firm (reads_deleteValueOps inner key .unknown)
      (harmless_deleteValueOps key .unknown)
  | put payload =>
    cases mode with
    | lazy => exact mints_putPayloadOps firm key payload _ _
    | eager =>
      exact mints_of_reads firm (reads_eagerPutOps inner key payload)
        (harmless_eagerPutOps key payload)

theorem mints_actionsOps (firm : Firm i K) (mode : TxMode) (actions : List (Bytes × Action)) :
    Mints Shared.values i K (actionsOps inner mode actions) := by
  induction actions generalizing K with
  | nil => exact mints_pure firm fun _ _ => .nil
  | cons entry rest ih =>
    obtain ⟨key, action⟩ := entry
    unfold actionsOps
    refine Mints.bind (mints_actionOps firm mode key action) fun ops => ?_
    exact Mints.map_append firm (ih (firm.and (firm_mine ops)))

/-- The ops of a batch. -/
theorem mints_opsForItems (firm : Firm i K) (staged : List Pending) (mode : TxMode) :
    Mints Shared.values i K (opsForItems inner staged mode) := by
  unfold opsForItems
  refine Mints.bind ?_ fun ops =>
    Mints.map_append firm (mints_actionsOps (firm.and (firm_mine ops)) mode _)
  split
  · exact mints_of_reads firm (reads_clearValueOps inner) harmless_clearValueOps
  · exact mints_pure firm fun _ _ => .nil

end

/-! ## The byte budget -/

/-- The cursor of value ids that a locker shares with its bank. -/
def Ram.ids {T : Type} (ram : Ram T) : ValueIds := ram.shared.values

/-- A step in memory that leaves the cursor of value ids. -/
def SameIds {T : Type} (s s' : Ram T) : Prop := s'.ids = s.ids

theorem only_allocateTick :
    Ticks.allocate.Only Req.isRead fun s s' : Shared => s'.values = s.values := by
  unfold Ticks.allocate
  refine Prog.Only.bind (Prog.only_sync.2 fun s => ?_) fun taken => ?_
  · unfold Ticks.take
    split
    · rfl
    · split
      · rfl
      · rfl
  · cases taken with
    | some tick => exact Prog.only_pure
    | none =>
      refine Prog.Only.bind (Backend.only_get.2 trivial) fun raw => ?_
      refine Prog.only_ofExcept.bind fun stored => Prog.only_sync.2 fun s => ?_
      unfold Ticks.seedAndTake
      dsimp only
      split
      · rfl
      · rfl

theorem only_loadLru (backend : Backend) (id : LockerId) (maxBytes : Nat) :
    (loadLru backend id maxBytes).Only Req.isRead fun s s' : Shared => s'.values = s.values := by
  have pages (p : Bytes) (fuel : Nat) (range : KeyRange) (acc : LruState × Option UInt64) :
      (loadPages p fuel range acc).Only Req.isRead fun s s' : Shared => s'.values = s.values := by
    induction fuel generalizing range acc with
    | zero => exact Prog.only_stuck
    | succ fuel ih =>
      unfold loadPages
      refine Prog.Only.bind (Backend.only_scan.2 trivial) fun page => ?_
      cases page.resume with
      | none => exact Prog.only_pure
      | some last => exact ih _ _
  unfold loadLru
  refine (pages _ _ _ _).bind fun loaded => ?_
  obtain ⟨state, maxTick⟩ := loaded
  cases maxTick with
  | none => exact Prog.only_pure.bind fun _ => Prog.only_pure
  | some tick =>
    refine Prog.Only.bind (Prog.only_sync.2 fun s => ?_) fun _ => Prog.only_pure
    unfold Ticks.observeRecorded
    split
    · rfl
    · rfl

section
variable {T α β : Type} {inner : Inner T} {i : Nat} {K : Sight → Prop}

theorem issues_calm {p : Io (Ram T) α} (firm : Firm i K)
    (only : p.Only (fun q => ¬ q.lands) SameIds) : Issues Ram.ids i K p fun _ => K :=
  issues_still firm only

theorem calm_of_zoom {p : Io Shared α}
    (only : p.Only Req.isRead fun s s' : Shared => s'.values = s.values) :
    (p.zoom (sharedPart T)).Only (fun q => ¬ q.lands) SameIds := by
  refine only.zoom.mono (fun _ => isRead_not_lands) ?_
  rintro s _ ⟨shared, values, rfl⟩
  exact values

theorem calm_of_reads {p : Io (Ram T) α} (reads : Reads p) :
    p.Only (fun q => ¬ q.lands) SameIds :=
  reads.mono (fun _ => isRead_not_lands) fun _ _ h => h.elim

theorem calm_reloadLruIfDirty :
    (reloadLruIfDirty inner : Io (Ram T) Unit).Only (fun q => ¬ q.lands) SameIds := by
  unfold reloadLruIfDirty
  refine Prog.Only.bind (Prog.only_read.2 fun _ => rfl) fun lru => ?_
  cases lru with
  | none => exact Prog.only_pure
  | some state =>
    dsimp only
    split
    · exact Prog.only_pure
    · refine (calm_of_zoom (only_loadLru _ _ _)).bind fun loaded => ?_
      exact Prog.only_update.2 fun _ => rfl

/-- The ops of a commit, with those of the byte budget. -/
theorem issues_budgetOps (firm : Firm i K) (ops : List Op) (updates : List (Bytes × Nat))
    (removals : List Bytes) (cleared : Bool) (keep : List Bytes) :
    Issues Ram.ids i (fun a => K a ∧ Mine i ops a)
      (budgetOps inner ops updates removals cleared keep)
      fun r a => K a ∧ ∀ x, r = .ok x → Mine i x.1 a := by
  have firm₁ : Firm i fun a => K a ∧ Mine i ops a := firm.and (firm_mine ops)
  have unchanged (budget : Budget) : Issues Ram.ids i (fun a => K a ∧ Mine i ops a)
      (pure (ops, budget) : Io (Ram T) _) fun r a => K a ∧ ∀ x, r = .ok x → Mine i x.1 a := by
    refine (Triple.ret firm₁.steady (ops, budget)).mono (fun _ h => h) ?_
    rintro r a ⟨rfl, hK, hops⟩
    exact ⟨hK, fun x hx => Except.ok.inj hx ▸ hops⟩
  have failed (e : Error) (a : Sight) (h : K a ∧ Mine i ops a) :
      K a ∧ ∀ x : List Op × Budget, (.error e : Except Error _) = .ok x → Mine i x.1 a :=
    ⟨h.1, fun _ hx => by cases hx⟩
  unfold budgetOps
  refine Triple.bind (issues_calm firm₁ (Prog.only_read.2 fun _ => rfl)) ?_ failed
  intro unbudgeted
  split
  · exact unchanged {}
  refine Triple.bind (issues_calm firm₁ calm_reloadLruIfDirty) ?_ failed
  intro _
  refine Triple.bind (issues_calm firm₁ (calm_of_zoom only_allocateTick)) ?_ failed
  intro tick
  dsimp only
  refine Triple.bind (issues_calm firm₁ (Prog.only_read.2 fun _ => rfl)) ?_ failed
  intro lru
  cases lru with
  | none => exact unchanged {}
  | some state =>
    dsimp only
    have victims : Issues Ram.ids i (fun a => K a ∧ Mine i ops a)
        (victimOps inner (state.plan (updates.map fun u => (u.1, (⟨tick, u.2⟩ : Entry))) removals
          cleared state.maxBytes keep).victims : Io (Ram T) (List Op))
        fun r a => (K a ∧ Mine i ops a) ∧ ∀ shed, r = .ok shed → Harmless shed :=
      (issues_reads firm₁ (reads_victimOps inner _)).gives (harmless_victimOps _)
    refine Triple.bind victims ?_ fun e a h => failed e a h.1
    intro shed
    have firm₂ : Firm i fun a => (K a ∧ Mine i ops a) ∧ Harmless shed :=
      firm₁.and fun _ _ h _ => h
    refine Triple.bind ((issues_read (F := fun (counter : Op) _ => Harmless [counter]) firm₂
      (fun _ _ _ h _ => h) fun a s _ _ => harmless_accounts fun op hop => ?_).mono
        (fun a h => ⟨h.1, h.2 shed rfl⟩) fun _ _ h => h) ?_ fun e a h => failed e a h.1.1
    · rw [List.mem_singleton.1 hop]
      exact accountOp_counterOp _
    · intro counter
      have firm₃ : Firm i fun a => ((K a ∧ Mine i ops a) ∧ Harmless shed) ∧ Harmless [counter] :=
        firm₂.and fun _ _ h _ => h
      refine (Triple.ret firm₃.steady _).mono (fun a h => ⟨h.1, h.2 counter rfl⟩) ?_
      rintro r a ⟨rfl, ⟨⟨hK, hops⟩, hshed⟩, hcounter⟩
      refine ⟨hK, fun x hx => Except.ok.inj hx ▸ ?_⟩
      exact ((hops.append (harmless_accounts accountOp_of_mem i a)).append (hshed i a)).append
        (hcounter i a)

/-! ## Calls -/

/-- The call `i` keeps the rules of value ids. -/
abbrev Behaves (i : Nat) (p : Io (Ram T) α) : Prop :=
  Issues Ram.ids i (fun _ => True) p fun _ _ => True

theorem Behaves.bind {p : Io (Ram T) α} {f : α → Io (Ram T) β} (hp : Behaves i p)
    (hf : ∀ a, Behaves i (f a)) : Behaves i (p >>= f) :=
  Triple.bind hp hf fun _ _ _ => trivial

theorem Behaves.map {f : α → β} {p : Io (Ram T) α} (hp : Behaves i p) : Behaves i (f <$> p) :=
  Triple.map hp

theorem Behaves.attempt {p : Io (Ram T) α} (hp : Behaves i p) : Behaves i p.attempt :=
  Triple.attempt hp

theorem issues_guarded {p : Io (Ram T) α} {release : Ram T → Ram T} {G : Except Error α → Sight → Prop}
    (hp : Issues Ram.ids i K p G) (firm : ∀ r, Firm i (G r)) (same : ∀ s, SameIds s (release s)) :
    Issues Ram.ids i K (p.guarded release) G := by
  refine Triple.guarded hp (fun r => (firm r).steady) fun r y hG hy => ?_
  obtain ⟨allowed, follows⟩ : (issueRules Ram.ids (Shown Ram.ids)).Allows i _ y _ ∧
      Continues i (seen Ram.ids y) _ := allows_ram hy (same y.machine.mem)
  exact ⟨allowed, firm r _ _ hG follows⟩

theorem Behaves.guarded {p : Io (Ram T) α} {release : Ram T → Ram T} (hp : Behaves i p)
    (same : ∀ s, SameIds s (release s)) : Behaves i (p.guarded release) :=
  issues_guarded hp (fun _ => firm_true) same

theorem behaves_calm {p : Io (Ram T) α} (only : p.Only (fun q => ¬ q.lands) SameIds) :
    Behaves i p := issues_calm firm_true only

theorem behaves_pure {a : α} : Behaves i (pure a : Io (Ram T) α) := behaves_calm Prog.only_pure

theorem behaves_fail {e : Error} : Behaves i (.fail e : Io (Ram T) α) := behaves_calm Prog.only_fail

theorem behaves_ofExcept {x : Except Error α} : Behaves i (Prog.ofExcept x : Io (Ram T) α) :=
  behaves_calm Prog.only_ofExcept

theorem behaves_read {f : Ram T → α} : Behaves i (Prog.read f) :=
  behaves_calm (Prog.only_read.2 fun _ => rfl)

theorem behaves_update {f : Ram T → Ram T} (same : ∀ s, SameIds s (f s)) :
    Behaves i (Prog.update f) := behaves_calm (Prog.only_update.2 same)

theorem behaves_reads {p : Io (Ram T) α} (reads : Reads p) : Behaves i p :=
  behaves_calm (calm_of_reads reads)

theorem behaves_ensureOpen : Behaves i (Ram.ensureOpen : Io (Ram T) Unit) :=
  behaves_calm (Prog.only_sync.2 fun _ => rfl)

theorem behaves_stage {entry : Pending} : Behaves i (stage inner entry) :=
  behaves_calm (Prog.only_sync.2 fun _ => rfl)

theorem behaves_withWriteLock {body : Io (Ram T) α} (hb : Behaves i body) :
    Behaves i (withWriteLock body) :=
  Behaves.bind (behaves_calm (Prog.only_ask.2 fun h => h)) fun _ => hb.guarded fun _ => rfl

theorem behaves_commit {ops : List Op} :
    Issues Ram.ids i (Mine i ops) (inner.commit ops : Io (Ram T) Unit) fun _ _ => True :=
  (issues_commit firm_true).mono (fun _ h => ⟨h, trivial⟩) fun _ _ _ => trivial

theorem behaves_flushBackend : Behaves i (inner.flushBackend : Io (Ram T) Unit) := by
  unfold Inner.flushBackend
  split
  · exact behaves_calm (Backend.only_flush.2 fun h => h)
  · exact behaves_pure

/-- What is built is the call's, or the batch is put back. -/
theorem issues_restagingOnError {entries : List Pending} {p : Io (Ram T) α} {F : α → Sight → Prop}
    (finds : ∀ x, Firm i (F x)) (hp : Issues Ram.ids i K p fun r a => ∀ x, r = .ok x → F x a) :
    Issues Ram.ids i K (restagingOnError entries p) fun r a => ∀ x, r = .ok x → F x a := by
  unfold restagingOnError
  refine Triple.bind (Triple.attempt (G := fun r a => ∀ y, r = .ok y → ∀ x, y = .ok x → F x a)
    (hp.mono (fun _ h => h) fun r a h y hy x hx => h x ((Except.ok.inj hy).trans hx))) ?_
    fun _ _ _ _ hx => by cases hx
  intro y
  cases y with
  | ok x =>
    refine (Triple.ret (finds x).steady x).mono (fun a h => h _ rfl x rfl) ?_
    rintro r a ⟨rfl, hF⟩ x' hx'
    exact Except.ok.inj hx' ▸ hF
  | error e =>
    refine Triple.bind ((behaves_update (i := i) (f := Ram.mapRes (Resident.putBack entries))
      fun _ => rfl).mono (fun _ _ => trivial) fun _ _ h => h) ?_ fun _ _ _ x hx => by cases hx
    intro _
    refine (Triple.fail firm_true.steady e).mono (fun _ h => h) ?_
    rintro r a ⟨rfl, -⟩ x hx
    cases hx

/-- A builder of the bank's cursors, from inside a locker. -/
theorem mints_zoom {p : Io Shared (List Op)} (mints : Mints Shared.values i K p) :
    Mints Ram.ids i K (p.zoom (sharedPart T)) :=
  show Mints (fun ram => Shared.values ((sharedPart T).get ram)) i K _ from Issues.zoom mints

theorem behaves_lands {ops : List Op} {rest : Unit → Io (Ram T) β} (hrest : Behaves i (rest ())) :
    Issues Ram.ids i (Mine i ops) (inner.commit ops >>= rest) fun _ _ => True :=
  Triple.bind behaves_commit (fun _ => hrest) fun _ _ _ => trivial

theorem behaves_landing {build : Io (Ram T) (List Op)} {updates : List (Bytes × Nat)}
    {removals : List Bytes} {cleared : Bool} {keep : List Bytes}
    {lands : List Op × Budget → Io (Ram T) β} (mints : Mints Ram.ids i (fun _ => True) build)
    (hlands : ∀ x, Issues Ram.ids i (Mine i x.1) (lands x) fun _ _ => True) :
    Behaves i (do
      let ops ← build
      let reckoned ← budgetOps inner ops updates removals cleared keep
      lands reckoned) := by
  refine Triple.bind mints (fun ops => ?_) fun _ _ _ => trivial
  refine Triple.bind ((issues_budgetOps firm_true ops updates removals cleared keep).mono
    (fun a h => ⟨trivial, h.2 ops rfl⟩) fun _ _ h => h) ?_ fun _ _ _ => trivial
  exact fun reckoned => (hlands reckoned).mono (fun a h => h.2 _ rfl) fun _ _ h => h

theorem issues_batchOps (merged : List Pending) (mode : TxMode) :
    Issues Ram.ids i (fun _ => True) (batchOps inner merged mode)
      fun r a => ∀ x, r = .ok x → Mine i x.1 a := by
  have mints : Mints Ram.ids i (fun _ => True)
      ((opsForPending inner merged mode).zoom (sharedPart T)) :=
    mints_zoom (mints_opsForItems firm_true merged mode)
  unfold batchOps
  refine Triple.bind mints (fun ops => ?_) fun _ _ _ _ hx => by cases hx
  exact (issues_budgetOps firm_true ops _ _ _ _).mono (fun a h => ⟨trivial, h.2 ops rfl⟩)
    fun _ _ h => h.2

theorem behaves_batch {entries : List Pending} {build : Io (Ram T) α} {ops : α → List Op}
    {after : α → Io (Ram T) β}
    (mints : Issues Ram.ids i (fun _ => True) build fun r a => ∀ x, r = .ok x → Mine i (ops x) a)
    (rest : ∀ x, Behaves i (after x)) :
    Behaves i (do
      let built ← restagingOnError entries build
      restagingOnError entries (inner.commit (ops built))
      after built) := by
  refine Triple.bind (issues_restagingOnError (fun x => firm_mine (ops x)) mints) (fun built => ?_)
    fun _ _ _ => trivial
  have commit : Issues Ram.ids i (Mine i (ops built)) (inner.commit (ops built) : Io (Ram T) Unit)
      fun r a => ∀ x : Unit, r = .ok x → True := behaves_commit.mono (fun _ h => h) fun _ _ _ _ _ => trivial
  refine Triple.bind ((issues_restagingOnError (fun _ => firm_true) commit).mono
    (fun a h => h built rfl) fun _ _ _ => trivial) (fun _ => rest built) fun _ _ _ => trivial

theorem behaves_flushLocked : Behaves i (flushLocked inner) := by
  unfold flushLocked
  refine Behaves.bind (behaves_calm (Prog.only_sync.2 fun _ => rfl)) fun entries => ?_
  refine Behaves.guarded ?_ fun _ => rfl
  split
  · exact behaves_pure
  · refine behaves_read.bind fun mode => ?_
    exact behaves_batch (issues_batchOps entries mode) fun _ => behaves_update fun _ => rfl

theorem behaves_residentFlush : Behaves i (Resident.flush inner) := by
  unfold Resident.flush
  refine behaves_read.bind fun n => ?_
  split
  · exact behaves_pure
  · exact behaves_withWriteLock behaves_flushLocked

theorem behaves_both {first second : Io (Ram T) Unit} (h : Behaves i first) (h' : Behaves i second) :
    Behaves i (LazyLocker.both first second) :=
  h.attempt.bind fun _ => h'.attempt.bind fun _ => behaves_ofExcept.bind fun _ => behaves_ofExcept

theorem behaves_txBody (body : TxBody T) :
    Behaves i (body.run inner [] : Io (Ram T) (List (Staged T))) :=
  behaves_reads (reads_txBody inner body [])

theorem behaves_whenFull {full : Bool} {p : Io (Ram T) Unit} (hp : Behaves i p) :
    Behaves i (if full then p else pure ()) := by
  split
  · exact hp
  · exact behaves_pure

namespace LazyLocker

theorem behaves_noteRead (key : Bytes) : Behaves i (noteRead key : Io (Ram T) Unit) := by
  unfold noteRead
  refine behaves_read.bind fun unbudgeted => ?_
  split
  · exact behaves_pure
  · exact (behaves_calm (calm_of_zoom only_allocateTick)).bind fun tick =>
      behaves_update fun _ => rfl

theorem behaves_getBy (key : Bytes) : Behaves i (getBy inner key) := by
  have load : Behaves i (loadAndNote inner key) := by
    unfold loadAndNote
    refine (behaves_reads (reads_loadValue inner key)).attempt.bind fun found => ?_
    cases found with
    | ok found => exact behaves_pure
    | error e =>
      dsimp only
      split
      · exact Behaves.bind (behaves_update fun _ => rfl) fun _ => behaves_fail
      · exact behaves_fail
  unfold getBy
  refine behaves_ensureOpen.bind fun _ => behaves_read.bind fun staged => ?_
  split
  · exact behaves_pure
  · exact behaves_ofExcept
  · refine load.bind fun found => ?_
    dsimp only
    split
    · exact (behaves_noteRead key).bind fun _ => behaves_pure
    · exact behaves_pure

theorem behaves_collect (start stop : Bound Bytes) (reverse : Bool) (limit : Option Nat) :
    Behaves i (collect inner start stop reverse limit) := by
  unfold collect
  refine behaves_read.bind fun staged => ?_
  refine (behaves_reads (reads_walk inner _ _ _ _ _ _)).bind fun stored => ?_
  split
  · exact behaves_reads (reads_decodeEntries _)
  · exact behaves_reads (reads_decodeEntries _)

theorem behaves_putBy (key : Bytes) (value : T) : Behaves i (putBy inner key value) := by
  unfold putBy
  refine behaves_ensureOpen.bind fun _ => behaves_withWriteLock ?_
  refine behaves_ofExcept.bind fun payload => ?_
  split
  · refine behaves_stage.bind fun full => ?_
    refine Behaves.bind (behaves_update fun _ => rfl) fun _ => ?_
    refine Behaves.bind (behaves_update fun _ => rfl) fun _ => ?_
    exact Behaves.bind (behaves_update fun _ => rfl) fun _ => behaves_whenFull behaves_flushLocked
  · refine behaves_read.bind fun prior => ?_
    dsimp only
    refine behaves_landing (mints_zoom (mints_putPayloadOps firm_true key payload _ prior))
      fun reckoned => behaves_lands ?_
    refine Behaves.bind (behaves_update fun _ => rfl) fun _ => ?_
    refine Behaves.bind (behaves_update fun _ => rfl) fun _ => ?_
    exact Behaves.bind (behaves_update fun _ => rfl) fun _ => behaves_update fun _ => rfl

theorem behaves_deleteBy (key : Bytes) : Behaves i (deleteBy inner key) := by
  unfold deleteBy
  refine behaves_ensureOpen.bind fun _ => behaves_withWriteLock ?_
  split
  · refine behaves_stage.bind fun full => ?_
    refine Behaves.bind (behaves_update fun _ => rfl) fun _ => ?_
    refine Behaves.bind (behaves_update fun _ => rfl) fun _ => ?_
    exact Behaves.bind (behaves_update fun _ => rfl) fun _ => behaves_whenFull behaves_flushLocked
  · refine behaves_read.bind fun prior => ?_
    dsimp only
    refine behaves_landing (mints_of_reads firm_true (reads_deleteValueOps inner key prior)
      (harmless_deleteValueOps key prior)) fun reckoned => behaves_lands ?_
    refine Behaves.bind (behaves_update fun _ => rfl) fun _ => ?_
    refine Behaves.bind (behaves_update fun _ => rfl) fun _ => ?_
    exact Behaves.bind (behaves_update fun _ => rfl) fun _ => behaves_update fun _ => rfl

theorem behaves_clear : Behaves i (clear inner) := by
  unfold clear
  refine behaves_ensureOpen.bind fun _ => behaves_withWriteLock ?_
  split
  · refine behaves_stage.bind fun full => ?_
    refine Behaves.bind (behaves_update fun _ => rfl) fun _ => ?_
    refine Behaves.bind (behaves_update fun _ => rfl) fun _ => ?_
    exact Behaves.bind (behaves_update fun _ => rfl) fun _ => behaves_whenFull behaves_flushLocked
  · dsimp only
    refine behaves_landing (mints_of_reads firm_true (reads_clearValueOps inner)
      harmless_clearValueOps) fun reckoned => behaves_lands ?_
    refine Behaves.bind (behaves_update fun _ => rfl) fun _ => ?_
    refine Behaves.bind (behaves_update fun _ => rfl) fun _ => ?_
    exact Behaves.bind (behaves_update fun _ => rfl) fun _ => behaves_update fun _ => rfl

theorem behaves_transact (body : TxBody T) : Behaves i (transact inner body) := by
  unfold transact
  refine behaves_ensureOpen.bind fun _ => behaves_withWriteLock ?_
  refine (behaves_txBody body).bind fun entries => ?_
  split
  · exact behaves_pure
  · refine Behaves.bind (behaves_calm (Prog.only_sync.2 fun _ => rfl)) fun before => ?_
    refine Behaves.guarded ?_ fun _ => rfl
    refine behaves_batch (issues_batchOps _ .lazy) fun _ => ?_
    refine Behaves.bind (behaves_update fun _ => rfl) fun _ => ?_
    refine Behaves.bind (behaves_update fun _ => rfl) fun _ => ?_
    exact Behaves.bind (behaves_update fun _ => rfl) fun _ => behaves_update fun _ => rfl

theorem behaves_putAll (entries : List (Bytes × T)) : Behaves i (putAll inner entries) := by
  unfold putAll
  split
  · exact behaves_pure
  · exact behaves_transact _

theorem behaves_deleteAll (keys : List Bytes) : Behaves i (deleteAll inner keys) := by
  unfold deleteAll
  split
  · exact behaves_pure
  · exact behaves_transact _

theorem behaves_evictTo (bytes : Nat) : Behaves i (evictTo inner bytes) := by
  unfold evictTo Resident.evictTo
  refine behaves_ensureOpen.bind fun _ => behaves_read.bind fun unbudgeted => ?_
  split
  · exact behaves_pure
  refine behaves_withWriteLock (behaves_read.bind fun lru => ?_)
  cases lru with
  | none => exact behaves_pure
  | some state =>
    dsimp only
    split
    · exact behaves_pure
    · refine Triple.bind (mints_of_reads firm_true (reads_victimOps inner _) (harmless_victimOps _))
        (fun ops => ?_) fun _ _ _ => trivial
      refine (behaves_lands ?_).mono (fun a h => h.2 ops rfl) fun _ _ h => h
      exact Behaves.bind (behaves_update fun _ => rfl) fun _ => behaves_pure

theorem behaves_close : Behaves i (close inner) := by
  unfold close
  refine behaves_residentFlush.attempt.bind fun flushed => ?_
  have rest : Behaves i (do
      let forced ← (inner.flushBackend : Io (Ram T) Unit).attempt
      Prog.update fun ram => { ram with closed := true }
      Prog.update (Ram.mapRes (·.touchIndex fun _ => ∅))
      Prog.update (Ram.mapRes Resident.forgetInline)
      Prog.ofExcept flushed
      Prog.ofExcept forced) := by
    refine behaves_flushBackend.attempt.bind fun forced => ?_
    refine Behaves.bind (behaves_update fun _ => rfl) fun _ => ?_
    refine Behaves.bind (behaves_update fun _ => rfl) fun _ => ?_
    refine Behaves.bind (behaves_update fun _ => rfl) fun _ => ?_
    exact behaves_ofExcept.bind fun _ => behaves_ofExcept
  dsimp only
  split
  · exact Behaves.bind (behaves_update fun _ => rfl) fun _ => rest
  · exact rest

end LazyLocker

namespace EagerLocker

theorem behaves_mirrorPut (key : Bytes) (value : T) : Behaves i (mirrorPut key value) :=
  Behaves.bind (behaves_update fun _ => rfl) fun _ =>
    Behaves.bind (behaves_update fun _ => rfl) fun _ => behaves_update fun _ => rfl

theorem behaves_mirrorClear : Behaves i (mirrorClear : Io (Ram T) Unit) :=
  Behaves.bind (behaves_update fun _ => rfl) fun _ =>
    Behaves.bind (behaves_update fun _ => rfl) fun _ => behaves_update fun _ => rfl

theorem behaves_mirrorDelete (key : Bytes) (held : Bool) :
    Behaves i (mirrorDelete key held : Io (Ram T) Unit) := by
  unfold mirrorDelete
  refine Behaves.bind (behaves_update fun _ => rfl) fun _ => ?_
  refine Behaves.bind (behaves_update fun _ => rfl) fun _ => ?_
  exact behaves_whenFull (behaves_update fun _ => rfl)

theorem behaves_harmless {ops : List Op} (h : Harmless ops) :
    Behaves i (inner.commit ops : Io (Ram T) Unit) :=
  behaves_commit.mono (fun a _ => h i a) fun _ _ h => h

theorem behaves_putBy (key : Bytes) (value : T) : Behaves i (putBy inner key value) := by
  unfold putBy
  refine behaves_ensureOpen.bind fun _ => ?_
  refine Triple.bind (Triple.ofExcept firm_true.steady (inner.value.encode inner.chain value))
    (fun sealed => ?_) fun _ _ _ => trivial
  split
  · exact behaves_fail.mono (fun _ _ => trivial) fun _ _ h => h
  split
  · refine Triple.mono (K := fun _ => True) (Behaves.bind behaves_ofExcept fun payload => ?_)
      (fun _ _ => trivial) fun _ _ h => h
    refine behaves_stage.bind fun full => (behaves_mirrorPut key value).bind fun _ => ?_
    dsimp only
    split
    · exact (behaves_withWriteLock behaves_flushLocked).bind fun _ => behaves_pure
    · exact behaves_pure
  · refine (behaves_lands ((behaves_mirrorPut key value).bind fun _ => behaves_pure)).mono
      (fun a h => ?_) fun _ _ h => h
    obtain ⟨payload, -, hseal⟩ := bind_eq_ok.1 h.1.symm
    exact harmless_put_sealed hseal i a

theorem behaves_deleteBy (key : Bytes) : Behaves i (deleteBy inner key) := by
  unfold deleteBy
  refine behaves_ensureOpen.bind fun _ => behaves_read.bind fun held => behaves_read.bind fun known => ?_
  split
  · exact behaves_pure
  split
  · refine behaves_stage.bind fun full => (behaves_mirrorDelete key held).bind fun _ => ?_
    exact behaves_whenFull (behaves_withWriteLock behaves_flushLocked)
  · exact (behaves_harmless (harmless_deleteOp key)).bind fun _ => behaves_mirrorDelete key held

theorem behaves_clear : Behaves i (clear inner) := by
  unfold clear
  refine behaves_ensureOpen.bind fun _ => ?_
  split
  · refine behaves_stage.bind fun full => behaves_mirrorClear.bind fun _ => ?_
    exact behaves_whenFull (behaves_withWriteLock behaves_flushLocked)
  · exact (behaves_harmless harmless_clearOp).bind fun _ => behaves_mirrorClear

theorem behaves_transact (body : TxBody T) : Behaves i (transact inner body) := by
  unfold transact
  refine behaves_ensureOpen.bind fun _ => behaves_withWriteLock ?_
  refine (behaves_txBody body).bind fun entries => ?_
  split
  · exact behaves_pure
  · refine Behaves.bind (behaves_calm (Prog.only_sync.2 fun _ => rfl)) fun before => ?_
    refine Behaves.guarded ?_ fun _ => rfl
    have mints : Mints Ram.ids i (fun _ => True)
        ((opsForPending inner (mergeBatches before entries) .eager).zoom (sharedPart T)) :=
      mints_zoom (mints_opsForItems firm_true (mergeBatches before entries) .eager)
    have built : Issues Ram.ids i (fun _ => True)
        ((opsForPending inner (mergeBatches before entries) .eager).zoom (sharedPart T))
        fun r a => ∀ ops, r = .ok ops → Mine i (id ops) a := mints.mono (fun _ h => h) fun _ _ h => h.2
    refine behaves_batch built fun _ => behaves_update fun ram => ?_
    obtain ⟨values, dropped, hram⟩ := mirrorEntry_frame entries ram []
    show Ram.ids (entries.foldl mirrorEntry (ram, [])).1 = ram.ids
    rw [hram]
    rfl

theorem behaves_putAll (entries : List (Bytes × T)) : Behaves i (putAll inner entries) := by
  unfold putAll
  split
  · exact behaves_pure
  · exact behaves_transact _

theorem behaves_deleteAll (keys : List Bytes) : Behaves i (deleteAll inner keys) := by
  unfold deleteAll
  split
  · exact behaves_pure
  · exact behaves_transact _

theorem behaves_close : Behaves i (close inner) := by
  unfold close
  refine behaves_residentFlush.attempt.bind fun flushed => ?_
  have rest : Behaves i (do
      let forced ← (inner.flushBackend : Io (Ram T) Unit).attempt
      Prog.update fun ram => { ram with closed := true }
      Prog.update fun ram => { ram with values := ∅ }
      Prog.ofExcept flushed
      Prog.ofExcept forced) := by
    refine behaves_flushBackend.attempt.bind fun forced => ?_
    refine Behaves.bind (behaves_update fun _ => rfl) fun _ => ?_
    refine Behaves.bind (behaves_update fun _ => rfl) fun _ => ?_
    exact behaves_ofExcept.bind fun _ => behaves_ofExcept
  dsimp only
  split
  · exact Behaves.bind (behaves_update fun _ => rfl) fun _ => rest
  · exact rest

end EagerLocker

/-- The call is not one of a writer. -/
def LazyCall.Plain : LazyCall T → Prop
  | .writer _ | .writeChunk _ _ | .finish _ | .abort _ => False
  | _ => True

/-- Every call of a lazy locker keeps the rules of value ids. -/
theorem LazyCall.behaves {c : LazyCall T} (plain : c.Plain) : Behaves i (c.prog inner) := by
  cases c with
  | get key => exact (LazyLocker.behaves_getBy key).map
  | list start stop reverse limit => exact (LazyLocker.behaves_collect start stop reverse limit).map
  | put key value => exact LazyLocker.behaves_putBy key value
  | delete key => exact LazyLocker.behaves_deleteBy key
  | clear => exact LazyLocker.behaves_clear
  | transact body => exact LazyLocker.behaves_transact body
  | putAll entries => exact LazyLocker.behaves_putAll entries
  | deleteAll keys => exact LazyLocker.behaves_deleteAll keys
  | flush => exact behaves_both behaves_residentFlush behaves_flushBackend
  | evictTo bytes => exact (LazyLocker.behaves_evictTo bytes).map
  | close => exact LazyLocker.behaves_close
  | writer key => exact plain.elim
  | writeChunk w bytes => exact plain.elim
  | finish w => exact plain.elim
  | abort w => exact plain.elim

/-- Every call of an eager locker keeps the rules of value ids. -/
theorem EagerCall.behaves (c : EagerCall T) : Behaves i (c.prog inner) := by
  cases c with
  | put key value => exact (EagerLocker.behaves_putBy key value).map
  | delete key => exact EagerLocker.behaves_deleteBy key
  | clear => exact EagerLocker.behaves_clear
  | transact body => exact EagerLocker.behaves_transact body
  | putAll entries => exact EagerLocker.behaves_putAll entries
  | deleteAll keys => exact EagerLocker.behaves_deleteAll keys
  | flush => exact behaves_both behaves_residentFlush behaves_flushBackend
  | close => exact EagerLocker.behaves_close

end
end Crossbank
