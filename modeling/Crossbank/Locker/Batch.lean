import Crossbank.Locker.Held

/-!
# The ops of an eager batch

What a batch is turned into, whatever its reads find, and whenever it lands.

* `Lays inner ops staged` : of the records, the ops write what the batch says;
* `gives_opsForItems` : the ops of an eager batch do;
* `gives_txBody` : what a transaction stages is serialised.
-/

namespace Crossbank
open Async

section
variable {T ρ : Type} {inner : Inner T}

def SparesRecords (ops : List Op) : Prop := ∀ key, written ops .records key = none

theorem SparesRecords.nil : SparesRecords [] := fun _ => rfl

theorem SparesRecords.append {a b : List Op} (ha : SparesRecords a) (hb : SparesRecords b) :
    SparesRecords (a ++ b) := by
  intro key
  rw [written_append, ha key, hb key]
  rfl

theorem sparesRecords_gcOps (pointer : ChunkPointer) : SparesRecords [gcOps pointer] := by
  intro key
  simp [written_cons, gcOps, Op.written]

theorem sparesRecords_gcParsed (existing : Option Bytes) : SparesRecords (gcParsed existing) := by
  unfold gcParsed
  cases existing with
  | none => exact .nil
  | some raw =>
    dsimp only
    split
    · split
      · exact sparesRecords_gcOps _
      · exact .nil
    · exact .nil

theorem sparesRecords_gcExisting {existing : Option Bytes} {ops : List Op}
    (h : Inner.gcExisting existing = .ok ops) : SparesRecords ops := by
  unfold Inner.gcExisting at h
  cases existing with
  | none =>
    obtain rfl := Except.ok.inj h
    exact .nil
  | some raw =>
    dsimp only at h
    split at h
    · obtain ⟨pointer, -, hops⟩ := bind_eq_ok.1 h
      obtain rfl := Except.ok.inj hops
      exact sparesRecords_gcOps pointer
    · obtain rfl := Except.ok.inj h
      exact .nil

theorem gives_gcPrior (key : Bytes) (prior : Prior) :
    (inner.gcPrior key prior : Io ρ (List Op)).Gives SparesRecords := by
  unfold Inner.gcPrior
  split
  · exact Prog.Gives.next fun existing => Prog.gives_ofExcept fun ops h => sparesRecords_gcExisting h
  · exact SparesRecords.nil

/-- What a walk returns, from what each visit keeps. -/
theorem gives_walk {σ : Type} {G : σ → Prop} {start stop : Bound Bytes} {reverse wantValues : Bool}
    {visit : σ → Bytes → Option Bytes → Except Error σ} {acc : σ} (hacc : G acc)
    (keeps : ∀ acc key value acc', G acc → visit acc key value = .ok acc' → G acc') :
    (inner.walk start stop reverse wantValues visit acc : Io ρ σ).Gives G := by
  have page (items : List (Bytes × Option Bytes)) (acc acc' : σ) (hacc : G acc)
      (h : inner.visitPage visit items acc = .ok acc') : G acc' := by
    induction items generalizing acc with
    | nil =>
      obtain rfl := pure_eq_ok.1 h
      exact hacc
    | cons item items ih =>
      unfold Inner.visitPage at h ih
      rw [List.foldlM_cons] at h
      obtain ⟨acc₁, hfirst, hrest⟩ := bind_eq_ok.1 h
      obtain ⟨key, -, hvisit⟩ := bind_eq_ok.1 hfirst
      exact ih acc₁ (keeps acc key _ acc₁ hacc hvisit) hrest
  have pages (fuel : Nat) (range : KeyRange) (acc : σ) (hacc : G acc) :
      (inner.walkPages reverse wantValues visit fuel range acc : Io ρ σ).Gives G := by
    induction fuel generalizing range acc with
    | zero => trivial
    | succ fuel ih =>
      unfold Inner.walkPages
      refine Prog.Gives.next fun found => ?_
      refine Prog.Gives.bind (Prog.gives_ofExcept fun acc' h => page found.items acc acc' hacc h) ?_
      intro acc' hacc'
      split
      · exact ih _ acc' hacc'
      · exact hacc'
  unfold Inner.walk
  split
  · exact hacc
  · exact pages _ _ acc hacc

/-- Clearing drops every record of the locker, and chunks. -/
theorem gives_clearValueOps : (inner.clearValueOps : Io ρ (List Op)).Gives fun ops =>
    ∀ key, written ops .records (inner.encodeKey key) = some none := by
  unfold Inner.clearValueOps
  refine Prog.Gives.bind (gives_walk SparesRecords.nil ?_) fun ops hops key => ?_
  · intro acc key value acc' hacc h
    unfold Inner.gcVisited at h
    cases value with
    | none =>
      obtain rfl := Except.ok.inj h
      exact hacc
    | some raw =>
      dsimp only at h
      split at h
      · split at h
        · obtain rfl := Except.ok.inj h
          exact hacc.append (sparesRecords_gcOps _)
        · obtain rfl := Except.ok.inj h
          exact hacc
      · obtain rfl := Except.ok.inj h
        exact hacc
  · rw [written_append, written_clearOp]
    rfl

/-! ## What a batch lays down -/

/-- Of the records of the locker, the ops write what the batch says, each put sealed inline. -/
def Lays (inner : Inner T) (ops : List Op) (staged : List Pending) : Prop :=
  ∀ key, match stagedView staged key with
    | none => written ops .records (inner.encodeKey key) = none
    | some none => written ops .records (inner.encodeKey key) = some none
    | some (some payload) => ∃ sealed, inner.chain.sealSlice payload = .ok sealed ∧
      written ops .records (inner.encodeKey key) = some (some sealed)

/-- The write of one action, and of no other key. -/
def Performs (inner : Inner T) (key : Bytes) (action : Action) (ops : List Op) : Prop :=
  (match action with
    | .delete => written ops .records (inner.encodeKey key) = some none
    | .put payload => ∃ sealed, inner.chain.sealSlice payload = .ok sealed ∧
      written ops .records (inner.encodeKey key) = some (some sealed)) ∧
  ∀ other, other ≠ key → written ops .records (inner.encodeKey other) = none

theorem SparesRecords.performs {gc : List Op} (h : SparesRecords gc) {key : Bytes} {action : Action}
    {op : Op} (performs : Performs inner key action [op]) : Performs inner key action (gc ++ [op]) := by
  have hwritten (k : Bytes) : written (gc ++ [op]) .records (inner.encodeKey k) =
      written [op] .records (inner.encodeKey k) := by
    rw [written_append, h, Option.or_none]
  refine ⟨?_, fun other hne => ?_⟩
  · rw [hwritten]
    exact performs.1
  · rw [hwritten]
    exact performs.2 other hne

theorem performs_put {key payload sealed : Bytes} (h : inner.chain.sealSlice payload = .ok sealed) :
    Performs inner key (.put payload) [.put .records (inner.encodeKey key) sealed] := by
  refine ⟨⟨sealed, h, by simp [written_cons, Op.written]⟩, fun other hne => ?_⟩
  simp [written_cons, Op.written, encodeKey_inj, Ne.symm hne]

theorem performs_delete (key : Bytes) : Performs inner key .delete [inner.deleteOp key] := by
  refine ⟨by simp [written_cons, Inner.deleteOp, Op.written], fun other hne => ?_⟩
  simp [written_cons, Inner.deleteOp, Op.written, encodeKey_inj, Ne.symm hne]

theorem gives_eagerPutOps (key payload : Bytes) :
    (eagerPutOps inner key payload : Io ρ (List Op)).Gives (Performs inner key (.put payload)) := by
  unfold eagerPutOps
  refine Prog.Gives.bind (G := fun sealed => inner.chain.sealSlice payload = .ok sealed)
    (Prog.gives_ofExcept fun sealed h => h) fun sealed hsealed => ?_
  split
  · trivial
  · exact Prog.Gives.next fun existing =>
      (sparesRecords_gcParsed existing).performs (performs_put hsealed)

theorem gives_actionOps (key : Bytes) (action : Action) :
    (actionOps inner .eager key action).Gives (Performs inner key action) := by
  cases action with
  | put payload => exact gives_eagerPutOps key payload
  | delete =>
    unfold actionOps Inner.deleteValueOps
    exact (gives_gcPrior key .unknown).bind fun gc hgc => hgc.performs (performs_delete key)

/-- Of keys that differ from each other, each is left by its own action. -/
theorem gives_actionsOps (actions : List (Bytes × Action)) (nodup : (actions.map Prod.fst).Nodup) :
    (actionsOps inner .eager actions).Gives fun ops => ∀ key,
      (∀ action, (key, action) ∈ actions → ∃ own, Performs inner key action own ∧
        written ops .records (inner.encodeKey key) = written own .records (inner.encodeKey key)) ∧
      (key ∉ actions.map Prod.fst → written ops .records (inner.encodeKey key) = none) := by
  induction actions with
  | nil => exact fun key => ⟨fun action h => absurd h List.not_mem_nil, fun _ => rfl⟩
  | cons entry rest ih =>
    obtain ⟨k, action⟩ := entry
    rw [List.map_cons, List.nodup_cons] at nodup
    obtain ⟨fresh, nodup⟩ := nodup
    unfold actionsOps
    refine (gives_actionOps k action).bind fun ops performs => (ih nodup).bind fun more hmore key => ?_
    obtain ⟨hin, hout⟩ := hmore key
    rw [written_append]
    by_cases hk : key = k
    · -- The head is the only action of its key.
      rw [hk] at hout ⊢
      refine ⟨fun action' hmem => ⟨ops, ?_, ?_⟩, fun hnot => absurd List.mem_cons_self hnot⟩
      · rcases List.mem_cons.1 hmem with heq | hmem
        · rw [(Prod.mk.inj heq).2]
          exact performs
        · exact absurd (List.mem_map_of_mem hmem) fresh
      · rw [hout fresh, Option.none_or]
    · rw [performs.2 key hk, Option.or_none]
      refine ⟨fun action' hmem => hin action' ?_, fun hnot => hout fun hmem => ?_⟩
      · rcases List.mem_cons.1 hmem with heq | hmem
        · exact absurd (Prod.mk.inj heq).1 hk
        · exact hmem
      · exact hnot (List.mem_cons_of_mem _ hmem)

/-- An eager batch lays down what it says, whatever its reads find. -/
theorem gives_opsForItems (staged : List Pending) :
    (opsForItems inner staged .eager).Gives fun ops => Lays inner ops staged := by
  have cleared : (if .clear ∈ staged then inner.clearValueOps else pure [] : Io Shared (List Op)).Gives
      fun ops => ∀ key, written ops .records (inner.encodeKey key) =
        if .clear ∈ staged then some none else none := by
    split
    · exact gives_clearValueOps
    · exact fun _ => rfl
  unfold opsForItems
  refine cleared.bind fun first hfirst =>
    (gives_actionsOps _ (nodup_keys_toList _)).bind fun more hmore key => ?_
  obtain ⟨hin, hout⟩ := hmore key
  rw [stagedView_eq_collapsed, written_append, hfirst]
  cases hc : (collapsed staged)[key]? with
  | some action =>
    obtain ⟨own, performs, hown⟩ := hin action
      (Std.ExtTreeMap.mem_toList_iff_getElem?_eq_some.2 hc)
    rw [hown]
    have hkey := performs.1
    cases action with
    | delete =>
      dsimp only at hkey
      rw [hkey]
      rfl
    | put payload =>
      obtain ⟨sealed, hseal, hput⟩ := hkey
      rw [hput]
      exact ⟨sealed, hseal, rfl⟩
  | none =>
    have absent : key ∉ (actionsOf (afterLastClear staged)).toList.map Prod.fst := by
      intro hmem
      obtain ⟨⟨k, action⟩, hentry, rfl⟩ := List.mem_map.1 hmem
      have hsome : (collapsed staged)[k]? = some action :=
        Std.ExtTreeMap.mem_toList_iff_getElem?_eq_some.1 hentry
      rw [hc] at hsome
      cases hsome
    rw [hout absent, Option.none_or, Option.map_none, Option.none_or]
    by_cases hclear : .clear ∈ staged
    · simp [hclear]
    · simp [hclear]

/-- What a transaction stages carries the payloads of its values. -/
theorem gives_txBody (body : TxBody T) {staged : List (Staged T)}
    (serialised : ∀ entry ∈ staged, entry.Serialised inner) :
    (body.run inner staged : Io ρ (List (Staged T))).Gives
      fun entries => ∀ entry ∈ entries, entry.Serialised inner := by
  have concat {staged : List (Staged T)} {last : Staged T}
      (h : ∀ entry ∈ staged, entry.Serialised inner) (hlast : last.Serialised inner) :
      ∀ entry ∈ staged ++ [last], entry.Serialised inner := by
    intro entry he
    rcases List.mem_append.1 he with he | he
    · exact h entry he
    · obtain rfl := List.mem_singleton.1 he
      exact hlast
  induction body generalizing staged with
  | done result =>
    cases result with
    | ok u => exact serialised
    | error e => trivial
  | put key value next ih =>
    rw [TxBody.run]
    split
    · next payload hp => exact ih _ (concat serialised hp)
    · exact ih _ serialised
  | delete key next ih => exact ih (concat serialised trivial)
  | clear next ih => exact ih (concat serialised trivial)
  | get key next ih => exact Prog.Gives.next fun found => ih _ serialised

end
end Crossbank
