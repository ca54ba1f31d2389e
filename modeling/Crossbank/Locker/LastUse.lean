import Crossbank.Async.Trail
import Crossbank.Locker.Ledger
import Crossbank.Locker.Shedding

/-!
# The order of last use

What is shed first is what was used first, as far as the accounting knows. A read takes no lock, so
keys are read while a commit that has drawn its tick is under way.

* `UseAct.accounts` : calls one after another, as acts of the accounts;
* `lastUse` : the last use of a key, a read or a landed commit that writes it, with no news of it since;
* `AccountAct.Orderly` : reloads that find the ticks of the last uses, and commits whose keys are not
  read before they land;
* `last_use_orders` : in a run of orderly acts, of two keys the one used first has the smaller tick
  and is shed first; `last_use_forgotten`, `last_use_overtaken` : in other runs it need not.
-/

namespace Crossbank
open Async

/-! ## Calls one after another -/

def UseAct.accounts (id : LockerId) (l : Ledger) : UseAct → List AccountAct
  | .read key tick => [.touch key tick]
  | .commit tick batch lands => (if l.lru.dirty then [.reload (rowsOf id l.db)] else []) ++
      [.plan tick batch, if lands then .land else .fail]
  | .evict bytes lands => [.planShed bytes, if lands then .land else .fail]
  | .remotePut key bytes => [.remotePut key bytes]
  | .remoteDelete key => [.remoteDelete key]
  | .remoteClear => [.remoteClear]
  | .foreign _ => []

theorem nodup_rowsOf (id : LockerId) (db : Tables) : ((rowsOf id db).map Prod.fst).Nodup := by
  have keys : (rowsOf id db).map Prod.fst =
      (Tree.inRange db.metadata (.ofPrefix (lockerPrefix id))).map Prod.fst := by
    rw [rowsOf, List.map_map]
    rfl
  rw [keys, List.nodup_iff_pairwise_ne, List.pairwise_map]
  refine (Tree.inRange_ascending _ _).imp fun h heq => ?_
  simp [heq] at h

/-- A call alone is a run of the accounts. -/
theorem Ledger.accounts_run {id : LockerId} {l l' : Ledger} {act : UseAct}
    (h : l.step id act = some l') :
    Accounts.run id ⟨l.lru, none⟩ (act.accounts id l) = some ⟨l'.lru, none⟩ := by
  cases act with
  | read key tick =>
    obtain ⟨l₁, hissue, rfl⟩ := Option.map_eq_some_iff.1 h
    obtain ⟨-, rfl⟩ := Ledger.issue_eq_some hissue
    rfl
  | commit tick batch lands =>
    obtain ⟨l₁, hissue, hl⟩ := Option.map_eq_some_iff.1 h
    obtain ⟨-, rfl⟩ := Ledger.issue_eq_some hissue
    have planned (lru : LruState) : Accounts.run id ⟨lru, none⟩
        [.plan tick batch, if lands then .land else .fail] =
          some ⟨if lands then lru.landed (lru.budgetFor id tick (accounting batch)) else lru, none⟩ := by
      cases lands <;> rfl
    have ends : l'.lru = if lands then
        (l.reloaded id).lru.landed ((l.reloaded id).lru.budgetFor id tick (accounting batch))
          else (l.reloaded id).lru := by
      rw [← hl]
      cases lands with
      | false => rfl
      | true => rfl
    rw [ends, ← planned, UseAct.accounts, Ledger.reloaded]
    cases hdirty : l.lru.dirty with
    | false => rfl
    | true =>
      rw [if_pos rfl, if_pos rfl, Accounts.run, List.foldlM_append, List.foldlM_cons, Accounts.step,
        if_pos (nodup_rowsOf id l.db)]
      rfl
  | evict bytes lands =>
    obtain rfl := Option.some.inj h
    cases lands with
    | false => rfl
    | true => rfl
  | remotePut key bytes =>
    obtain rfl := Option.some.inj h
    rfl
  | remoteDelete key =>
    obtain rfl := Option.some.inj h
    rfl
  | remoteClear =>
    obtain rfl := Option.some.inj h
    rfl
  | foreign db =>
    obtain rfl := Option.some.inj h
    rfl

/-! ## Uses -/

/-- The tick that an act draws from the clock of the bank. -/
def AccountAct.draws : AccountAct → Option UInt64
  | .plan tick _ | .touch _ tick => some tick
  | _ => none

/-- The clock issues no tick twice, and none older than one that it has issued. -/
def AccountAct.Issued (acts : List AccountAct) (act : AccountAct) : Prop :=
  ∀ tick ∈ act.draws, ∀ drawn ∈ acts.filterMap draws, drawn < tick

-- By hand: what is found otherwise goes through every tick there is.
instance (acts : List AccountAct) : DecidablePred (AccountAct.Issued acts) := fun act =>
  have (tick : UInt64) : Decidable (∀ drawn ∈ acts.filterMap AccountAct.draws, drawn < tick) :=
    List.decidableBAll _ _
  Option.decidableForallMem act.draws

/-- The place of the act that drew a tick, and the tick. -/
abbrev Use := Nat × UInt64

/-- Of two uses, the one that drew its tick last. -/
def Use.newest : Option Use → Option Use → Option Use
  | some a, some b => some (if a.1 < b.1 then b else a)
  | a, b => a.or b

/-- The last use of a key, if no news has named it since, and the one that the commit under way is
to be once it lands. -/
structure Uses where
  last : Option Use := none
  coming : Option Use := none

/-- The last use once the act at the place `n` has happened. -/
def Uses.lastAfter (key : Bytes) (n : Nat) (u : Uses) : AccountAct → Option Use
  | .touch read tick => if read = key then some (n, tick) else u.last
  | .land => Use.newest u.coming u.last
  | .remotePut named _ | .remoteDelete named => if named = key then none else u.last
  | .plan .. | .planShed _ | .fail | .remoteClear | .reload _ => u.last

def Uses.comingAfter (key : Bytes) (n : Nat) (u : Uses) : AccountAct → Option Use
  | .plan tick batch =>
    if key ∈ (accounting batch).updates.map Prod.fst then some (n, tick) else u.coming
  | .land | .fail => none
  | .planShed _ | .remotePut .. | .remoteDelete _ | .remoteClear | .touch .. | .reload _ => u.coming

def usesOf (acts : List AccountAct) (key : Bytes) : Uses :=
  acts.zipIdx.foldl (fun u (act, n) => ⟨u.lastAfter key n act, u.comingAfter key n act⟩) {}

def lastUse (acts : List AccountAct) (key : Bytes) : Option Use := (usesOf acts key).last

theorem usesOf_concat (acts : List AccountAct) (act : AccountAct) (key : Bytes) :
    usesOf (acts ++ [act]) key = ⟨(usesOf acts key).lastAfter key acts.length act,
      (usesOf acts key).comingAfter key acts.length act⟩ := by
  rw [usesOf, List.zipIdx_append, List.foldl_append, List.zipIdx_singleton, List.foldl_cons,
    List.foldl_nil, Nat.zero_add]
  rfl

theorem lastUse_concat (acts : List AccountAct) (act : AccountAct) (key : Bytes) :
    lastUse (acts ++ [act]) key = (usesOf acts key).lastAfter key acts.length act :=
  congrArg Uses.last (usesOf_concat acts act key)

theorem coming_concat (acts : List AccountAct) (act : AccountAct) (key : Bytes) :
    (usesOf (acts ++ [act]) key).coming = (usesOf acts key).comingAfter key acts.length act :=
  congrArg Uses.coming (usesOf_concat acts act key)

/-- An orderly act: a reload finds, of each key that was used, no row or the tick of its last
use; and no key is read between the plan and the landing of a commit that writes it. -/
def AccountAct.Orderly (id : LockerId) (acts : List AccountAct) (a : Accounts) : AccountAct → Prop
  | .reload rows => ∀ e ∈ (LruState.loaded id a.lru.maxBytes rows).entries.toList,
      ∀ use ∈ lastUse acts e.1, e.2.tick = use.2
  | .land => ∀ commit ∈ a.underWay, ∀ update ∈ commit.2.updates,
      ∀ use ∈ (usesOf acts update.1).coming, ∀ last ∈ lastUse acts update.1, last.1 < use.1
  | _ => True

instance (id : LockerId) (acts : List AccountAct) (a : Accounts) :
    DecidablePred (AccountAct.Orderly id acts a)
  | .reload _ | .land => inferInstanceAs (Decidable (∀ _ ∈ _, _))
  | .plan .. | .planShed _ | .fail | .remotePut .. | .remoteDelete _ | .remoteClear | .touch .. =>
    isTrue trivial

/-! ## The ticks drawn -/

/-- Every use has the tick that the act at its place drew. -/
def Uses.Drawn (acts : List AccountAct) (u : Uses) : Prop :=
  ∀ use, u.last = some use ∨ u.coming = some use → acts[use.1]?.bind AccountAct.draws = some use.2

theorem Use.newest_eq {a b : Option Use} {use : Use} (h : Use.newest a b = some use) :
    b = some use ∨ a = some use := by
  cases a with
  | none => exact .inl h
  | some a =>
    cases b with
    | none => exact .inr h
    | some b =>
      have hpick : (if a.1 < b.1 then b else a) = use := Option.some.inj h
      split at hpick
      · exact .inl (congrArg some hpick)
      · exact .inr (congrArg some hpick)

theorem drawn_usesOf (acts : List AccountAct) (key : Bytes) : (usesOf acts key).Drawn acts := by
  induction acts using List.reverseRecOn with
  | nil =>
    intro use h
    rcases h with h | h
    · cases h
    · cases h
  | append_singleton acts act ih =>
    have before (use : Use) (h : (usesOf acts key).last = some use ∨
        (usesOf acts key).coming = some use) :
        (acts ++ [act])[use.1]?.bind AccountAct.draws = some use.2 := by
      obtain ⟨act', hact, hdraws⟩ := Option.bind_eq_some_iff.1 (ih use h)
      rw [List.getElem?_append_left (List.getElem?_eq_some_iff.1 hact).1, hact]
      exact hdraws
    have now (tick : UInt64) (h : act.draws = some tick) :
        (acts ++ [act])[acts.length]?.bind AccountAct.draws = some tick := by
      rw [List.getElem?_concat_length]
      exact h
    rw [usesOf_concat]
    intro use h
    rcases h with h | h
    · cases act with
      | touch read tick =>
        simp only [Uses.lastAfter] at h
        split at h
        · exact Option.some.inj h ▸ now tick rfl
        · exact before use (.inl h)
      | land => exact before use (Use.newest_eq h)
      | remotePut named _ | remoteDelete named =>
        simp only [Uses.lastAfter] at h
        split at h
        · cases h
        · exact before use (.inl h)
      | plan | planShed | fail | remoteClear | reload => exact before use (.inl h)
    · cases act with
      | plan tick batch =>
        simp only [Uses.comingAfter] at h
        split at h
        · exact Option.some.inj h ▸ now tick rfl
        · exact before use (.inr h)
      | land | fail => cases h
      | planShed | remotePut | remoteDelete | remoteClear | touch | reload =>
        exact before use (.inr h)

/-- The acts of a locker, each allowed by `may`. -/
abbrev Accounts.Reach (id : LockerId) (may : List AccountAct → Accounts → AccountAct → Prop)
    (start : LruState) : List AccountAct → Accounts → Prop :=
  Trail (Accounts.step id) (fun acts a act => act.Issued acts ∧ may acts a act) ⟨start, none⟩

theorem Accounts.Reach.increasing {id : LockerId} {start : LruState} {a : Accounts}
    {may : List AccountAct → Accounts → AccountAct → Prop} {acts : List AccountAct}
    (run : Accounts.Reach id may start acts a) {i j : Nat} {first next : UInt64}
    (hi : acts[i]?.bind AccountAct.draws = some first)
    (hj : acts[j]?.bind AccountAct.draws = some next) (earlier : i < j) : first < next := by
  have sorted : acts.Pairwise fun x y => ∀ t ∈ x.draws, ∀ t' ∈ y.draws, t < t' := by
    refine run.invariant (I := fun acts _ => acts.Pairwise fun x y => ∀ t ∈ x.draws, ∀ t' ∈ y.draws, t < t') .nil fun acts s s' act before allowed _ => ?_
    rw [List.pairwise_append]
    refine ⟨before, List.pairwise_singleton _ _, fun x hx y hy t ht t' ht' => ?_⟩
    obtain rfl := List.mem_singleton.1 hy
    exact allowed.1 t' ht' t (List.mem_filterMap.2 ⟨x, hx, ht⟩)
  obtain ⟨x, hx, htick⟩ := Option.bind_eq_some_iff.1 hi
  obtain ⟨y, hy, htick'⟩ := Option.bind_eq_some_iff.1 hj
  obtain ⟨li, rfl⟩ := List.getElem?_eq_some_iff.1 hx
  obtain ⟨lj, rfl⟩ := List.getElem?_eq_some_iff.1 hy
  exact List.pairwise_iff_getElem.1 sorted i j li lj earlier first htick next htick'

section
variable {id : LockerId} {key : Bytes} {entry : Entry}

theorem entry_touch {s : LruState} {read : Bytes} {tick : UInt64}
    (h : (s.touch read tick).entries[key]? = some entry) :
    (key = read → entry.tick = tick) ∧ (key ≠ read → s.entries[key]? = some entry) := by
  unfold LruState.touch at h
  split at h
  · next held hheld =>
    dsimp only at h
    rw [getElem?_inserted] at h
    split at h
    · next heq =>
      rw [← Option.some.inj h]
      exact ⟨fun _ => rfl, fun hne => absurd heq.symm hne⟩
    · next hne => exact ⟨fun heq => absurd heq.symm hne, fun _ => h⟩
  · next habsent =>
    refine ⟨fun heq => ?_, fun _ => h⟩
    rw [heq, habsent] at h
    cases h

theorem entry_remotePut {s : LruState} {put : Bytes} {bytes : Option Nat} (hne : key ≠ put)
    (h : (s.remotePut put bytes).entries[key]? = some entry) : s.entries[key]? = some entry := by
  unfold LruState.remotePut at h
  split at h
  · dsimp only at h
    rwa [getElem?_inserted, if_neg (Ne.symm hne)] at h
  · dsimp only at h
    split at h
    · exact h
    · rwa [getElem?_inserted, if_neg (Ne.symm hne)] at h

theorem entry_remoteDelete {s : LruState} {deleted : Bytes}
    (h : (s.remoteDelete deleted).entries[key]? = some entry) : s.entries[key]? = some entry := by
  have kept : (s.remoteDelete deleted).entries = s.entries.erase deleted := rfl
  rw [kept, getElem?_erased] at h
  split at h
  · cases h
  · exact h

/-- What is accounted once a commit has landed : what it writes, and what was there. -/
theorem entry_landed {s : LruState} {budget : Budget}
    (h : (s.landed budget).entries[key]? = some entry) :
    (key, entry) ∈ budget.updates ∨
      key ∉ budget.updates.map Prod.fst ∧ s.entries[key]? = some entry := by
  rw [LruState.landed_entries, getElem?_without] at h
  split at h
  · cases h
  by_cases hmem : key ∈ budget.updates.map Prod.fst
  · rw [getElem?_withAll_of_mem (n := ∅) hmem] at h
    rcases mem_of_getElem?_withAll h with hu | hnone
    · exact .inl hu
    · simp at hnone
  · refine .inr ⟨hmem, ?_⟩
    rw [getElem?_withAll_of_not_mem hmem, getElem?_without] at h
    split at h
    · cases h
    · split at h
      · simp at h
      · exact h

end

/-! ## Runs -/

/-- The ticks of what is accounted are those of the last uses, and the commit under way writes the
ticks of the uses that are to come. -/
structure Tracks (acts : List AccountAct) (a : Accounts) : Prop where
  ticks : ∀ (key : Bytes) (use : Use) (entry : Entry), lastUse acts key = some use →
    a.lru.entries[key]? = some entry → entry.tick = use.2
  writes : ∀ commit ∈ a.underWay, ∀ update ∈ commit.2.updates,
    ∃ n, (usesOf acts update.1).coming = some (n, update.2.tick)
  coming : ∀ (key : Bytes) (use : Use), (usesOf acts key).coming = some use →
    ∃ commit ∈ a.underWay, key ∈ commit.2.updates.map Prod.fst

namespace Tracks

variable {id : LockerId} {acts : List AccountAct} {act : AccountAct} {a a' : Accounts}

theorem start (s : LruState) : Tracks [] ⟨s, none⟩ where
  ticks key use entry h := by cases h
  writes commit h := by cases h
  coming key use h := by cases h

/-- An act that leaves the commit under way, uses no key, and accounts what was accounted, but for
the keys that it names. -/
theorem keep (tracks : Tracks acts a) (same : a'.underWay = a.underWay)
    (coming : ∀ key, (usesOf (acts ++ [act]) key).coming = (usesOf acts key).coming)
    (ticks : ∀ (key : Bytes) (use : Use) (entry : Entry), lastUse (acts ++ [act]) key = some use →
      a'.lru.entries[key]? = some entry → entry.tick = use.2) : Tracks (acts ++ [act]) a' where
  ticks := ticks
  writes commit h update hu := by
    rw [same] at h
    rw [coming]
    exact tracks.writes commit h update hu
  coming key use h := by
    rw [coming] at h
    rw [same]
    exact tracks.coming key use h

/-- No use is to come where no commit is under way. -/
theorem idle (tracks : Tracks acts a) (h : a.underWay = none) (key : Bytes) :
    (usesOf acts key).coming = none := by
  refine Option.eq_none_iff_forall_not_mem.2 fun use hmem => ?_
  obtain ⟨commit, hc, -⟩ := tracks.coming key use hmem
  rw [h] at hc
  cases hc

/-- A commit is planned: what is to come are the uses of the keys that it writes. -/
theorem planned {s : LruState} {commit : LruState × Budget} (tracks : Tracks acts ⟨s, none⟩)
    (last : ∀ key, lastUse (acts ++ [act]) key = lastUse acts key)
    (writes : ∀ update ∈ commit.2.updates,
      ∃ n, (usesOf (acts ++ [act]) update.1).coming = some (n, update.2.tick))
    (coming : ∀ key use, (usesOf (acts ++ [act]) key).coming = some use →
      key ∈ commit.2.updates.map Prod.fst) : Tracks (acts ++ [act]) ⟨s, some commit⟩ where
  ticks key use entry huse := by
    rw [last] at huse
    exact tracks.ticks key use entry huse
  writes c hc := by
    obtain rfl := Option.some.inj hc
    exact writes
  coming key use huse := ⟨commit, rfl, coming key use huse⟩

theorem landed {s : LruState} {commit : LruState × Budget} (tracks : Tracks acts ⟨s, some commit⟩)
    (orderly : AccountAct.land.Orderly id acts ⟨s, some commit⟩) :
    Tracks (acts ++ [.land]) ⟨s.landed commit.2, none⟩ where
  ticks key use entry huse hentry := by
    rw [lastUse_concat, Uses.lastAfter] at huse
    rcases entry_landed hentry with hwritten | ⟨hno, hold⟩
    · -- The key is written: its use was to come, and it is the newest.
      obtain ⟨n, hcoming⟩ := tracks.writes commit rfl (key, entry) hwritten
      have newer := orderly commit rfl (key, entry) hwritten _ hcoming
      have hpick : Use.newest (usesOf acts key).coming (lastUse acts key) = some (n, entry.tick) := by
        rw [hcoming]
        cases hlast : lastUse acts key with
        | none => rfl
        | some last =>
          have after := newer last hlast
          exact congrArg some (if_neg (by omega))
      exact congrArg Prod.snd (Option.some.inj (hpick.symm.trans huse))
    · have quiet : (usesOf acts key).coming = none := by
        refine Option.eq_none_iff_forall_not_mem.2 fun use hmem => ?_
        obtain ⟨commit', hc, hwritten⟩ := tracks.coming key use hmem
        obtain rfl := Option.some.inj hc
        exact hno hwritten
      rw [quiet] at huse
      exact tracks.ticks key use entry huse hold
  writes _ hc := (Option.not_mem_none _ hc).elim
  coming key use huse := by
    rw [coming_concat] at huse
    cases huse

theorem failed {s : LruState} {commit : LruState × Budget} (tracks : Tracks acts ⟨s, some commit⟩) :
    Tracks (acts ++ [.fail]) ⟨s, none⟩ where
  ticks key use entry huse := by
    rw [lastUse_concat] at huse
    exact tracks.ticks key use entry huse
  writes _ hc := (Option.not_mem_none _ hc).elim
  coming key use huse := by
    rw [coming_concat] at huse
    cases huse

theorem step (tracks : Tracks acts a) (orderly : act.Orderly id acts a)
    (h : a.step id act = some a') : Tracks (acts ++ [act]) a' := by
  obtain ⟨s, underWay⟩ := a
  cases act with
  | plan tick batch =>
    cases underWay with
    | some commit => cases h
    | none =>
      obtain rfl := Option.some.inj h
      refine tracks.planned (lastUse_concat acts _) (fun update hmem => ?_) fun key use huse => ?_
      · obtain ⟨written, hw, rfl⟩ := List.mem_map.1 hmem
        refine ⟨acts.length, ?_⟩
        rw [coming_concat]
        exact if_pos (List.mem_map_of_mem hw)
      · rw [coming_concat, Uses.comingAfter] at huse
        split at huse
        · next hmem =>
          rw [LruState.budgetFor, List.map_map]
          exact hmem
        · rw [tracks.idle rfl] at huse
          cases huse
  | planShed bytes =>
    cases underWay with
    | some commit => cases h
    | none =>
      obtain rfl := Option.some.inj h
      refine tracks.planned (lastUse_concat acts _) (fun update hmem => ?_) fun key use huse => ?_
      · cases hmem
      · rw [coming_concat, Uses.comingAfter, tracks.idle rfl] at huse
        cases huse
  | land =>
    cases underWay with
    | none => cases h
    | some commit =>
      obtain rfl := Option.some.inj h
      exact tracks.landed orderly
  | fail =>
    cases underWay with
    | none => cases h
    | some commit =>
      obtain rfl := Option.some.inj h
      exact tracks.failed
  | remotePut named bytes =>
    obtain rfl := Option.some.inj h
    refine tracks.keep rfl (coming_concat acts _) fun key use entry huse hentry => ?_
    rw [lastUse_concat] at huse
    simp only [Uses.lastAfter] at huse
    split at huse
    · cases huse
    · next hne => exact tracks.ticks key use entry huse (entry_remotePut (Ne.symm hne) hentry)
  | remoteDelete named =>
    obtain rfl := Option.some.inj h
    refine tracks.keep rfl (coming_concat acts _) fun key use entry huse hentry => ?_
    rw [lastUse_concat] at huse
    simp only [Uses.lastAfter] at huse
    split at huse
    · cases huse
    · exact tracks.ticks key use entry huse (entry_remoteDelete hentry)
  | remoteClear =>
    obtain rfl := Option.some.inj h
    refine tracks.keep rfl (coming_concat acts _) fun key use entry _ hentry => ?_
    have none_left : (∅ : Std.ExtTreeMap Bytes Entry compare)[key]? = some entry := hentry
    simp at none_left
  | touch read tick =>
    obtain rfl := Option.some.inj h
    refine tracks.keep rfl (coming_concat acts _) fun key use entry huse hentry => ?_
    obtain ⟨new, old⟩ := entry_touch hentry
    rw [lastUse_concat] at huse
    simp only [Uses.lastAfter] at huse
    split at huse
    · next heq => exact Option.some.inj huse ▸ new heq.symm
    · next hne => exact tracks.ticks key use entry huse (old (Ne.symm hne))
  | reload rows =>
    cases underWay with
    | some commit => cases h
    | none =>
      obtain ⟨-, hsome⟩ := Option.ite_none_right_eq_some.1 h
      obtain rfl := Option.some.inj hsome
      refine tracks.keep rfl (coming_concat acts _) fun key use entry huse hentry => ?_
      rw [lastUse_concat] at huse
      exact orderly (key, entry) (Std.ExtTreeMap.mem_toList_iff_getElem?_eq_some.2 hentry) use huse

end Tracks

/-! ## What is shed first -/

/-- In a sorted list what comes before a member of a beginning is in the beginning, before it. -/
theorem sublist_take_of_before {α : Type} {r : α → α → Prop} {xs : List α} {n : Nat} {a b : α}
    (sorted : xs.Pairwise r) (ha : a ∈ xs) (hb : b ∈ xs.take n) (hne : a ≠ b) (hnot : ¬ r b a) :
    [a, b].Sublist (xs.take n) := by
  obtain ⟨s, t, hsplit⟩ := List.append_of_mem hb
  have hxs : xs = s ++ b :: (t ++ xs.drop n) := by
    rw [← List.cons_append, ← List.append_assoc, ← hsplit, List.take_append_drop]
  rw [hxs] at sorted ha
  rcases List.mem_append.1 ha with hs | hrest
  · rw [hsplit]
    exact (List.singleton_sublist.2 hs).append (List.singleton_sublist.2 List.mem_cons_self)
  · rcases List.mem_cons.1 hrest with heq | hrest
    · exact absurd heq hne
    · have hpair := (List.pairwise_append.1 sorted).2.1
      exact absurd ((List.pairwise_cons.1 hpair).1 a hrest) hnot

theorem Candidate.not_before_of_newer {a b : Candidate} (h : a.tick < b.tick) :
    ¬ b.before a = true := by
  unfold Candidate.before
  rw [Std.compare_eq_gt.2 h]
  simp

/-- A plan sheds the older of two keys first, if neither is written and the older may be shed. -/
theorem LruState.plan_older {s : LruState} {updates : List (Bytes × Entry)}
    {removals keep : List Bytes} {budget : Nat} {a b : Bytes} {ea eb : Entry}
    (ha : s.entries[a]? = some ea) (hb : s.entries[b]? = some eb) (older : ea.tick < eb.tick)
    (free : a ∉ removals ∧ a ∉ updates.map Prod.fst ∧ a ∉ keep) (rest : b ∉ updates.map Prod.fst)
    (shed : b ∈ (s.plan updates removals false budget keep).victims) :
    [a, b].Sublist (s.plan updates removals false budget keep).victims := by
  rw [plan_eq_shed] at shed ⊢
  obtain ⟨count, -, hshed⟩ := shed_fewest budget (s.totalAfter updates removals false)
    ((s.candidates updates removals false keep).insertionSort fun a b => a.before b)
  rw [hshed] at shed ⊢
  obtain ⟨c, hc, rfl⟩ := List.mem_map.1 shed
  have hperm := List.perm_insertionSort (fun a b : Candidate => (a.before b : Prop))
    (s.candidates updates removals false keep)
  have tick : c.tick = eb.tick := by
    rcases mem_candidates.1 (hperm.mem_iff.1 (List.mem_of_mem_take hc)) with
      ⟨-, hentry, -⟩ | ⟨hmem, -⟩
    · exact congrArg Entry.tick (Option.some.inj (hentry.symm.trans hb))
    · exact absurd (List.mem_map_of_mem hmem) rest
  have first : (⟨ea.tick, a, ea.bytes⟩ : Candidate) ∈
      (s.candidates updates removals false keep).insertionSort fun a b => a.before b :=
    hperm.mem_iff.2 (mem_candidates.2 (.inl ⟨rfl, ha, free.1, free.2.1, free.2.2⟩))
  have hne : (⟨ea.tick, a, ea.bytes⟩ : Candidate) ≠ c := fun heq => by
    have same : ea.tick = c.tick := congrArg Candidate.tick heq
    rw [same, tick] at older
    exact UInt64.lt_irrefl _ older
  have hnot : ¬ c.before ⟨ea.tick, a, ea.bytes⟩ = true :=
    Candidate.not_before_of_newer (tick ▸ older)
  exact (sublist_take_of_before (Candidate.pairwise_sorted _) first hc hne hnot).map Candidate.key

/-- Of two keys the one used first is shed first, in a run of orderly acts. -/
theorem last_use_orders {id : LockerId} {start : LruState} {acts : List AccountAct} {now : Accounts}
    (run : Accounts.Reach id (AccountAct.Orderly id) start acts now) {a b : Bytes} {first next : Use}
    {ea eb : Entry} (ha : lastUse acts a = some first) (hb : lastUse acts b = some next)
    (earlier : first.1 < next.1) (resident : now.lru.entries[a]? = some ea)
    (resident' : now.lru.entries[b]? = some eb) :
    ea.tick < eb.tick ∧ ∀ (updates : List (Bytes × Entry)) (removals keep : List Bytes) (budget : Nat),
      a ∉ removals ∧ a ∉ updates.map Prod.fst ∧ a ∉ keep → b ∉ updates.map Prod.fst →
      b ∈ (now.lru.plan updates removals false budget keep).victims →
      [a, b].Sublist (now.lru.plan updates removals false budget keep).victims := by
  have tracks : Tracks acts now := run.invariant (.start start)
    fun _ _ _ _ before allowed step => before.step allowed.2 step
  have older : ea.tick < eb.tick := by
    rw [tracks.ticks a first ea ha resident, tracks.ticks b next eb hb resident']
    exact run.increasing (drawn_usesOf acts a first (.inl ha)) (drawn_usesOf acts b next (.inl hb))
      earlier
  exact ⟨older, fun _ _ _ _ free rest shed =>
    LruState.plan_older resident resident' older free rest shed⟩

/-- Two keys are put. While a third is, the first of them is read. Then the accounting is found
incomplete and read back, with the tick of the read. -/
def readMeanwhile : List AccountAct := [.plan 0 [.put [97] [7]], .land, .plan 1 [.put [98] [7]], .land,
  .plan 2 [.put [99] [7]], .touch [97] 3, .land, .plan 4 [.put [100] [7]], .land,
  .remotePut [120] none,
  .reload [(entryKey 1 [97], some (encodeEntry ⟨3, 1⟩)), (entryKey 1 [98], some (encodeEntry ⟨1, 1⟩)),
    (entryKey 1 [99], some (encodeEntry ⟨2, 1⟩)), (entryKey 1 [100], some (encodeEntry ⟨4, 1⟩))],
  .plan 5 [.put [101] [7]]]

theorem last_use_orders_readMeanwhile : ∃ now,
    Accounts.run 1 ⟨.new 1000, none⟩ readMeanwhile = some now ∧
      ∃ ea eb, now.lru.entries[([97] : Bytes)]? = some ea ∧
        now.lru.entries[([98] : Bytes)]? = some eb ∧ eb.tick < ea.tick := by
  have runs : (Accounts.run 1 ⟨.new 1000, none⟩ readMeanwhile).map (fun now =>
      (now.lru.entries[([97] : Bytes)]?, now.lru.entries[([98] : Bytes)]?)) =
        some (some ⟨3, 1⟩, some ⟨1, 1⟩) := by decide
  obtain ⟨now, hrun, hentries⟩ := Option.map_eq_some_iff.1 runs
  obtain ⟨ha, hb⟩ := Prod.mk.inj hentries
  have first : lastUse readMeanwhile [98] = some (2, 1) := by decide
  have next : lastUse readMeanwhile [97] = some (5, 3) := by decide
  exact ⟨now, hrun, _, _, ha, hb,
    (last_use_orders (.of_run (by decide) hrun) first next (by decide) hb ha).1⟩

/-- Two keys are put and the first is read, before the accounting is read back from the rows. -/
def readThenReloaded : List AccountAct := [.plan 0 [.put [97] [7]], .land, .plan 1 [.put [98] [7]], .land,
  .touch [97] 2, .remotePut [120] none,
  .reload [(entryKey 1 [97], some (encodeEntry ⟨0, 1⟩)), (entryKey 1 [98], some (encodeEntry ⟨1, 1⟩))]]

/-- A use is forgotten: the reload puts the tick of the row over that of the read. -/
theorem last_use_forgotten : ¬ ∀ (id : LockerId) (maxBytes : Nat) (rows : List (Bytes × Option Bytes))
    (index : KeySet) (acts : List AccountAct) (now : Accounts) (a b : Bytes) (first next : Use)
    (ea eb : Entry), Accounts.Reach id (fun _ _ _ => True) (.opened id maxBytes rows index) acts now →
    lastUse acts a = some first → lastUse acts b = some next → first.1 < next.1 →
    now.lru.entries[a]? = some ea → now.lru.entries[b]? = some eb → ea.tick < eb.tick := by
  intro h
  have runs : (Accounts.run 1 ⟨.opened 1 1000 [] ∅, none⟩ readThenReloaded).map (fun now =>
      (now.lru.entries[([97] : Bytes)]?, now.lru.entries[([98] : Bytes)]?)) =
        some (some ⟨0, 1⟩, some ⟨1, 1⟩) := by decide
  obtain ⟨now, hrun, hentries⟩ := Option.map_eq_some_iff.1 runs
  obtain ⟨ha, hb⟩ := Prod.mk.inj hentries
  have reached : Accounts.Reach 1 (fun _ _ _ => True) (.opened 1 1000 [] ∅) readThenReloaded now :=
    .of_run (by decide) hrun
  have older := h 1 1000 [] ∅ readThenReloaded now [98] [97] (2, 1) (4, 2) _ _ reached (by decide)
    (by decide) (by decide) hb ha
  exact absurd older (by decide)

/-- A key is put again. Before that lands, another key is read and then the key itself. -/
def readMidPut : List AccountAct := [.plan 0 [.put [97] [7]], .land, .plan 1 [.put [98] [7]], .land,
  .plan 2 [.put [97] [8]], .touch [98] 3, .touch [97] 4, .land]

/-- A use is overtaken: the landing puts the tick of the plan over that of the read. -/
theorem last_use_overtaken : ¬ ∀ (id : LockerId) (maxBytes : Nat) (rows : List (Bytes × Option Bytes))
    (index : KeySet) (acts : List AccountAct) (now : Accounts) (a b : Bytes) (first next : Use)
    (ea eb : Entry), (∀ rows, AccountAct.reload rows ∉ acts) →
    Accounts.Reach id (fun _ _ _ => True) (.opened id maxBytes rows index) acts now →
    lastUse acts a = some first → lastUse acts b = some next → first.1 < next.1 →
    now.lru.entries[a]? = some ea → now.lru.entries[b]? = some eb → ea.tick < eb.tick := by
  intro h
  have runs : (Accounts.run 1 ⟨.opened 1 1000 [] ∅, none⟩ readMidPut).map (fun now =>
      (now.lru.entries[([97] : Bytes)]?, now.lru.entries[([98] : Bytes)]?)) =
        some (some ⟨2, 1⟩, some ⟨3, 1⟩) := by decide
  obtain ⟨now, hrun, hentries⟩ := Option.map_eq_some_iff.1 runs
  obtain ⟨ha, hb⟩ := Prod.mk.inj hentries
  have reached : Accounts.Reach 1 (fun _ _ _ => True) (.opened 1 1000 [] ∅) readMidPut now :=
    .of_run (by decide) hrun
  have older := h 1 1000 [] ∅ readMidPut now [98] [97] (5, 3) (6, 4) _ _ (by simp [readMidPut]) reached
    (by decide) (by decide) (by decide) hb ha
  exact absurd older (by decide)

end Crossbank
