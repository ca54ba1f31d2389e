import Crossbank.Async.Outline

/-!
# Calls of several parties

Parties share a device and a memory, each with a part of the memory of its own, which need not be
there. A request carries the name of the party that makes it.

* `Prog.within` : a call on a part that need not be there;
* `Prog.tagged` : a call whose requests carry a name;
* `Only.within`, `Only.tagged` : what such calls do;
* `Safe.tagged` : the outline of a call is that of the call with names.
-/

namespace Async

section
variable {K Q : Type} {A : Q → Type} {ε ρ σ α β δ γ : Type}

/-- The call `p`, on a part of a larger memory. Where the part is missing it is stuck. -/
def Prog.within (get : σ → Option ρ) (set : ρ → σ → σ) : Prog Q A ε ρ α → Prog Q A ε σ α
  | ret a => ret a
  | fail e => fail e
  | ram f k =>
    ram (fun s => match get s with
      | some r => set (f r) s
      | none => s)
    (fun s => match get s with
      | some r => (k r).within get set
      | none => stuck)
  | await q d k =>
    await q (fun s => match get s with
      | some r => set (d r) s
      | none => s)
    (fun x => (k x).within get set)
  | stuck => stuck

/-- The call `p`, with the name `t` on its requests. -/
def Prog.tagged (t : K) : Prog Q A ε ρ α → Prog (K × Q) (fun q => A q.2) ε ρ α
  | ret a => ret a
  | fail e => fail e
  | ram f k => ram f fun s => (k s).tagged t
  | await q d k => await (t, q) d fun x => (k x).tagged t
  | stuck => stuck

def Event.tagged (t : K) : Event Q A ρ → Event (K × Q) (fun q => A q.2) ρ
  | .ram pre post => .ram pre post
  | .io q x => .io (t, q) x

namespace Prog
variable {P : Q → Prop} {R : ρ → ρ → Prop}

theorem Only.within {get : σ → Option ρ} {set : ρ → σ → σ} {p : Prog Q A ε ρ α} (hp : p.Only P R) :
    (p.within get set).Only P fun s s' =>
      s' = s ∨ ∃ r r', get s = some r ∧ R r r' ∧ s' = set r' s := by
  induction p with
  | ret a => trivial
  | fail e => trivial
  | stuck => trivial
  | ram f k ih =>
    unfold Prog.within
    intro s
    cases hs : get s with
    | none => exact ⟨.inl (by simp only [hs]), by simp only [hs]; trivial⟩
    | some r =>
      refine ⟨.inr ⟨r, f r, hs, (hp r).1, by simp only [hs]⟩, ?_⟩
      simp only [hs]
      exact ih r (hp r).2
  | await q d k ih => exact ⟨hp.1, fun x => ih x (hp.2 x)⟩

theorem Only.tagged {t : K} {p : Prog Q A ε ρ α} (hp : p.Only P R) :
    (p.tagged t).Only (fun q => q.1 = t ∧ P q.2) R := by
  induction p with
  | ret a => trivial
  | fail e => trivial
  | stuck => trivial
  | ram f k ih => exact fun s => ⟨(hp s).1, ih s (hp s).2⟩
  | await q d k ih => exact ⟨⟨rfl, hp.1⟩, fun x => ih x (hp.2 x)⟩

end Prog

/-- The rules of a party whose requests carry the name `t`. -/
def Rules.untag (t : K) (R : Rules (K × Q) (fun q => A q.2) δ ρ γ) : Rules Q A δ ρ γ where
  sem q := R.sem (t, q)
  next i e := R.next i (e.tagged t)
  inv := R.inv
  rely := R.rely
  guar := R.guar
  rely_refl := R.rely_refl
  rely_trans := R.rely_trans

theorem Rules.allows_untag {t : K} {R : Rules (K × Q) (fun q => A q.2) δ ρ γ} {i : Nat}
    {e : Event Q A ρ} {x : Scene δ ρ γ} {m : Machine δ ρ} :
    (R.untag t).Allows i e x m ↔ R.Allows i (e.tagged t) x m := Iff.rfl

/-- The outline of a party's call is that of the call with its name on the requests. -/
theorem Prog.Safe.tagged {t : K} {R : Rules (K × Q) (fun q => A q.2) δ ρ γ} {i : Nat}
    {may : List (Event (K × Q) (fun q => A q.2) ρ) → Event (K × Q) (fun q => A q.2) ρ →
      Scene δ ρ γ → Machine δ ρ → Prop}
    {post : List (Event (K × Q) (fun q => A q.2) ρ) → Except ε α → Scene δ ρ γ → Prop}
    {p : Prog Q A ε ρ α} {h : List (Event Q A ρ)} {x : Scene δ ρ γ}
    (hp : p.Safe (R.untag t) i (fun h e y m => may (h.map (Event.tagged t)) (e.tagged t) y m)
      (fun h r y => post (h.map (Event.tagged t)) r y) h x) :
    (p.tagged t).Safe R i may post (h.map (Event.tagged t)) x := by
  induction p generalizing h x with
  | ret a => exact hp
  | fail e => exact hp
  | stuck => trivial
  | ram f k ih =>
    intro y hxy hy hm
    obtain ⟨ok, rest⟩ := hp y hxy hy hm
    refine ⟨ok, ?_⟩
    have next := ih y.machine.mem rest
    rw [List.map_append] at next
    exact next
  | await q d k ih =>
    intro y hxy hy a m ha hm
    obtain ⟨ok, rest⟩ := hp y hxy hy a m ha hm
    refine ⟨ok, ?_⟩
    have next := ih a rest
    rw [List.map_append] at next
    exact next

end
end Async
