import Crossbank.Async.Replica

/-!
# Tabs that open step by step

A tab that opens reads the store in steps of its own, and the others go on between them. Until it is
open it sends nothing, and the news that it is delivered is lost.

* `Seat`, `Opening` : a tab that opens or is open, and how it opens;
* `Protocol.stepwise` : the tabs of a protocol, opening step by step;
* `Protocol.Step.ready`, `Reaches.ready` : tabs that are open run as in the protocol.
-/

namespace Async

section
variable {ι K δ ρ σ κ ν : Type}

inductive Seat (σ ρ : Type) where
  | opening (state : σ)
  | ready (memory : ρ)

/-- Where an open begins, a step of it over the store, and what it ends with. -/
structure Opening (δ ρ σ : Type) where
  begins : σ → Prop
  step : δ → σ → σ → Prop
  ends : σ → ρ → Prop

def Seat.map (f : ρ → ρ) : Seat σ ρ → Seat σ ρ
  | .opening state => .opening state
  | .ready memory => .ready (f memory)

/-- What a tab does in memory: one that opens takes a step, or is open from now on. -/
def Seat.Alone (P : Protocol K δ ρ κ ν) (O : Opening δ ρ σ) (db : δ)
    (flights : Nat → Option (Flight κ)) : Seat σ ρ → Seat σ ρ → Prop
  | .opening state, seat => (∃ state', O.step db state state' ∧ seat = .opening state') ∨
      ∃ memory, O.ends state memory ∧ seat = .ready memory
  | .ready memory, seat => ∃ memory', P.alone db memory flights memory' ∧ seat = .ready memory'

def Protocol.stepwise (P : Protocol K δ ρ κ ν) (O : Opening δ ρ σ) :
    Protocol K δ (Seat σ ρ) κ ν where
  alone db seat flights seat' := seat.Alone P O db flights seat'
  may seat flights commit := ∃ memory, seat = .ready memory ∧ P.may memory flights commit
  send commit := Seat.map (P.send commit)
  land := P.land
  writes := P.writes
  fail commit := Seat.map (P.fail commit)
  settle commit := Seat.map (P.settle commit)
  news := P.news
  hear news := Seat.map (P.hear news)
  opens _ seat := ∃ state, O.begins state ∧ seat = .opening state

/-! ## Tabs that are open -/

/-- The same world, where every tab is open. -/
def World.ready (w : World ι K δ ρ κ ν) : World ι K δ (Seat σ ρ) κ ν where
  store := w.store
  landings := w.landings
  lastWrite := w.lastWrite
  tabs i := .ready (w.tabs i)
  flights := w.flights
  mail := w.mail
  log := w.log

@[simp] theorem World.flights_ready (w : World ι K δ ρ κ ν) :
    (w.ready : World ι K δ (Seat σ ρ) κ ν).flights = w.flights := rfl

def Act.ready : Act ι ρ κ → Act ι (Seat σ ρ) κ
  | .alone i memory => .alone i (.ready memory)
  | .send i n commit => .send i n commit
  | .land i n => .land i n
  | .fail i n => .fail i n
  | .settle i n => .settle i n
  | .deliver a b => .deliver a b
  | .reload i memory => .reload i (.ready memory)

variable [DecidableEq ι] {P : Protocol K δ ρ κ ν} {O : Opening δ ρ σ} {w w' : World ι K δ ρ κ ν}
  {act : Act ι ρ κ}

theorem World.ready_setTab (i : ι) (memory : ρ) (w : World ι K δ ρ κ ν) :
    (w.setTab i memory).ready = (w.ready : World ι K δ (Seat σ ρ) κ ν).setTab i (.ready memory) := by
  unfold World.ready World.setTab
  congr 1
  funext j
  exact apply_ite Seat.ready _ _ _

/-- Tabs that are open, and stay so, take the steps of the protocol. -/
theorem Protocol.Step.ready (next : P.Step w act w') (stays : ∀ i memory, act ≠ .reload i memory) :
    (P.stepwise O).Step w.ready act.ready w'.ready := by
  cases act with
  | alone i memory =>
    obtain ⟨alone, rfl⟩ := next
    exact ⟨⟨memory, alone, rfl⟩, World.ready_setTab i memory w⟩
  | send i n commit =>
    obtain ⟨fresh, may, rfl⟩ := next
    refine ⟨fresh, ⟨w.tabs i, rfl, may⟩, ?_⟩
    show ((w.setTab i (P.send commit (w.tabs i))).ready : World ι K δ (Seat σ ρ) κ ν).setFlight i n _ = _
    rw [World.ready_setTab]
    rfl
  | land i n =>
    obtain ⟨commit, sent, rfl⟩ := next
    exact ⟨commit, sent, rfl⟩
  | fail i n =>
    obtain ⟨commit, sent, rfl⟩ := next
    refine ⟨commit, sent, ?_⟩
    show ((w.setTab i (P.fail commit (w.tabs i))).ready : World ι K δ (Seat σ ρ) κ ν).setFlight i n _ = _
    rw [World.ready_setTab]
    rfl
  | settle i n =>
    obtain ⟨commit, t, landed, rfl⟩ := next
    refine ⟨commit, t, landed, ?_⟩
    show ((((w.setTab i (P.settle commit (w.tabs i))).ready : World ι K δ (Seat σ ρ) κ ν).setFlight i n
      none).post i _).note i _ = _
    rw [World.ready_setTab]
    rfl
  | deliver a b =>
    obtain ⟨sent, rest, first, rfl⟩ := next
    refine ⟨sent, rest, first, ?_⟩
    show (((w.setTab b (P.hear sent.news (w.tabs b))).ready : World ι K δ (Seat σ ρ) κ ν).setMail a b
      rest).note b _ = _
    rw [World.ready_setTab]
    rfl
  | reload i memory => exact absurd rfl (stays i memory)

/-- So they reach what they do in the protocol. -/
theorem Reaches.ready {ok : World ι K δ ρ κ ν → Act ι ρ κ → Prop}
    {ok' : World ι K δ (Seat σ ρ) κ ν → Act ι (Seat σ ρ) κ → Prop} {start : World ι K δ ρ κ ν}
    (run : Reaches P ok start w) (stays : ∀ v i memory, ¬ ok v (.reload i memory))
    (lifts : ∀ v act, ok v act → ok' v.ready act.ready) :
    Reaches (P.stepwise O) ok' start.ready w.ready := by
  induction run with
  | start => exact .start
  | step before meets next ih =>
    refine ih.step (lifts _ _ meets) (next.ready fun i memory h => ?_)
    rw [h] at meets
    exact stays _ i memory meets

end
end Async
