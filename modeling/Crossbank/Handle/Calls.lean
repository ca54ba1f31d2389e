import Crossbank.Service
import Crossbank.Async.Linear
import Crossbank.Handle.Jobs

/-!
# The calls of all handles are one run

Handles are cloned and dropped on any threads, and their calls are sent while the loop serves others. A
call is numbered when its job enters the queue.

* `Office` : a desk with the state that its jobs are served against, and what its callers see;
* `Office.Step` : one step of the callers or of the loop;
* `Office.Orderly` : the jobs that were served, the one being served and those in the queue are all that
  were sent, in the order they were sent;
* `calls_are_one_run` : whatever the handles do, their calls are one run of the map of maps.
-/

namespace Crossbank
open Async

/-- A desk with the state that its jobs are served against. Its jobs carry the number of their call. -/
structure Office (σ J R : Type) where
  desk : Desk (Nat × J)
  state : σ
  sent : Nat
  calls : List Nat
  log : List (Nat × J × R)
  history : List (Sighting J R)

namespace Office

def assembled {σ : Type} (J R : Type) (state : σ) : Office σ J R := ⟨.assembled, state, 0, [], [], []⟩

section
variable {σ J R : Type} (serve : σ → J → R → σ → Prop)

/-- One step: of a handle, or of a call that is refused; a call is sent, and ends with the reply to it or
is dropped by its caller; the loop takes a job, or has served it and sent the reply, whether or not
someone still waits for it. -/
inductive Step (o : Office σ J R) : Office σ J R → Prop
  | handle {d : Desk (Nat × J)} (next : o.desk.step .handle = some d) : Step o { o with desk := d }
  | clone {i : Nat} {d : Desk (Nat × J)} (next : o.desk.step (.clone i) = some d) :
    Step o { o with desk := d }
  | drop {i : Nat} {d : Desk (Nat × J)} (next : o.desk.step (.drop i) = some d) :
    Step o { o with desk := d }
  | refused {i : Nat} {d : Desk (Nat × J)} (next : o.desk.step (.refused i) = some d) :
    Step o { o with desk := d }
  | dispatch {i : Nat} {job : J} {d : Desk (Nat × J)}
    (next : o.desk.step (.dispatch i (o.sent, job)) = some d) :
    Step o { o with
      desk := d
      sent := o.sent + 1
      calls := o.calls ++ [o.sent]
      history := o.history ++ [.sent o.sent job] }
  | told {i c : Nat} {job : J} {reply : R} {d : Desk (Nat × J)} (underWay : c ∈ o.calls)
    (replied : (c, job, reply) ∈ o.log) (next : o.desk.step (.returned i) = some d) :
    Step o { o with
      desk := d
      calls := o.calls.erase c
      history := o.history ++ [.told c reply] }
  | dropped {i c : Nat} {d : Desk (Nat × J)} (underWay : c ∈ o.calls)
    (next : o.desk.step (.returned i) = some d) :
    Step o { o with desk := d, calls := o.calls.erase c }
  | intoService {d : Desk (Nat × J)} (next : o.desk.step .intoService = some d) :
    Step o { o with desk := d }
  | receive {d : Desk (Nat × J)} (next : o.desk.step .receive = some d) : Step o { o with desk := d }
  | served {c : Nat} {job : J} {reply : R} {state : σ} {d : Desk (Nat × J)}
    (serving : o.desk.phase = .serving (c, job)) (run : serve o.state job reply state)
    (next : o.desk.step .served = some d) :
    Step o { o with desk := d, state := state, log := o.log ++ [(c, job, reply)] }

inductive Reaches (start : Office σ J R) : Office σ J R → Prop
  | start : Reaches start start
  | step {o o' : Office σ J R} (before : Reaches start o) (next : Step serve o o') : Reaches start o'

end

section
variable {σ J R : Type} {serve : σ → J → R → σ → Prop} {o o' start : Office σ J R}

/-- The jobs that were sent and are not served yet: the one being served, and those in the queue. -/
def pending (d : Desk (Nat × J)) : List (Nat × J) :=
  match d.phase with
  | .serving job => job :: d.channel.queue
  | _ => d.channel.queue

/-- Everything that was sent has been served or is pending, in the order it was sent. -/
structure Orderly (o : Office σ J R) : Prop where
  all : o.log.map Prod.fst ++ (pending o.desk).map Prod.fst = List.range o.sent
  logged : ∀ c j r, (c, j, r) ∈ o.log → .sent c j ∈ o.history
  awaited : ∀ c j, (c, j) ∈ pending o.desk → .sent c j ∈ o.history
  told : ∀ c r, .told c r ∈ o.history → ∃ j, (c, j, r) ∈ o.log
  later : o.history.Pairwise fun e e' => ∀ c r c' j, e = .told c r → e' = .sent c' j → c < c'

theorem orderly_assembled (state : σ) : (assembled J R state).Orderly := by
  refine ⟨rfl, ?_, ?_, ?_, .nil⟩ <;> intro c j <;> intros <;> contradiction

/-! ## What a step of the desk leaves pending -/

variable {d d' : Desk (Nat × J)} {act : DeskAct (Nat × J)} {job : Nat × J} {i : Nat}

theorem pending_dispatch (next : d.step (.dispatch i job) = some d') :
    pending d' = pending d ++ [job] := by
  unfold Desk.step at next
  dsimp only at next
  split at next
  · split at next
    · cases next
    · obtain rfl := Option.some.inj next
      simp only [pending, Channel.send, Channel.clone]
      cases d.phase <;> rfl
  · cases next

theorem pending_served (serving : d.phase = .serving job) (next : d.step .served = some d') :
    pending d = job :: pending d' := by
  simp only [Desk.step, serving] at next
  obtain rfl := Option.some.inj next
  simp only [pending, serving]

/-- A receive moves the first job from the queue to the loop. -/
theorem pending_receive (next : d.step .receive = some d') : pending d' = pending d := by
  unfold Desk.step at next
  dsimp only at next
  split at next
  · next first hphase hnext =>
    obtain rfl := Option.some.inj next
    unfold Channel.next at hnext
    split at hnext
    · next first' rest hqueue =>
      obtain rfl : first' = first := by simpa using hnext
      simp only [pending, hphase, Channel.received, hqueue, List.tail_cons]
    · split at hnext <;> cases hnext
  · next hphase hnext =>
    obtain rfl := Option.some.inj next
    simp only [pending, hphase, Channel.dropSender]
  · cases next

theorem pending_quiet (quiet : ∀ i job, act ≠ .dispatch i job) (receives : act ≠ .receive)
    (serves : act ≠ .served) (next : d.step act = some d') : pending d' = pending d := by
  cases act with
  | dispatch i job => exact absurd rfl (quiet i job)
  | receive => exact absurd rfl receives
  | served => exact absurd rfl serves
  | handle =>
    unfold Desk.step at next
    dsimp only at next
    split at next
    · obtain rfl := Option.some.inj next
      rfl
    · cases next
  | clone i =>
    unfold Desk.step at next
    dsimp only at next
    split at next
    · obtain rfl := Option.some.inj next
      rfl
    · cases next
  | drop i =>
    unfold Desk.step at next
    dsimp only at next
    split at next
    · obtain rfl := Option.some.inj next
      rfl
    · cases next
  | refused i =>
    unfold Desk.step at next
    dsimp only at next
    split at next
    · obtain rfl := Option.some.inj next
      rfl
    · cases next
  | returned i =>
    unfold Desk.step at next
    dsimp only at next
    split at next
    · obtain rfl := Option.some.inj next
      rfl
    · cases next
  | intoService =>
    unfold Desk.step at next
    dsimp only at next
    split at next
    · next hphase =>
      split at next
      · obtain rfl := Option.some.inj next
        simp only [pending, hphase]
      · obtain rfl := Option.some.inj next
        simp only [pending, hphase, Channel.dropSender]
    · cases next

/-! ## Every step keeps the order -/

/-- The number of a call that is told its reply is smaller than that of the next call. -/
theorem Orderly.told_lt (h : o.Orderly) {c : Nat} {r : R} (told : .told c r ∈ o.history) : c < o.sent := by
  obtain ⟨j, hmem⟩ := h.told c r told
  rw [← List.mem_range, ← h.all]
  exact List.mem_append_left _ (List.mem_map.2 ⟨_, hmem, rfl⟩)

theorem Orderly.quiet (h : o.Orderly) {d : Desk (Nat × J)} (same : pending d = pending o.desk) :
    Orderly { o with desk := d } where
  all := by
    show o.log.map Prod.fst ++ (pending d).map Prod.fst = _
    rw [same, h.all]
  logged := h.logged
  awaited c j hmem := h.awaited c j (same ▸ hmem)
  told := h.told
  later := h.later

theorem Orderly.ended (h : o.Orderly) (calls : List Nat) : Orderly { o with calls := calls } :=
  ⟨h.all, h.logged, h.awaited, h.told, h.later⟩

theorem Orderly.step (h : o.Orderly) (next : Step serve o o') : o'.Orderly := by
  cases next with
  | handle next => exact h.quiet (pending_quiet (by simp) (by simp) (by simp) next)
  | clone next => exact h.quiet (pending_quiet (by simp) (by simp) (by simp) next)
  | drop next => exact h.quiet (pending_quiet (by simp) (by simp) (by simp) next)
  | refused next => exact h.quiet (pending_quiet (by simp) (by simp) (by simp) next)
  | intoService next => exact h.quiet (pending_quiet (by simp) (by simp) (by simp) next)
  | receive next => exact h.quiet (pending_receive next)
  | dropped underWay next =>
    exact (h.quiet (pending_quiet (by simp) (by simp) (by simp) next)).ended _
  | @dispatch i job d next =>
    have hpending := pending_dispatch next
    constructor
    · show o.log.map Prod.fst ++ (pending d).map Prod.fst = List.range (o.sent + 1)
      rw [hpending, List.map_append, ← List.append_assoc, h.all, List.range_succ]
      rfl
    · intro c j r hmem
      exact List.mem_append_left _ (h.logged c j r hmem)
    · intro c j hmem
      dsimp only at hmem
      rw [hpending, List.mem_append] at hmem
      rcases hmem with hmem | hmem
      · exact List.mem_append_left _ (h.awaited c j hmem)
      · obtain ⟨rfl, rfl⟩ : c = o.sent ∧ j = job := by simpa using hmem
        exact List.mem_append_right _ List.mem_cons_self
    · intro c r hmem
      rcases List.mem_append.1 hmem with hmem | hmem
      · exact h.told c r hmem
      · simp at hmem
    · refine List.pairwise_append.2 ⟨h.later, List.pairwise_singleton _ _, ?_⟩
      intro e he e' he' c r c' j htold hsent
      have hc := h.told_lt (htold ▸ he)
      obtain rfl := List.mem_singleton.1 he'
      obtain ⟨rfl, -⟩ : o.sent = c' ∧ job = j := by simpa using hsent
      exact hc
  | @told i c job reply d underWay replied next =>
    have hpending := pending_quiet (by simp) (by simp) (by simp) next
    constructor
    · show o.log.map Prod.fst ++ (pending d).map Prod.fst = _
      rw [hpending, h.all]
    · intro c j r hmem
      exact List.mem_append_left _ (h.logged c j r hmem)
    · intro c j hmem
      exact List.mem_append_left _ (h.awaited c j (hpending ▸ hmem))
    · intro c' r hmem
      rcases List.mem_append.1 hmem with hmem | hmem
      · exact h.told c' r hmem
      · obtain ⟨rfl, rfl⟩ : c' = c ∧ r = reply := by simpa using hmem
        exact ⟨job, replied⟩
    · refine List.pairwise_append.2 ⟨h.later, List.pairwise_singleton _ _, ?_⟩
      intro e he e' he' c r c' j htold hsent
      obtain rfl := List.mem_singleton.1 he'
      cases hsent
  | @served c job reply state d serving run next =>
    have hpending := pending_served serving next
    constructor
    · show (o.log ++ [(c, job, reply)]).map Prod.fst ++ (pending d).map Prod.fst = List.range o.sent
      rw [← h.all, hpending, List.map_append, List.append_assoc]
      rfl
    · intro c' j r hmem
      rcases List.mem_append.1 hmem with hmem | hmem
      · exact h.logged c' j r hmem
      · obtain ⟨rfl, rfl, rfl⟩ : c' = c ∧ j = job ∧ r = reply := by simpa using hmem
        exact h.awaited c' j (hpending ▸ List.mem_cons_self)
    · intro c' j hmem
      exact h.awaited c' j (hpending ▸ List.mem_cons_of_mem _ hmem)
    · intro c' r hmem
      obtain ⟨j, hlogged⟩ := h.told c' r hmem
      exact ⟨j, List.mem_append_left _ hlogged⟩
    · exact h.later

theorem Orderly.reaches (h : start.Orderly) (run : Reaches serve start o) : o.Orderly := by
  induction run with
  | start => exact h
  | step before next ih => exact ih.step next

/-! ## One run -/

theorem Orderly.served (h : o.Orderly) : o.log.map Prod.fst = List.range o.log.length := by
  have hlen : o.log.length ≤ o.sent := by
    have := congrArg List.length h.all
    simp at this
    omega
  have htake := congrArg (List.take o.log.length) h.all
  rw [List.take_range, Nat.min_eq_left hlen, List.take_left' (List.length_map _)] at htake
  exact htake

theorem Orderly.linearizes (h : o.Orderly) {legal : List (J × R) → Prop}
    (run : legal (o.log.map Prod.snd)) : Linearizes legal o.history o.log := by
  refine linearizes_of_ascending run ?_ h.logged h.told h.later
  rw [h.served]
  exact List.pairwise_lt_range

end
end Office

section
variable {V : Type} {env : BankEnv}

/-- What the service does for a job, as a relation between what it finds and what it leaves. -/
def BankEnv.serves (env : BankEnv) (m : Machine Tables (Bank V)) (job : Job) (reply : Except Error Answer)
    (m' : Machine Tables (Bank V)) : Prop :=
  Run Served (job.prog env) m reply m'

/-- The jobs of a service are a run of the shelves that it found. -/
theorem Displays.runs (lawful : env.Lawful) {s : Shelves} {m : Machine Tables (Bank V)}
    (displays : Displays env s m) {o : Office (Machine Tables (Bank V)) Job (Except Error Answer)}
    (run : Office.Reaches env.serves (.assembled _ _ m) o) :
    ∃ s', s.Runs (o.log.map Prod.snd) s' ∧ Displays env s' o.state := by
  induction run with
  | start => exact ⟨s, .start, displays⟩
  | step before next ih =>
    obtain ⟨s₁, runs, displays₁⟩ := ih
    cases next with
    | served serving run next =>
      obtain ⟨s', serves, displays'⟩ := displays₁.serves lawful _ run
      refine ⟨s', ?_, displays'⟩
      rw [List.map_append]
      exact runs.serve serves
    | _ => exact ⟨s₁, runs, displays₁⟩

/-- The calls of all handles are one run of the map of maps: however handles are cloned and dropped,
calls are sent, refused and dropped, and requests of the backend fail, those that are served are served
once, in the order in which they were sent, with the answer and the effect that the map of maps has there,
and the others wait; a call that was told its reply was told that of its own job; and a call that is sent
after another was told its reply is served after it. -/
theorem calls_are_one_run (lawful : env.Lawful) {s : Shelves} {m : Machine Tables (Bank V)}
    (displays : Displays env s m) {o : Office (Machine Tables (Bank V)) Job (Except Error Answer)}
    (run : Office.Reaches env.serves (.assembled _ _ m) o) :
    (∃ s', Linearizes (s.Runs · s') o.history o.log ∧ Displays env s' o.state) ∧
    o.log.map Prod.fst = List.range o.log.length ∧
    o.log.map Prod.fst ++ (Office.pending o.desk).map Prod.fst = List.range o.sent := by
  have orderly : o.Orderly := (Office.orderly_assembled m).reaches run
  obtain ⟨s', runs, displays'⟩ := displays.runs lawful run
  exact ⟨⟨s', orderly.linearizes runs, displays'⟩, orderly.served, orderly.all⟩

end

/-- A new bank with two handles. One puts a value, the other gets it and is told first, and a third call
still waits in the queue. -/
theorem calls_are_one_run_two_handles :
    ∃ o : Office (Machine Tables (Bank Unit)) Job (Except Error Answer),
    o.history = [.sent 0 (.put "notes" "a" [1]), .sent 1 (.get "notes" "a"), .sent 2 .lockerNames,
      .told 1 (.ok (.value (some [1]))), .told 0 (.ok .done)] ∧
    (∃ s', Linearizes (Shelves.empty.Runs · s') o.history o.log ∧ Displays BankEnv.plain s' o.state) ∧
    o.log.map Prod.fst = List.range o.log.length ∧
    o.log.map Prod.fst ++ (Office.pending o.desk).map Prod.fst = List.range o.sent := by
  have h : (do
      let put ← served (Job.prog BankEnv.plain (.put "notes" "a" [1])) ⟨.empty, .fresh Unit⟩
      let got ← served (Job.prog BankEnv.plain (.get "notes" "a")) put.2
      return (put.1, got.1)) = some (.done, .value (some [1])) := by decide
  obtain ⟨⟨reply, m₁⟩, put, h⟩ := Option.bind_eq_some_iff.1 h
  obtain ⟨⟨value, m₂⟩, got, h⟩ := Option.bind_eq_some_iff.1 h
  obtain ⟨rfl, rfl⟩ := Prod.mk.inj (Option.some.inj h)
  have made : Office.Reaches BankEnv.plain.serves
      (.assembled Job (Except Error Answer) ⟨.empty, .fresh Unit⟩)
      ⟨⟨⟨[], 3⟩, true, [0, 0], .unserved⟩, ⟨.empty, .fresh Unit⟩, 0, [], [], []⟩ :=
    (Office.Reaches.start.step (.handle rfl)).step
      (.clone (show Desk.step _ (.clone 0) = some _ from rfl))
  have entered := made.step (.intoService rfl)
  have sent₀ := entered.step (.dispatch (show Desk.step _ (.dispatch 0 (0, .put "notes" "a" [1])) =
    some _ from rfl))
  have sent₁ := sent₀.step (.dispatch (show Desk.step _ (.dispatch 1 (1, .get "notes" "a")) =
    some _ from rfl))
  have sent₂ := sent₁.step (.dispatch (show Desk.step _ (.dispatch 0 (2, .lockerNames)) =
    some _ from rfl))
  have served₀ := (sent₂.step (.receive rfl)).step (.served rfl (run_of_served put) rfl)
  have served₁ := (served₀.step (.receive rfl)).step (.served rfl (run_of_served got) rfl)
  have told₁ := served₁.step (.told (show 1 ∈ [0, 1, 2] by decide) (List.mem_cons_of_mem _ List.mem_cons_self)
    (show Desk.step _ (.returned 1) = some _ from rfl))
  have told₀ := told₁.step (.told (show 0 ∈ [0, 2] by decide) List.mem_cons_self
    (show Desk.step _ (.returned 0) = some _ from rfl))
  exact ⟨_, rfl, calls_are_one_run lawful_plain displays_empty told₀⟩

end Crossbank
