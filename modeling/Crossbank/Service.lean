import Mathlib

/-!
# The service of a bank

A bank answers the jobs that its handles send. The channel between them is closed once every sender of
it is dropped: each handle holds one, each call under way a clone of it, and the bank the one that new
handles are cloned from.

* `Channel`, `Channel.next` : a queue of jobs with a count of senders, and what a receive finds in it;
* `Desk` : a bank with its handles, and how far its service is; `Desk.step` : one step of them;
* `Desk.Counted` : the bank that is being served holds one of the senders;
* `Desk.never_ends` : the service does not end: dropping every handle leaves it waiting for good.
-/

namespace Crossbank

/-! ## The channel -/

structure Channel (J : Type) where
  queue : List J
  senders : Nat
  deriving DecidableEq, Repr

/-- What a receive finds: a job, nothing as yet, or that there will be none. -/
inductive Received (J : Type) where
  | job (job : J)
  | pending
  | closed
  deriving DecidableEq, Repr

namespace Channel
variable {J : Type}

def next (c : Channel J) : Received J :=
  match c.queue with
  | job :: _ => .job job
  | [] => if c.senders = 0 then .closed else .pending

def send (job : J) (c : Channel J) : Channel J := { c with queue := c.queue ++ [job] }

def received (c : Channel J) : Channel J := { c with queue := c.queue.tail }

def clone (c : Channel J) : Channel J := { c with senders := c.senders + 1 }

def dropSender (c : Channel J) : Channel J := { c with senders := c.senders - 1 }

end Channel

/-! ## The bank and its handles -/

/-- How far a service is: the bank is not served yet, the loop waits for a job, or serves one, or it
has ended. -/
inductive Phase (J : Type) where
  | unserved
  | waiting
  | serving (job : J)
  | ended
  deriving DecidableEq, Repr

/-- A bank, and for each live handle onto it how many of its calls are under way. -/
structure Desk (J : Type) where
  channel : Channel J
  receiver : Bool
  handles : List Nat
  phase : Phase J
  deriving DecidableEq, Repr

/-- What happens: a handle is made by the bank or cloned from another, or dropped; a call sends a job,
or is refused, and ends; the bank goes into service, and its loop receives or has answered. -/
inductive DeskAct (J : Type) where
  | handle
  | clone (i : Nat)
  | drop (i : Nat)
  | dispatch (i : Nat) (job : J)
  | refused (i : Nat)
  | returned (i : Nat)
  | intoService
  | receive
  | served
  deriving DecidableEq, Repr

namespace Desk
variable {J : Type}

/-- The bank keeps the sender that its handles are cloned from. -/
def assembled : Desk J := ⟨⟨[], 1⟩, true, [], .unserved⟩

/-- A job that is sent once the loop has ended is refused. -/
def isDisconnected (d : Desk J) : Bool :=
  match d.phase with
  | .ended => true
  | _ => false

/-- A handle is borrowed by its calls: it is dropped when none is under way. A call holds a clone of
its handle's sender until it ends. The bank is moved into its service, so that it makes no handle any
more, and it is dropped when the loop ends. -/
def step (d : Desk J) : DeskAct J → Option (Desk J)
  | .handle =>
    match d.phase with
    | .unserved => some { d with channel := d.channel.clone, handles := d.handles ++ [0] }
    | _ => none
  | .clone i =>
    match d.handles[i]? with
    | some _ => some { d with channel := d.channel.clone, handles := d.handles ++ [0] }
    | none => none
  | .drop i =>
    match d.handles[i]? with
    | some 0 => some { d with channel := d.channel.dropSender, handles := d.handles.eraseIdx i }
    | _ => none
  | .dispatch i job =>
    match d.handles[i]? with
    | some calls =>
      if d.isDisconnected then none
      else some { d with channel := d.channel.clone.send job, handles := d.handles.set i (calls + 1) }
    | none => none
  | .refused i =>
    match d.handles[i]? with
    | some _ => some d
    | none => none
  | .returned i =>
    match d.handles[i]? with
    | some (calls + 1) =>
      some { d with channel := d.channel.dropSender, handles := d.handles.set i calls }
    | _ => none
  | .intoService =>
    match d.phase with
    | .unserved =>
      if d.receiver then some { d with receiver := false, phase := .waiting }
      else some { d with channel := d.channel.dropSender, phase := .ended }
    | _ => none
  | .receive =>
    match d.phase, d.channel.next with
    | .waiting, .job job => some { d with channel := d.channel.received, phase := .serving job }
    | .waiting, .closed => some { d with channel := d.channel.dropSender, phase := .ended }
    | _, _ => none
  | .served =>
    match d.phase with
    | .serving _ => some { d with phase := .waiting }
    | _ => none

inductive Reaches (start : Desk J) : Desk J → Prop
  | start : Reaches start start
  | step {d d' : Desk J} {act : DeskAct J} (before : Reaches start d) (next : d.step act = some d') :
      Reaches start d'

/-- Every handle is dropped and the queue is drained, and the loop waits. -/
def Left (d : Desk J) : Prop := d.handles = [] ∧ d.channel.queue = [] ∧ d.phase = .waiting

instance [DecidableEq J] (d : Desk J) : Decidable d.Left := inferInstanceAs (Decidable (_ ∧ _ ∧ _))

/-- The service ends: the next receive of a loop whose handles are gone finds the channel closed. -/
def Ends (start : Desk J) : Prop := ∀ d, Reaches start d → d.Left → d.channel.next = .closed

theorem Reaches.trans {a b c : Desk J} (first : Reaches a b) (rest : Reaches b c) : Reaches a c := by
  induction rest with
  | start => exact first
  | step before next ih => exact ih.step next

/-! ## Who holds a sender -/

/-- The bank, which is not dropped, holds a sender, and so do each handle and each call. -/
structure Counted (d : Desk J) : Prop where
  running : d.phase ≠ .ended
  receiver : d.phase = .unserved → d.receiver = true
  senders : d.channel.senders = 1 + d.handles.length + d.handles.sum

theorem counted_assembled : (assembled : Desk J).Counted :=
  ⟨by simp [assembled], fun _ => rfl, rfl⟩

variable {d d' : Desk J} {act : DeskAct J}

theorem Counted.next_ne_closed (h : d.Counted) : d.channel.next ≠ .closed := by
  have hsenders := h.senders
  unfold Channel.next
  split
  · simp
  · rw [if_neg (by omega)]
    simp

/-- A handle is replaced by one that has more calls under way, or fewer. -/
theorem sum_set {handles : List Nat} {i calls : Nat} (at_ : handles[i]? = some calls) (more : Nat) :
    (handles.set i more).sum + calls = handles.sum + more := by
  induction handles generalizing i with
  | nil => cases at_
  | cons first rest ih =>
    cases i with
    | zero =>
      obtain rfl := Option.some.inj at_
      rw [List.set_cons_zero, List.sum_cons, List.sum_cons]
      omega
    | succ i =>
      have hrest := ih (i := i) at_
      rw [List.set_cons_succ, List.sum_cons, List.sum_cons]
      omega

theorem sum_eraseIdx {handles : List Nat} {i : Nat} (at_ : handles[i]? = some 0) :
    (handles.eraseIdx i).sum = handles.sum := by
  induction handles generalizing i with
  | nil => cases at_
  | cons first rest ih =>
    cases i with
    | zero =>
      obtain rfl := Option.some.inj at_
      rw [List.eraseIdx_cons_zero, List.sum_cons, Nat.zero_add]
    | succ i =>
      have hrest := ih (i := i) at_
      rw [List.eraseIdx_cons_succ, List.sum_cons, List.sum_cons, hrest]

theorem Counted.step (h : d.Counted) (next : d.step act = some d') : d'.Counted := by
  have hsenders := h.senders
  cases act with
  | handle =>
    unfold Desk.step at next
    dsimp only at next
    split at next
    · next hphase =>
      obtain rfl := Option.some.inj next
      refine ⟨h.running, h.receiver, ?_⟩
      show d.channel.senders + 1 = 1 + (d.handles ++ [0]).length + (d.handles ++ [0]).sum
      rw [List.length_append, List.sum_append, List.length_singleton, List.sum_singleton]
      omega
    · cases next
  | clone i =>
    unfold Desk.step at next
    dsimp only at next
    split at next
    · obtain rfl := Option.some.inj next
      refine ⟨h.running, h.receiver, ?_⟩
      show d.channel.senders + 1 = 1 + (d.handles ++ [0]).length + (d.handles ++ [0]).sum
      rw [List.length_append, List.sum_append, List.length_singleton, List.sum_singleton]
      omega
    · cases next
  | drop i =>
    unfold Desk.step at next
    dsimp only at next
    split at next
    · next hat =>
      obtain rfl := Option.some.inj next
      refine ⟨h.running, h.receiver, ?_⟩
      have hlt : i < d.handles.length := (List.getElem?_eq_some_iff.1 hat).1
      show d.channel.senders - 1 = 1 + (d.handles.eraseIdx i).length + (d.handles.eraseIdx i).sum
      rw [List.length_eraseIdx_of_lt hlt, sum_eraseIdx hat]
      omega
    · cases next
  | dispatch i job =>
    unfold Desk.step at next
    dsimp only at next
    split at next
    · next calls hat =>
      split at next
      · cases next
      · obtain rfl := Option.some.inj next
        refine ⟨h.running, h.receiver, ?_⟩
        have hsum := sum_set hat (calls + 1)
        show d.channel.senders + 1 = 1 + (d.handles.set i (calls + 1)).length +
          (d.handles.set i (calls + 1)).sum
        rw [List.length_set]
        omega
    · cases next
  | refused i =>
    unfold Desk.step at next
    dsimp only at next
    split at next
    · obtain rfl := Option.some.inj next
      exact h
    · cases next
  | returned i =>
    unfold Desk.step at next
    dsimp only at next
    split at next
    · next calls hat =>
      obtain rfl := Option.some.inj next
      refine ⟨h.running, h.receiver, ?_⟩
      have hsum := sum_set hat calls
      show d.channel.senders - 1 = 1 + (d.handles.set i calls).length + (d.handles.set i calls).sum
      rw [List.length_set]
      omega
    · cases next
  | intoService =>
    unfold Desk.step at next
    dsimp only at next
    split at next
    · next hphase =>
      rw [if_pos (h.receiver hphase)] at next
      obtain rfl := Option.some.inj next
      exact ⟨by simp, fun hu => (by cases hu), hsenders⟩
    · cases next
  | receive =>
    unfold Desk.step at next
    dsimp only at next
    split at next
    · obtain rfl := Option.some.inj next
      exact ⟨by simp, fun hu => (by cases hu), hsenders⟩
    · next hclosed => exact absurd hclosed h.next_ne_closed
    · cases next
  | served =>
    unfold Desk.step at next
    dsimp only at next
    split at next
    · obtain rfl := Option.some.inj next
      exact ⟨by simp, fun hu => (by cases hu), hsenders⟩
    · cases next

theorem Counted.reaches (h : d.Counted) (run : Reaches d d') : d'.Counted := by
  induction run with
  | start => exact h
  | step before next ih => exact ih.step next

/-! ## Left waiting -/

/-- Nothing happens any more to a desk that is left: the loop finds neither a job nor an end. -/
theorem Counted.stuck (h : d.Counted) (left : d.Left) :
    d.channel.next = .pending ∧ ∀ act, d.step act = none := by
  obtain ⟨hhandles, hqueue, hphase⟩ := left
  have hsenders := h.senders
  have hnext : d.channel.next = .pending := by
    unfold Channel.next
    rw [hqueue]
    exact if_neg (by omega)
  refine ⟨hnext, fun act => ?_⟩
  cases act with
  | handle | intoService | served => simp only [Desk.step, hphase]
  | receive => simp only [Desk.step, hphase, hnext]
  | clone i | drop i | dispatch i job | refused i | returned i =>
    simp only [Desk.step, hhandles, List.getElem?_nil]

/-- The handles can be dropped, once their calls have ended. -/
theorem drops (d : Desk J) : ∃ d', Reaches d d' ∧ d'.handles = [] ∧ d'.channel.queue = d.channel.queue ∧
    d'.phase = d.phase := by
  induction hsize : d.handles.length + d.handles.sum generalizing d with
  | zero =>
    refine ⟨d, .start, List.length_eq_zero_iff.1 (by omega), rfl, rfl⟩
  | succ size ih =>
    cases hhandles : d.handles with
    | nil => exact ⟨d, .start, hhandles, rfl, rfl⟩
    | cons calls rest =>
      rw [hhandles, List.length_cons, List.sum_cons] at hsize
      cases calls with
      | zero =>
        let d₁ : Desk J := { d with channel := d.channel.dropSender, handles := rest }
        have hstep : d.step (.drop 0) = some d₁ := by
          simp [Desk.step, hhandles, d₁]
        obtain ⟨d', hrun, hnil, hqueue, hphase⟩ := ih d₁ (by show rest.length + rest.sum = size; omega)
        exact ⟨d', (Reaches.start.step hstep).trans hrun, hnil, hqueue, hphase⟩
      | succ calls =>
        let d₁ : Desk J := { d with channel := d.channel.dropSender, handles := calls :: rest }
        have hstep : d.step (.returned 0) = some d₁ := by
          simp [Desk.step, hhandles, d₁]
        obtain ⟨d', hrun, hnil, hqueue, hphase⟩ := ih d₁ (by
          show (calls :: rest).length + (calls :: rest).sum = size
          rw [List.length_cons, List.sum_cons]
          omega)
        exact ⟨d', (Reaches.start.step hstep).trans hrun, hnil, hqueue, hphase⟩

/-- The loop drains its queue. -/
theorem drains (d : Desk J) (waiting : d.phase = .waiting) : ∃ d', Reaches d d' ∧
    d'.handles = d.handles ∧ d'.channel.queue = [] ∧ d'.phase = .waiting := by
  induction hqueue : d.channel.queue generalizing d with
  | nil => exact ⟨d, .start, rfl, hqueue, waiting⟩
  | cons job rest ih =>
    let d₁ : Desk J := { d with channel := d.channel.received, phase := .serving job }
    let d₂ : Desk J := { d₁ with phase := .waiting }
    have hreceive : d.step .receive = some d₁ := by
      have hnext : d.channel.next = .job job := by simp [Channel.next, hqueue]
      simp only [Desk.step, waiting, hnext, d₁]
    have hserved : d₁.step .served = some d₂ := rfl
    have hrest : d₂.channel.queue = rest := by
      show d.channel.queue.tail = rest
      rw [hqueue, List.tail_cons]
    obtain ⟨d', hrun, hhandles, hnil, hphase⟩ := ih d₂ rfl hrest
    exact ⟨d', ((Reaches.start.step hreceive).step hserved).trans hrun, hhandles, hnil, hphase⟩

/-- From every desk in service all handles can be dropped and the queue drained. -/
theorem leaves (running : d.phase ≠ .ended) (inService : d.phase ≠ .unserved) :
    ∃ d', Reaches d d' ∧ d'.Left := by
  have hwaits : ∃ d₁, Reaches d d₁ ∧ d₁.phase = .waiting := by
    cases hphase : d.phase with
    | unserved => exact absurd hphase inService
    | ended => exact absurd hphase running
    | waiting => exact ⟨d, .start, hphase⟩
    | serving job =>
      have hserved : d.step .served = some { d with phase := .waiting } := by
        simp only [Desk.step, hphase]
      exact ⟨_, Reaches.start.step hserved, rfl⟩
  obtain ⟨d₁, hfirst, hwaiting⟩ := hwaits
  obtain ⟨d₂, hdrop, hnil, -, hphase⟩ := drops d₁
  obtain ⟨d₃, hdrain, hhandles, hqueue, hstill⟩ := drains d₂ (hphase.trans hwaiting)
  exact ⟨d₃, (hfirst.trans hdrop).trans hdrain, hhandles.trans hnil, hqueue, hstill⟩

/-- The service does not end: however a bank was taken into service, with any handles and any jobs
sent, the loop never ends, and once every handle is dropped and the queue is drained, which can always
be reached, it waits for good. -/
theorem never_ends (run : Reaches assembled d) (inService : d.phase ≠ .unserved) :
    ¬ d.Ends ∧ (∀ d', Reaches d d' → d'.phase ≠ .ended) ∧
      ∃ d', Reaches d d' ∧ d'.Left ∧ ∀ act, d'.step act = none := by
  have hcounted : d.Counted := counted_assembled.reaches run
  obtain ⟨d', hrun, hleft⟩ := leaves hcounted.running inService
  have hstuck := (hcounted.reaches hrun).stuck hleft
  refine ⟨fun hends => ?_, fun other hother => (hcounted.reaches hother).running,
    d', hrun, hleft, hstuck.2⟩
  exact (hcounted.reaches hrun).next_ne_closed (hends d' hrun hleft)

/-- A bank that is taken into service with one handle. -/
def serviced : Desk Nat := ⟨⟨[], 2⟩, false, [0], .waiting⟩

theorem reaches_serviced : Reaches assembled serviced :=
  .step (.step .start (rfl : (assembled : Desk Nat).step .handle = some ⟨⟨[], 2⟩, true, [0], .unserved⟩))
    (rfl : Desk.step (⟨⟨[], 2⟩, true, [0], .unserved⟩ : Desk Nat) .intoService = some serviced)

theorem never_ends_serviced : ¬ serviced.Ends ∧ (∀ d', Reaches serviced d' → d'.phase ≠ .ended) ∧
    ∃ d', Reaches serviced d' ∧ d'.Left ∧ ∀ act, d'.step act = none :=
  never_ends reaches_serviced (by decide)

/-- The handle sends a job, which is answered, and is dropped: the loop finds no end. -/
theorem not_ends_serviced : Reaches assembled serviced ∧ ¬ serviced.Ends := by
  refine ⟨reaches_serviced, fun hends => ?_⟩
  have hsent : serviced.step (.dispatch 0 7) = some ⟨⟨[7], 3⟩, false, [1], .waiting⟩ := rfl
  have hreceived : Desk.step (⟨⟨[7], 3⟩, false, [1], .waiting⟩ : Desk Nat) .receive =
      some ⟨⟨[], 3⟩, false, [1], .serving 7⟩ := rfl
  have hserved : Desk.step (⟨⟨[], 3⟩, false, [1], .serving 7⟩ : Desk Nat) .served =
      some ⟨⟨[], 3⟩, false, [1], .waiting⟩ := rfl
  have hreturned : Desk.step (⟨⟨[], 3⟩, false, [1], .waiting⟩ : Desk Nat) (.returned 0) =
      some ⟨⟨[], 2⟩, false, [0], .waiting⟩ := rfl
  have hdropped : Desk.step (⟨⟨[], 2⟩, false, [0], .waiting⟩ : Desk Nat) (.drop 0) =
      some ⟨⟨[], 1⟩, false, [], .waiting⟩ := rfl
  have hrun : Reaches serviced ⟨⟨[], 1⟩, false, [], .waiting⟩ :=
    ((((Reaches.start.step hsent).step hreceived).step hserved).step hreturned).step hdropped
  have hclosed := hends _ hrun ⟨rfl, rfl, rfl⟩
  exact absurd hclosed (by decide)

end Desk
end Crossbank
