import Crossbank.Locker.Policy

/-!
# Watching a locker

* `Event`, `Event.isFor` : what a watcher is told, and whom an event is for;
* `Subscriber.offer` : one event, offered to one bounded queue;
* `Watch`, `run` : the watchers of a locker, over subscriptions, broadcasts and receptions;
* `Spells` : what a watcher was sent, read as the events it was meant for;
* `Watch.Accounts` : the invariant that relates queue, skip count and history;
* `run_accounts` : a watcher misses nothing silently.
-/

namespace Crossbank

def Notice.keyBytes : Notice → Bytes
  | .put key | .deleted key | .stale key | .evicted key => key
  | .cleared => []

namespace Watchers

/-- Something that happened to a locker, or how many of these a subscriber missed. -/
inductive Event where
  | change (notice : Notice)
  | lagged (skipped : Nat)
  deriving DecidableEq, Repr

def Event.keyBytes : Event → Bytes
  | .change notice => notice.keyBytes
  | .lagged _ => []

/-- `Event::matches`. A clear and a gap are for every subscriber. -/
def Event.isFor (filter : Option (List Bytes)) (event : Event) : Bool :=
  match filter, event with
  | none, _ => true
  | some _, .change .cleared | some _, .lagged _ => true
  | some keys, other => keys.any (· == other.keyBytes)

inductive Sent where
  | ok
  | full
  | disconnected
  deriving DecidableEq, Repr

structure Subscriber where
  filter : Option (List Bytes)
  /-- A `u64`. -/
  skipped : Nat

namespace Subscriber

def skip (sub : Subscriber) : Subscriber := { sub with skipped := satAdd sub.skipped 1 }

/-- Send the event itself, after what was sent before it. -/
def deliver (event : Event) (answer : Sent) (sent : List Event) (sub : Subscriber) :
    Option Subscriber × List Event :=
  match answer with
  | .ok => (some sub, sent ++ [event])
  | .disconnected => (none, sent)
  | .full => (some sub.skip, sent)

/-- One round of `retain_mut` : the subscriber if it is retained, and what went into its queue.
`notice` answers the attempt to send a gap notice, `answer` that to send the event. -/
def offer (event : Event) (notice answer : Sent) (sub : Subscriber) :
    Option Subscriber × List Event :=
  if event.isFor sub.filter then
    -- Tell them about any gap before the event that closes it.
    if 0 < sub.skipped then
      match notice with
      | .ok => deliver event answer [.lagged sub.skipped] { sub with skipped := 0 }
      | .disconnected => (none, [])
      | .full => (some sub.skip, [])
    else deliver event answer [] sub
  else (some sub, [])

end Subscriber

/-- A subscription from both ends: the subscriber until it is pruned, the queue, and what its
stream has yielded. -/
structure Watch where
  subscriber : Option Subscriber
  queue : List Event := []
  received : List Event := []

namespace Watch

def sent (watch : Watch) : List Event := watch.received ++ watch.queue

def offer (event : Event) (answers : Sent × Sent) (watch : Watch) : Watch :=
  match watch.subscriber with
  | none => watch
  | some sub =>
    let offered := sub.offer event answers.1 answers.2
    { watch with subscriber := offered.1, queue := watch.queue ++ offered.2 }

def receive (watch : Watch) : Watch :=
  { watch with queue := watch.queue.tail, received := watch.received ++ watch.queue.take 1 }

end Watch

/-- The queues answer a broadcast as they please. -/
inductive Act where
  | subscribe (filter : Option (List Bytes))
  | broadcast (event : Event) (answers : Nat → Sent × Sent)
  | receive (stream : Nat)

def Act.event : Act → Option Event
  | .broadcast event _ => some event
  | _ => none

def subscribe (filter : Option (List Bytes)) (watchers : List Watch) : List Watch :=
  watchers ++ [{ subscriber := some { filter, skipped := 0 } }]

def broadcast (event : Event) (answers : Nat → Sent × Sent) (watchers : List Watch) : List Watch :=
  watchers.mapIdx fun i watch => watch.offer event (answers i)

def step (watchers : List Watch) : Act → List Watch
  | .subscribe filter => subscribe filter watchers
  | .broadcast event answers => broadcast event answers watchers
  | .receive stream => watchers.modify stream Watch.receive

def run (acts : List Act) : List Watch := acts.foldl step []

/-! ## What is read off a queue -/

/-- What was sent, read as the events it was sent for: an event as itself, and a gap notice as some
events that were left out, `reads` saying how many it may stand for. -/
inductive Spells (reads : Nat → Nat → Prop) : List Event → List Event → Prop
  | nil : Spells reads [] []
  | event {event : Event} {sent told : List Event} (rest : Spells reads sent told) :
      Spells reads (event :: sent) (event :: told)
  | gap {n : Nat} {missed sent told : List Event} (some : missed ≠ []) (reading : reads n missed.length)
      (rest : Spells reads sent told) : Spells reads (.lagged n :: sent) (missed ++ told)

/-- A count of `n` stands for `k` events: a `u64` at its limit stands for that many or more. -/
def Counts (n k : Nat) : Prop := n = k ∨ n = U64_MAX ∧ U64_MAX ≤ k

/-- What a watcher knows of the events it was meant for: what it was sent spells a beginning of
them, and the skip count stands for the rest. -/
def Watch.Accounts (reads : Nat → Nat → Prop) (events : List Event) (watch : Watch) : Prop :=
  ∃ told pending, told ++ pending = events ∧ Spells reads watch.sent told ∧
    ∀ sub, watch.subscriber = some sub → reads sub.skipped pending.length

namespace Spells
variable {reads : Nat → Nat → Prop} {sent sent' told told' : List Event}

theorem append (first : Spells reads sent told) (then' : Spells reads sent' told') :
    Spells reads (sent ++ sent') (told ++ told') := by
  induction first with
  | nil => exact then'
  | event _ ih => exact .event ih
  | gap some reading _ ih =>
    rw [List.append_assoc]
    exact .gap some reading ih

theorem concat (first : Spells reads sent told) (event : Event) :
    Spells reads (sent ++ [event]) (told ++ [event]) := first.append (.event .nil)

theorem concat_gap (first : Spells reads sent told) {n : Nat} {missed : List Event}
    (some : missed ≠ []) (reading : reads n missed.length) :
    Spells reads (sent ++ [.lagged n]) (told ++ missed) := by
  have notice : Spells reads [.lagged n] (missed ++ []) := .gap some reading .nil
  rw [List.append_nil] at notice
  exact first.append notice

end Spells

theorem counts_zero : Counts 0 0 := .inl rfl

/-- Nothing is counted exactly when nothing was missed. -/
theorem Counts.eq_zero_iff {n k : Nat} (h : Counts n k) : n = 0 ↔ k = 0 := by
  unfold Counts U64_MAX at h
  omega

theorem Counts.skip {n k : Nat} (h : Counts n k) : Counts (satAdd n 1) (k + 1) := by
  unfold Counts at h ⊢
  unfold satAdd
  omega

namespace Watch

/-! ## One offer -/

def after (watch : Watch) (offered : Option Subscriber × List Event) : Watch :=
  { watch with subscriber := offered.1, queue := watch.queue ++ offered.2 }

theorem sent_after (watch : Watch) (offered : Option Subscriber × List Event) :
    (watch.after offered).sent = watch.sent ++ offered.2 := (List.append_assoc _ _ _).symm

/-- An event that is not sent is pending, for a subscriber that counts it. -/
theorem accounts_missed {watch : Watch} {events : List Event} {sub : Subscriber} (event : Event)
    {kept : Option Subscriber} (h : watch.Accounts Counts events)
    (hsub : watch.subscriber = some sub) (hkept : kept = none ∨ kept = some sub.skip) :
    (watch.after (kept, [])).Accounts Counts (events ++ [event]) := by
  obtain ⟨told, pending, rfl, spelled, counted⟩ := h
  refine ⟨told, pending ++ [event], (List.append_assoc _ _ _).symm, ?_, fun sub' hsub' => ?_⟩
  · rw [sent_after, List.append_nil]
    exact spelled
  · rcases hkept with rfl | rfl
    · cases hsub'
    · obtain rfl := Option.some.inj hsub'
      rw [List.length_append]
      exact (counted sub hsub).skip

/-- Where nothing is pending any more, the event itself is sent or is the first to be missed. -/
theorem accounts_deliver {watch : Watch} {events sent : List Event} {sub : Subscriber} (event : Event)
    (answer : Sent) (spelled : Spells Counts (watch.sent ++ sent) events) (none : sub.skipped = 0) :
    (watch.after (sub.deliver event answer sent)).Accounts Counts (events ++ [event]) := by
  cases answer with
  | ok =>
    refine ⟨events ++ [event], [], List.append_nil _, ?_, fun sub' hsub' => ?_⟩
    · rw [sent_after, Subscriber.deliver, ← List.append_assoc]
      exact spelled.concat event
    · obtain rfl := Option.some.inj hsub'
      rw [none]
      exact counts_zero
  | full =>
    refine ⟨events, [event], rfl, ?_, fun sub' hsub' => ?_⟩
    · rw [sent_after]
      exact spelled
    · obtain rfl := Option.some.inj hsub'
      show Counts (satAdd sub.skipped 1) (0 + 1)
      rw [none]
      exact counts_zero.skip
  | disconnected =>
    refine ⟨events, [event], rfl, ?_, fun sub' hsub' => ?_⟩
    · rw [sent_after]
      exact spelled
    · cases hsub'

/-- What a subscriber to `filter` is told of an event. -/
def ownShare (filter : Option (List Bytes)) (events : List Event) : List Event :=
  events.filter (Event.isFor filter)

/-- A watch of `filter` accounts for what `events` holds for it. -/
structure Follows (filter : Option (List Bytes)) (events : List Event) (watch : Watch) : Prop where
  filtered : ∀ sub, watch.subscriber = some sub → sub.filter = filter
  accounts : watch.Accounts Counts (ownShare filter events)

theorem filter_offer {event : Event} {notice answer : Sent} {sub kept : Subscriber}
    (h : (sub.offer event notice answer).1 = some kept) : kept.filter = sub.filter := by
  have delivered {sent : List Event} {before : Subscriber}
      (hd : (before.deliver event answer sent).1 = some kept) : kept.filter = before.filter := by
    cases answer with
    | ok => rw [← Option.some.inj hd]
    | full => rw [← Option.some.inj hd, Subscriber.skip]
    | disconnected => cases hd
  unfold Subscriber.offer at h
  split at h
  · split at h
    · cases notice with
      | ok =>
        have kept := delivered h
        exact kept
      | full => rw [← Option.some.inj h, Subscriber.skip]
      | disconnected => cases h
    · exact delivered h
  · rw [← Option.some.inj h]

theorem Follows.offer {filter : Option (List Bytes)} {events : List Event} {watch : Watch}
    (h : watch.Follows filter events) (event : Event) (answers : Sent × Sent) :
    (watch.offer event answers).Follows filter (events ++ [event]) := by
  have share : ownShare filter (events ++ [event]) =
      ownShare filter events ++ if event.isFor filter then [event] else [] := by
    rw [ownShare, List.filter_append, ownShare, List.filter_singleton]
    cases event.isFor filter with
    | true => rfl
    | false => rfl
  obtain ⟨told, pending, hevents, spelled, counted⟩ := h.accounts
  unfold Watch.offer
  cases hsub : watch.subscriber with
  | none =>
    refine ⟨h.filtered, told, pending ++ if event.isFor filter then [event] else [], ?_, spelled, ?_⟩
    · rw [share, ← hevents, List.append_assoc]
    · intro sub hsome
      rw [hsub] at hsome
      cases hsome
  | some sub =>
    have hfilter := h.filtered sub hsub
    refine ⟨fun kept hkept => (filter_offer hkept).trans hfilter, ?_⟩
    show (watch.after (sub.offer event answers.1 answers.2)).Accounts _ _
    rw [share]
    unfold Subscriber.offer
    rw [hfilter]
    by_cases wanted : event.isFor filter = true
    · rw [if_pos wanted, if_pos wanted]
      by_cases behind : 0 < sub.skipped
      · rw [if_pos behind]
        have count := counted sub hsub
        have some : pending ≠ [] := by
          rintro rfl
          have zero := count.eq_zero_iff.2 List.length_nil
          omega
        cases answers.1 with
        | ok =>
          refine accounts_deliver event answers.2 ?_ rfl
          rw [← hevents]
          exact spelled.concat_gap some count
        | full => exact accounts_missed event h.accounts hsub (.inr rfl)
        | disconnected => exact accounts_missed event h.accounts hsub (.inl rfl)
      · rw [if_neg behind]
        have zero : sub.skipped = 0 := by omega
        have count := counted sub hsub
        obtain rfl := List.eq_nil_of_length_eq_zero (count.eq_zero_iff.1 zero)
        refine accounts_deliver event answers.2 ?_ zero
        rw [List.append_nil, ← hevents, List.append_nil]
        exact spelled
    · rw [if_neg wanted, if_neg wanted, List.append_nil]
      refine ⟨told, pending, hevents, ?_, fun kept hkept => ?_⟩
      · rw [sent_after, List.append_nil]
        exact spelled
      · obtain rfl := Option.some.inj hkept
        exact counted sub hsub

/-- A subscriber is pruned by a disconnected queue alone. -/
theorem subscriber_offer {watch : Watch} {sub : Subscriber} (event : Event) {answers : Sent × Sent}
    (hsub : watch.subscriber = some sub) (first : answers.1 ≠ .disconnected)
    (second : answers.2 ≠ .disconnected) : ((watch.offer event answers).subscriber).isSome := by
  have delivered (sent : List Event) (sub : Subscriber) :
      ((sub.deliver event answers.2 sent).1).isSome := by
    unfold Subscriber.deliver
    cases answer : answers.2 with
    | ok => rfl
    | full => rfl
    | disconnected => exact absurd answer second
  unfold Watch.offer
  rw [hsub]
  show ((sub.offer event answers.1 answers.2).1).isSome
  unfold Subscriber.offer
  split
  · split
    · cases answer : answers.1 with
      | ok => exact delivered _ _
      | full => rfl
      | disconnected => exact absurd answer first
    · exact delivered _ _
  · rfl

theorem sent_receive (watch : Watch) : watch.receive.sent = watch.sent := by
  rw [sent, receive, List.append_assoc, List.take_one, sent]
  cases watch.queue with
  | nil => rfl
  | cons event queue => rfl

theorem Follows.receive {filter : Option (List Bytes)} {events : List Event} {watch : Watch}
    (h : watch.Follows filter events) : watch.receive.Follows filter events := by
  obtain ⟨told, pending, hevents, spelled, counted⟩ := h.accounts
  exact ⟨h.filtered, told, pending, hevents, watch.sent_receive ▸ spelled, counted⟩

end Watch

/-! ## Runs -/

def eventsOf (acts : List Act) : List Event := acts.filterMap Act.event

/-- The queue of watcher `i` is there for every broadcast. -/
def Connected (i : Nat) (acts : List Act) : Prop :=
  ∀ event answers, .broadcast event answers ∈ acts →
    (answers i).1 ≠ .disconnected ∧ (answers i).2 ≠ .disconnected

theorem follows_step {watchers : List Watch} {i : Nat} {watch : Watch}
    {filter : Option (List Bytes)} {events : List Event} (act : Act)
    (hget : watchers[i]? = some watch) (h : watch.Follows filter events) :
    ∃ watch', (step watchers act)[i]? = some watch' ∧
      watch'.Follows filter (events ++ act.event.toList) ∧
      (Connected i [act] → watch.subscriber.isSome → watch'.subscriber.isSome) := by
  cases act with
  | subscribe filter' =>
    refine ⟨watch, ?_, ?_, fun _ => id⟩
    · have hlt := (List.getElem?_eq_some_iff.1 hget).1
      rw [step, subscribe, List.getElem?_append_left hlt, hget]
    · show watch.Follows filter (events ++ [])
      rw [List.append_nil]
      exact h
  | broadcast event answers =>
    refine ⟨watch.offer event (answers i), ?_, h.offer event (answers i), fun connected kept => ?_⟩
    · rw [step, broadcast, List.getElem?_mapIdx, hget, Option.map_some]
    · obtain ⟨sub, hsub⟩ := Option.isSome_iff_exists.1 kept
      obtain ⟨first, second⟩ := connected event answers List.mem_cons_self
      exact watch.subscriber_offer event hsub first second
  | receive stream =>
    have same : events ++ (Act.receive stream).event.toList = events := List.append_nil _
    rw [same, step, List.getElem?_modify, hget]
    by_cases own : stream = i
    · exact ⟨watch.receive, by simp [own], h.receive, fun _ => id⟩
    · exact ⟨watch, by simp [own], h, fun _ => id⟩

theorem follows_run {watchers : List Watch} {i : Nat} {watch : Watch}
    {filter : Option (List Bytes)} {events : List Event} (acts : List Act)
    (hget : watchers[i]? = some watch) (h : watch.Follows filter events) :
    ∃ watch', (acts.foldl step watchers)[i]? = some watch' ∧
      watch'.Follows filter (events ++ eventsOf acts) ∧
      (Connected i acts → watch.subscriber.isSome → watch'.subscriber.isSome) := by
  induction acts generalizing watchers watch events with
  | nil =>
    refine ⟨watch, hget, ?_, fun _ => id⟩
    rw [eventsOf, List.filterMap_nil, List.append_nil]
    exact h
  | cons act acts ih =>
    obtain ⟨watch₁, hget₁, h₁, kept₁⟩ := follows_step act hget h
    obtain ⟨watch', hget', h', kept'⟩ := ih hget₁ h₁
    have split : events ++ eventsOf (act :: acts) = events ++ act.event.toList ++ eventsOf acts := by
      rw [eventsOf, List.filterMap_cons, List.append_assoc]
      cases act.event with
      | none => rfl
      | some event => rfl
    refine ⟨watch', hget', split ▸ h', fun connected kept => ?_⟩
    have now := kept₁ (fun event answers hmem =>
      connected event answers (List.mem_singleton.1 hmem ▸ List.mem_cons_self)) kept
    exact kept' (fun event answers hmem =>
      connected event answers (List.mem_cons_of_mem act hmem)) now

/-- A watcher misses nothing silently. Whatever happened before it subscribed, what it was sent
spells a beginning of the events its filter matches, every gap in it announced before the event that
follows it, and the skip count stands for the rest. It stays subscribed as long as its queue is
there. -/
theorem run_accounts (before after : List Act) (filter : Option (List Bytes)) :
    ∃ watch, (run (before ++ .subscribe filter :: after))[(run before).length]? = some watch ∧
      watch.Accounts Counts ((eventsOf after).filter (Event.isFor filter)) ∧
      (Connected (run before).length after → watch.subscriber.isSome) := by
  have subscribed : (step (run before) (.subscribe filter))[(run before).length]? =
      some { subscriber := some { filter, skipped := 0 } } := by
    rw [step, subscribe, List.getElem?_append_right le_rfl, Nat.sub_self]
    rfl
  have fresh : Watch.Follows filter [] { subscriber := some { filter, skipped := 0 } } := by
    refine ⟨fun sub hsub => ?_, [], [], rfl, .nil, fun sub hsub => ?_⟩
    · rw [← Option.some.inj hsub]
    · rw [← Option.some.inj hsub]
      exact counts_zero
  obtain ⟨watch, hget, h, kept⟩ := follows_run after subscribed fresh
  refine ⟨watch, ?_, h.accounts, fun connected => kept connected rfl⟩
  rw [run, List.foldl_append, List.foldl_cons]
  exact hget

/-! ## A count at its limit -/

def refused : Act := .broadcast (.change .cleared) fun _ => (.full, .full)

def accepted : Act := .broadcast (.change .cleared) fun _ => (.ok, .ok)

theorem step_refused (n : Nat) : step [{ subscriber := some { filter := none, skipped := n } }] refused =
    [{ subscriber := some { filter := none, skipped := satAdd n 1 } }] := by
  by_cases behind : 0 < n
  · simp [step, broadcast, refused, Watch.offer, Subscriber.offer, Event.isFor, behind, Subscriber.skip]
  · obtain rfl : n = 0 := by omega
    simp [step, broadcast, refused, Watch.offer, Subscriber.offer, Event.isFor,
      Subscriber.deliver, Subscriber.skip]

theorem run_refused (k : Nat) : (List.replicate k refused).foldl step
    [{ subscriber := some { filter := none, skipped := 0 } }] =
      [{ subscriber := some { filter := none, skipped := min k U64_MAX } }] := by
  induction k with
  | zero => rfl
  | succ k ih =>
    rw [List.replicate_succ', List.foldl_append, ih, List.foldl_cons, List.foldl_nil, step_refused]
    have saturated : satAdd (min k U64_MAX) 1 = min (k + 1) U64_MAX := by
      unfold satAdd
      omega
    rw [saturated]

/-- A count saturates. A queue that refuses `2 ^ 64` events announces one less. -/
theorem run_saturates : ¬ ∀ (before after : List Act) (filter : Option (List Bytes)),
    ∃ watch, (run (before ++ .subscribe filter :: after))[(run before).length]? = some watch ∧
      watch.Accounts (· = ·) ((eventsOf after).filter (Event.isFor filter)) := by
  intro exactly
  obtain ⟨k, hk⟩ : ∃ k, k = U64_MAX + 1 := ⟨_, rfl⟩
  obtain ⟨watch, hget, told, pending, hevents, spelled, counted⟩ :=
    exactly [] (List.replicate k refused ++ [accepted]) none
  have ran : run ([] ++ .subscribe none :: (List.replicate k refused ++ [accepted])) =
      [{ subscriber := some { filter := none, skipped := 0 },
         queue := [.lagged U64_MAX, .change .cleared] }] := by
    have limit : min k U64_MAX = U64_MAX := by omega
    have behind : 0 < U64_MAX := by decide
    rw [List.nil_append, run, List.foldl_cons, List.foldl_append,
      show step [] (.subscribe none) = [{ subscriber := some { filter := none, skipped := 0 } }] from rfl,
      run_refused, limit]
    simp [step, broadcast, accepted, Watch.offer, Subscriber.offer, Event.isFor, behind,
      Subscriber.deliver]
  rw [ran] at hget
  obtain rfl := Option.some.inj hget
  have none : pending = [] := List.eq_nil_of_length_eq_zero (counted _ rfl).symm
  have broadcasts : eventsOf (List.replicate k refused ++ [accepted]) =
      List.replicate (k + 1) (.change .cleared) := by
    rw [List.replicate_succ', eventsOf, List.filterMap_append]
    simp [refused, accepted, Act.event, List.filterMap_replicate]
  have wanted : (List.replicate (k + 1) (Event.change .cleared)).filter (Event.isFor .none) =
      List.replicate (k + 1) (.change .cleared) := List.filter_eq_self.2 fun _ _ => rfl
  rw [broadcasts, wanted, none, List.append_nil] at hevents
  have count : told.length = k + 1 := by rw [hevents, List.length_replicate]
  have changes : ∀ event ∈ told, event = .change .cleared := by
    rw [hevents]
    exact fun event hmem => List.eq_of_mem_replicate hmem
  cases spelled with
  | event rest => exact absurd (changes _ List.mem_cons_self) (by simp)
  | gap some reading rest =>
    cases rest with
    | event rest =>
      cases rest
      rw [List.length_append, ← reading, List.length_singleton] at count
      omega

end Watchers
end Crossbank
