import Mathlib

/-!
# Copies of a store that tell each other what they wrote

Any number of tabs keep a memory each over one store. A tab sends a commit, which lands or fails; a
commit that has landed is settled by its tab, which posts the news of it to every other tab; news
between two tabs arrives in the order it was posted, at any time.

* `World`, `Protocol`, `Act`, `Protocol.Step` : the tabs, what they do, and one step of them;
* `Reaches`, `Reaches.invariant` : the runs whose acts meet a condition, and induction over them;
* `World.Dated`, `Dated.step` : what is on its way is dated: news of a key is never newer than the
  last commit that landed on the key;
* `World.made`, `World.told` : a commit from end to end, and news delivered.

`World.landings`, `World.lastWrite` and `World.log` are kept for the statements: no tab sees them.
-/

namespace Async

/-- A commit that a tab has sent: what it is, and when it landed. -/
structure Flight (κ : Type) where
  commit : κ
  landed : Option Nat
  deriving DecidableEq

/-- News on its way to a tab, and when its commit landed. -/
structure Sent (ν : Type) where
  landed : Nat
  news : ν
  deriving DecidableEq

/-- What a tab has taken note of: that it opened, a commit of its own that it settled, or news that it
was delivered. Landings count the time. -/
inductive LogEntry (κ ν : Type) where
  | opened (landings : Nat)
  | made (landed : Nat) (commit : κ)
  | heard (sent : Sent ν)

/-- The tabs `ι`, with a memory `ρ` each, over a store `δ` of keys `K`. -/
structure World (ι K δ ρ κ ν : Type) where
  store : δ
  landings : Nat
  lastWrite : K → Option (ι × Nat)
  tabs : ι → ρ
  flights : ι → Nat → Option (Flight κ)
  mail : ι → ι → List (Sent ν)
  log : ι → List (LogEntry κ ν)

/-- What a tab does. `alone` is what it may do in memory, where it may read the store, `may` the commits
it may send, each over its memory and the commits it has under way. -/
structure Protocol (K δ ρ κ ν : Type) where
  alone : δ → ρ → (Nat → Option (Flight κ)) → ρ → Prop
  may : ρ → (Nat → Option (Flight κ)) → κ → Prop
  send : κ → ρ → ρ
  land : κ → δ → δ
  writes : κ → K → Bool
  fail : κ → ρ → ρ
  settle : κ → ρ → ρ
  news : κ → Option ν
  hear : ν → ρ → ρ
  opens : δ → ρ → Prop

/-- One act: of a tab in memory, of one of its commits, of the news from one tab to another, or the
tab starting over. -/
inductive Act (ι ρ κ : Type) where
  | alone (i : ι) (memory : ρ)
  | send (i : ι) (n : Nat) (commit : κ)
  | land (i : ι) (n : Nat)
  | fail (i : ι) (n : Nat)
  | settle (i : ι) (n : Nat)
  | deliver (sender receiver : ι)
  | reload (i : ι) (memory : ρ)

section
variable {ι K δ ρ κ ν : Type} [DecidableEq ι]

namespace World

def setTab (i : ι) (memory : ρ) (w : World ι K δ ρ κ ν) : World ι K δ ρ κ ν :=
  { w with tabs := fun j => if j = i then memory else w.tabs j }

def setFlight (i : ι) (n : Nat) (flight : Option (Flight κ)) (w : World ι K δ ρ κ ν) :
    World ι K δ ρ κ ν :=
  { w with flights := fun j m => if j = i ∧ m = n then flight else w.flights j m }

def setMail (a b : ι) (news : List (Sent ν)) (w : World ι K δ ρ κ ν) : World ι K δ ρ κ ν :=
  { w with mail := fun c d => if c = a ∧ d = b then news else w.mail c d }

def post (i : ι) (news : Option (Sent ν)) (w : World ι K δ ρ κ ν) : World ι K δ ρ κ ν :=
  { w with mail := fun a b => if a = i ∧ b ≠ i then w.mail a b ++ news.toList else w.mail a b }

def note (i : ι) (entry : LogEntry κ ν) (w : World ι K δ ρ κ ν) : World ι K δ ρ κ ν :=
  { w with log := fun j => if j = i then w.log j ++ [entry] else w.log j }

/-- A commit lands, and is the last on the keys it writes. -/
def land (P : Protocol K δ ρ κ ν) (i : ι) (commit : κ) (w : World ι K δ ρ κ ν) : World ι K δ ρ κ ν :=
  { w with
    store := P.land commit w.store
    landings := w.landings + 1
    lastWrite := fun k => if P.writes commit k then some (i, w.landings) else w.lastWrite k }

/-- The tab starts over: what it had under way and what was on its way to it are gone. -/
def restart (i : ι) (memory : ρ) (w : World ι K δ ρ κ ν) : World ι K δ ρ κ ν :=
  { w with
    tabs := fun j => if j = i then memory else w.tabs j
    flights := fun j m => if j = i then none else w.flights j m
    mail := fun a b => if b = i then [] else w.mail a b
    log := fun j => if j = i then [.opened w.landings] else w.log j }

end World

def Protocol.Step (P : Protocol K δ ρ κ ν) (w : World ι K δ ρ κ ν) :
    Act ι ρ κ → World ι K δ ρ κ ν → Prop
  | .alone i memory, w' => P.alone w.store (w.tabs i) (w.flights i) memory ∧ w' = w.setTab i memory
  | .send i n commit, w' => w.flights i n = none ∧ P.may (w.tabs i) (w.flights i) commit ∧
      w' = (w.setTab i (P.send commit (w.tabs i))).setFlight i n (some ⟨commit, none⟩)
  | .land i n, w' => ∃ commit, w.flights i n = some ⟨commit, none⟩ ∧
      w' = (w.land P i commit).setFlight i n (some ⟨commit, some w.landings⟩)
  | .fail i n, w' => ∃ commit, w.flights i n = some ⟨commit, none⟩ ∧
      w' = (w.setTab i (P.fail commit (w.tabs i))).setFlight i n none
  | .settle i n, w' => ∃ commit at_, w.flights i n = some ⟨commit, some at_⟩ ∧
      w' = (((w.setTab i (P.settle commit (w.tabs i))).setFlight i n none).post i
        ((P.news commit).map (⟨at_, ·⟩))).note i (.made at_ commit)
  | .deliver a b, w' => ∃ sent rest, w.mail a b = sent :: rest ∧
      w' = ((w.setTab b (P.hear sent.news (w.tabs b))).setMail a b rest).note b (.heard sent)
  | .reload i memory, w' => P.opens w.store memory ∧ w' = w.restart i memory

/-- What is reached from a world by acts that meet a condition where they happen. -/
inductive Reaches (P : Protocol K δ ρ κ ν) (ok : World ι K δ ρ κ ν → Act ι ρ κ → Prop)
    (start : World ι K δ ρ κ ν) : World ι K δ ρ κ ν → Prop
  | start : Reaches P ok start start
  | step {w w' : World ι K δ ρ κ ν} {act : Act ι ρ κ} (before : Reaches P ok start w)
      (meets : ok w act) (next : P.Step w act w') : Reaches P ok start w'

theorem Reaches.invariant {P : Protocol K δ ρ κ ν} {ok : World ι K δ ρ κ ν → Act ι ρ κ → Prop}
    {start w : World ι K δ ρ κ ν} {I : World ι K δ ρ κ ν → Prop} (run : Reaches P ok start w)
    (first : I start)
    (keep : ∀ v act v', I v → ok v act → P.Step v act v' → I v') : I w := by
  induction run with
  | start => exact first
  | step before meets next ih => exact keep _ _ _ ih meets next

def World.Quiet (w : World ι K δ ρ κ ν) : Prop :=
  (∀ i n, w.flights i n = none) ∧ ∀ a b, w.mail a b = []

/-! ## What is on its way is dated -/

namespace World
variable {w w' : World ι K δ ρ κ ν} {i j : ι} {n : Nat} {k : K} {a b : ι} {sent : Sent ν}

theorem tabs_setTab (i : ι) (memory : ρ) (w : World ι K δ ρ κ ν) : (w.setTab i memory).tabs i = memory :=
  if_pos rfl

theorem tabs_setTab_of_ne (other : j ≠ i) (memory : ρ) (w : World ι K δ ρ κ ν) :
    (w.setTab i memory).tabs j = w.tabs j := if_neg other

theorem flights_setFlight (i : ι) (n : Nat) (flight : Option (Flight κ)) (w : World ι K δ ρ κ ν) :
    (w.setFlight i n flight).flights i = fun m => if m = n then flight else w.flights i m := by
  funext m
  by_cases hm : m = n
  · rw [if_pos hm]
    exact if_pos ⟨rfl, hm⟩
  · rw [if_neg hm]
    exact if_neg fun h => hm h.2

theorem flights_setFlight_of_ne (other : j ≠ i) (n : Nat) (flight : Option (Flight κ))
    (w : World ι K δ ρ κ ν) : (w.setFlight i n flight).flights j = w.flights j :=
  funext fun _ => if_neg fun h => other h.1

theorem mem_note {entry added : LogEntry κ ν} :
    entry ∈ (w.note i added).log j ↔ entry ∈ w.log j ∨ (j = i ∧ entry = added) := by
  unfold note
  dsimp only
  by_cases h : j = i
  · rw [if_pos h, List.mem_append, List.mem_singleton]
    exact or_congr_right ⟨fun he => ⟨h, he⟩, And.right⟩
  · rw [if_neg h]
    exact ⟨.inl, fun he => he.resolve_right fun hr => h hr.1⟩

theorem mem_post {news : Option (Sent ν)} :
    sent ∈ (w.post i news).mail a b ↔ sent ∈ w.mail a b ∨ (a = i ∧ b ≠ i ∧ news = some sent) := by
  unfold post
  dsimp only
  by_cases h : a = i ∧ b ≠ i
  · rw [if_pos h, List.mem_append, Option.mem_toList]
    exact or_congr_right ⟨fun hs => ⟨h.1, h.2, hs⟩, fun hs => hs.2.2⟩
  · rw [if_neg h]
    exact ⟨.inl, fun hs => hs.resolve_right fun hr => h ⟨hr.1, hr.2.1⟩⟩

theorem mem_setMail {c d : ι} {rest : List (Sent ν)} (first : w.mail a b = sent :: rest)
    {s : Sent ν} (h : s ∈ (w.setMail a b rest).mail c d) : s ∈ w.mail c d := by
  unfold setMail at h
  dsimp only at h
  split at h
  · next heq =>
    obtain ⟨rfl, rfl⟩ := heq
    rw [first]
    exact List.mem_cons_of_mem _ h
  · exact h

/-- The last commit on the key landed then or later, and then only if the tab itself sent it. -/
def Since (w : World ι K δ ρ κ ν) (k : K) (i : ι) (t : Nat) : Prop :=
  ∃ j t', w.lastWrite k = some (j, t') ∧ t ≤ t' ∧ (t = t' → j = i)

omit [DecidableEq ι] in
theorem Since.land {P : Protocol K δ ρ κ ν} {t : Nat} {commit : κ} (h : w.Since k i t)
    (before : t < w.landings) (j : ι) : (w.land P j commit).Since k i t := by
  obtain ⟨j', t', hlast, hle, hsame⟩ := h
  unfold Since World.land
  dsimp only
  split
  · exact ⟨j, w.landings, rfl, before.le, fun heq => absurd heq (Nat.ne_of_lt before)⟩
  · exact ⟨j', t', hlast, hle, hsame⟩

omit [DecidableEq ι] in
/-- News that another tab sent is older than the last commit of the tab itself. -/
theorem Since.lt {t t' : Nat} (h : w.Since k a t) (last : w.lastWrite k = some (b, t'))
    (other : a ≠ b) : t < t' := by
  obtain ⟨j, t₀, hlast, hle, hsame⟩ := h
  rw [hlast] at last
  obtain ⟨rfl, rfl⟩ := Prod.mk.inj (Option.some.inj last)
  rcases Nat.lt_or_eq_of_le hle with hlt | heq
  · exact hlt
  · exact absurd (hsame heq).symm other

/-- What is on its way landed before, in an order of its own, and no later than the last commit on
what it tells of. -/
structure Dated (P : Protocol K δ ρ κ ν) (tells : ν → K → Bool) (w : World ι K δ ρ κ ν) : Prop where
  self : ∀ a, w.mail a a = []
  mail : ∀ a b, ∀ sent ∈ w.mail a b,
    sent.landed < w.landings ∧ ∀ k, tells sent.news k = true → w.Since k a sent.landed
  flights : ∀ i n commit t, w.flights i n = some ⟨commit, some t⟩ →
    t < w.landings ∧ ∀ k, P.writes commit k = true → w.Since k i t
  apart : ∀ i n j m t commit commit', w.flights i n = some ⟨commit, some t⟩ →
    w.flights j m = some ⟨commit', some t⟩ → i = j ∧ n = m
  honest : ∀ i n flight, w.flights i n = some flight → ∀ news, P.news flight.commit = some news →
    ∀ k, tells news k = true → P.writes flight.commit k = true
  last : ∀ k j t, w.lastWrite k = some (j, t) → t < w.landings

section
variable {P : Protocol K δ ρ κ ν} {tells : ν → K → Bool}

/-- What a tab does in memory alone dates nothing. -/
theorem Dated.setTab (h : w.Dated P tells) (memory : ρ) : (w.setTab i memory).Dated P tells :=
  ⟨h.self, h.mail, h.flights, h.apart, h.honest, h.last⟩

theorem Dated.setFlight (h : w.Dated P tells) {flight : Option (Flight κ)}
    (unlanded : ∀ f, flight = some f → f.landed = none ∧ ∀ news, P.news f.commit = some news →
      ∀ k, tells news k = true → P.writes f.commit k = true) :
    (w.setFlight i n flight).Dated P tells := by
  have old {j : ι} {m : Nat} {c : κ} {t : Nat}
      (hf : (w.setFlight i n flight).flights j m = some ⟨c, some t⟩) :
      w.flights j m = some ⟨c, some t⟩ := by
    unfold World.setFlight at hf
    dsimp only at hf
    split at hf
    · cases (unlanded _ hf).1
    · exact hf
  refine ⟨h.self, h.mail, fun j m c t hf => h.flights j m c t (old hf),
    fun j m j' m' t c c' hf hf' => h.apart j m j' m' t c c' (old hf) (old hf'), ?_, h.last⟩
  intro j m f hf
  unfold World.setFlight at hf
  dsimp only at hf
  split at hf
  · exact (unlanded f hf).2
  · exact h.honest j m f hf

theorem Dated.land (h : w.Dated P tells) {commit : κ} (sent : w.flights i n = some ⟨commit, none⟩) :
    ((w.land P i commit).setFlight i n (some ⟨commit, some w.landings⟩)).Dated P tells := by
  have split_flight {j : ι} {m : Nat} {c : κ} {t : Nat}
      (hf : ((w.land P i commit).setFlight i n (some ⟨commit, some w.landings⟩)).flights j m =
        some ⟨c, some t⟩) :
      (j = i ∧ m = n ∧ c = commit ∧ t = w.landings) ∨ w.flights j m = some ⟨c, some t⟩ := by
    unfold World.setFlight at hf
    dsimp only at hf
    split at hf
    · next heq =>
      obtain ⟨rfl, ht⟩ := Flight.mk.inj (Option.some.inj hf)
      exact .inl ⟨heq.1, heq.2, rfl, (Option.some.inj ht).symm⟩
    · exact .inr hf
  have older {j : ι} {m : Nat} {c : κ} (hf : w.flights j m = some ⟨c, some w.landings⟩) : False :=
    Nat.lt_irrefl _ (h.flights j m c _ hf).1
  refine ⟨h.self, fun a b s hs => ?_, fun j m c t hf => ?_, fun j m j' m' t c c' hf hf' => ?_,
    fun j m f hf => ?_, fun k j t hlast => ?_⟩
  · obtain ⟨hlt, hsince⟩ := h.mail a b s hs
    exact ⟨Nat.lt_succ_of_lt hlt, fun k hk => (hsince k hk).land hlt i⟩
  · rcases split_flight hf with ⟨rfl, rfl, rfl, rfl⟩ | hf
    · refine ⟨Nat.lt_succ_self _, fun k hk => ⟨j, w.landings, ?_, le_refl _, fun _ => rfl⟩⟩
      exact if_pos hk
    · obtain ⟨hlt, hsince⟩ := h.flights j m c t hf
      exact ⟨Nat.lt_succ_of_lt hlt, fun k hk => (hsince k hk).land hlt i⟩
  · rcases split_flight hf with ⟨rfl, rfl, -, rfl⟩ | hold
    · rcases split_flight hf' with ⟨rfl, rfl, -, -⟩ | hold'
      · exact ⟨rfl, rfl⟩
      · exact (older hold').elim
    · rcases split_flight hf' with ⟨rfl, rfl, -, rfl⟩ | hold'
      · exact (older hold).elim
      · exact h.apart j m j' m' t c c' hold hold'
  · unfold World.setFlight at hf
    dsimp only at hf
    split at hf
    · obtain rfl := Option.some.inj hf
      exact h.honest i n ⟨commit, none⟩ sent
    · exact h.honest j m f hf
  · change (if P.writes commit k then some (i, w.landings) else w.lastWrite k) = some (j, t) at hlast
    split at hlast
    · obtain ⟨-, rfl⟩ := Prod.mk.inj (Option.some.inj hlast)
      exact Nat.lt_succ_self _
    · exact Nat.lt_succ_of_lt (h.last k j t hlast)

/-- News that is posted is dated as its commit. -/
theorem Dated.post (h : w.Dated P tells) {news : Option (Sent ν)}
    (dated : ∀ s, news = some s → s.landed < w.landings ∧
      ∀ k, tells s.news k = true → w.Since k i s.landed) : (w.post i news).Dated P tells := by
  refine ⟨fun a => ?_, fun a b s hs => ?_, h.flights, h.apart, h.honest, h.last⟩
  · change (if a = i ∧ a ≠ i then w.mail a a ++ news.toList else w.mail a a) = []
    rw [if_neg fun hc => hc.2 hc.1]
    exact h.self a
  · rcases mem_post.1 hs with hs | ⟨rfl, -, hs⟩
    · exact h.mail a b s hs
    · exact dated s hs

theorem Dated.setMail (h : w.Dated P tells) {rest : List (Sent ν)}
    (first : w.mail a b = sent :: rest) : (w.setMail a b rest).Dated P tells := by
  refine ⟨fun c => ?_, fun c d s hs => h.mail c d s (mem_setMail first hs), h.flights, h.apart,
    h.honest, h.last⟩
  change (if c = a ∧ c = b then rest else w.mail c c) = []
  split
  · next heq =>
    obtain ⟨rfl, rfl⟩ := heq
    rw [h.self c] at first
    cases first
  · exact h.self c

theorem Dated.note (h : w.Dated P tells) (entry : LogEntry κ ν) : (w.note i entry).Dated P tells :=
  ⟨h.self, h.mail, h.flights, h.apart, h.honest, h.last⟩

theorem Dated.restart (h : w.Dated P tells) (memory : ρ) : (w.restart i memory).Dated P tells := by
  have old {j : ι} {m : Nat} {f : Flight κ} (hf : (w.restart i memory).flights j m = some f) :
      w.flights j m = some f := by
    unfold World.restart at hf
    dsimp only at hf
    split at hf
    · cases hf
    · exact hf
  refine ⟨fun a => ?_, fun a b s hs => h.mail a b s ?_, fun j m c t hf => h.flights j m c t (old hf),
    fun j m j' m' t c c' hf hf' => h.apart j m j' m' t c c' (old hf) (old hf'),
    fun j m f hf => h.honest j m f (old hf), h.last⟩
  · change (if a = i then [] else w.mail a a) = []
    split
    · rfl
    · exact h.self a
  · unfold World.restart at hs
    dsimp only at hs
    split at hs
    · exact absurd hs List.not_mem_nil
    · exact hs

theorem Dated.step {act : Act ι ρ κ} (h : w.Dated P tells)
    (honest : ∀ memory flights commit, P.may memory flights commit →
      ∀ news, P.news commit = some news → ∀ k, tells news k = true → P.writes commit k = true)
    (next : P.Step w act w') : w'.Dated P tells := by
  cases act with
  | alone i memory =>
    obtain ⟨-, rfl⟩ := next
    exact h.setTab memory
  | send i n commit =>
    obtain ⟨-, may, rfl⟩ := next
    refine (h.setTab _).setFlight fun f hf => ?_
    obtain rfl := Option.some.inj hf
    exact ⟨rfl, honest _ _ commit may⟩
  | land i n =>
    obtain ⟨commit, sent, rfl⟩ := next
    exact h.land sent
  | fail i n =>
    obtain ⟨commit, -, rfl⟩ := next
    exact (h.setTab _).setFlight fun f hf => by cases hf
  | settle i n =>
    obtain ⟨commit, t, landed, rfl⟩ := next
    obtain ⟨hlt, hsince⟩ := h.flights i n commit t landed
    have hgone : (((w.setTab i (P.settle commit (w.tabs i))).setFlight i n none)).Dated P tells :=
      (h.setTab _).setFlight fun f hf => by cases hf
    refine Dated.note (hgone.post fun s hs => ?_) _
    obtain ⟨news, hnews, rfl⟩ := Option.map_eq_some_iff.1 hs
    exact ⟨hlt, fun k hk => hsince k (h.honest i n _ landed news hnews k hk)⟩
  | deliver a b =>
    obtain ⟨sent, rest, first, rfl⟩ := next
    exact ((h.setTab _).setMail first).note _
  | reload i memory =>
    obtain ⟨-, rfl⟩ := next
    exact h.restart memory

end

/-! ## A commit from end to end -/

section
variable (P : Protocol K δ ρ κ ν) (i a b : ι) (commit : κ) (w : World ι K δ ρ κ ν)

def sending : World ι K δ ρ κ ν :=
  (w.setTab i (P.send commit (w.tabs i))).setFlight i 0 (some ⟨commit, none⟩)

def landing : World ι K δ ρ κ ν :=
  ((w.sending P i commit).land P i commit).setFlight i 0 (some ⟨commit, some w.landings⟩)

def made : World ι K δ ρ κ ν :=
  ((((w.landing P i commit).setTab i (P.settle commit ((w.landing P i commit).tabs i))).setFlight i 0
    none).post i ((P.news commit).map (⟨w.landings, ·⟩))).note i (.made w.landings commit)

/-- The first news from one tab to another is delivered. -/
def told : World ι K δ ρ κ ν :=
  match w.mail a b with
  | [] => w
  | sent :: rest => ((w.setTab b (P.hear sent.news (w.tabs b))).setMail a b rest).note b (.heard sent)

end

section
variable {P : Protocol K δ ρ κ ν} {commit : κ}

theorem flights_landing (i : ι) (w : World ι K δ ρ κ ν) :
    (w.landing P i commit).flights i 0 = some ⟨commit, some w.landings⟩ := if_pos ⟨rfl, rfl⟩

theorem mem_flights_landing {i j : ι} {n : Nat} {flight : Flight κ}
    (h : (w.landing P i commit).flights j n = some flight) :
    flight.commit = commit ∨ w.flights j n = some flight := by
  unfold landing sending setTab land setFlight at h
  dsimp only at h
  split at h
  · obtain rfl := Option.some.inj h
    exact .inl rfl
  · exact .inr h

theorem flights_made (free : w.flights i 0 = none) : (w.made P i commit).flights = w.flights := by
  funext j m
  unfold made landing sending note post setTab land setFlight
  dsimp only
  by_cases h : j = i ∧ m = 0
  · rw [if_pos h, h.1, h.2, free]
  · rw [if_neg h, if_neg h, if_neg h]

theorem flights_told (a b : ι) (w : World ι K δ ρ κ ν) : (w.told P a b).flights = w.flights := by
  unfold told
  cases w.mail a b <;> rfl

end
end World

section
variable {w start : World ι K δ ρ κ ν} {P : Protocol K δ ρ κ ν} {i a b : ι} {commit : κ}
  {ok : World ι K δ ρ κ ν → Act ι ρ κ → Prop}

theorem Reaches.made (run : Reaches P ok start w) (free : w.flights i 0 = none)
    (may : P.may (w.tabs i) (w.flights i) commit) (send : ok w (.send i 0 commit))
    (land : ok (w.sending P i commit) (.land i 0)) (settle : ok (w.landing P i commit) (.settle i 0)) :
    Reaches P ok start (w.made P i commit) := by
  have hsent : Reaches P ok start (w.sending P i commit) := run.step send ⟨free, may, rfl⟩
  have hlanded : Reaches P ok start (w.landing P i commit) :=
    hsent.step land ⟨commit, if_pos ⟨rfl, rfl⟩, rfl⟩
  exact hlanded.step settle ⟨commit, w.landings, World.flights_landing i w, rfl⟩

theorem Reaches.told (run : Reaches P ok start w) (deliver : ok w (.deliver a b)) :
    Reaches P ok start (w.told P a b) := by
  unfold World.told
  cases hmail : w.mail a b with
  | nil => exact run
  | cons sent rest => exact run.step deliver ⟨sent, rest, hmail, rfl⟩

end
end
end Async
