/-
The workers of a run, and the barrier that holds them together.

A run of a crew is done by workers who all go through the same loop. The leader decides
about the next step and writes its time into a cell. Then all wait for each other, read
the cell, and leave if it is empty; otherwise they do the three duties of a step and wait
for each other after each of them. A duty is not begun once there was a failure, and a
worker who fails makes a note of it and goes on to wait: nobody is left behind.

Here that loop is taken apart into program points, and `Move` is one move of one worker.
What is done between the barriers is a parameter, the `Trade`: every turn of a duty and
every decision of the leader may come to its end, or fail with a refusal or a fault. The
barrier is modelled as it works, with the number of those who have arrived and a generation
that changes when all have.

`Hall.Ordered` is the invariant that carries everything: nobody is more than one barrier
behind, and where a worker is agrees with the number of barriers that were passed. From it
come progress (`Hall.Ordered.progress`), and that all who leave have passed equally many
barriers (`Hall.Ordered.passed_left`).
-/
import DiscreteEvent.Flat.Crew
import Mathlib.Data.List.Count

set_option autoImplicit false

namespace DiscreteEvent

/-! ## The loop of a worker -/

/-- What all workers do in a step, each a part of it. -/
inductive Duty
  | collect
  | route
  | advance
deriving DecidableEq

/-- **The places where a worker waits for the others**: before the cell is read, and after each
duty. -/
inductive Gate
  | start
  | after (duty : Duty)
deriving DecidableEq

/-- How many gates of a round come before a duty. -/
def Duty.number : Duty → Nat
  | collect => 1
  | route => 2
  | advance => 3

/-- How many gates of a round come before a gate. -/
def Gate.number : Gate → Nat
  | start => 0
  | after duty => duty.number

theorem Duty.number_inj {x y : Duty} (h : x.number = y.number) : x = y := by
  cases x <;> cases y <;> first | rfl | exact absurd h (by decide)

/-- **Where a worker is in its loop.** `κ` is what is left to do of a duty. -/
inductive Point (κ : Type)
  /-- The leader is about to close the step. -/
  | report
  /-- The leader is about to look whether there was a failure. -/
  | check
  /-- The leader is about to tell the supervisor that the step is done. -/
  | complete
  /-- The leader is about to ask the supervisor about the next step. -/
  | ask
  /-- The leader is about to write the time of the next step into the cell. -/
  | publish (step : Option Instant)
  /-- The worker is about to arrive at a gate. -/
  | arrive (gate : Gate)
  /-- The worker waits, since the barrier was in this generation. -/
  | wait (gate : Gate) (generation : Nat)
  /-- The worker is about to read the cell. -/
  | read
  /-- The worker is about to begin a duty, unless there was a failure. -/
  | enter (duty : Duty)
  /-- The worker does a duty. -/
  | work (duty : Duty) (rest : κ)
  /-- The worker has failed, in a duty or as the leader, and is about to make a note of it. -/
  | caught (stop : Stop) (duty : Option Duty)
  /-- The worker has left the loop. -/
  | left

/-- A worker: where it is, how many barriers it has passed, and the time it has read. -/
structure Worker (κ : Type) where
  point : Point κ
  passed : Nat
  time : Instant

/-- **What the workers share**: the data they work on, the cell for the time of the step, the
record of failures, and the barrier. -/
structure Site (δ : Type) where
  data : δ
  cell : Option Instant
  failure : Failure
  /-- How many workers wait at the barrier. -/
  arrived : Nat
  /-- How often all workers have met. -/
  generation : Nat

/-- All workers, the first of whom leads, and what they share. -/
structure Hall (δ κ : Type) where
  site : Site δ
  workers : List (Worker κ)

/-- The beginning of a run whose first step is at `t`. -/
def Hall.begin {δ κ : Type} (others : Nat) (data : δ) (t : Instant) : Hall δ κ where
  site := { data := data, cell := none, failure := {}, arrived := 0, generation := 0 }
  workers := ⟨.publish (some t), 0, t⟩ :: List.replicate others ⟨.arrive .start, 0, t⟩

/-! ## What is done between the barriers -/

/-- How a turn leaves a worker: within the duty, or at its end, which may be a failure. -/
inductive Turn (κ : Type)
  | more (rest : κ)
  | ended (stop : Option Stop)

/-- **What may happen between the barriers.** Every call has some result, and it may be a
failure. -/
structure Trade (δ κ : Type) where
  /-- What a worker has to do for a duty. -/
  script : Duty → Instant → Nat → δ → κ
  /-- A turn of a worker. -/
  turn : Nat → κ → δ → δ → Turn κ → Prop
  /-- The leader closes a step. -/
  report : Instant → δ → δ → Option Stop → Prop
  /-- The supervisor is told that a step is done. -/
  completed : Instant → δ → δ → Option Stop → Prop
  /-- The supervisor is asked about the next step, and answers with its time or not at all. -/
  proceed : δ → δ → Option Stop → Option Instant → Prop
  turn_total : ∀ worker rest d, ∃ d' r, turn worker rest d d' r
  report_total : ∀ t d, ∃ d' stop, report t d d' stop
  completed_total : ∀ t d, ∃ d' stop, completed t d d' stop
  proceed_total : ∀ d, ∃ d' stop answer, proceed d d' stop answer

/-- The kinds of things that are done between the barriers. -/
inductive Deed.Kind
  | report
  | completed
  | proceed
  | duty (duty : Duty)
  /-- A failure is noted. -/
  | capture
deriving DecidableEq

/-- **What was done**: by whom, after how many barriers, and how it failed, if it did. When a
failure is noted, `stop` is what is noted. -/
structure Deed where
  worker : Nat
  passed : Nat
  kind : Deed.Kind
  stop : Option Stop

/-- The round in which something was done. -/
def Deed.round (d : Deed) : Nat := d.passed / 4

/-- How something failed that was done. -/
def Deed.failure? (d : Deed) : Option Stop := if d.kind = .capture then none else d.stop

/-- The failure that is noted. -/
def Deed.capture? (d : Deed) : Option Stop := if d.kind = .capture then d.stop else none

/-! ## Moves -/

section

variable {δ κ : Type}

/-- Where a worker goes on behind a gate. -/
def Gate.next (worker : Nat) : Gate → Point κ
  | start => .read
  | after .collect => .enter .route
  | after .route => .enter .advance
  | after .advance => if worker = 0 then .report else .arrive .start

/-- Where a worker goes on after a call, which may have failed. -/
def Point.unless (stop : Option Stop) (duty : Option Duty) (next : Point κ) : Point κ :=
  match stop with
  | none => next
  | some stop => .caught stop duty

/-- Where a worker goes on when it has noted a failure: the leader, who failed at a decision, to
the end of the run, and whoever failed in a duty to the end of that. -/
def Point.recovered : Option Duty → Point κ
  | none => .publish none
  | some duty => .arrive (.after duty)

/-- **One move of worker `k`** among `n`, with what it does between the barriers, if anything. -/
inductive Act (trade : Trade δ κ) (n k : Nat) :
    Site δ → Worker κ → Option Deed → Site δ → Worker κ → Prop
  | report {s p t d stop} (h : trade.report t s.data d stop) :
      Act trade n k s ⟨.report, p, t⟩ (some ⟨k, p, .report, stop⟩) { s with data := d }
        ⟨.unless stop none .check, p, t⟩
  | check {s p t} :
      Act trade n k s ⟨.check, p, t⟩ none s
        ⟨if s.failure.isSet then .publish none else .complete, p, t⟩
  | complete {s p t d stop} (h : trade.completed t s.data d stop) :
      Act trade n k s ⟨.complete, p, t⟩ (some ⟨k, p, .completed, stop⟩) { s with data := d }
        ⟨.unless stop none .ask, p, t⟩
  | ask {s p t d stop answer} (h : trade.proceed s.data d stop answer) :
      Act trade n k s ⟨.ask, p, t⟩ (some ⟨k, p, .proceed, stop⟩) { s with data := d }
        ⟨.unless stop none (.publish answer), p, t⟩
  | publish {s p t step} :
      Act trade n k s ⟨.publish step, p, t⟩ none { s with cell := step } ⟨.arrive .start, p, t⟩
  /-- A worker arrives at a gate before others. -/
  | arrive {s p t gate} (h : s.arrived + 1 < n) :
      Act trade n k s ⟨.arrive gate, p, t⟩ none { s with arrived := s.arrived + 1 }
        ⟨.wait gate s.generation, p, t⟩
  /-- The last worker arrives, and all are free to go on. -/
  | meet {s p t gate} (h : s.arrived + 1 = n) :
      Act trade n k s ⟨.arrive gate, p, t⟩ none
        { s with arrived := 0, generation := s.generation + 1 } ⟨gate.next k, p + 1, t⟩
  | resume {s p t gate g} (h : g ≠ s.generation) :
      Act trade n k s ⟨.wait gate g, p, t⟩ none s ⟨gate.next k, p + 1, t⟩
  | leave {s p t} (h : s.cell = none) : Act trade n k s ⟨.read, p, t⟩ none s ⟨.left, p, t⟩
  | read {s p t t'} (h : s.cell = some t') :
      Act trade n k s ⟨.read, p, t⟩ none s ⟨.enter .collect, p, t'⟩
  | skip {s p t duty} (h : s.failure.isSet = true) :
      Act trade n k s ⟨.enter duty, p, t⟩ none s ⟨.arrive (.after duty), p, t⟩
  | enter {s p t duty} (h : s.failure.isSet = false) :
      Act trade n k s ⟨.enter duty, p, t⟩ none s
        ⟨.work duty (trade.script duty t k s.data), p, t⟩
  | turn {s p t duty rest d rest'} (h : trade.turn k rest s.data d (.more rest')) :
      Act trade n k s ⟨.work duty rest, p, t⟩ (some ⟨k, p, .duty duty, none⟩)
        { s with data := d } ⟨.work duty rest', p, t⟩
  | finish {s p t duty rest d stop} (h : trade.turn k rest s.data d (.ended stop)) :
      Act trade n k s ⟨.work duty rest, p, t⟩ (some ⟨k, p, .duty duty, stop⟩)
        { s with data := d } ⟨.unless stop (some duty) (.arrive (.after duty)), p, t⟩
  /-- A worker makes a note of its failure. -/
  | note {s p t stop duty} :
      Act trade n k s ⟨.caught stop duty, p, t⟩ (some ⟨k, p, .capture, some stop⟩)
        { s with failure := s.failure.note stop } ⟨.recovered duty, p, t⟩

/-- **One move** of some worker. -/
inductive Move (trade : Trade δ κ) (h : Hall δ κ) : Option Deed → Hall δ κ → Prop
  | act {k w deed s w'} (hw : h.workers[k]? = some w)
      (ha : Act trade h.workers.length k h.site w deed s w') :
      Move trade h deed ⟨s, h.workers.set k w'⟩

/-- **Any number of moves** from a beginning, with all that was done on the way. -/
inductive Moves (trade : Trade δ κ) (h₀ : Hall δ κ) : List Deed → Hall δ κ → Prop
  | begin : Moves trade h₀ [] h₀
  | move {deeds deed h h'} (before : Moves trade h₀ deeds h) (last : Move trade h deed h') :
      Moves trade h₀ (deeds ++ deed.toList) h'

/-! ## The invariant -/

/-- Whether a worker waits for the others to arrive. -/
def Worker.waits (generation : Nat) (w : Worker κ) : Bool :=
  match w.point with
  | .wait _ g => g == generation
  | _ => false

/-- **A worker is where it should be**, after the barriers it has passed: it is at most one
behind the others, and that only while it has not noticed that all have arrived. -/
def Worker.InPlace (s : Site δ) (k : Nat) (w : Worker κ) : Prop :=
  match w.point with
  | .report | .check | .complete | .ask | .publish _ | .caught _ none =>
    k = 0 ∧ w.passed % 4 = 0 ∧ w.passed = s.generation
  | .arrive gate => w.passed % 4 = gate.number ∧ w.passed = s.generation ∧
      (gate = .after .collect → s.cell ≠ none)
  | .wait gate g => w.passed % 4 = gate.number ∧ g = w.passed ∧
      (w.passed = s.generation ∧ (gate = .after .collect → s.cell ≠ none) ∨
        w.passed + 1 = s.generation)
  | .read => w.passed % 4 = 1 ∧ w.passed = s.generation
  | .enter duty | .work duty _ | .caught _ (some duty) =>
    w.passed % 4 = duty.number ∧ w.passed = s.generation ∧ (duty = .collect → s.cell ≠ none)
  | .left => w.passed % 4 = 1 ∧ w.passed = s.generation ∧ s.cell = none

/-- **The workers keep together.** -/
structure Hall.Ordered (h : Hall δ κ) : Prop where
  arrived : h.site.arrived = h.workers.countP (Worker.waits h.site.generation)
  free : h.site.arrived < h.workers.length
  /-- From the second duty of a round on there is a time in the cell. -/
  cell : 2 ≤ h.site.generation % 4 → h.site.cell ≠ none
  each : ∀ (k : Nat) (w : Worker κ), h.workers[k]? = some w → w.InPlace h.site k

theorem Hall.ordered_begin (others : Nat) (data : δ) (t : Instant) :
    (begin others data t : Hall δ κ).Ordered where
  -- Nobody is waiting yet, and no time was written.
  arrived := by
    have hothers : (List.replicate others (⟨.arrive .start, 0, t⟩ : Worker κ)).countP
        (Worker.waits 0) = 0 := by
      rw [List.countP_eq_zero]
      intro w hw
      rw [List.eq_of_mem_replicate hw]
      exact Bool.false_ne_true
    exact hothers.symm
  free := Nat.zero_lt_succ _
  cell h := absurd h (show ¬ 2 ≤ 0 % 4 by decide)
  each k w hw := by
    cases k with
    | zero =>
        cases hw
        exact ⟨rfl, rfl, rfl⟩
    | succ k =>
        have hmem : w ∈ List.replicate others (⟨.arrive .start, 0, t⟩ : Worker κ) :=
          List.mem_of_getElem? hw
        rw [List.eq_of_mem_replicate hmem]
        exact ⟨rfl, rfl, nofun⟩

/-- A worker who is not waiting has passed all barriers that were passed. -/
theorem Worker.InPlace.passed_eq {s : Site δ} {k : Nat} {w : Worker κ} (h : w.InPlace s k)
    (hwait : ∀ gate g, w.point ≠ .wait gate g) : w.passed = s.generation := by
  unfold InPlace at h
  split at h
  case h_8 gate g hpoint => exact absurd hpoint (hwait gate g)
  case h_9 => exact h.2
  all_goals first | exact h.2.1 | exact h.2.2

/-- Nobody is more than one barrier behind. -/
theorem Worker.InPlace.passed_bounds {s : Site δ} {k : Nat} {w : Worker κ} (h : w.InPlace s k) :
    w.passed ≤ s.generation ∧ s.generation ≤ w.passed + 1 := by
  by_cases hwait : ∀ gate g, w.point ≠ .wait gate g
  · have := h.passed_eq hwait
    omega
  · simp only [ne_eq, not_forall, not_not] at hwait
    obtain ⟨gate, g, hpoint⟩ := hwait
    simp only [InPlace, hpoint] at h
    omega

/-- What a worker does is no matter of the data, nor of the failures. -/
theorem Worker.InPlace.of_same {s s' : Site δ} {k : Nat} {w : Worker κ} (h : w.InPlace s k)
    (hcell : s'.cell = s.cell) (hgeneration : s'.generation = s.generation) : w.InPlace s' k := by
  have hsame : w.InPlace s' k = w.InPlace s k := by
    rw [InPlace, InPlace, hcell, hgeneration]
  exact hsame ▸ h

/-- In a new round it is no matter what is in the cell: whoever depends on it has passed a number
of barriers that is none of a new round. -/
theorem Worker.InPlace.of_round {s : Site δ} {k : Nat} {w : Worker κ} (h : w.InPlace s k)
    (hround : s.generation % 4 = 0) (step : Option Instant) :
    w.InPlace { s with cell := step } k := by
  have hnot : ∀ {p n : Nat}, p % 4 = n → p = s.generation → n ≠ Duty.collect.number := by
    rintro p n rfl rfl hcollect
    rw [Duty.number] at hcollect
    omega
  obtain ⟨point, passed, time⟩ := w
  cases point with
  | arrive gate =>
      exact ⟨h.1, h.2.1, fun hgate => absurd (congrArg Gate.number hgate) (hnot h.1 h.2.1)⟩
  | wait gate g =>
      refine ⟨h.1, h.2.1, h.2.2.imp_left fun hsame => ⟨hsame.1, fun hgate => ?_⟩⟩
      exact absurd (congrArg Gate.number hgate) (hnot h.1 hsame.1)
  | enter duty =>
      exact ⟨h.1, h.2.1, fun hduty => absurd (congrArg Duty.number hduty) (hnot h.1 h.2.1)⟩
  | work duty rest =>
      exact ⟨h.1, h.2.1, fun hduty => absurd (congrArg Duty.number hduty) (hnot h.1 h.2.1)⟩
  | caught stop duty =>
      cases duty with
      | none => exact h
      | some duty =>
          exact ⟨h.1, h.2.1, fun hduty => absurd (congrArg Duty.number hduty) (hnot h.1 h.2.1)⟩
  | left => exact absurd rfl (hnot h.1 h.2.1)
  | _ => exact h

/-- Behind a gate a worker is in place again. -/
theorem Gate.inPlace_next {s : Site δ} {k p : Nat} {t : Instant} {gate : Gate}
    (hp : p % 4 = gate.number) (hgeneration : p + 1 = s.generation) :
    (⟨gate.next k, p + 1, t⟩ : Worker κ).InPlace s k := by
  cases gate with
  | start =>
      simp only [number] at hp
      exact ⟨by show (p + 1) % 4 = 1; omega, hgeneration⟩
  | after duty =>
      cases duty with
      | collect =>
          simp only [number, Duty.number] at hp
          exact ⟨by show (p + 1) % 4 = 2; omega, hgeneration, nofun⟩
      | route =>
          simp only [number, Duty.number] at hp
          exact ⟨by show (p + 1) % 4 = 3; omega, hgeneration, nofun⟩
      | advance =>
          simp only [number, Duty.number] at hp
          rw [next]
          by_cases hk : k = 0
          · rw [if_pos hk]
            exact ⟨hk, by show (p + 1) % 4 = 0; omega, hgeneration⟩
          · rw [if_neg hk]
            exact ⟨by show (p + 1) % 4 = 0; omega, hgeneration, nofun⟩

/-- Behind a gate a worker neither waits nor has it failed, and nothing is decided or done
there. -/
theorem Gate.next_cases (gate : Gate) (k : Nat) :
    (gate.next k : Point κ) = .read ∨ (∃ duty, (gate.next k : Point κ) = .enter duty) ∨
      (gate.next k : Point κ) = .report ∨ (gate.next k : Point κ) = .arrive .start := by
  cases gate with
  | start => exact .inl rfl
  | after duty =>
      cases duty with
      | collect => exact .inr (.inl ⟨_, rfl⟩)
      | route => exact .inr (.inl ⟨_, rfl⟩)
      | advance =>
          by_cases hk : k = 0
          · exact .inr (.inr (.inl (if_pos hk)))
          · exact .inr (.inr (.inr (if_neg hk)))

theorem Gate.waits_next (gate : Gate) (k p g : Nat) (t : Instant) :
    (⟨gate.next k, p, t⟩ : Worker κ).waits g = false := by
  rcases gate.next_cases (κ := κ) k with h | ⟨duty, h⟩ | h | h <;> rw [h] <;> rfl

/-- What holds of the new entry and of all others holds of the list in which one was replaced. -/
theorem of_getElem?_set {α : Type} {P : Nat → α → Prop} {xs : List α} {k : Nat} {x : α}
    (self : P k x) (others : ∀ (j : Nat) (y : α), j ≠ k → xs[j]? = some y → P j y) {j : Nat}
    {y : α} (h : (xs.set k x)[j]? = some y) : P j y := by
  rw [List.getElem?_set] at h
  split at h
  · rename_i hkj
    subst hkj
    split at h
    · exact Option.some.inj h ▸ self
    · cases h
  · rename_i hkj
    exact others j y (Ne.symm hkj) h

/-- If all entries but one are counted, each of the others is. -/
theorem of_countP_eq {α : Type} {P : α → Bool} {x : α} (hx : P x = false) {xs : List α} :
    ∀ {k : Nat}, xs[k]? = some x → xs.countP P + 1 = xs.length →
      ∀ {j : Nat} {y : α}, xs[j]? = some y → j ≠ k → P y = true := by
  induction xs with
  | nil => exact fun hk => nomatch hk
  | cons z xs ih =>
      intro k hk hcount j y hj hjk
      rw [List.countP_cons, List.length_cons] at hcount
      have hle := List.countP_le_length (p := P) (l := xs)
      cases k with
      | zero =>
          -- The one that is not counted comes first, so all behind it are.
          cases hk
          rw [hx] at hcount
          simp only [Bool.false_eq_true, if_false] at hcount
          cases j with
          | zero => exact absurd rfl hjk
          | succ j =>
              have hall : xs.countP P = xs.length := by omega
              exact List.countP_eq_length.mp hall y (List.mem_of_getElem? hj)
      | succ k =>
          have hlt : xs.countP P < xs.length := by
            refine Nat.lt_of_le_of_ne hle fun heq => ?_
            rw [List.countP_eq_length.mp heq x (List.mem_of_getElem? hk)] at hx
            cases hx
          have hz : P z = true := by
            by_contra hz
            rw [if_neg hz] at hcount
            omega
          cases j with
          | zero =>
              cases hj
              exact hz
          | succ j =>
              rw [if_pos hz] at hcount
              exact ih hk (by omega) hj (by omega)

/-! ## Every move keeps the invariant -/

namespace Hall.Ordered

variable {h : Hall δ κ} {k : Nat} {w w' : Worker κ} {s : Site δ}

/-- What a move of worker `k` has to keep. -/
theorem set
    (arrived : s.arrived = (h.workers.set k w').countP (Worker.waits s.generation))
    (free : s.arrived < h.workers.length) (cell : 2 ≤ s.generation % 4 → s.cell ≠ none)
    (self : w'.InPlace s k)
    (others : ∀ (j : Nat) (v : Worker κ), j ≠ k → h.workers[j]? = some v → v.InPlace s j) :
    Ordered ⟨s, h.workers.set k w'⟩ where
  arrived := arrived
  free := by rw [List.length_set]; exact free
  cell := cell
  each _ _ hv := of_getElem?_set self others hv

/-- How many workers wait after one of them has moved. -/
theorem countP_set (hw : h.workers[k]? = some w) (g : Nat) :
    (h.workers.set k w').countP (Worker.waits g)
      = (h.workers.countP (Worker.waits g) - if w.waits g = true then 1 else 0)
        + if w'.waits g = true then 1 else 0 := by
  obtain ⟨hk, rfl⟩ := List.getElem?_eq_some_iff.mp hw
  exact List.countP_set hk

/-- **A move away from the barrier**, which neither changes the cell nor lets anybody wait. -/
theorem aside (ho : h.Ordered) (hw : h.workers[k]? = some w) (hcell : s.cell = h.site.cell)
    (hgeneration : s.generation = h.site.generation) (harrived : s.arrived = h.site.arrived)
    (hbefore : w.waits h.site.generation = false) (hafter : w'.waits h.site.generation = false)
    (self : w'.InPlace h.site k) : Ordered ⟨s, h.workers.set k w'⟩ := by
  refine set ?_ (harrived ▸ ho.free) ?_ (self.of_same hcell hgeneration)
    fun j v _ hv => (ho.each j v hv).of_same hcell hgeneration
  · rw [harrived, hgeneration, countP_set hw, hbefore, hafter, ho.arrived]
    rfl
  · rw [hcell, hgeneration]
    exact ho.cell

/-- In a new round nobody looks at the cell before the leader has written it. -/
theorem publish {p : Nat} {t : Instant} {step : Option Instant} (ho : h.Ordered)
    (hw : h.workers[k]? = some ⟨.publish step, p, t⟩) :
    Ordered ⟨{ h.site with cell := step }, h.workers.set k ⟨.arrive .start, p, t⟩⟩ := by
  obtain ⟨-, hp, hgeneration⟩ : k = 0 ∧ p % 4 = 0 ∧ p = h.site.generation := ho.each k _ hw
  refine set ?_ ho.free ?_ ⟨hp, hgeneration, nofun⟩ fun j v _ hv => ?_
  · rw [countP_set hw, ← ho.arrived]
    rfl
  · intro h2
    change 2 ≤ h.site.generation % 4 at h2
    omega
  · exact (ho.each j v hv).of_round (hgeneration ▸ hp) step

/-- **The last worker arrives**: all others are waiting, and the barrier opens. -/
theorem meet {p : Nat} {t : Instant} {gate : Gate} (ho : h.Ordered)
    (hw : h.workers[k]? = some ⟨.arrive gate, p, t⟩)
    (hlast : h.site.arrived + 1 = h.workers.length) :
    Ordered ⟨{ h.site with arrived := 0, generation := h.site.generation + 1 },
      h.workers.set k ⟨gate.next k, p + 1, t⟩⟩ := by
  obtain ⟨hgate, hgeneration, hcollect⟩ : p % 4 = gate.number ∧ p = h.site.generation ∧
    (gate = .after .collect → h.site.cell ≠ none) := ho.each k _ hw
  have hcell : 2 ≤ (h.site.generation + 1) % 4 → h.site.cell ≠ none := by
    intro h2
    by_cases hearlier : 2 ≤ h.site.generation % 4
    · exact ho.cell hearlier
    · refine hcollect ?_
      rw [hgeneration] at hgate
      have hone : gate.number = 1 := by omega
      cases gate with
      | start => exact absurd hone (by decide)
      | after duty => exact congrArg Gate.after (Duty.number_inj hone)
  have hothers : ∀ (j : Nat) (v : Worker κ), j ≠ k → h.workers[j]? = some v →
      v.waits h.site.generation = true := by
    intro j v hjk hv
    have hcount := hlast
    rw [ho.arrived] at hcount
    exact of_countP_eq (x := ⟨.arrive gate, p, t⟩) rfl hw hcount hv hjk
  -- They wait for the barrier in the generation that is over now.
  have hwait : ∀ (j : Nat) (v : Worker κ), j ≠ k → h.workers[j]? = some v →
      v.waits (h.site.generation + 1) = false ∧
        v.InPlace { h.site with arrived := 0, generation := h.site.generation + 1 } j := by
    intro j v hjk hv
    have hwaits := hothers j v hjk hv
    have hplace := ho.each j v hv
    unfold Worker.waits at hwaits ⊢
    unfold Worker.InPlace at hplace ⊢
    split at hwaits
    case h_1 gate' g hpoint =>
      rw [beq_iff_eq] at hwaits
      simp only [hpoint] at hplace ⊢
      obtain ⟨hgate', hg, -⟩ := hplace
      exact ⟨beq_eq_false_iff_ne.mpr (by omega), hgate', hg, .inr (by omega)⟩
    case h_2 => cases hwaits
  have hlt := (List.getElem?_eq_some_iff.mp hw).1
  refine set ?_ (Nat.zero_lt_of_lt hlt) hcell
    (Gate.inPlace_next hgate (congrArg (· + 1) hgeneration)) fun j v hjk hv =>
      (hwait j v hjk hv).2
  refine (List.countP_eq_zero.mpr fun v hv => ?_).symm
  obtain ⟨j, hj⟩ := List.getElem?_of_mem hv
  have hnone : v.waits (h.site.generation + 1) = false :=
    of_getElem?_set (P := fun _ v => v.waits (h.site.generation + 1) = false)
      (gate.waits_next _ _ _ _) (fun j v hjk hv => (hwait j v hjk hv).1) hj
  rw [hnone]
  exact Bool.false_ne_true

end Hall.Ordered

variable {trade : Trade δ κ} {h h' : Hall δ κ} {deed : Option Deed}

/-- **Every move keeps the workers together.** -/
theorem Move.ordered (hm : Move trade h deed h') (ho : h.Ordered) : h'.Ordered := by
  -- Only three moves concern the others: the leader writes the cell, or somebody arrives.
  cases hm with
  | @act k w _ s w' hw ha =>
      have hplace := ho.each k w hw
      cases ha with
      | @report p t d stop _ =>
          refine ho.aside hw rfl rfl rfl rfl ?_ ?_ <;> cases stop <;> first | rfl | exact hplace
      | check =>
          refine ho.aside hw rfl rfl rfl rfl ?_ ?_ <;> split <;> first | rfl | exact hplace
      | @complete p t d stop _ =>
          refine ho.aside hw rfl rfl rfl rfl ?_ ?_ <;> cases stop <;> first | rfl | exact hplace
      | @ask p t d stop answer _ =>
          refine ho.aside hw rfl rfl rfl rfl ?_ ?_ <;> cases stop <;> first | rfl | exact hplace
      | publish => exact ho.publish hw
      | @arrive p t gate hlt =>
          obtain ⟨hgate, hgeneration, hcell⟩ := hplace
          refine Hall.Ordered.set ?_ hlt ho.cell
            ⟨hgate, hgeneration.symm, .inl ⟨hgeneration, hcell⟩⟩ fun j v _ hv =>
              (ho.each j v hv).of_same rfl rfl
          rw [Hall.Ordered.countP_set hw, ← ho.arrived]
          have hnot : (⟨.arrive gate, p, t⟩ : Worker κ).waits h.site.generation = false := rfl
          have hwaits : (⟨.wait gate h.site.generation, p, t⟩ : Worker κ).waits h.site.generation
              = true := beq_iff_eq.mpr rfl
          rw [hnot, hwaits]
          rfl
      | meet hlast => exact ho.meet hw hlast
      | @resume p t gate g hg =>
          obtain ⟨hgate, rfl, hpassed⟩ := hplace
          have hbehind : g + 1 = h.site.generation :=
            hpassed.resolve_left fun hsame => hg hsame.1
          exact ho.aside hw rfl rfl rfl (beq_eq_false_iff_ne.mpr hg) (gate.waits_next _ _ _ _)
            (Gate.inPlace_next hgate hbehind)
      | leave hnone => exact ho.aside hw rfl rfl rfl rfl rfl ⟨hplace.1, hplace.2, hnone⟩
      | read hsome =>
          exact ho.aside hw rfl rfl rfl rfl rfl
            ⟨hplace.1, hplace.2, fun _ => by rw [hsome]; exact nofun⟩
      | skip _ =>
          exact ho.aside hw rfl rfl rfl rfl rfl
            ⟨hplace.1, hplace.2.1, fun hduty => hplace.2.2 (Gate.after.inj hduty)⟩
      | enter _ => exact ho.aside hw rfl rfl rfl rfl rfl hplace
      | turn _ => exact ho.aside hw rfl rfl rfl rfl rfl hplace
      | @finish p t duty rest d stop _ =>
          refine ho.aside hw rfl rfl rfl rfl ?_ ?_ <;> cases stop
          · rfl
          · rfl
          · exact ⟨hplace.1, hplace.2.1, fun hduty => hplace.2.2 (Gate.after.inj hduty)⟩
          · exact hplace
      | @note p t stop duty =>
          refine ho.aside hw rfl rfl rfl rfl ?_ ?_ <;> cases duty
          · rfl
          · rfl
          · exact hplace
          · exact ⟨hplace.1, hplace.2.1, fun hduty => hplace.2.2 (Gate.after.inj hduty)⟩

/-- **The workers keep together** through any number of moves. -/
theorem Moves.ordered {h₀ : Hall δ κ} {deeds : List Deed} (hm : Moves trade h₀ deeds h)
    (ho : h₀.Ordered) : h.Ordered := by
  induction hm with
  | begin => exact ho
  | move before last ih => exact last.ordered ih

/-! ## Nobody waits for ever -/

/-- **All workers have left the loop.** -/
def Hall.AllLeft (h : Hall δ κ) : Prop := ∀ w ∈ h.workers, w.point = .left

/-- Whoever neither waits nor has left can make a move. -/
theorem Hall.Ordered.exists_act (ho : h.Ordered) {k : Nat} {w : Worker κ}
    (hwait : ∀ gate g, w.point = .wait gate g → g ≠ h.site.generation)
    (hleft : w.point ≠ .left) :
    ∃ deed s w', Act trade h.workers.length k h.site w deed s w' := by
  obtain ⟨point, p, t⟩ := w
  cases point with
  | report =>
      obtain ⟨d, stop, hreport⟩ := trade.report_total t h.site.data
      exact ⟨_, _, _, .report hreport⟩
  | check => exact ⟨_, _, _, .check⟩
  | complete =>
      obtain ⟨d, stop, hcompleted⟩ := trade.completed_total t h.site.data
      exact ⟨_, _, _, .complete hcompleted⟩
  | ask =>
      obtain ⟨d, stop, answer, hproceed⟩ := trade.proceed_total h.site.data
      exact ⟨_, _, _, .ask hproceed⟩
  | publish step => exact ⟨_, _, _, .publish⟩
  | arrive gate =>
      rcases Nat.lt_or_eq_of_le (Nat.succ_le_of_lt ho.free) with hlt | heq
      · exact ⟨_, _, _, .arrive hlt⟩
      · exact ⟨_, _, _, .meet heq⟩
  | wait gate g => exact ⟨_, _, _, .resume (hwait gate g rfl)⟩
  | read =>
      cases hcell : h.site.cell with
      | none => exact ⟨_, _, _, .leave hcell⟩
      | some t' => exact ⟨_, _, _, .read hcell⟩
  | enter duty =>
      cases hset : h.site.failure.isSet with
      | true => exact ⟨_, _, _, .skip hset⟩
      | false => exact ⟨_, _, _, .enter hset⟩
  | work duty rest =>
      obtain ⟨d, result, hturn⟩ := trade.turn_total k rest h.site.data
      cases result with
      | more rest' => exact ⟨_, _, _, .turn hturn⟩
      | ended stop => exact ⟨_, _, _, .finish hturn⟩
  | caught stop duty => exact ⟨_, _, _, .note⟩
  | left => exact absurd rfl hleft

/-- While a worker waits nobody has left: the one depends on a time in the cell, the other on
there being none. -/
theorem Hall.Ordered.not_left (ho : h.Ordered) {j k : Nat} {v w : Worker κ}
    (hv : h.workers[j]? = some v) (hw : h.workers[k]? = some w)
    (hwaits : v.waits h.site.generation = true) : w.point ≠ .left := by
  intro hleft
  have hplace := ho.each k w hw
  rw [Worker.InPlace, hleft] at hplace
  obtain ⟨hone, hpassed, hnone⟩ := hplace
  have hwait := ho.each j v hv
  unfold Worker.waits at hwaits
  split at hwaits
  case h_2 => cases hwaits
  case h_1 gate g hpoint =>
    rw [beq_iff_eq] at hwaits
    rw [Worker.InPlace, hpoint] at hwait
    obtain ⟨hgate, hg, hsame | hbehind⟩ := hwait
    · -- The gate is that after the first duty, which nobody does without a time.
      have hnumber : gate.number = 1 := by omega
      refine hsame.2 ?_ hnone
      cases gate with
      | start => exact absurd hnumber (by decide)
      | after duty => exact congrArg Gate.after (Duty.number_inj hnumber)
    · omega

/-- **There is no deadlock**: all workers have left the loop, or some worker can make a move. -/
theorem Hall.Ordered.progress (ho : h.Ordered) :
    h.AllLeft ∨ ∃ deed h', Move trade h deed h' := by
  by_cases hfree : ∃ w ∈ h.workers, w.point ≠ .left ∧ w.waits h.site.generation = false
  · obtain ⟨w, hmem, hleft, hwaits⟩ := hfree
    obtain ⟨k, hw⟩ := List.getElem?_of_mem hmem
    have hstale : ∀ gate g, w.point = .wait gate g → g ≠ h.site.generation := by
      intro gate g hpoint
      rw [Worker.waits, hpoint] at hwaits
      exact beq_eq_false_iff_ne.mp hwaits
    obtain ⟨deed, s, w', hact⟩ :
      ∃ deed s w', Act trade h.workers.length k h.site w deed s w' := ho.exists_act hstale hleft
    exact .inr ⟨deed, _, .act hw hact⟩
  · have hstuck : ∀ w ∈ h.workers, w.point ≠ .left → w.waits h.site.generation = true := by
      intro w hmem hleft
      by_contra hwaits
      exact hfree ⟨w, hmem, hleft, Bool.eq_false_iff.mpr hwaits⟩
    refine .inl fun w hmem => ?_
    by_contra hleft
    -- Not all can be waiting, so one of them has left, while `w` waits.
    have hwaits := hstuck w hmem hleft
    have hnotall : ¬ ∀ v ∈ h.workers, v.waits h.site.generation = true := by
      intro hall
      have hfree := ho.free
      rw [ho.arrived, List.countP_eq_length.mpr hall] at hfree
      exact Nat.lt_irrefl _ hfree
    simp only [not_forall] at hnotall
    obtain ⟨v, hv, hvwaits⟩ := hnotall
    obtain ⟨j, hj⟩ := List.getElem?_of_mem hmem
    obtain ⟨i, hi⟩ := List.getElem?_of_mem hv
    refine ho.not_left hj hi hwaits ?_
    by_contra hvleft
    exact hvwaits (hstuck v hv hvleft)

/-! ## The number of barriers -/

/-- **Nobody passes another barrier after one has left**, and all who leave have passed as
many. -/
theorem Hall.Ordered.passed_left (ho : h.Ordered) {j k : Nat} {v w : Worker κ}
    (hv : h.workers[j]? = some v) (hw : h.workers[k]? = some w) (hleft : w.point = .left) :
    v.passed ≤ w.passed ∧ (v.point = .left → v.passed = w.passed) := by
  have heq := (ho.each k w hw).passed_eq fun gate g => by rw [hleft]; exact nofun
  refine ⟨heq ▸ (ho.each j v hv).passed_bounds.1, fun hv' => ?_⟩
  rw [heq]
  exact (ho.each j v hv).passed_eq fun gate g => by rw [hv']; exact nofun

end

end DiscreteEvent
