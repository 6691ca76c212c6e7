/-
Clocks keep pace exactly.

An anchor says which instant belongs to a reading of the wall clock, and `Anchor.exact` is the
count of nanoseconds of this instant, in numbers that have no end. The arithmetic on instants
comes in two halves, one for readings after the anchor and one for those before it, each with
lengths of time that are not negative and sums that may leave the range. `shift_eq` puts the
halves together: what a shift comes to depends on the exact count, and on nothing else.

Everything follows from this one law. `Anchor.Paced` says what a clock answers about a deadline,
given the exact count, and `waitOn_paced` that it does. Two anchors with the same exact counts
are the same clock (`waitOn_congr`), wherever they are anchored; a system time that lies
some way before the present makes such an anchor. And a clock that anchors itself is, from its
second call on, the clock with the anchor of its first call: `Clock.replies_map` carries one
call over to any number of them.
-/
import DiscreteEvent.Clock.Anchor
import DiscreteEvent.Proofs.Time.Order

set_option autoImplicit false

namespace DiscreteEvent

/-! ## Exact shifts -/

namespace Instant

/-- The count is that of an instant. -/
def InRange (n : Int) : Prop := minTicks ≤ n ∧ n ≤ maxTicks

theorem ofTicks?_of_inRange {n : Int} (h : InRange n) : ofTicks? n = some (ofTicks n) := if_pos h

theorem ofTicks?_eq_none {n : Int} (h : ¬ InRange n) : ofTicks? n = none := if_neg h

/-- A count that makes no span leads out of the range from every instant. -/
theorem bind_add? (t : Instant) (n : Nat) :
    (Span.ofTicks? n).bind t.add? = ofTicks? (t.ticks + n) := by
  by_cases hn : n ≤ Span.maxTicks
  · rw [Span.ofTicks?, if_pos hn, Option.bind_some, add?, Span.ticks_ofTicks hn]
  · have hout : ¬ InRange (t.ticks + n) := by
      have ht := t.ticks_bounds
      simp only [InRange, minTicks, maxTicks, Span.maxTicks] at hn ht ⊢
      omega
    rw [Span.ofTicks?, if_neg hn, Option.bind_none, ofTicks?_eq_none hout]

theorem bind_sub? (t : Instant) (n : Nat) :
    (Span.ofTicks? n).bind t.sub? = ofTicks? (t.ticks - n) := by
  by_cases hn : n ≤ Span.maxTicks
  · rw [Span.ofTicks?, if_pos hn, Option.bind_some, sub?, Span.ticks_ofTicks hn]
  · have hout : ¬ InRange (t.ticks - n) := by
      have ht := t.ticks_bounds
      simp only [InRange, minTicks, maxTicks, Span.maxTicks] at hn ht ⊢
      omega
    rw [Span.ofTicks?, if_neg hn, Option.bind_none, ofTicks?_eq_none hout]

/-- **The instant of an exact count**, or the end of the range that the count lies beyond. -/
def ofExact (n : Int) : Except Fault Instant :=
  if maxTicks < n then .error .instantTooLate
  else if n < minTicks then .error .instantTooEarly
  else .ok (ofTicks n)

theorem ofExact_of_inRange {n : Int} (h : InRange n) : ofExact n = .ok (ofTicks n) := by
  rw [ofExact, if_neg (Int.not_lt.mpr h.2), if_neg (Int.not_lt.mpr h.1)]

end Instant

namespace Anchor

open Instant

/-- **A shift is exact** in both directions. -/
theorem shift_eq (t : Instant) (elapsed : Int) : shift t elapsed = ofExact (t.ticks + elapsed) := by
  have ht := t.ticks_bounds
  by_cases hsign : 0 ≤ elapsed
  · have hexact : (t.ticks + elapsed.toNat : Int) = t.ticks + elapsed := by omega
    rw [shift, if_pos hsign, bind_add?, hexact]
    by_cases hin : InRange (t.ticks + elapsed)
    · rw [ofTicks?_of_inRange hin, ofExact_of_inRange hin]
    · -- From an instant of the range one comes out of it at the end that one goes towards.
      have hlate : maxTicks < t.ticks + elapsed := by
        rw [InRange] at hin
        omega
      rw [ofTicks?_eq_none hin, ofExact, if_pos hlate]
  · have hexact : (t.ticks - (-elapsed).toNat : Int) = t.ticks + elapsed := by omega
    rw [shift, if_neg hsign, bind_sub?, hexact]
    by_cases hin : InRange (t.ticks + elapsed)
    · rw [ofTicks?_of_inRange hin, ofExact_of_inRange hin]
    · have hearly : t.ticks + elapsed < minTicks := by
        rw [InRange] at hin
        omega
      rw [ofTicks?_eq_none hin, ofExact, if_neg (by omega), if_pos hearly]

/-! ## Exact pacing -/

/-- **The exact count** that belongs to a reading. -/
def exact (a : Anchor) (now : Int) : Int := a.simulation.ticks + (now - a.wall)

theorem current_eq (a : Anchor) (now : Int) : a.current now = ofExact (a.exact now) :=
  shift_eq _ _

variable {υ : Type} [WallClock υ]

/-- **What a clock answers about a deadline**, when `exact` is the count that it has read. It
is behind the deadline by the difference, or it sleeps for the difference; and it is broken off
if there is no instant with this count, without any sleep. -/
inductive Paced (exact : Int) (deadline : Instant) (wall : υ) : Reply υ SyncStatus → Prop
  | late {lag : Span} (range : InRange exact) (behind : deadline.ticks < exact)
      (lag_eq : (lag.ticks : Int) = exact - deadline.ticks) :
      Paced exact deadline wall { state := wall, answer := .outOfSync lag }
  | early {time : Span} (range : InRange exact) (ahead : exact ≤ deadline.ticks)
      (time_eq : (time.ticks : Int) = deadline.ticks - exact) :
      Paced exact deadline wall { state := WallClock.sleep time wall, answer := .synchronized }
  | tooLate (outside : maxTicks < exact) :
      Paced exact deadline wall (.raise wall .synchronized .instantTooLate)
  | tooEarly (outside : exact < minTicks) :
      Paced exact deadline wall (.raise wall .synchronized .instantTooEarly)

/-- A call is broken off exactly if the count is out of the range. -/
theorem Paced.fault_eq_none_iff {exact : Int} {deadline : Instant} {wall : υ}
    {r : Reply υ SyncStatus} (h : Paced exact deadline wall r) :
    r.fault = none ↔ InRange exact := by
  cases h with
  | late range | early range => exact ⟨fun _ => range, fun _ => rfl⟩
  | tooLate outside => exact ⟨nofun, fun range => absurd range.2 (Int.not_le.mpr outside)⟩
  | tooEarly outside => exact ⟨nofun, fun range => absurd range.1 (Int.not_le.mpr outside)⟩

/-- **Waiting for a deadline** is exact. -/
theorem waitOn_paced (a : Anchor) (deadline : Instant) (wall : υ) :
    Paced (a.exact (WallClock.read wall).1) deadline (WallClock.read wall).2
      (a.waitOn deadline wall) := by
  generalize hread : WallClock.read wall = reading
  obtain ⟨now, wall'⟩ := reading
  simp only [waitOn, hread, waitFor, current_eq]
  by_cases hlate : maxTicks < a.exact now
  · rw [ofExact, if_pos hlate]
    exact .tooLate hlate
  by_cases hearly : a.exact now < minTicks
  · rw [ofExact, if_neg hlate, if_pos hearly]
    exact .tooEarly hearly
  have hin : InRange (a.exact now) := ⟨Int.not_lt.mp hearly, Int.not_lt.mp hlate⟩
  have hticks : (ofTicks (a.exact now)).ticks = a.exact now := ticks_ofTicks hin.1 hin.2
  rw [ofExact_of_inRange hin]
  rcases le_or_gt (ofTicks (a.exact now)) deadline with hle | hlt
  · have htime := ticks_elapsed hle
    rw [hticks] at htime
    simp only [bind, Except.bind, since?_of_le hle]
    exact .early hin (hticks ▸ hle) htime
  · have hlag := ticks_elapsed (le_of_lt hlt)
    rw [hticks] at hlag
    have hnone : deadline.since? (ofTicks (a.exact now)) = none := if_neg (not_le.mpr hlt)
    simp only [bind, Except.bind, hnone, since?_of_le (le_of_lt hlt)]
    exact .late hin (hticks ▸ hlt) hlag

/-- **Anchors with the same exact counts** are the same to a client. -/
theorem waitOn_congr {a a' : Anchor} (h : ∀ now, a.exact now = a'.exact now) (deadline : Instant)
    (wall : υ) : a.waitOn deadline wall = a'.waitOn deadline wall := by
  have hwait : ∀ now, a.waitFor deadline now = a'.waitFor deadline now := by
    intro now
    rw [waitFor, waitFor, current_eq, current_eq, h]
  simp only [waitOn, hwait]

/-- **An anchor at a system time** that lies `offset` before the present has the exact counts of
the one at the reading that lies as much before the present one. -/
theorem exists_ofSystemTime {simulation : Instant} {offset : Int}
    (h : InRange (simulation.ticks + offset)) (systemNow wallNow : Int) :
    ∃ a, ofSystemTime simulation (systemNow - offset) systemNow wallNow = .ok a ∧
      ∀ now, a.exact now = (Anchor.mk simulation (wallNow - offset)).exact now := by
  have hoffset : systemNow - (systemNow - offset) = offset := by omega
  refine ⟨⟨ofTicks (simulation.ticks + offset), wallNow⟩, ?_, fun now => ?_⟩
  · rw [ofSystemTime, hoffset, shift_eq, ofExact_of_inRange h]
    rfl
  · rw [Anchor.exact, Anchor.exact, ticks_ofTicks h.1 h.2]
    show simulation.ticks + offset + (now - wallNow)
      = simulation.ticks + (now - (wallNow - offset))
    omega

end Anchor

/-! ## Any number of calls -/

namespace Clock

variable {κ κ' : Type} [Clock κ] [Clock κ']

/-- **The replies of a clock** to one deadline after the other. The client goes on in
any case. -/
def replies : κ → List Instant → List (Reply κ SyncStatus)
  | _, [] => []
  | c, d :: ds =>
    let r := synchronize d c
    r :: replies r.state ds

/-- **Clocks that agree call by call** agree on any number of calls. -/
theorem replies_map {P : κ → Prop} {f : κ → κ'}
    (h : ∀ c d, P c →
      synchronize d (f c) = (synchronize d c).mapState f ∧ P (synchronize d c).state)
    (deadlines : List Instant) :
    ∀ {c : κ}, P c → replies (f c) deadlines = (replies c deadlines).map (·.mapState f) := by
  induction deadlines with
  | nil => exact fun _ => rfl
  | cons d ds ih =>
      intro c hc
      obtain ⟨heq, hstate⟩ := h c d hc
      rw [replies, replies, List.map_cons, heq]
      exact congrArg _ (ih hstate)

end Clock

variable {υ : Type} [WallClock υ]

/-- **Clocks keep pace exactly**, on any wall clock, whatever it shows.

Let a clock be anchored anywhere, before or after the reading that it takes. It answers as the
exact count says: it is late by the difference to the deadline, or it sleeps for the difference,
and it is broken off if and only if the count is out of the range.

A clock that anchors itself is synchronized at its first deadline, without any sleep. To all
deadlines that follow it replies as the clock does that is anchored at its first deadline and
its first reading.

A clock that is anchored at a system time, any time before the present or after it, replies to
all deadlines as the one that is anchored at the reading that lies as far from the present one;
provided that the instant which belongs to the present is in the range. -/
theorem clocks_pace_exactly :
    (∀ (c : AnchoredClock υ) (deadline : Instant), ∃ r : Reply υ SyncStatus,
      Clock.synchronize deadline c = r.mapState (fun wall => { c with wall := wall }) ∧
      Anchor.Paced (c.anchor.exact (WallClock.read c.wall).1) deadline
        (WallClock.read c.wall).2 r ∧
      (r.fault = none ↔ Instant.InRange (c.anchor.exact (WallClock.read c.wall).1))) ∧
    (∀ (wall : υ) (first : Instant) (deadlines : List Instant),
      let now := (WallClock.read wall).1
      let wall' := (WallClock.read wall).2
      Clock.replies ({ wall := wall } : AutoClock υ) (first :: deadlines)
        = { state := ⟨some ⟨first, now⟩, wall'⟩, answer := .synchronized } ::
          (Clock.replies (⟨⟨first, now⟩, wall'⟩ : AnchoredClock υ) deadlines).map
            (·.mapState fun c => ⟨some c.anchor, c.wall⟩)) ∧
    ∀ (simulation : Instant) (offset systemNow wallNow : Int),
      Instant.InRange (simulation.ticks + offset) →
      ∃ a, Anchor.ofSystemTime simulation (systemNow - offset) systemNow wallNow = .ok a ∧
        ∀ (wall : υ) (deadlines : List Instant),
          (Clock.replies (⟨a, wall⟩ : AnchoredClock υ) deadlines).map (·.mapState (·.wall))
            = (Clock.replies (⟨⟨simulation, wallNow - offset⟩, wall⟩ : AnchoredClock υ)
                deadlines).map (·.mapState (·.wall)) := by
  refine ⟨fun c deadline => ?_, fun wall first deadlines => ?_,
    fun simulation offset systemNow wallNow hrange => ?_⟩
  · have hpaced := c.anchor.waitOn_paced deadline c.wall
    exact ⟨_, rfl, hpaced, hpaced.fault_eq_none_iff⟩
  · -- After the first call there is an anchor, and it stays.
    have hreplies := Clock.replies_map (P := fun _ => True)
      (f := fun c : AnchoredClock υ => (⟨some c.anchor, c.wall⟩ : AutoClock υ))
      (fun c d _ => ⟨rfl, trivial⟩) deadlines
      (c := ⟨⟨first, (WallClock.read wall).1⟩, (WallClock.read wall).2⟩) trivial
    exact congrArg (List.cons _) hreplies
  · obtain ⟨a, ha, hexact⟩ := Anchor.exists_ofSystemTime hrange systemNow wallNow
    refine ⟨a, ha, fun wall deadlines => ?_⟩
    -- The one clock is the other with the anchor put in.
    have hreplies := Clock.replies_map
      (P := fun c : AnchoredClock υ => c.anchor = ⟨simulation, wallNow - offset⟩)
      (f := fun c : AnchoredClock υ => (⟨a, c.wall⟩ : AnchoredClock υ))
      (fun c d hc => ⟨by
        show (a.waitOn d c.wall).mapState _ = ((c.anchor.waitOn d c.wall).mapState _).mapState _
        rw [hc, Anchor.waitOn_congr hexact]
        rfl, hc⟩) deadlines (c := ⟨⟨simulation, wallNow - offset⟩, wall⟩) rfl
    rw [hreplies, List.map_map]
    rfl

/-- A wall clock that shows the given readings, one after the other, and writes down for how
long it is slept on. -/
structure Readings where
  rest : List Int
  slept : List Span := []

instance : WallClock Readings where
  read w := (w.rest.headD 0, { w with rest := w.rest.tail })
  sleep time w := { w with slept := w.slept ++ [time] }

/-- An anchor at a system time that lies three nanoseconds ahead, made when the wall clock
shows 7. To two deadlines it replies as the anchor at the reading 10 does. -/
theorem clocks_pace_exactly_readings :
    let wall : Readings := { rest := [9, 4] }
    let deadlines := [Instant.ofTicks 1, Instant.ofTicks (-8)]
    Instant.InRange (Instant.epoch.ticks + -3) ∧
      ∃ a, Anchor.ofSystemTime .epoch (20 - -3) 20 7 = .ok a ∧
        (Clock.replies (⟨a, wall⟩ : AnchoredClock Readings) deadlines).map (·.mapState (·.wall))
          = (Clock.replies (⟨⟨.epoch, 7 - -3⟩, wall⟩ : AnchoredClock Readings) deadlines).map
              (·.mapState (·.wall)) := by
  intro wall deadlines
  have hrange : Instant.InRange (Instant.epoch.ticks + -3) := by
    rw [Instant.InRange]
    decide
  obtain ⟨-, -, hsystem⟩ := clocks_pace_exactly (υ := Readings)
  obtain ⟨a, ha, hreplies⟩ := hsystem .epoch (-3) 20 7 hrange
  exact ⟨hrange, a, ha, hreplies wall deadlines⟩

/-- Two nanoseconds before its reference the clock sleeps for three, up to the deadline. At a
second deadline it is two nanoseconds late. -/
example :
    (Clock.replies (⟨⟨.epoch, 10⟩, { rest := [8, 4] }⟩ : AnchoredClock Readings)
      [Instant.ofTicks 1, Instant.ofTicks (-8)]).map (fun r => (r.answer, r.state.wall.slept))
      = [(.synchronized, [Span.ofTicks 3]), (.outOfSync (Span.ofTicks 2), [Span.ofTicks 3])] := by
  decide +kernel

end DiscreteEvent
