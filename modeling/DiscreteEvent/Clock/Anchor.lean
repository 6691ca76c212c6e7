/-
Clocks that follow a wall clock.

An anchor ties one instant of the simulation to one reading of a wall clock;
from there on both go at the same pace, in both directions. A reading is a
count of nanoseconds, and nothing is assumed about where it starts. Given the
reading `now`, everything is determined: `Anchor.current` is the instant that
the simulation should be at, and `Anchor.waitFor` compares it with a deadline
and says how long to sleep.

The wall clock itself is a parameter (`WallClock`): it can be read, and it can
be slept on.
-/
import DiscreteEvent.Clock.Basic

set_option autoImplicit false

namespace DiscreteEvent

/-- An instant of the simulation and the reading of the wall clock at that instant. -/
structure Anchor where
  simulation : Instant
  wall : Int

namespace Anchor

/-- The instant that lies `elapsed` nanoseconds after another one, or before
it if the number is negative. -/
def shift (t : Instant) (elapsed : Int) : Except Fault Instant :=
  if 0 ≤ elapsed then
    -- A count without a span is longer than the whole range, so the sum is out of it too.
    match (Span.ofTicks? elapsed.toNat).bind t.add? with
    | some shifted => .ok shifted
    | none => .error .instantTooLate
  else
    match (Span.ofTicks? (-elapsed).toNat).bind t.sub? with
    | some shifted => .ok shifted
    | none => .error .instantTooEarly

/-- **The instant that belongs to a reading.** -/
def current (a : Anchor) (now : Int) : Except Fault Instant :=
  shift a.simulation (now - a.wall)

/-- The anchor that ties `simulation` to a system time `reference`, given the
system time and the reading of the wall clock at one moment. -/
def ofSystemTime (simulation : Instant) (reference systemNow wallNow : Int) :
    Except Fault Anchor := do
  let simulation ← shift simulation (systemNow - reference)
  return ⟨simulation, wallNow⟩

/-- What to do about a deadline. -/
inductive Verdict
  /-- Sleep for this long. -/
  | sleep (time : Span)
  /-- The deadline has passed by this much. -/
  | late (lag : Span)
deriving DecidableEq

/-- **Comparing a deadline with the wall clock.** -/
def waitFor (a : Anchor) (deadline : Instant) (now : Int) : Except Fault Verdict := do
  let current ← a.current now
  match deadline.since? current with
  | some time => return .sleep time
  | none =>
    match current.since? deadline with
    | some lag => return .late lag
    | none => throw .negativeSpan

end Anchor

/-- **The contract of wall clocks.** -/
class WallClock (υ : Type) where
  /-- A reading. -/
  read : υ → Int × υ
  /-- Sleeping. -/
  sleep : Span → υ → υ

variable {υ : Type} [WallClock υ]

/-- Waits on a wall clock for a deadline. -/
def Anchor.waitOn (a : Anchor) (deadline : Instant) (wall : υ) : Reply υ SyncStatus :=
  let (now, wall) := WallClock.read wall
  match a.waitFor deadline now with
  | .error fault => .raise wall .synchronized fault
  | .ok (.sleep time) => { state := WallClock.sleep time wall, answer := .synchronized }
  | .ok (.late lag) => { state := wall, answer := .outOfSync lag }

/-- A clock whose anchor is given. -/
structure AnchoredClock (υ : Type) where
  anchor : Anchor
  wall : υ

instance : Clock (AnchoredClock υ) where
  synchronize deadline c :=
    (c.anchor.waitOn deadline c.wall).mapState fun wall => { c with wall := wall }

/-- **A clock that anchors itself**: its first deadline belongs to the moment
at which it is called for the first time. -/
structure AutoClock (υ : Type) where
  anchor : Option Anchor := none
  wall : υ

instance : Clock (AutoClock υ) where
  synchronize deadline c :=
    match c.anchor with
    | some anchor => (anchor.waitOn deadline c.wall).mapState fun wall => { c with wall := wall }
    | none =>
      let (now, wall) := WallClock.read c.wall
      { state := ⟨some ⟨deadline, now⟩, wall⟩, answer := .synchronized }

end DiscreteEvent
