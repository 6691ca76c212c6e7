/-
Clocks, which hold a simulation to the time of the world outside.

Before a step is taken the clock is given the time of the step as a deadline.
It waits for it and answers that simulation and world are synchronized, or it
answers how far the world is ahead.
-/
import DiscreteEvent.Reply
import DiscreteEvent.Time.Instant

set_option autoImplicit false

namespace DiscreteEvent

/-- What a clock answers. -/
inductive SyncStatus
  /-- The deadline has been waited for. -/
  | synchronized
  /-- The deadline had passed by this much. -/
  | outOfSync (lag : Span)
deriving DecidableEq

/-- **The contract of clocks.** -/
class Clock (κ : Type) where
  /-- Waits for a deadline. -/
  synchronize : (deadline : Instant) → κ → Reply κ SyncStatus

/-- The clock that never waits. -/
structure NoClock where
deriving DecidableEq

instance : Clock NoClock where
  synchronize _ c := { state := c, answer := .synchronized }

end DiscreteEvent
