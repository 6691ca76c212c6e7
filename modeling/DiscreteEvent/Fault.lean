/-
Faults: the ways in which a call is broken off in the middle.

A fault is not an answer. Code that runs into one stops where it is, and what
it did before stays done, so every operation that can fault hands back the
state it left behind (`Reply`, `Outcome`). Client code raises faults with a
text of its own; using a port that is not declared, or with messages of
another type, is a fault as well, and so is an instant out of the range.

The last three kinds belong to the routing inside of the engines. A model
tree that was assembled by `Blueprint.build` never reaches them: they are
there so that this can be said.
-/
set_option autoImplicit false

namespace DiscreteEvent

/-- Why a call was broken off. -/
inductive Fault
  /-- Client code gave up, with this text. -/
  | raised (text : String)
  /-- A bag was asked for under a name that no port has. -/
  | undeclaredPort (name : String)
  /-- A bag was asked for messages of another type than it holds. -/
  | messageType (expected : String)
  /-- An instant after the last one. -/
  | instantTooLate
  /-- An instant before the first one. -/
  | instantTooEarly
  /-- A span longer than the longest one. -/
  | spanTooLong
  /-- Messages were routed to or from a place that does not exist. -/
  | missingPlace
  /-- Messages were routed from an engine to itself. -/
  | sharedPlace
  /-- A time was measured from a later instant to an earlier one. -/
  | negativeSpan
deriving DecidableEq

/-- The text of a fault. -/
def Fault.message : Fault → String
  | raised text => text
  | undeclaredPort name => "port `" ++ name ++ "` is not declared"
  | messageType expected =>
    "message bag type mismatch: expected messages of type `" ++ expected ++ "`"
  | instantTooLate => "overflow when adding duration to timestamp"
  | instantTooEarly => "overflow when subtracting duration from timestamp"
  | spanTooLong => "overflow when adding durations"
  | missingPlace => "message routed to a missing place"
  | sharedPlace => "internal coupling with identical endpoints"
  | negativeSpan => "elapsed time is negative"

end DiscreteEvent
