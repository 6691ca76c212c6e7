/-
Violations: calls that an engine refuses.

An engine may be stepped only after its initialization and only inside of its
window, the time from its last transition to its next event. A call outside is
refused without any effect, and the violation says which engine refused it and
why.
-/
import DiscreteEvent.Text.Inspect
import DiscreteEvent.Time.Calendar

set_option autoImplicit false

namespace DiscreteEvent

/-- Why an engine refuses a call. `model` is the path of the engine. -/
inductive Violation
  /-- The engine has not been initialized. -/
  | uninitialized (model : String)
  /-- Outputs were to be collected after the next event. -/
  | collectOutOfWindow (model : String) (time next : Instant)
  /-- The engine was to be advanced out of its window. -/
  | advanceOutOfWindow (model : String) (time last next : Instant)
  /-- An atomic model was asked for its output while no event is due. -/
  | notImminent (model : String) (time next : Instant)
  /-- An atomic model was to react to input that is not there. -/
  | emptyExternalInput (model : String) (time : Instant)
deriving DecidableEq

namespace Violation

/-- The engine that refused. -/
def model : Violation → String
  | uninitialized model => model
  | collectOutOfWindow model _ _ => model
  | advanceOutOfWindow model _ _ _ => model
  | notImminent model _ _ => model
  | emptyExternalInput model _ => model

/-- The violation as a sentence. -/
def display : Violation → String
  | uninitialized model => "model '" ++ model ++ "' was stepped before initialization"
  | collectOutOfWindow model time next =>
    "outputs of model '" ++ model ++ "' collected at " ++ time.display
      ++ " after its next event at " ++ next.display
  | advanceOutOfWindow model time last next =>
    "model '" ++ model ++ "' advanced to " ++ time.display ++ " outside of its window ["
      ++ last.display ++ ", " ++ next.display ++ "]"
  | notImminent model time next =>
    "output of model '" ++ model ++ "' requested at " ++ time.display
      ++ " while its next event is at " ++ next.display
  | emptyExternalInput model time =>
    "external transition of model '" ++ model ++ "' at " ++ time.display ++ " without input"

/-- The violation with its parts. -/
def inspect : Violation → String
  | uninitialized model => Text.record "Uninitialized" [("model", Text.quoted model)]
  | collectOutOfWindow model time next =>
    Text.record "CollectOutOfWindow"
      [("model", Text.quoted model), ("time", time.inspect), ("next", next.inspect)]
  | advanceOutOfWindow model time last next =>
    Text.record "AdvanceOutOfWindow"
      [("model", Text.quoted model), ("time", time.inspect), ("last", last.inspect),
       ("next", next.inspect)]
  | notImminent model time next =>
    Text.record "NotImminent"
      [("model", Text.quoted model), ("time", time.inspect), ("next", next.inspect)]
  | emptyExternalInput model time =>
    Text.record "EmptyExternalInput" [("model", Text.quoted model), ("time", time.inspect)]

end Violation

end DiscreteEvent
