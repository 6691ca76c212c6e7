/-
Why an execution has no answer.

A simulation may fail to be built, its engine may refuse a step, and it may
lag behind its clock. These are errors of the execution. A fault of client
code is none of them: it passes through unchanged, and `Halt` is either.
-/
import DiscreteEvent.Engine.Violation
import DiscreteEvent.Fault
import DiscreteEvent.Model.Defect

set_option autoImplicit false

namespace DiscreteEvent

/-- Errors of an execution. -/
inductive ExecutionError
  | construction (d : Defect)
  | simulation (v : Violation)
  | outOfSync (lag : Span)
deriving DecidableEq

namespace ExecutionError

/-- The error as a sentence. -/
def display : ExecutionError → String
  | construction d => "invalid model tree: " ++ d.display
  | simulation v => "simulation protocol violation: " ++ v.display
  | outOfSync lag =>
    "the simulation lagged behind its clock by " ++ lag.inspect
      ++ ", beyond the synchronization tolerance"

/-- The error with its parts. -/
def inspect : ExecutionError → String
  | construction d => Text.tagged "Construction" d.inspect
  | simulation v => Text.tagged "Simulation" v.inspect
  | outOfSync lag => Text.tagged "OutOfSync" lag.inspect

/-- The sentence about the error that this one passes on, if it does. -/
def source? : ExecutionError → Option String
  | construction d => some d.display
  | simulation v => some v.display
  | outOfSync _ => none

end ExecutionError

/-- Why a call on a simulation has no answer. -/
inductive Halt
  | error (e : ExecutionError)
  | fault (f : Fault)
deriving DecidableEq

end DiscreteEvent
