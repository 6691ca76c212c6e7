/-
Observers, and the world in which a simulation runs.

An observer is a state `ω` with three functions. Before a record is made the
observer is asked whether it wants one, because making a record means to
render states and messages. A record may make it fault, which breaks off the
call that is being reported. Lines for the log are announced and cannot fail.
An observer looks on: it has no way to ask for an interruption, and nothing that
it does reaches the models, the clock or the supervisor.

The world of a simulation is its observer together with the one signal that
client code can give at any moment: that the current run be interrupted.
-/
import DiscreteEvent.Model.Behaviour
import DiscreteEvent.Observation.Log

set_option autoImplicit false

namespace DiscreteEvent

/-- **The contract of observers.** What an observer does concerns its own state. It cannot ask
for an interruption, and models do not see it. -/
class Observer (ω : Type) where
  /-- Whether records are wanted now. -/
  enabled : ω → Bool × ω
  /-- Takes a record. -/
  observe : Record → ω → ω × Option Fault
  /-- Takes a line for the log. -/
  announce : Event → ω → ω

/-! ## Three observers -/

/-- The observer that wants nothing. -/
structure Unobserved where
deriving DecidableEq

instance : Observer Unobserved where
  enabled o := (false, o)
  observe _ o := (o, none)
  announce _ o := o

/-- An observer that keeps all records. -/
structure Recorder where
  records : Array Record := #[]

instance : Observer Recorder where
  enabled o := (true, o)
  observe r o := ({ o with records := o.records.push r }, none)
  announce _ o := o

/-- A log observes by writing down what it is told. It wants records as soon
as it keeps those with messages. -/
instance : Observer Log where
  enabled o := (o.keeps .debug, o)
  observe r o := (o.write (.ofRecord r), none)
  announce e o := o.write e

/-! ## The world -/

/-- What a simulation runs in. -/
structure World (ω : Type) where
  observer : ω
  /-- Whether the current run was asked to stop. -/
  interrupted : Bool := false

namespace World

variable {ω : Type}

/-- Takes note of what client code asked for. -/
def heed {σ α : Type} (w : World ω) (r : Reply σ α) : World ω :=
  if r.interrupts then { w with interrupted := true } else w

variable [Observer ω]

/-- Hands a line to the log. -/
def announce (w : World ω) (e : Event) : World ω :=
  { w with observer := Observer.announce e w.observer }

/-- **Reporting.** The record is made only if it is wanted, and then the state
is rendered last. A state that cannot be rendered is a fault. -/
def report (w : World ω) (phase : Phase) (path : String) (time last next : Instant)
    (state : Option (Except Fault String)) (bags : List BagRecord) : World ω × Option Fault :=
  match Observer.enabled w.observer with
  | (false, o) => ({ w with observer := o }, none)
  | (true, o) =>
    let w := { w with observer := o }
    let observe (state : Option String) : World ω × Option Fault :=
      let (o, fault) := Observer.observe ⟨phase, path, time, last, next, state, bags⟩ w.observer
      ({ w with observer := o }, fault)
    match state with
    | none => observe none
    | some (.ok text) => observe (some text)
    | some (.error fault) => (w, some fault)

end World

end DiscreteEvent
