/-
State machines: components whose behaviour is a table.

A machine has a finite list of states. Each of them says how long the machine
stays in it, what it sends when that time is over, which state comes next, and
which state input leads to. In a state for which input leads nowhere the machine
stays, and its time goes on. Any function of a state can be made to fault.

The machine counts its transitions and notes what the last input was, so that
its text tells how it was driven.
-/
import DiscreteEvent.Components.Payload
import DiscreteEvent.Model.Behaviour

set_option autoImplicit false

namespace DiscreteEvent

/-- The texts with which the functions of a state fault, for those that do. -/
structure MachineFaults where
  timeAdvance : Option String := none
  output : Option String := none
  internal : Option String := none
  external : Option String := none
  render : Option String := none

/-- One state of a machine. -/
structure MachineState where
  /-- How long the machine stays. -/
  timeAdvance : Option Span := none
  /-- What is sent when the time is over. -/
  output : List (Emission Payload) := []
  /-- The state after that. -/
  internal : Nat := 0
  /-- The state that input leads to. -/
  external : Option Nat := none
  /-- The ports that are read on input, if not all inputs. -/
  read : Option (List (Port Payload)) := none
  faults : MachineFaults := {}

/-- A component whose behaviour is a table. -/
structure Machine where
  interface : Interface Payload
  states : List MachineState
  order : ReadOrder
  current : Nat
  /-- The time until the next event. -/
  remaining : Option Span
  internals : Nat := 0
  externals : Nat := 0
  /-- What the last input was. -/
  last : String := "-"

namespace Machine

/-- The entry of the table for a state; a state that is not there is passive. -/
def stateAt (states : List MachineState) (i : Nat) : MachineState := states[i]?.getD {}

/-- The entry for the current state. -/
def here (m : Machine) : MachineState := stateAt m.states m.current

/-- A machine at the beginning. -/
def start (i : Interface Payload) (states : List MachineState) (order : ReadOrder)
    (first : Nat) : Machine where
  interface := i
  states := states
  order := order
  current := first
  remaining := (stateAt states first).timeAdvance

/-- The machine in another state. -/
def enter (m : Machine) (i : Nat) : Machine :=
  { m with current := i, remaining := (stateAt m.states i).timeAdvance }

/-- A fault with the given text, if there is one. -/
def fault? (text : Option String) : Option Fault := text.map .raised

/-- One note for each port that is read, until one cannot be read. -/
def readPorts (m : Machine) (inputs : Bags Payload) : List (Port Payload) → Machine × Option Fault
  | [] => (m, none)
  | p :: rest =>
    match m.order.read inputs p with
    | .error fault => (m, some fault)
    | .ok values =>
      let note := " " ++ p.name ++ "=" ++ Text.list (values.map p.type.render)
      { m with last := m.last ++ note }.readPorts inputs rest

/-- The next state after input, or the rest of the time in the same one. -/
def follow (m : Machine) (elapsed : Span) : Machine :=
  match m.here.external with
  | some i => m.enter i
  | none => { m with remaining := m.remaining.map (·.monus elapsed) }

/-- **The reaction to input.** -/
def react (m : Machine) (elapsed : Span) (inputs : Bags Payload) : Reply Machine Unit :=
  match m.here.faults.external with
  | some text => .raise m () (.raised text)
  | none =>
    -- The note grows while the ports are read, so a fault leaves its beginning.
    let m := { m with last := elapsed.plain }
    match m.readPorts inputs (m.here.read.getD m.interface.inputs) with
    | (m, some fault) => .raise m () fault
    | (m, none) =>
      let m := { m with
        last := m.last ++ " #" ++ toString inputs.size, externals := m.externals + 1 }
      { state := m.follow elapsed, answer := () }

/-- The transition when the time is over. -/
def turn (m : Machine) : Reply Machine Unit :=
  match m.here.faults.internal with
  | some text => .raise m () (.raised text)
  | none =>
    { state := { m.enter m.here.internal with internals := m.internals + 1 }, answer := () }

/-- The text of a machine. -/
def text (m : Machine) : String :=
  "fsm(s=" ++ toString m.current
    ++ " sigma=" ++ ((m.remaining.map Span.plain).getD "inf")
    ++ " int=" ++ toString m.internals
    ++ " ext=" ++ toString m.externals
    ++ " last=" ++ m.last ++ ")"

instance : AtomicModel Payload Machine where
  interface m := m.interface
  timeAdvance m :=
    { state := m, answer := m.remaining, fault := fault? m.here.faults.timeAdvance }
  output m := { state := m, answer := m.here.output, fault := fault? m.here.faults.output }
  internal m := m.turn
  external m elapsed inputs := m.react elapsed inputs
  render m :=
    match m.here.faults.render with
    | some text => .error (.raised text)
    | none => .ok m.text

end Machine

end DiscreteEvent
