/-
Components that pass messages on later: relays and servers.

Both keep the messages they receive in the order of reading. A relay sends all
of them together, a fixed delay after the first one came. A server sends one at
a time and needs a fixed time for each; while it is busy, new messages wait.
For both, input in the meantime takes nothing from the time that has passed.
-/
import DiscreteEvent.Components.Payload
import DiscreteEvent.Model.Behaviour

set_option autoImplicit false

namespace DiscreteEvent

/-- Messages that wait, and the time until something happens to them. -/
structure Waiting (type : Payload) where
  messages : List type.Carrier := []
  remaining : Span := .zero

namespace Waiting

variable {type : Payload}

/-- The time until something happens; nothing does if no message waits. -/
def timeAdvance (q : Waiting type) : Option Span :=
  if q.messages.isEmpty then none else some q.remaining

/-- More messages, `elapsed` after the last change. The time `delay` starts
with the first message. -/
def join (q : Waiting type) (delay elapsed : Span) (more : List type.Carrier) : Waiting type where
  messages := q.messages ++ more
  remaining := if q.messages.isEmpty then delay else q.remaining.monus elapsed

/-- The messages and the time. -/
def render (q : Waiting type) : String :=
  Text.list (q.messages.map type.render) ++ "," ++ q.remaining.plain

end Waiting

/-- A component that delays messages. -/
structure Relay where
  type : Payload
  delay : Span
  order : ReadOrder
  waiting : Waiting type := {}

namespace Relay

/-- Where messages come in. -/
abbrev input (r : Relay) : Port Payload := ⟨"in", r.type⟩

/-- Where messages are sent. -/
abbrev out (r : Relay) : Port Payload := ⟨"out", r.type⟩

/-- The reaction to input. -/
def react (r : Relay) (elapsed : Span) (inputs : Bags Payload) : Reply Relay Unit :=
  match r.order.read inputs r.input with
  | .error fault => .raise r () fault
  | .ok more => { state := { r with waiting := r.waiting.join r.delay elapsed more }, answer := () }

instance : AtomicModel Payload Relay where
  interface r := ⟨[r.input], [r.out]⟩
  timeAdvance r := { state := r, answer := r.waiting.timeAdvance }
  output r := { state := r, answer := [⟨r.out, r.waiting.messages⟩] }
  internal r := { state := { r with waiting := { r.waiting with messages := [] } }, answer := () }
  external r elapsed inputs := r.react elapsed inputs
  render r := .ok ("relay(" ++ r.waiting.render ++ ")")

end Relay

/-- A component that serves messages one by one. -/
structure Server where
  type : Payload
  service : Span
  order : ReadOrder
  waiting : Waiting type := {}

namespace Server

/-- Where messages come in. -/
abbrev input (s : Server) : Port Payload := ⟨"in", s.type⟩

/-- Where messages are sent. -/
abbrev out (s : Server) : Port Payload := ⟨"out", s.type⟩

/-- What is sent: the message that was served. -/
def served (s : Server) : List (Emission Payload) :=
  match s.waiting.messages with
  | [] => []
  | m :: _ => [⟨s.out, [m]⟩]

/-- The next message is served. -/
def turn (s : Server) : Server :=
  { s with waiting := ⟨s.waiting.messages.tail, s.service⟩ }

/-- The reaction to input. -/
def react (s : Server) (elapsed : Span) (inputs : Bags Payload) : Reply Server Unit :=
  match s.order.read inputs s.input with
  | .error fault => .raise s () fault
  | .ok more =>
    { state := { s with waiting := s.waiting.join s.service elapsed more }, answer := () }

instance : AtomicModel Payload Server where
  interface s := ⟨[s.input], [s.out]⟩
  timeAdvance s := { state := s, answer := s.waiting.timeAdvance }
  output s := { state := s, answer := s.served }
  internal s := { state := s.turn, answer := () }
  external s elapsed inputs := s.react elapsed inputs
  render s := .ok ("server(" ++ s.waiting.render ++ ")")

end Server

end DiscreteEvent
