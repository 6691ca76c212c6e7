/-
Components that serve the observation of a simulation: logbooks, which note
what they receive, countdowns, which send a number back less one and fault on
zero, and stoppers, which ask for the run to be interrupted after a number of
events.
-/
import DiscreteEvent.Components.Payload
import DiscreteEvent.Model.Behaviour

set_option autoImplicit false

namespace DiscreteEvent

/-- A component that notes all messages with the time of their arrival. -/
structure Logbook where
  type : Payload
  order : ReadOrder
  /-- The time since the start, added up. -/
  now : Span := .zero
  entries : List (type.Carrier × Span) := []

namespace Logbook

/-- Where messages come in. -/
abbrev input (l : Logbook) : Port Payload := ⟨"in", l.type⟩

/-- The reaction to input. -/
def react (l : Logbook) (elapsed : Span) (inputs : Bags Payload) : Reply Logbook Unit :=
  match l.now.add? elapsed with
  | none => .raise l () .spanTooLong
  | some now =>
    let l := { l with now := now }
    match l.order.read inputs l.input with
    | .error fault => .raise l () fault
    | .ok more =>
      { state := { l with entries := l.entries ++ more.map fun m => (m, now) }, answer := () }

/-- One entry, as it is shown. -/
def entryText (l : Logbook) (e : l.type.Carrier × Span) : String :=
  l.type.render e.1 ++ "@" ++ e.2.plain

instance : AtomicModel Payload Logbook where
  interface l := ⟨[l.input], []⟩
  timeAdvance l := { state := l, answer := none }
  output l := { state := l, answer := [] }
  internal l := { state := l, answer := () }
  external l elapsed inputs := l.react elapsed inputs
  render l := .ok ("recorder(" ++ " ".intercalate (l.entries.map l.entryText) ++ ")")

end Logbook

/-- A component that sends each number back, less one. -/
structure Countdown where
  delay : Span
  order : ReadOrder
  pending : Option UInt64 := none

namespace Countdown

/-- Where numbers come in. -/
def input : Port Payload := ⟨"in", .word64⟩

/-- Where numbers are sent. -/
def out : Port Payload := ⟨"out", .word64⟩

/-- The reaction to numbers, one after the other. There is nothing below zero. -/
def count (c : Countdown) : List UInt64 → Reply Countdown Unit
  | [] => { state := c, answer := () }
  | n :: rest =>
    if n = 0 then .raise c () (.raised "test message")
    else { c with pending := some (n - 1) }.count rest

/-- The reaction to input. -/
def react (c : Countdown) (inputs : Bags Payload) : Reply Countdown Unit :=
  match c.order.read inputs input with
  | .error fault => .raise c () fault
  | .ok numbers => c.count numbers

instance : AtomicModel Payload Countdown where
  interface _ := ⟨[input], [out]⟩
  timeAdvance c := { state := c, answer := c.pending.map fun _ => c.delay }
  output c := { state := c, answer := (c.pending.map fun n => ⟨out, [n]⟩).toList }
  internal c := { state := { c with pending := none }, answer := () }
  external c _ inputs := c.react inputs
  render c := .ok ("countdown(" ++
    (match c.pending with
      | none => "-"
      | some n => toString n.toNat) ++ ")")

end Countdown

/-- A component that asks for an interruption when `mark` events remain. -/
structure Stopper where
  period : Span
  remaining : UInt64
  mark : UInt64

namespace Stopper

/-- One event. -/
def turn (s : Stopper) : Reply Stopper Unit :=
  let s := { s with remaining := s.remaining - 1 }
  { state := s, answer := (), interrupts := s.remaining == s.mark }

instance : AtomicModel Payload Stopper where
  interface _ := .empty
  timeAdvance s := { state := s, answer := if 0 < s.remaining then some s.period else none }
  output s := { state := s, answer := [] }
  internal s := s.turn
  external s _ _ := { state := s, answer := () }
  render s := .ok s!"stopper({s.remaining.toNat})"

end Stopper

end DiscreteEvent
