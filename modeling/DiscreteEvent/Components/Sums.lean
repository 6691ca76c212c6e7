/-
Components that add up what they receive: accumulators and doublers.

An accumulator is silent until it is reset; then it sends the sum and starts
again from zero. A doubler sends its value at a fixed period and doubles it
each time; what it receives is added. Sums are 64-bit words and wrap around, so
neither depends on the order in which it reads.
-/
import DiscreteEvent.Components.Payload
import DiscreteEvent.Model.Behaviour

set_option autoImplicit false

namespace DiscreteEvent

/-- A sum of words. -/
def sumWords (words : List UInt64) : UInt64 := words.foldl (· + ·) 0

/-- A component that sends the sum of its input when it is reset. -/
structure Accumulator where
  total : UInt64 := 0
  /-- Whether the sum is to be sent. -/
  pending : Bool := false

namespace Accumulator

/-- Where the summands come in. -/
def add : Port Payload := ⟨"add", .word64⟩

/-- Where the resets come in. -/
def reset : Port Payload := ⟨"reset", .signal⟩

/-- Where the sum is sent. -/
def sum : Port Payload := ⟨"sum", .word64⟩

/-- The reaction to input. -/
def react (a : Accumulator) (inputs : Bags Payload) : Reply Accumulator Unit :=
  match inputs.get add with
  | .error fault => .raise a () fault
  | .ok words =>
    let a := { a with total := a.total + sumWords words }
    match inputs.get reset with
    | .error fault => .raise a () fault
    | .ok resets => { state := { a with pending := a.pending || !resets.isEmpty }, answer := () }

instance : AtomicModel Payload Accumulator where
  interface _ := ⟨[add, reset], [sum]⟩
  timeAdvance a := { state := a, answer := if a.pending then some .zero else none }
  output a := { state := a, answer := [⟨sum, [a.total]⟩] }
  internal _ := { state := ⟨0, false⟩, answer := () }
  external a _ inputs := a.react inputs
  render a := .ok ("accumulator(" ++ toString a.total.toNat ++ "," ++ Text.truth a.pending ++ ")")

end Accumulator

/-- A component that sends its value periodically and doubles it. -/
structure Doubler where
  period : Span
  value : UInt64

namespace Doubler

/-- Where the summands come in. -/
def add : Port Payload := ⟨"add", .word64⟩

/-- Where the value is sent. -/
def out : Port Payload := ⟨"out", .word64⟩

/-- The reaction to input. -/
def react (d : Doubler) (inputs : Bags Payload) : Reply Doubler Unit :=
  match inputs.get add with
  | .error fault => .raise d () fault
  | .ok words => { state := { d with value := d.value + sumWords words }, answer := () }

instance : AtomicModel Payload Doubler where
  interface _ := ⟨[add], [out]⟩
  timeAdvance d := { state := d, answer := some d.period }
  output d := { state := d, answer := [⟨out, [d.value]⟩] }
  internal d := { state := { d with value := d.value * 2 }, answer := () }
  external d _ inputs := d.react inputs
  render d := .ok s!"doubler({d.value.toNat})"

end Doubler

end DiscreteEvent
