/-
Components that send on their own account: generators, which repeat a value,
and counters, which count.

Both send at a fixed period and may have a limit. The number of events so far
is the whole state; from the limit on there is no further event. Input is
ignored, and neither has ports for any.
-/
import DiscreteEvent.Components.Payload
import DiscreteEvent.Model.Behaviour

set_option autoImplicit false

namespace DiscreteEvent

/-- The time until the next event of a source that has sent `count` times. -/
def sourceAdvance (period : Span) (limit : Option UInt64) (count : UInt64) : Option Span :=
  if limit.any (· ≤ count) then none else some period

/-- A source that sends one value again and again. -/
structure Generator where
  type : Payload
  value : type.Carrier
  period : Span
  limit : Option UInt64
  count : UInt64 := 0

namespace Generator

/-- Where the value is sent. -/
abbrev out (g : Generator) : Port Payload := ⟨"out", g.type⟩

instance : AtomicModel Payload Generator where
  interface g := ⟨[], [g.out]⟩
  timeAdvance g := { state := g, answer := sourceAdvance g.period g.limit g.count }
  output g := { state := g, answer := [⟨g.out, [g.value]⟩] }
  internal g := { state := { g with count := g.count + 1 }, answer := () }
  external g _ _ := { state := g, answer := () }
  render g := .ok s!"generator({g.count.toNat})"

end Generator

/-- A source that sends the number of its earlier events. -/
structure Counter where
  period : Span
  limit : Option UInt64
  count : UInt64 := 0

namespace Counter

/-- Where the count is sent. -/
def out : Port Payload := ⟨"out", .word64⟩

instance : AtomicModel Payload Counter where
  interface _ := ⟨[], [out]⟩
  timeAdvance c := { state := c, answer := sourceAdvance c.period c.limit c.count }
  output c := { state := c, answer := [⟨out, [c.count]⟩] }
  internal c := { state := { c with count := c.count + 1 }, answer := () }
  external c _ _ := { state := c, answer := () }
  render c := .ok s!"counter({c.count.toNat})"

end Counter

end DiscreteEvent
