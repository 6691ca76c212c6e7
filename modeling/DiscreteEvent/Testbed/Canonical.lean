/-
Records in a fixed order.

Workers report in an order that depends on their speed, and the messages in a
bag come in the order in which routes were followed. The canonical form of a
list of records forgets both: it sorts records by time, path and call, and the
texts of each bag among themselves.
-/
import DiscreteEvent.Observation.Record

set_option autoImplicit false

namespace DiscreteEvent

namespace Record

/-- The record with the texts of each bag sorted. -/
def canonical (r : Record) : Record :=
  { r with bags := r.bags.map fun b =>
      { b with messages := b.messages.mergeSort fun x y => !(y < x) } }

/-- Whether one record comes before another, or takes the same rank. -/
def notAfter (a b : Record) : Bool :=
  if a.time ≠ b.time then a.time < b.time
  else if a.path ≠ b.path then a.path < b.path
  else !(b.phase.display < a.phase.display)

/-- **The canonical form** of a list of records. -/
def canonicalList (records : List Record) : List Record :=
  (records.map canonical).mergeSort notAfter

end Record

end DiscreteEvent
