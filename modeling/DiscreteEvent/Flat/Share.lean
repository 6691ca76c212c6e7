/-
Shares: how work is divided.

Each worker has a run of consecutive items. The runs follow each other without
gaps, because the end of one share is the same quotient as the start of the
next.
-/
set_option autoImplicit false

namespace DiscreteEvent.Share

/-- The first item of a worker's share. -/
def start (items workers worker : Nat) : Nat := worker * items / workers

/-- **The share of a worker**: the places of its items, in order. -/
def items (count workers worker : Nat) : List Nat :=
  List.range' (start count workers worker)
    (start count workers (worker + 1) - start count workers worker)

/-- How many workers there are for a number of leaves: as many as wished for,
but not more than leaves, and at least one. -/
def workers (wished leaves : Nat) : Nat := max (min wished leaves) 1

end DiscreteEvent.Share
