/-
Outcomes: what a call on an engine leaves behind.

A call changes the engine and the world, and it may stop before its end,
because it was refused or because client code faulted. What was done before
is done. So the outcome of a call is the state it left, together with the
reason for which it stopped, if it did; `andThen` goes on with a second call
only where the first one came to its end.
-/
import DiscreteEvent.Engine.Violation
import DiscreteEvent.Observation.Observer

set_option autoImplicit false

namespace DiscreteEvent

/-- Why a call stopped before its end. -/
inductive Stop
  | violation (v : Violation)
  | fault (f : Fault)
deriving DecidableEq

/-- **What a call leaves behind.** -/
structure Outcome (ε ω : Type) where
  state : ε
  world : World ω
  stop : Option Stop

namespace Outcome

variable {ε δ ω : Type}

/-- A call that came to its end. -/
def done (state : ε) (world : World ω) : Outcome ε ω := ⟨state, world, none⟩

/-- A call that was refused. -/
def refused (state : ε) (world : World ω) (v : Violation) : Outcome ε ω :=
  ⟨state, world, some (.violation v)⟩

/-- A call that was broken off. -/
def broken (state : ε) (world : World ω) (f : Fault) : Outcome ε ω :=
  ⟨state, world, some (.fault f)⟩

/-- The same outcome, seen as part of a larger state. -/
def map (f : ε → δ) (o : Outcome ε ω) : Outcome δ ω := ⟨f o.state, o.world, o.stop⟩

/-- One call after another, unless the first one stops. -/
def andThen (o : Outcome ε ω) (next : ε → World ω → Outcome ε ω) : Outcome ε ω :=
  match o.stop with
  | none => next o.state o.world
  | some _ => o

@[simp]
theorem andThen_done (s : ε) (w : World ω) (next : ε → World ω → Outcome ε ω) :
    (done s w).andThen next = next s w := rfl

theorem andThen_of_stop {o : Outcome ε ω} {s : Stop} (h : o.stop = some s)
    (next : ε → World ω → Outcome ε ω) : o.andThen next = o := by
  simp only [andThen, h]

end Outcome

end DiscreteEvent
