/-
Atomic behaviour: what the author of a model writes.

A behaviour is given on a type `σ` of states, and different models of one tree
share that type (a tree of unlike models uses a sum of their states). Every
function answers with a `Reply`, so each of them may change the state, ask for
an interruption or fault; a model that only answers leaves the state as it is.

An output is a list of emissions which the engine writes into the output bags
one after the other. If the function faults, the emissions it lists were
written before.
-/
import DiscreteEvent.Bags
import DiscreteEvent.Reply
import DiscreteEvent.Time.Instant

set_option autoImplicit false

namespace DiscreteEvent

/-- Values that a model adds to one of its output bags. -/
structure Emission (τ : Type) [MessageType τ] where
  port : Port τ
  values : List (MessageType.Value port.type)

/-- **The contract of atomic models.** -/
class AtomicModel (τ : outParam Type) [MessageType τ] (σ : Type) where
  /-- The ports. They are read once, when the model becomes part of a tree. -/
  interface : σ → Interface τ
  /-- The time until the next event of its own; `none` if there is none. -/
  timeAdvance : σ → Reply σ (Option Span)
  /-- What is sent when the next event is due, before the transition. -/
  output : σ → Reply σ (List (Emission τ))
  /-- The transition of a due event. -/
  internal : σ → Reply σ Unit
  /-- The transition on input, with the time since the last transition. -/
  external : σ → Span → Bags τ → Reply σ Unit
  /-- The text of the state. -/
  render : σ → Except Fault String

variable {τ : Type} [MessageType τ]

/-- **Writing an output.** Emissions are added in order; the first one that the
bags refuse ends it, and those before it stay. -/
def Bags.write : Bags τ → List (Emission τ) → Bags τ × Option Fault
  | b, [] => (b, none)
  | b, e :: rest =>
    match b.extend e.port e.values with
    | .error fault => (b, some fault)
    | .ok b => b.write rest

end DiscreteEvent
