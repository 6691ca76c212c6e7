/-
Trees of unlike components.

All atomic models of a tree share one type of states. `Component` is the sum of
the standard components; each function of the sum is the function of the part
that is there.
-/
import DiscreteEvent.Components.Machine
import DiscreteEvent.Components.Probes
import DiscreteEvent.Components.Queues
import DiscreteEvent.Components.Sources
import DiscreteEvent.Components.Sums

set_option autoImplicit false

namespace DiscreteEvent

/-- Any of the standard components. -/
inductive Component
  | generator (c : Generator)
  | counter (c : Counter)
  | accumulator (c : Accumulator)
  | doubler (c : Doubler)
  | relay (c : Relay)
  | server (c : Server)
  | countdown (c : Countdown)
  | logbook (c : Logbook)
  | stopper (c : Stopper)
  | machine (c : Machine)

namespace Component

/-- The ports. -/
def interface : Component → Interface Payload
  | generator c => AtomicModel.interface c
  | counter c => AtomicModel.interface c
  | accumulator c => AtomicModel.interface c
  | doubler c => AtomicModel.interface c
  | relay c => AtomicModel.interface c
  | server c => AtomicModel.interface c
  | countdown c => AtomicModel.interface c
  | logbook c => AtomicModel.interface c
  | stopper c => AtomicModel.interface c
  | machine c => AtomicModel.interface c

/-- The time until the next event. -/
def timeAdvance : Component → Reply Component (Option Span)
  | generator c => (AtomicModel.timeAdvance c).mapState generator
  | counter c => (AtomicModel.timeAdvance c).mapState counter
  | accumulator c => (AtomicModel.timeAdvance c).mapState accumulator
  | doubler c => (AtomicModel.timeAdvance c).mapState doubler
  | relay c => (AtomicModel.timeAdvance c).mapState relay
  | server c => (AtomicModel.timeAdvance c).mapState server
  | countdown c => (AtomicModel.timeAdvance c).mapState countdown
  | logbook c => (AtomicModel.timeAdvance c).mapState logbook
  | stopper c => (AtomicModel.timeAdvance c).mapState stopper
  | machine c => (AtomicModel.timeAdvance c).mapState machine

/-- What is sent. -/
def output : Component → Reply Component (List (Emission Payload))
  | generator c => (AtomicModel.output c).mapState generator
  | counter c => (AtomicModel.output c).mapState counter
  | accumulator c => (AtomicModel.output c).mapState accumulator
  | doubler c => (AtomicModel.output c).mapState doubler
  | relay c => (AtomicModel.output c).mapState relay
  | server c => (AtomicModel.output c).mapState server
  | countdown c => (AtomicModel.output c).mapState countdown
  | logbook c => (AtomicModel.output c).mapState logbook
  | stopper c => (AtomicModel.output c).mapState stopper
  | machine c => (AtomicModel.output c).mapState machine

/-- The transition of a due event. -/
def internal : Component → Reply Component Unit
  | generator c => (AtomicModel.internal c).mapState generator
  | counter c => (AtomicModel.internal c).mapState counter
  | accumulator c => (AtomicModel.internal c).mapState accumulator
  | doubler c => (AtomicModel.internal c).mapState doubler
  | relay c => (AtomicModel.internal c).mapState relay
  | server c => (AtomicModel.internal c).mapState server
  | countdown c => (AtomicModel.internal c).mapState countdown
  | logbook c => (AtomicModel.internal c).mapState logbook
  | stopper c => (AtomicModel.internal c).mapState stopper
  | machine c => (AtomicModel.internal c).mapState machine

/-- The transition on input. -/
def external (elapsed : Span) (inputs : Bags Payload) : Component → Reply Component Unit
  | generator c => (AtomicModel.external c elapsed inputs).mapState generator
  | counter c => (AtomicModel.external c elapsed inputs).mapState counter
  | accumulator c => (AtomicModel.external c elapsed inputs).mapState accumulator
  | doubler c => (AtomicModel.external c elapsed inputs).mapState doubler
  | relay c => (AtomicModel.external c elapsed inputs).mapState relay
  | server c => (AtomicModel.external c elapsed inputs).mapState server
  | countdown c => (AtomicModel.external c elapsed inputs).mapState countdown
  | logbook c => (AtomicModel.external c elapsed inputs).mapState logbook
  | stopper c => (AtomicModel.external c elapsed inputs).mapState stopper
  | machine c => (AtomicModel.external c elapsed inputs).mapState machine

/-- The text of the state. -/
def render : Component → Except Fault String
  | generator c => AtomicModel.render c
  | counter c => AtomicModel.render c
  | accumulator c => AtomicModel.render c
  | doubler c => AtomicModel.render c
  | relay c => AtomicModel.render c
  | server c => AtomicModel.render c
  | countdown c => AtomicModel.render c
  | logbook c => AtomicModel.render c
  | stopper c => AtomicModel.render c
  | machine c => AtomicModel.render c

instance : AtomicModel Payload Component where
  interface := interface
  timeAdvance := timeAdvance
  output := output
  internal := internal
  external c elapsed inputs := external elapsed inputs c
  render := render

end Component

end DiscreteEvent
