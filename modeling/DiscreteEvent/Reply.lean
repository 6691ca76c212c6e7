/-
The calling convention of client code.

The engines call code that they know nothing about: the functions of atomic
models, clocks, progress reports and the supervisors of a run. All of it
answers with a `Reply`. A reply always carries the state that the call left
behind, also when the call ended in a fault, and it says whether the call
asked for the current run to be interrupted.
-/
import DiscreteEvent.Fault

set_option autoImplicit false

namespace DiscreteEvent

/-- **What a call of client code leaves behind.** The answer counts only if
there is no fault. -/
structure Reply (σ α : Type) where
  /-- The state after the call. -/
  state : σ
  /-- What the call says. -/
  answer : α
  /-- Whether the call asked for the run to be interrupted. -/
  interrupts : Bool := false
  /-- Why the call was broken off, if it was. -/
  fault : Option Fault := none

namespace Reply

variable {σ τ α : Type}

/-- The same reply about a larger state. -/
def mapState (f : σ → τ) (r : Reply σ α) : Reply τ α where
  state := f r.state
  answer := r.answer
  interrupts := r.interrupts
  fault := r.fault

/-- A call that is broken off without having done anything else. -/
def raise (state : σ) (answer : α) (fault : Fault) : Reply σ α where
  state := state
  answer := answer
  fault := some fault

end Reply

end DiscreteEvent
