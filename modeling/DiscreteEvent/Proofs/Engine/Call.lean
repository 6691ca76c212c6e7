/-
Calls on the root of an engine tree, and the states they lead to.

A client drives an engine by four calls: it initializes it, puts messages into
the inbox of the root, collects and advances. `Engine.perform` is one such call
and `Engine.Reached` says which states a sequence of them leads to, in any order
and at any times. A refused call counts as well. What does not count is a call
that was broken off by a fault: it leaves a step half done.

Between two calls the client may do what it likes with the world, read the
observer or reset the interruption, so every call starts in a world of its own.
-/
import DiscreteEvent.Proofs.Engine.Traversal

set_option autoImplicit false

namespace DiscreteEvent

/-- A call on the root of an engine tree. -/
inductive Call (τ : Type) [MessageType τ]
  | init (t : Instant)
  /-- Messages are put into the inbox, all at one port. -/
  | inject (port : Port τ) (values : List (MessageType.Value port.type))
  | collect (t : Instant)
  | advance (t : Instant)

namespace Engine

variable {τ σ ω : Type} [MessageType τ] [AtomicModel τ σ] [Observer ω]

/-- **One call.** An injection is broken off if the root has no such port. -/
def perform (e : Engine τ σ) (w : World ω) : Call τ → Outcome (Engine τ σ) ω
  | .init t => e.init t w
  | .inject port values =>
    match e.node.inbox.extend port values with
    | .error fault => .broken e w fault
    | .ok inbox => .done (e.withInbox inbox) w
  | .collect t => e.collect t w
  | .advance t => e.advance t w

/-- **The states of an engine of `m` after its initialization.** The first
constructor is the first initialization, whatever the inbox holds by then; it
may be repeated later on. -/
inductive Reached (ω : Type) [Observer ω] (m : Model τ σ) : Engine τ σ → Prop
  | init {inbox : Bags τ} {t : Instant} {w : World ω}
      (h : (((ofModel m).withInbox inbox).init t w).Unbroken) :
      Reached ω m (((ofModel m).withInbox inbox).init t w).state
  | call {e : Engine τ σ} {c : Call τ} {w : World ω} (he : Reached ω m e)
      (h : (e.perform w c).Unbroken) : Reached ω m (e.perform w c).state

end Engine

end DiscreteEvent
