/-
Nodes: what every engine keeps, whether it drives an atomic model or a network.

A node has its place in the tree (an id, and the path of ids that leads to
it), its window from the last transition to the next event, and the messages
at its boundary. The two rules of stepping are decided on nodes alone: outputs
may be collected up to the next event, and the node may be advanced to any
time inside of its window.
-/
import DiscreteEvent.Engine.Outcome

set_option autoImplicit false

namespace DiscreteEvent

/-- What every engine keeps. -/
structure Node (τ : Type) [MessageType τ] where
  id : String
  path : String
  last : Instant
  next : Instant
  initialized : Bool
  inbox : Bags τ
  outbox : Bags τ

/-- The path of a model below a parent. -/
def childPath (parent : Option String) (id : String) : String :=
  match parent with
  | some parent => parent ++ "." ++ id
  | none => id

/-- Messages on their way into a port of a child. -/
structure Delivery (τ : Type) [MessageType τ] where
  child : Nat
  port : Nat
  messages : List (Message τ)

namespace Node

variable {τ : Type} [MessageType τ]

/-- A node that has not been initialized. -/
def create (parent : Option String) (id : String) (i : Interface τ) : Node τ where
  id := id
  path := childPath parent id
  last := .epoch
  next := .max
  initialized := false
  inbox := .ofInterface i .input
  outbox := .ofInterface i .output

/-- Whether an event is due at `t`. No event is ever due at the last instant. -/
def isImminent (n : Node τ) (t : Instant) : Bool := t == n.next && !t.isInfinite

/-- Why outputs cannot be collected at `t`, if they cannot. -/
def refuseCollect (n : Node τ) (t : Instant) : Option Violation :=
  if !n.initialized then some (.uninitialized n.path)
  else if n.next < t then some (.collectOutOfWindow n.path t n.next)
  else none

/-- Why the node cannot be advanced to `t`, if it cannot. -/
def refuseAdvance (n : Node τ) (t : Instant) : Option Violation :=
  if !n.initialized then some (.uninitialized n.path)
  else if t < n.last ∨ n.next < t then some (.advanceOutOfWindow n.path t n.last n.next)
  else none

/-- Puts messages into the inbox, in order. -/
def receive (n : Node τ) (mail : List (Delivery τ)) : Node τ :=
  { n with inbox := mail.foldl (fun b d => b.append d.port d.messages) n.inbox }

end Node

end DiscreteEvent
