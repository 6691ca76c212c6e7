/-
Hubs: the inner nodes of an engine tree, which route messages.

A hub knows the places that its couplings join. It routes twice in a step.
After its children have shown their outputs, `gather` copies those that leave
the network into the outbox. Before the children advance, `deliveries` lists
what goes into their inboxes: first what they send each other, then what has
come from outside.

The order of the messages in a bag is the order of these routes. Outputs are
gathered child by child; the internal couplings are taken pair by pair, a pair
of children being served where it first occurs in the description. Within a
child or a pair the order of declaration remains.
-/
import DiscreteEvent.Engine.Node
import DiscreteEvent.Model.Tree

set_option autoImplicit false

namespace DiscreteEvent

/-- The inner node of an engine tree, without its children. -/
structure Hub (τ : Type) [MessageType τ] extends Node τ where
  eic : List (Link Nat Place)
  eoc : List (Link Place Nat)
  ic : List (Link Place Place)

/-! ## The order of routes -/

/-- A list rearranged by a key: the entries with the first key come first, then
those with the next key that is not yet used up, and so on. -/
def groupBy {α κ : Type} [BEq κ] (key : α → κ) (entries : List α) : List α :=
  (entries.map key).eraseDups.flatMap fun k => entries.filter (key · == k)

/-- A list rearranged by keys below `n`, smaller keys first. -/
def sortBelow {α : Type} (n : Nat) (key : α → Nat) (entries : List α) : List α :=
  (List.range n).flatMap fun k => entries.filter (key · == k)

/-- **A transfer** copies the messages of one bag for another one of the same type. -/
def transfer {τ : Type} [MessageType τ] (source destination : Option (Bag τ)) :
    Except Fault (List (Message τ)) :=
  match source, destination with
  | some source, some destination =>
    if source.port.type = destination.port.type then .ok source.messages
    else .error (.messageType (MessageType.name destination.port.type))
  | _, _ => .error .missingPlace

namespace Hub

variable {τ : Type} [MessageType τ]

/-- The hub of a coupled model with the given number of children. -/
def ofCoupled (parent : Option String) (c : Coupled τ) (children : Nat) : Hub τ :=
  { Node.create parent c.id c.interface with
    eic := c.eic.map fun l => ⟨l.source.place, l.destination.place⟩
    eoc := sortBelow children (·.source.child)
      (c.eoc.map fun l => ⟨l.source.place, l.destination.place⟩)
    ic := groupBy (fun l => (l.source.child, l.destination.child))
      (c.ic.map fun l => ⟨l.source.place, l.destination.place⟩) }

/-- Puts messages into the inbox, in order. -/
def receive (h : Hub τ) (mail : List (Delivery τ)) : Hub τ :=
  { h with toNode := h.toNode.receive mail }

/-! ## Routing -/

/-- An output bag of a child. -/
def outputAt (children : List (Node τ)) (p : Place) : Option (Bag τ) :=
  children[p.child]?.bind fun n => n.outbox.list[p.port]?

/-- An input bag of a child. -/
def inputAt (children : List (Node τ)) (p : Place) : Option (Bag τ) :=
  children[p.child]?.bind fun n => n.inbox.list[p.port]?

/-- Adds what one external output coupling carries to the output bags. -/
def gatherOne (children : List (Node τ)) (outbox : Bags τ) (l : Link Place Nat) :
    Except Fault (Bags τ) := do
  let messages ← transfer (outputAt children l.source) outbox.list[l.destination]?
  return outbox.append l.destination messages

/-- **What leaves the network**: the outputs of the children behind external
output couplings, added to the outbox. -/
def gather (h : Hub τ) (children : List (Node τ)) : Except Fault (Bags τ) :=
  h.eoc.foldlM (gatherOne children) h.outbox

/-- What one internal coupling carries. -/
def deliverInternal (children : List (Node τ)) (l : Link Place Place) :
    Except Fault (Delivery τ) := do
  if l.source.child = l.destination.child then
    throw .sharedPlace
  let messages ← transfer (outputAt children l.source) (inputAt children l.destination)
  return ⟨l.destination.child, l.destination.port, messages⟩

/-- What one external input coupling carries. -/
def deliverInput (h : Hub τ) (children : List (Node τ)) (l : Link Nat Place) :
    Except Fault (Delivery τ) := do
  let messages ← transfer h.inbox.list[l.source]? (inputAt children l.destination)
  return ⟨l.destination.child, l.destination.port, messages⟩

/-- **What enters the children**: the outputs of their siblings, and then the
input of the network. -/
def deliveries (h : Hub τ) (children : List (Node τ)) : Except Fault (List (Delivery τ)) := do
  -- A bag takes the messages of siblings first; what came from outside follows them.
  let fromSiblings ← h.ic.mapM (deliverInternal children)
  let fromOutside ← h.eic.mapM (h.deliverInput children)
  return fromSiblings ++ fromOutside

/-- The part of the deliveries that is for one child. -/
def mailFor (deliveries : List (Delivery τ)) (child : Nat) : List (Delivery τ) :=
  deliveries.filter (·.child == child)

/-- The earliest next event; the last instant if there is none. -/
def earliest (children : List (Node τ)) : Instant :=
  (children.map (·.next)).foldr min .max

/-! ## Reports -/

/-- Reports a call that the hub has just completed. -/
def report {ω : Type} [Observer ω] (h : Hub τ) (phase : Phase) (t : Instant)
    (bags : List BagRecord) (w : World ω) : Outcome (Hub τ) ω :=
  let (w, fault) := w.report phase h.path t h.last h.next none bags
  ⟨h, w, fault.map .fault⟩

end Hub

end DiscreteEvent
