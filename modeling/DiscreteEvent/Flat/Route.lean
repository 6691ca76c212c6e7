/-
Routes: a model tree without its inner nodes.

What a network does is determined by its leaves and by the ways that messages
can take between them. A way from an output of a leaf leads up through external
output couplings, across one internal coupling and down through external input
couplings. Flattening a tree replaces every such chain by a single route, and
likewise the chains that lead in from the root or out to it. A chain that can
be formed in several ways, because a coupling was declared twice or because
several couplings meet again, gives that many routes.

The leaves are numbered in the order of the tree. A part of a flattened tree
knows its internal routes and, for each port at its boundary, the ports of
leaves that a message reaches from there or comes from.
-/
import DiscreteEvent.Engine.Leaf

set_option autoImplicit false

namespace DiscreteEvent

/-- A port of a leaf, by the number of the leaf. -/
structure LeafPort where
  leaf : Nat
  port : Nat
deriving DecidableEq

/-- Where a route begins. -/
inductive RouteSource
  | leaf (origin : LeafPort)
  | rootInput (port : Nat)
deriving DecidableEq

/-- Where a route ends. -/
inductive RouteTarget
  | leaf (destination : LeafPort)
  | rootOutput (port : Nat)
deriving DecidableEq

/-- A chain of couplings, reduced to its ends. -/
structure Route where
  source : RouteSource
  target : RouteTarget
deriving DecidableEq

/-- A flattened tree below some parent. -/
structure FlatPart (τ σ : Type) [MessageType τ] where
  leaves : List (Leaf τ σ)
  /-- The routes between leaves of this part. -/
  routes : List Route
  /-- For each input, where its messages go. -/
  inputs : List (List LeafPort)
  /-- For each output, where its messages come from. -/
  outputs : List (List LeafPort)

namespace FlatPart

variable {τ σ : Type} [MessageType τ]

/-- An atomic model, which becomes leaf number `number`. -/
def ofAtomic (parent : Option String) (number : Nat) (a : Atomic τ σ) : FlatPart τ σ where
  leaves := [.ofAtomic parent a]
  routes := []
  inputs := (List.range a.interface.inputs.length).map fun port => [⟨number, port⟩]
  outputs := (List.range a.interface.outputs.length).map fun port => [⟨number, port⟩]

/-- The ports of leaves behind an input of a child. -/
def behindInput (children : List (FlatPart τ σ)) (p : Place) : List LeafPort :=
  (children[p.child]?.bind fun part => part.inputs[p.port]?).getD []

/-- The ports of leaves behind an output of a child. -/
def behindOutput (children : List (FlatPart τ σ)) (p : Place) : List LeafPort :=
  (children[p.child]?.bind fun part => part.outputs[p.port]?).getD []

/-- All routes that cross one internal coupling. -/
def crossing (children : List (FlatPart τ σ)) (l : Link ChildSlot ChildSlot) : List Route :=
  (behindOutput children l.source.place).flatMap fun origin =>
    (behindInput children l.destination.place).map fun target =>
      ⟨.leaf origin, .leaf target⟩

/-- **A network** whose children are flattened. -/
def join (c : Coupled τ) (children : List (FlatPart τ σ)) : FlatPart τ σ where
  leaves := children.flatMap (·.leaves)
  routes := children.flatMap (·.routes) ++ c.ic.flatMap (crossing children)
  inputs := (List.range c.interface.inputs.length).map fun port =>
    (c.eic.filter (·.source.place == port)).flatMap fun l =>
      behindInput children l.destination.place
  outputs := (List.range c.interface.outputs.length).map fun port =>
    (c.eoc.filter (·.destination.place == port)).flatMap fun l =>
      behindOutput children l.source.place

mutual

/-- **Flattening** a model below the given parent; its first leaf is number `number`. -/
def ofModel (parent : Option String) (number : Nat) : Model τ σ → FlatPart τ σ
  | .atomic a => ofAtomic parent number a
  | .coupled c children => join c (ofModels (childPath parent c.id) number children)

/-- Flattening several children of one parent. -/
def ofModels (parent : String) (number : Nat) : List (Model τ σ) → List (FlatPart τ σ)
  | [] => []
  | m :: rest =>
    let part := ofModel (some parent) number m
    part :: ofModels parent (number + part.leaves.length) rest

end

/-- The routes from the inputs of the root. -/
def entering (part : FlatPart τ σ) : List Route :=
  part.inputs.zipIdx.flatMap fun (targets, port) =>
    targets.map fun target => ⟨.rootInput port, .leaf target⟩

/-- The routes to the outputs of the root. -/
def leaving (part : FlatPart τ σ) : List Route :=
  part.outputs.zipIdx.flatMap fun (origins, port) =>
    origins.map fun origin => ⟨.leaf origin, .rootOutput port⟩

/-- **All routes of a whole tree**: those inside, those in, and those out. -/
def allRoutes (part : FlatPart τ σ) : List Route :=
  part.routes ++ part.entering ++ part.leaving

end FlatPart

end DiscreteEvent
