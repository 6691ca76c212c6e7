/-
Blueprints: descriptions of coupled models, and the check that makes models
out of them.

A blueprint names everything it refers to. `Blueprint.build` looks the names
up and either returns the model, in which every name is replaced by its place,
or the first defect: first the ports of the boundary, then the ids of the
children, then the couplings, which are checked kind by kind in the order of
their declaration. Within a coupling the source comes before the destination,
and both come before what concerns the pair of them.
-/
import DiscreteEvent.Model.Tree

set_option autoImplicit false

namespace DiscreteEvent

/-- The description of a coupled model. -/
structure Blueprint (τ σ : Type) where
  id : String
  interface : Interface τ := .empty
  children : List (Model τ σ) := []
  eic : List (Link BoundaryPort ChildPort) := []
  eoc : List (Link ChildPort BoundaryPort) := []
  ic : List (Link ChildPort ChildPort) := []

namespace Blueprint

variable {τ σ : Type}

/-! ## Looking up names -/

/-- The place and declaration of a port of the model `id` with the given interface. -/
def locatePort (id : String) (i : Interface τ) (direction : Direction) (name : String) :
    Except Defect (Nat × Port τ) :=
  match (i.ports direction).findIdx? (·.name == name) with
  | some place =>
    match (i.ports direction)[place]? with
    | some port => .ok (place, port)
    | none => .error (.unknownPort id name direction)
  | none =>
    match i.position? direction.opposite name with
    | some _ => .error (.portDirection id name direction)
    | none => .error (.unknownPort id name direction)

/-- A port of the boundary. -/
def locateBoundary (b : Blueprint τ σ) (direction : Direction) (e : BoundaryPort) :
    Except Defect (BoundarySlot × Port τ) := do
  let (place, port) ← locatePort b.id b.interface direction e.port
  return (⟨e, place⟩, port)

/-- A port of a child. -/
def locateChild (b : Blueprint τ σ) (direction : Direction) (e : ChildPort) :
    Except Defect (ChildSlot × Port τ) :=
  match b.children.findIdx? (·.id == e.child) with
  | none => .error (.unknownModel b.id e.child)
  | some child =>
    match b.children[child]? with
    | none => .error (.unknownModel b.id e.child)
    | some model => do
      let (place, port) ← locatePort e.child model.interface direction e.port
      return (⟨e, child, place⟩, port)

/-- An end with the model that it belongs to, which for a port of the
boundary is the coupled model itself. -/
def qualified {ε : Type} [LinkEnd ε] (b : Blueprint τ σ) (e : ε) : String :=
  match LinkEnd.model? e with
  | some _ => LinkEnd.display e
  | none => b.id ++ "." ++ LinkEnd.port e

/-! ## Couplings -/

variable [MessageType τ]

/-- Both ends of a link must carry messages of one type. -/
def checkTypes {α β : Type} [LinkEnd α] [LinkEnd β] (b : Blueprint τ σ) (l : Link α β)
    (source destination : Port τ) : Except Defect Unit :=
  if source.type = destination.type then .ok ()
  else .error (.portTypeMismatch
    (b.qualified l.source) (MessageType.name source.type)
    (b.qualified l.destination) (MessageType.name destination.type))

/-- The slots of an external input coupling. -/
def resolveInput (b : Blueprint τ σ) (l : Link BoundaryPort ChildPort) :
    Except Defect (Link BoundarySlot ChildSlot) := do
  let (source, sourcePort) ← b.locateBoundary .input l.source
  let (destination, destinationPort) ← b.locateChild .input l.destination
  b.checkTypes l sourcePort destinationPort
  return ⟨source, destination⟩

/-- The slots of an external output coupling. -/
def resolveOutput (b : Blueprint τ σ) (l : Link ChildPort BoundaryPort) :
    Except Defect (Link ChildSlot BoundarySlot) := do
  let (source, sourcePort) ← b.locateChild .output l.source
  let (destination, destinationPort) ← b.locateBoundary .output l.destination
  b.checkTypes l sourcePort destinationPort
  return ⟨source, destination⟩

/-- The slots of an internal coupling, which must not join a child to itself. -/
def resolveInternal (b : Blueprint τ σ) (l : Link ChildPort ChildPort) :
    Except Defect (Link ChildSlot ChildSlot) := do
  let (source, sourcePort) ← b.locateChild .output l.source
  let (destination, destinationPort) ← b.locateChild .input l.destination
  if source.place.child = destination.place.child then
    throw (.selfLoop b.id l.source.child)
  b.checkTypes l sourcePort destinationPort
  return ⟨source, destination⟩

/-! ## Assembly -/

/-- The boundary must not declare a port twice. -/
def checkBoundary (b : Blueprint τ σ) : Except Defect Unit :=
  match b.interface.duplicate? with
  | some (direction, port) => .error (.duplicatePort b.id port direction)
  | none => .ok ()

/-- The children must have different ids. -/
def checkChildren (b : Blueprint τ σ) : Except Defect Unit :=
  match Interface.firstRepeated [] (b.children.map Model.id) with
  | some id => .error (.duplicateModelId b.id id)
  | none => .ok ()

/-- **Assembling a coupled model**, or the first defect of its description. -/
def build (b : Blueprint τ σ) : Except Defect (Model τ σ) := do
  b.checkBoundary
  b.checkChildren
  let eic ← b.eic.mapM b.resolveInput
  let eoc ← b.eoc.mapM b.resolveOutput
  let ic ← b.ic.mapM b.resolveInternal
  return .coupled ⟨b.id, b.interface, eic, eoc, ic⟩ b.children

/-! ## Text -/

/-- A blueprint with the trees of its children. -/
def inspect [AtomicModel τ σ] (b : Blueprint τ σ) : Except Fault String := do
  let children ← Model.inspectAll b.children
  return Text.record "CoupledBuilder"
    [("id", Text.quoted b.id), ("interface", b.interface.inspect),
     ("children", Text.list children), ("eic", Text.list (b.eic.map Link.inspect)),
     ("eoc", Text.list (b.eoc.map Link.inspect)), ("ic", Text.list (b.ic.map Link.inspect))]

end Blueprint

end DiscreteEvent
