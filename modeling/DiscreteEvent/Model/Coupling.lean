/-
Couplings: directed links between the ports of a coupled model and its
children.

There are three kinds. An external input coupling (EIC) leads from an input of
the coupled model to an input of a child, an external output coupling (EOC)
from an output of a child to an output of the coupled model, and an internal
coupling (IC) from an output of one child to an input of another. The kind of
a link is the pair of types of its ends.

In a description the ends are names. In a model they are slots: the name and,
beside it, where the named thing was found.
-/
import DiscreteEvent.Text.Inspect

set_option autoImplicit false

namespace DiscreteEvent

/-! ## Ends -/

/-- A port of the coupled model itself, by name. -/
structure BoundaryPort where
  port : String
deriving DecidableEq

/-- A port of a child, by names. -/
structure ChildPort where
  child : String
  port : String
deriving DecidableEq

/-- Where a port of a child is: the place of the child among the children,
and the place of the port there. -/
structure Place where
  child : Nat
  port : Nat
deriving DecidableEq

/-- A port of the coupled model, and its place there. -/
structure BoundarySlot where
  named : BoundaryPort
  place : Nat
deriving DecidableEq

/-- A port of a child, and its place. -/
structure ChildSlot where
  named : ChildPort
  place : Place
deriving DecidableEq

/-- What both kinds of ends have: a port, and a child unless it is the
coupled model itself. -/
class LinkEnd (ε : Type) where
  model? : ε → Option String
  port : ε → String

instance : LinkEnd BoundaryPort := ⟨fun _ => none, BoundaryPort.port⟩
instance : LinkEnd ChildPort := ⟨fun e => some e.child, ChildPort.port⟩
instance : LinkEnd BoundarySlot := ⟨fun _ => none, fun e => e.named.port⟩
instance : LinkEnd ChildSlot := ⟨fun e => some e.named.child, fun e => e.named.port⟩

namespace LinkEnd

variable {ε : Type} [LinkEnd ε]

/-- The port, after the child it belongs to. -/
def display (e : ε) : String :=
  match model? e with
  | some model => model ++ "." ++ port e
  | none => port e

/-- The parts of an end. -/
def inspect (e : ε) : String :=
  Text.record "Endpoint"
    [("model", Text.optional ((model? e).map Text.quoted)), ("port", Text.quoted (port e))]

end LinkEnd

/-! ## Links -/

/-- A link from one end to another. -/
structure Link (α β : Type) where
  source : α
  destination : β
deriving DecidableEq

namespace Link

variable {α β : Type} [LinkEnd α] [LinkEnd β]

/-- A link as an arrow. -/
def display (l : Link α β) : String :=
  LinkEnd.display l.source ++ " -> " ++ LinkEnd.display l.destination

/-- The ends of a link. -/
def inspect (l : Link α β) : String :=
  Text.record "Declared"
    [("source", LinkEnd.inspect l.source), ("destination", LinkEnd.inspect l.destination)]

end Link

end DiscreteEvent
