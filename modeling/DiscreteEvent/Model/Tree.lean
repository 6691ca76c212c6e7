/-
Model trees.

The leaves of a tree are atomic models: an id, the interface and a state of a
type with atomic behaviour. The inner nodes are coupled models, which own
their children and link their ports. A tree is only data; the engines give it
life.
-/
import DiscreteEvent.Model.Behaviour
import DiscreteEvent.Model.Coupling
import DiscreteEvent.Model.Defect

set_option autoImplicit false

namespace DiscreteEvent

/-- An atomic model: a state under an id, with the ports it declared. -/
structure Atomic (τ σ : Type) where
  id : String
  interface : Interface τ
  state : σ

/-- A coupled model without its children. -/
structure Coupled (τ : Type) where
  id : String
  interface : Interface τ
  eic : List (Link BoundarySlot ChildSlot)
  eoc : List (Link ChildSlot BoundarySlot)
  ic : List (Link ChildSlot ChildSlot)

/-- A model: a single behaviour, or a network of models. -/
inductive Model (τ σ : Type) where
  | atomic (model : Atomic τ σ)
  | coupled (model : Coupled τ) (children : List (Model τ σ))

namespace Model

variable {τ σ : Type}

/-- The id of the root. -/
def id : Model τ σ → String
  | atomic a => a.id
  | coupled c _ => c.id

/-- The ports of the root. -/
def interface : Model τ σ → Interface τ
  | atomic a => a.interface
  | coupled c _ => c.interface

variable [MessageType τ] [AtomicModel τ σ]

/-- **An atomic model.** Its interface is asked for once, and it must not
declare a port twice. -/
def ofState (id : String) (state : σ) : Except Defect (Model τ σ) :=
  let interface := AtomicModel.interface state
  match interface.duplicate? with
  | some (direction, port) => .error (.duplicatePort id port direction)
  | none => .ok (.atomic ⟨id, interface, state⟩)

/-! ## Text -/

/-- An atomic model with the text of its state. -/
def inspectAtomic (a : Atomic τ σ) : Except Fault String := do
  let state ← AtomicModel.render a.state
  return Text.openRecord "Atomic" [("id", Text.quoted a.id), ("state", state)]

mutual

/-- A tree with the texts of all states. -/
def inspect : Model τ σ → Except Fault String
  | atomic a => return Text.tagged "Atomic" (← inspectAtomic a)
  | coupled c children => do
    let children ← inspectAll children
    return Text.tagged "Coupled" (Text.record "Coupled"
      [("id", Text.quoted c.id), ("children", Text.list children),
       ("eic", toString c.eic.length), ("eoc", toString c.eoc.length),
       ("ic", toString c.ic.length)])

/-- The texts of several trees. -/
def inspectAll : List (Model τ σ) → Except Fault (List String)
  | [] => return []
  | m :: rest => return (← inspect m) :: (← inspectAll rest)

end

end Model

end DiscreteEvent
