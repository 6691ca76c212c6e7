/-
Ports and interfaces.

A port is a name and the type of the messages that pass there. Two ports with
one name and different types are different ports, but a model must not declare
both in one direction: which of them a name means would then depend on who
asks. `Interface.duplicate?` finds the first such name, and
`duplicate?_eq_none_iff` says that it misses none.
-/
import DiscreteEvent.Message
import DiscreteEvent.Text.Inspect

set_option autoImplicit false

namespace DiscreteEvent

/-- The two sides of a model. -/
inductive Direction
  | input
  | output
deriving DecidableEq

namespace Direction

/-- The direction as a word. -/
def display : Direction → String
  | input => "input"
  | output => "output"

/-- The direction as a tag. -/
def inspect : Direction → String
  | input => "Input"
  | output => "Output"

/-- The other side. -/
def opposite : Direction → Direction
  | input => output
  | output => input

end Direction

/-- A named place where messages of one type pass. -/
structure Port (τ : Type) where
  name : String
  type : τ
deriving DecidableEq

namespace Port

variable {τ : Type} [MessageType τ]

private def portParts (p : Port τ) : List (String × String) :=
  [("name", Text.quoted p.name), ("message_type", Text.quoted (MessageType.name p.type))]

/-- A port as a handle that models hold. -/
def inspect (p : Port τ) : String := Text.record "Port" p.portParts

/-- A port as an entry of an interface. -/
def inspectDeclared (p : Port τ) : String := Text.record "PortDecl" p.portParts

end Port

/-- The ports of a model, in the order of their declaration. -/
structure Interface (τ : Type) where
  inputs : List (Port τ)
  outputs : List (Port τ)

namespace Interface

variable {τ : Type}

/-- The interface without ports. -/
def empty : Interface τ := ⟨[], []⟩

/-- The ports on one side. -/
def ports (i : Interface τ) : Direction → List (Port τ)
  | .input => i.inputs
  | .output => i.outputs

/-- The place of the first port with the given name. -/
def position? (i : Interface τ) (direction : Direction) (name : String) : Option Nat :=
  (i.ports direction).findIdx? (·.name == name)

/-! ## Names that are declared twice -/

/-- The first name in a list that occurred before, given the names seen so far. -/
def firstRepeated (seen : List String) : List String → Option String
  | [] => none
  | name :: rest =>
    if name ∈ seen then some name else firstRepeated (name :: seen) rest

theorem firstRepeated_eq_none_iff (seen names : List String) :
    firstRepeated seen names = none ↔ names.Nodup ∧ ∀ n ∈ names, n ∉ seen := by
  induction names generalizing seen with
  | nil => simp [firstRepeated]
  | cons n ns ih =>
    by_cases h : n ∈ seen
    · simp [firstRepeated, h]
    · simp only [firstRepeated, h, if_false, ih, List.nodup_cons, List.mem_cons, not_or]
      constructor
      · intro ⟨hd, hs⟩
        refine ⟨⟨fun hn => (hs n hn).1 rfl, hd⟩, ?_⟩
        rintro m (rfl | hm)
        · exact h
        · exact (hs m hm).2
      · intro ⟨⟨hn, hd⟩, hs⟩
        exact ⟨hd, fun m hm => ⟨fun e => hn (e ▸ hm), hs m (.inr hm)⟩⟩

/-- **The first port that is declared twice**, inputs before outputs. -/
def duplicate? (i : Interface τ) : Option (Direction × String) :=
  match firstRepeated [] (i.inputs.map (·.name)) with
  | some name => some (.input, name)
  | none =>
    match firstRepeated [] (i.outputs.map (·.name)) with
    | some name => some (.output, name)
    | none => none

theorem duplicate?_eq_none_iff (i : Interface τ) :
    i.duplicate? = none ↔
      (i.inputs.map (·.name)).Nodup ∧ (i.outputs.map (·.name)).Nodup := by
  have hi := firstRepeated_eq_none_iff [] (i.inputs.map (·.name))
  have ho := firstRepeated_eq_none_iff [] (i.outputs.map (·.name))
  simp only [List.not_mem_nil, not_false_eq_true, implies_true, and_true] at hi ho
  rw [← hi, ← ho]
  unfold duplicate?
  split
  case h_1 name h => simp [h]
  case h_2 h => split <;> simp_all

/-! ## Text -/

/-- Both sides of an interface. -/
def inspect [MessageType τ] (i : Interface τ) : String :=
  Text.record "Interface"
    [("inputs", Text.list (i.inputs.map Port.inspectDeclared)),
     ("outputs", Text.list (i.outputs.map Port.inspectDeclared))]

end Interface

end DiscreteEvent
