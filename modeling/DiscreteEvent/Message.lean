/-
Messages and their types.

Nothing in the library depends on what models send each other. A type `τ` of
*message types* says which values each of them has, how the type is called and
how a value is shown; all else is written over an arbitrary such `τ`. A
message is a value together with its type. Messages are stored in that form,
and `Message.value?` gives the value back to whoever knows the type.
-/
set_option autoImplicit false

namespace DiscreteEvent

/-- The message types of a simulation. -/
class MessageType (τ : Type) where
  /-- The values of a message type. -/
  Value : τ → Type
  /-- The name of a message type. -/
  name : τ → String
  /-- The text of a value. -/
  render : (type : τ) → Value type → String
  /-- Message types can be told apart. -/
  decEq : DecidableEq τ

instance {τ : Type} [MessageType τ] : DecidableEq τ := MessageType.decEq

/-- A message: a value of some message type. -/
structure Message (τ : Type) [MessageType τ] where
  type : τ
  value : MessageType.Value type

namespace Message

variable {τ : Type} [MessageType τ]

/-- The value of a message of the given type. -/
def value? (type : τ) (m : Message τ) : Option (MessageType.Value type) :=
  if h : m.type = type then some (h ▸ m.value) else none

@[simp]
theorem value?_mk (type : τ) (v : MessageType.Value type) :
    (Message.mk type v).value? type = some v := by
  simp [value?]

/-- The text of a message. -/
def render (m : Message τ) : String := MessageType.render m.type m.value

end Message

end DiscreteEvent
