/-
Bags: the messages of one instant on one side of a model.

There is one bag for each declared port, in the order of declaration, and a
bag keeps its messages in the order of their arrival. Clients name a port; the
bag is the first one of that name, and it must hold messages of the type that
the client has in mind. Engines, which resolved all names beforehand, use the
place of a bag instead.

Both ways in come down to `Bags.append`, which changes one bag and adds at its
end; `messagesAt_append` says so for all places at once.
-/
import DiscreteEvent.Fault
import DiscreteEvent.Port

set_option autoImplicit false

namespace DiscreteEvent

/-- The messages on one port. -/
structure Bag (τ : Type) [MessageType τ] where
  port : Port τ
  messages : List (Message τ)

/-- The messages on all ports of one side. -/
structure Bags (τ : Type) [MessageType τ] where
  list : List (Bag τ)

namespace Bags

variable {τ : Type} [MessageType τ]

/-- No messages on the given ports. -/
def ofPorts (ports : List (Port τ)) : Bags τ := ⟨ports.map fun p => ⟨p, []⟩⟩

/-- No messages on the ports of one side of an interface. -/
def ofInterface (i : Interface τ) (direction : Direction) : Bags τ :=
  ofPorts (i.ports direction)

/-! ## Sizes -/

/-- The number of messages on all ports together. -/
def size (b : Bags τ) : Nat := (b.list.flatMap (·.messages)).length

/-- Whether there is no message on any port. -/
def isEmpty (b : Bags τ) : Bool := b.list.all (·.messages.isEmpty)

/-- The same ports without messages. -/
def clear (b : Bags τ) : Bags τ := ⟨b.list.map fun bag => { bag with messages := [] }⟩

/-! ## By name -/

/-- The place of the bag that a port means: the first one with its name. -/
def place? (b : Bags τ) (name : String) : Option Nat :=
  b.list.findIdx? (·.port.name == name)

/-- The bag that a port means, if it holds messages of the port's type. -/
def find (b : Bags τ) (p : Port τ) : Except Fault (Nat × Bag τ) :=
  match b.place? p.name with
  | none => .error (.undeclaredPort p.name)
  | some i =>
    match b.list[i]? with
    | none => .error (.undeclaredPort p.name)
    | some bag =>
      if bag.port.type = p.type then .ok (i, bag)
      else .error (.messageType (MessageType.name p.type))

/-- The values on a port, in the order of their arrival. -/
def get (b : Bags τ) (p : Port τ) : Except Fault (List (MessageType.Value p.type)) :=
  match b.find p with
  | .error fault => .error fault
  | .ok (_, bag) => .ok (bag.messages.filterMap (Message.value? p.type))

/-- Adds messages to the bag at a place, at its end. -/
def append (b : Bags τ) (place : Nat) (messages : List (Message τ)) : Bags τ :=
  ⟨b.list.modify place fun bag => { bag with messages := bag.messages ++ messages }⟩

/-- **Adding values.** The values come after those that are on the port
already; a port that is not declared is refused even when there is no value. -/
def extend (b : Bags τ) (p : Port τ) (values : List (MessageType.Value p.type)) :
    Except Fault (Bags τ) :=
  match b.find p with
  | .error fault => .error fault
  | .ok (i, _) => .ok (b.append i (values.map (Message.mk p.type)))

/-- Adds one value. -/
def push (b : Bags τ) (p : Port τ) (value : MessageType.Value p.type) :
    Except Fault (Bags τ) :=
  b.extend p [value]

/-! ## By place -/

/-- The messages at a place; there are none at a place that does not exist. -/
def messagesAt (b : Bags τ) (place : Nat) : List (Message τ) :=
  match b.list[place]? with
  | none => []
  | some bag => bag.messages

@[simp]
theorem length_append (b : Bags τ) (i : Nat) (ms : List (Message τ)) :
    (b.append i ms).list.length = b.list.length := by
  simp [append]

theorem messagesAt_append (b : Bags τ) (i j : Nat) (ms : List (Message τ))
    (hi : i < b.list.length) :
    (b.append i ms).messagesAt j = b.messagesAt j ++ if i = j then ms else [] := by
  unfold messagesAt append
  by_cases h : i = j
  · subst h
    simp [List.getElem?_eq_getElem hi]
  · simp [List.getElem?_modify_ne _ _ h, h]

/-! ## Text -/

/-- The ports that have messages, in the order of declaration, with the texts
of their messages. -/
def render (b : Bags τ) : List (String × List String) :=
  (b.list.filter fun bag => !bag.messages.isEmpty).map fun bag =>
    (bag.port.name, bag.messages.map Message.render)

/-- All ports with the quoted texts of their messages. -/
def inspect (b : Bags τ) : String :=
  Text.dictionary (b.list.map fun bag =>
    (bag.port.name, Text.list (bag.messages.map fun m => Text.quoted m.render)))

end Bags

end DiscreteEvent
