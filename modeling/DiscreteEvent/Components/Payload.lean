/-
The message types of the standard components.

They are numbers of three widths, truth values, text, lists and optional
numbers, and the signal that carries nothing. Each of them can be shown, and
each is ordered, so that messages which came in an accidental order can be
read in a fixed one.
-/
import DiscreteEvent.Bags

set_option autoImplicit false

namespace DiscreteEvent

/-- The message types of the standard components. -/
inductive Payload
  | signal
  | truth
  | word32
  | word64
  | integer
  | text
  | integers
  | optional
deriving DecidableEq

namespace Payload

/-- The values of a message type. -/
abbrev Carrier : Payload → Type
  | signal => Unit
  | truth => Bool
  | word32 => UInt32
  | word64 => UInt64
  | integer => Int64
  | text => String
  | integers => List Int64
  | optional => Option UInt32

/-- The name of a message type. -/
def name : Payload → String
  | signal => "()"
  | truth => "bool"
  | word32 => "u32"
  | word64 => "u64"
  | integer => "i64"
  | text => "alloc::string::String"
  | integers => "alloc::vec::Vec<i64>"
  | optional => "core::option::Option<u32>"

/-- The text of a value. -/
def render : (type : Payload) → Carrier type → String
  | signal, _ => "()"
  | truth, b => Text.truth b
  | word32, n => toString n.toNat
  | word64, n => toString n.toNat
  | integer, n => toString n.toInt
  | text, s => Text.quoted s
  | integers, ns => Text.list (ns.map fun n => toString n.toInt)
  | optional, n => Text.optional (n.map fun n => toString n.toNat)

instance : MessageType Payload where
  Value := Carrier
  name := name
  render := render
  decEq := inferInstance

/-! ## Order -/

/-- The order of lists, in which the first difference decides. -/
def listLe : List Int64 → List Int64 → Bool
  | [], _ => true
  | _ :: _, [] => false
  | a :: as, b :: bs => a < b || (a == b && listLe as bs)

/-- **The order of values**: false before true, text by its characters, lists by
their first difference, and nothing before something. -/
def le : (type : Payload) → Carrier type → Carrier type → Bool
  | signal, _, _ => true
  | truth, a, b => !a || b
  | word32, a, b => a ≤ b
  | word64, a, b => a ≤ b
  | integer, a, b => a ≤ b
  | text, a, b => !(b < a)
  | integers, a, b => listLe a b
  | optional, none, _ => true
  | optional, some _, none => false
  | optional, some a, some b => a ≤ b

end Payload

/-- In which order a component reads the messages on a port. -/
inductive ReadOrder
  /-- As they came. -/
  | arrival
  /-- The least value first. -/
  | ascending
deriving DecidableEq

namespace ReadOrder

/-- Values in the order in which they are read. -/
def arrange (order : ReadOrder) (type : Payload) (values : List type.Carrier) :
    List type.Carrier :=
  match order with
  | arrival => values
  | ascending => values.mergeSort type.le

/-- **Reading a port.** -/
def read (order : ReadOrder) (b : Bags Payload) (p : Port Payload) :
    Except Fault (List p.type.Carrier) :=
  (b.get p).map (order.arrange p.type)

end ReadOrder

end DiscreteEvent
