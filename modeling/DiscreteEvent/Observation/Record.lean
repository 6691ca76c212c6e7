/-
Records: what an engine reports about one call.

A record says which engine did what at which time, the bounds of its current
window, the text of its state if it is atomic, and the texts of the messages
that the call used or made. Only ports with messages are listed.
-/
import DiscreteEvent.Bags
import DiscreteEvent.Time.Calendar

set_option autoImplicit false

namespace DiscreteEvent

/-- The calls that are reported. -/
inductive Phase
  | init
  | collect
  | advance
deriving DecidableEq

/-- The call as a word. -/
def Phase.display : Phase → String
  | init => "init"
  | collect => "collect"
  | advance => "advance"

/-- The messages on one port. -/
structure BagRecord where
  direction : Direction
  port : String
  messages : List String
deriving DecidableEq

/-- **A report about one call.** -/
structure Record where
  phase : Phase
  /-- The engine that was called. -/
  path : String
  /-- The time of the call. -/
  time : Instant
  /-- The last transition of the engine. -/
  last : Instant
  /-- The next event of the engine. -/
  next : Instant
  /-- The state, for atomic models. -/
  state : Option String
  bags : List BagRecord
deriving DecidableEq

namespace Record

/-- The messages reported for a port, unless there are none. -/
def messages? (r : Record) (direction : Direction) (port : String) : Option (List String) :=
  (r.bags.find? fun b => b.direction = direction && b.port == port).map (·.messages)

/-- The non-empty bags of one side, as a record lists them. -/
def bagsOf {τ : Type} [MessageType τ] (direction : Direction) (b : Bags τ) : List BagRecord :=
  b.render.map fun (port, messages) => ⟨direction, port, messages⟩

end Record

end DiscreteEvent
