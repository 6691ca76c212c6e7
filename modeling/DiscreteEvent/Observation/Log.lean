/-
The log: a list of lines, each with a level, a text and named values.

A log keeps the lines up to its level and drops the others when they are
written. Records go to the log through `Event.ofRecord`; a record without
messages is worth the finest level only.
-/
import DiscreteEvent.Observation.Record

set_option autoImplicit false

namespace DiscreteEvent

/-- How much a line of the log matters. -/
inductive Level
  | error
  | warn
  | info
  | debug
  | trace
deriving DecidableEq

namespace Level

/-- Rank by detail, the coarsest level first. -/
def rank : Level → Nat
  | error => 1
  | warn => 2
  | info => 3
  | debug => 4
  | trace => 5

/-- The level as a word. -/
def display : Level → String
  | error => "ERROR"
  | warn => "WARN"
  | info => "INFO"
  | debug => "DEBUG"
  | trace => "TRACE"

end Level

/-- A line of the log. -/
structure Event where
  level : Level
  message : String
  fields : List (String × String)
deriving DecidableEq

namespace Event

/-- One bag of a record: `input:port=[a, b]`. -/
def bagText (b : BagRecord) : String :=
  b.direction.display ++ ":" ++ b.port ++ "=" ++ Text.list b.messages

/-- **The line for a record.** -/
def ofRecord (r : Record) : Event :=
  let common := [("model", r.path), ("time", r.time.display), ("next", r.next.display)]
    ++ (r.state.map fun s => ("state", s)).toList
  if r.bags.isEmpty then ⟨.trace, r.phase.display, common⟩
  else ⟨.debug, r.phase.display, common ++ [("bags", " ".intercalate (r.bags.map bagText))]⟩

end Event

/-- The lines written so far, and the finest level that is kept. -/
structure Log where
  limit : Option Level := none
  events : Array Event := #[]

namespace Log

/-- Whether lines of a level are kept. -/
def keeps (log : Log) (level : Level) : Bool :=
  match log.limit with
  | none => false
  | some limit => level.rank ≤ limit.rank

/-- Writes a line, if its level is kept. -/
def write (log : Log) (e : Event) : Log :=
  if log.keeps e.level then { log with events := log.events.push e } else log

end Log

end DiscreteEvent
