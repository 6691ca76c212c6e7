/-
Observation stations: observers for trying out models and engines.

A station writes a log of its own and hands records to one of two places: to a
recorder, or to the log. The way to the recorder can be disturbed on purpose,
to see what a fault of an observer does, and one port can be watched there.
-/
import DiscreteEvent.Observation.Observer

set_option autoImplicit false

namespace DiscreteEvent

/-- Where the records go. -/
inductive StationMode
  | nowhere
  | recorder
  | log
deriving DecidableEq

/-- A message record of the watched port: where, when and what. -/
structure Sighting where
  path : String
  time : Instant
  messages : List String

/-- **An observation station.** -/
structure Station where
  mode : StationMode := .nowhere
  recorder : Recorder := {}
  log : Log := {}
  /-- The number of the record that the station faults on. -/
  failAt : Option Nat := none
  /-- The number of records on their way to the recorder so far. -/
  received : Nat := 0
  watched : Option (Direction × String) := none
  sightings : Array Sighting := #[]

namespace Station

/-- What is seen of a record at the watched port. -/
def sight (s : Station) (r : Record) : Option Sighting :=
  s.watched.bind fun (direction, port) =>
    (r.messages? direction port).map fun messages => ⟨r.path, r.time, messages⟩

/-- Takes a record. -/
def take (r : Record) (s : Station) : Station × Option Fault :=
  match s.mode with
  | .nowhere => (s, none)
  | .log => ({ s with log := (Observer.observe r s.log).1 }, none)
  | .recorder =>
    -- The record that the station faults on counts, but goes nowhere.
    let s := { s with received := s.received + 1 }
    if s.failAt == some s.received then
      (s, some (.raised "observer failure"))
    else
      let sightings := match s.sight r with
        | some sighting => s.sightings.push sighting
        | none => s.sightings
      ({ s with sightings := sightings, recorder := (Observer.observe r s.recorder).1 }, none)

instance : Observer Station where
  enabled s :=
    match s.mode with
    | .nowhere => (false, s)
    | .recorder => (true, s)
    | .log => (s.log.keeps .debug, s)
  observe := take
  announce e s := { s with log := s.log.write e }

end Station

end DiscreteEvent
