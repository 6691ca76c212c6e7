/-
Scripted surroundings of a run: clocks and progress reports that answer what
was written down for them beforehand, and that remember how they were called.

`StillWall` is a wall clock on which time stands still but for what the
program itself does: each reading takes a microsecond, and sleeping takes as
long as it takes. With it the clocks that follow a wall clock can be tried out
in no time.
-/
import DiscreteEvent.Clock.Anchor
import DiscreteEvent.Execution.Pacer

set_option autoImplicit false

namespace DiscreteEvent

/-! ## Clocks -/

/-- One answer of a scripted clock. -/
inductive ClockEntry
  | answer (status : SyncStatus)
  | fail (text : String)

/-- A clock with answers for its first calls; after them it is in time. -/
structure ScriptedClock where
  script : List ClockEntry
  /-- The deadlines it was called with. -/
  deadlines : Array Instant := #[]

instance : Clock ScriptedClock where
  synchronize deadline c :=
    let entry := c.script[c.deadlines.size]?
    let c := { c with deadlines := c.deadlines.push deadline }
    match entry with
    | none => { state := c, answer := .synchronized }
    | some (.answer status) => { state := c, answer := status }
    | some (.fail text) => .raise c .synchronized (.raised text)

/-- A wall clock that only the program itself moves. -/
structure StillWall where
  now : Int := 0

instance : WallClock StillWall where
  read w := (w.now + 1000, ⟨w.now + 1000⟩)
  sleep time w := ⟨w.now + time.ticks⟩

/-- Any of the clocks. -/
inductive AnyClock
  | unpaced (clock : NoClock)
  | scripted (clock : ScriptedClock)
  | anchored (clock : AnchoredClock StillWall)
  | auto (clock : AutoClock StillWall)

namespace AnyClock

/-- Waits for a deadline. -/
def synchronize (deadline : Instant) : AnyClock → Reply AnyClock SyncStatus
  | unpaced c => (Clock.synchronize deadline c).mapState unpaced
  | scripted c => (Clock.synchronize deadline c).mapState scripted
  | anchored c => (Clock.synchronize deadline c).mapState anchored
  | auto c => (Clock.synchronize deadline c).mapState auto

instance : Clock AnyClock := ⟨synchronize⟩

/-- The deadlines that a scripted clock was called with. -/
def deadlines : AnyClock → Array Instant
  | scripted c => c.deadlines
  | _ => #[]

/-- The reading of the wall clock, if the clock follows one. -/
def wallNow : AnyClock → Int
  | anchored c => c.wall.now
  | auto c => c.wall.now
  | _ => 0

/-- The clock that is anchored at `simulation` when its wall clock shows
`offset` nanoseconds more than now. -/
def atReading (simulation : Instant) (offset : Int) : AnyClock :=
  let (now, wall) := WallClock.read ({} : StillWall)
  anchored ⟨⟨simulation, now + offset⟩, wall⟩

/-- The clock that is anchored at `simulation` when the system time is
`offset` nanoseconds later than now. -/
def atSystemTime (simulation : Instant) (offset : Int) : Except Fault AnyClock := do
  let (wallNow, wall) := WallClock.read ({} : StillWall)
  let (systemNow, wall) := WallClock.read wall
  let anchor ← Anchor.ofSystemTime simulation offset systemNow wallNow
  return anchored ⟨anchor, wall⟩

end AnyClock

/-! ## Progress reports -/

/-- A progress report that may ask for an interruption at one of its calls,
and fault at one. -/
structure ScriptedProgress where
  failAt : Option Nat := none
  stopAt : Option Nat := none
  /-- The time of each step, and the end of its run. -/
  calls : Array (Instant × Instant) := #[]

instance : Progress ScriptedProgress where
  stepped t limit p :=
    let p := { p with calls := p.calls.push (t, limit) }
    { state := p
      answer := ()
      interrupts := p.stopAt == some p.calls.size
      fault := if p.failAt == some p.calls.size then some (.raised "progress failure") else none }

end DiscreteEvent
