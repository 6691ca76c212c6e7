/-
The pacer: the supervisor of timed runs.

Before each step the pacer asks four questions, in this order. Is the next
event out of the range of the run, or have enough steps been taken? Was the
run asked to stop? Is the simulation in time for its clock? Only the first
question is free; the clock is asked only when the answer to both of the
others was no, and then exactly once. A lag stops the run only if it exceeds
the tolerance; without a tolerance every lag is accepted. After each step the
progress report is called.
-/
import DiscreteEvent.Clock.Basic
import DiscreteEvent.Engine.Run

set_option autoImplicit false

namespace DiscreteEvent

/-- **The contract of progress reports.** -/
class Progress (ρ : Type) where
  /-- The step at `t` of a run up to `limit` is done. -/
  stepped : (t limit : Instant) → ρ → Reply ρ Unit

/-- The pacer of one run. -/
structure Pacer (κ ρ : Type) where
  /-- Events from here on are out of the range of the run. -/
  limit : Instant
  /-- How many steps may still be taken, if their number is limited. -/
  stepsLeft : Option Nat
  clock : κ
  /-- The greatest lag that is accepted, if there is one. -/
  tolerance : Option Span
  /-- Whether the run heeds the wish to stop. -/
  interruptible : Bool
  progress : Option ρ
  /-- The lag that ended the run. -/
  lag : Option Span := none
  /-- Whether the wish to stop ended the run. -/
  interrupted : Bool := false

namespace Pacer

variable {κ ρ : Type}

/-- Whether the step at `next` is out of the range of the run. -/
def outOfRange (p : Pacer κ ρ) (next : Instant) : Bool :=
  p.limit ≤ next || next.isInfinite || p.stepsLeft == some 0

/-- The lag, if it is too great. -/
def excess (p : Pacer κ ρ) : SyncStatus → Option Span
  | .synchronized => none
  | .outOfSync lag => if p.tolerance.any (· < lag) then some lag else none

/-- **The decision about a step.** -/
def proceed [Clock κ] (next : Instant) (interrupted : Bool) (p : Pacer κ ρ) :
    Reply (Pacer κ ρ) Bool :=
  if p.outOfRange next then
    { state := p, answer := false }
  else if p.interruptible && interrupted then
    { state := { p with interrupted := true }, answer := false }
  else
    -- From here on the clock has been called, whatever the decision is.
    let r := Clock.synchronize next p.clock
    let p := { p with clock := r.state }
    match p.excess r.answer with
    | some lag =>
      { state := { p with lag := some lag }, answer := false,
        interrupts := r.interrupts, fault := r.fault }
    | none =>
      { state := { p with stepsLeft := p.stepsLeft.map (· - 1) }, answer := true,
        interrupts := r.interrupts, fault := r.fault }

/-- The report about a step. -/
def completed [Progress ρ] (t : Instant) (p : Pacer κ ρ) : Reply (Pacer κ ρ) Unit :=
  match p.progress with
  | none => { state := p, answer := () }
  | some progress =>
    (Progress.stepped t p.limit progress).mapState fun progress =>
      { p with progress := some progress }

instance [Clock κ] [Progress ρ] : Supervisor (Pacer κ ρ) where
  proceed := proceed
  completed := completed

end Pacer

end DiscreteEvent
