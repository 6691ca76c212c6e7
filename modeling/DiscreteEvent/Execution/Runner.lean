/-
Runners: initialized simulations, ready to be advanced.

A runner owns its engine, its clock and its world. It can be run up to a time,
run until no event is left, or taken through single steps. A run begins by
withdrawing an earlier wish to stop; a single step neither withdraws it nor
heeds it. The milestones of runs go to the log.
-/
import DiscreteEvent.Execution.Error
import DiscreteEvent.Execution.Pacer
import DiscreteEvent.Flat.Crew

set_option autoImplicit false

namespace DiscreteEvent

/-! ## Engines of both kinds -/

/-- The engine of a simulation. -/
inductive Backend (τ σ : Type) [MessageType τ] where
  | sequential (engine : Engine τ σ)
  | parallel (crew : Crew τ σ)

namespace Backend

variable {τ σ ω π : Type} [MessageType τ]

/-- The last transition. -/
def last : Backend τ σ → Instant
  | sequential e => e.last
  | parallel c => c.last

/-- The next event. -/
def next : Backend τ σ → Instant
  | sequential e => e.next
  | parallel c => c.next

/-- The path of the root. -/
def path : Backend τ σ → String
  | sequential e => e.node.path
  | parallel c => c.path

/-- The number of workers. -/
def workers : Backend τ σ → Nat
  | sequential _ => 1
  | parallel c => c.workers

/-- The messages that wait at the root. -/
def inbox : Backend τ σ → Bags τ
  | sequential e => e.node.inbox
  | parallel c => c.inbox

/-- The engine with other messages that wait at the root. -/
def withInbox (inbox : Bags τ) : Backend τ σ → Backend τ σ
  | sequential e => sequential (e.withInbox inbox)
  | parallel c => parallel { c with inbox := inbox }

variable [AtomicModel τ σ] [Observer ω]

/-- Initialization at `t`. -/
def init (t : Instant) (b : Backend τ σ) (w : World ω) : Outcome (Backend τ σ) ω :=
  match b with
  | sequential e => (e.init t w).map sequential
  | parallel c => (c.init t w).map parallel

/-- Running under a supervisor, with a limit on its decisions. -/
def run [Supervisor π] (decisions : Nat) (b : Backend τ σ) (p : π) (w : World ω) :
    Option (Outcome (Backend τ σ × π) ω) :=
  match b with
  | sequential e => (e.run decisions p w).map fun o => o.map fun s => (sequential s.1, s.2)
  | parallel c => (c.run decisions p w).map fun o => o.map fun s => (parallel s.1, s.2)

/-- The engine with its parts. -/
def inspect : Backend τ σ → Except Fault String
  | sequential e => return Text.tagged "Sequential" (← e.inspect)
  | parallel c => return Text.tagged "Parallel" c.inspect

end Backend

/-! ## Runners -/

/-- **An initialized simulation.** -/
structure Runner (τ σ ω κ ρ : Type) [MessageType τ] where
  backend : Backend τ σ
  clock : κ
  tolerance : Option Span
  progress : Option ρ
  world : World ω

namespace Runner

variable {τ σ ω κ ρ : Type} [MessageType τ]

/-- The last transition. -/
def lastTime (r : Runner τ σ ω κ ρ) : Instant := r.backend.last

/-- The next event. -/
def nextTime (r : Runner τ σ ω κ ρ) : Instant := r.backend.next

/-- Asks the current run to stop. -/
def interrupt (r : Runner τ σ ω κ ρ) : Runner τ σ ω κ ρ :=
  { r with world := { r.world with interrupted := true } }

variable [AtomicModel τ σ] [Observer ω]

/-- Writes a line about the root into the log. -/
def announce (r : Runner τ σ ω κ ρ) (level : Level) (message : String) : Runner τ σ ω κ ρ :=
  { r with world := r.world.announce ⟨level, message, [("model", r.backend.path)]⟩ }

/-- What the end of the engine's run means. -/
def conclude (r : Runner τ σ ω κ ρ) (stop : Option Stop) (lag : Option Span)
    (interrupted : Bool) : Runner τ σ ω κ ρ × Except Halt Unit :=
  match stop with
  | some (.fault fault) => (r, .error (.fault fault))
  | some (.violation v) =>
    let event : Event := ⟨.error, "simulation aborted: " ++ v.display, [("model", v.model)]⟩
    ({ r with world := r.world.announce event }, .error (.error (.simulation v)))
  | none =>
    match lag with
    | some lag =>
      (r.announce .error ("simulation lagging " ++ lag.inspect ++ " behind the clock at "
          ++ r.nextTime.display),
        .error (.error (.outOfSync lag)))
    | none =>
      if interrupted then
        (r.announce .debug ("simulation interrupted before " ++ r.nextTime.display), .ok ())
      else
        (r, .ok ())

variable [Clock κ] [Progress ρ]

/-- Runs the engine under a pacer. -/
def drive (decisions : Nat) (limit : Instant) (steps : Option Nat) (interruptible : Bool)
    (r : Runner τ σ ω κ ρ) : Option (Runner τ σ ω κ ρ × Except Halt Unit) :=
  let pacer : Pacer κ ρ :=
    { limit := limit, stepsLeft := steps, clock := r.clock, tolerance := r.tolerance,
      interruptible := interruptible, progress := r.progress }
  (r.backend.run decisions pacer r.world).map fun o =>
    let pacer := o.state.2
    let r := { r with
      backend := o.state.1, clock := pacer.clock, progress := pacer.progress, world := o.world }
    r.conclude o.stop pacer.lag pacer.interrupted

/-- **Running up to a time.** The answer is the time of the next event. -/
def runUntil (decisions : Nat) (limit : Instant) (r : Runner τ σ ω κ ρ) :
    Option (Runner τ σ ω κ ρ × Except Halt Instant) :=
  -- A wish from before this run does not concern it.
  let r := { r with world := { r.world with interrupted := false } }
  let r := r.announce .debug ("running until " ++ limit.display)
  (r.drive decisions limit none true).map fun (r, result) =>
    match result with
    | .error halt => (r, .error halt)
    | .ok () =>
      let r := r.announce .debug ("run ended at " ++ r.lastTime.display ++ ", next event at "
        ++ r.nextTime.display)
      (r, .ok r.nextTime)

/-- Running until no event is left. -/
def runUntilPassive (decisions : Nat) (r : Runner τ σ ω κ ρ) :
    Option (Runner τ σ ω κ ρ × Except Halt Instant) :=
  r.runUntil decisions .max

/-- **A single step.** The answer is its time; there is none if no event is left. -/
def step (decisions : Nat) (r : Runner τ σ ω κ ρ) :
    Option (Runner τ σ ω κ ρ × Except Halt (Option Instant)) :=
  let t := r.nextTime
  if t.isInfinite then
    some (r, .ok none)
  else
    (r.drive decisions .max (some 1) false).map fun (r, result) =>
      (r, result.map fun () => some t)

/-- The runner with the parts of its engine. -/
def inspect (r : Runner τ σ ω κ ρ) : Except Fault String := do
  let backend ← r.backend.inspect
  return Text.openRecord "Runner"
    [("backend", backend),
     ("clock_tolerance", Text.optional (r.tolerance.map Span.inspect))]

end Runner

end DiscreteEvent
