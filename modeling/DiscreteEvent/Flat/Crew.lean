/-
Crews: the flat engine, whose steps are shared among workers.

A step has four phases. All workers collect the outputs of their leaves; all
copy the messages of their routes; all advance their leaves, and each notes the
earliest next event among them; then the leader combines these notes, reports
the step as one call on the root and lets the supervisor decide. A phase begins
only when the one before it is finished everywhere. Within a phase the workers
touch different leaves, or add messages to bags, whose order alone depends on who
is faster. The functions here fix one order: worker by worker.

A worker whose phase stops early makes a note of the reason, and from then on
no phase is begun. The leader still closes the step and reports it before the
run ends. A fault takes precedence over a refusal, and in both the first one
noted counts.
-/
import DiscreteEvent.Engine.Run
import DiscreteEvent.Flat.Route
import DiscreteEvent.Flat.Share

set_option autoImplicit false

namespace DiscreteEvent

/-- **A flat engine.** -/
structure Crew (τ σ : Type) [MessageType τ] where
  path : String
  leaves : List (Leaf τ σ)
  routes : List Route
  workers : Nat
  last : Instant
  next : Instant
  initialized : Bool
  inbox : Bags τ
  outbox : Bags τ

namespace Crew

variable {τ σ ω : Type} [MessageType τ]

/-- The flat engine of a model, with the wished number of workers. -/
def ofModel (wished : Nat) (m : Model τ σ) : Crew τ σ :=
  let part := FlatPart.ofModel none 0 m
  { path := childPath none m.id
    leaves := part.leaves
    routes := part.allRoutes
    workers := Share.workers wished part.leaves.length
    last := .epoch
    next := .max
    initialized := false
    inbox := .ofInterface m.interface .input
    outbox := .ofInterface m.interface .output }

/-- A call on one leaf. -/
def onLeaf (c : Crew τ σ) (i : Nat) (call : Leaf τ σ → World ω → Outcome (Leaf τ σ) ω)
    (w : World ω) : Outcome (Crew τ σ) ω :=
  match c.leaves[i]? with
  | none => .broken c w .missingPlace
  | some l => (call l w).map fun l => { c with leaves := c.leaves.set i l }

/-- Calls on several leaves, one after the other. -/
def onLeaves (call : Leaf τ σ → World ω → Outcome (Leaf τ σ) ω) (c : Crew τ σ)
    (places : List Nat) (w : World ω) : Outcome (Crew τ σ) ω :=
  places.foldl (fun o i => o.andThen fun c w => c.onLeaf i call w) (.done c w)

/-! ## Routing -/

/-- The bag at the beginning of a route. -/
def sourceBag (c : Crew τ σ) : RouteSource → Option (Bag τ)
  | .leaf p => c.leaves[p.leaf]?.bind fun l => l.outbox.list[p.port]?
  | .rootInput port => c.inbox.list[port]?

/-- The bag at the end of a route. -/
def targetBag (c : Crew τ σ) : RouteTarget → Option (Bag τ)
  | .leaf p => c.leaves[p.leaf]?.bind fun l => l.inbox.list[p.port]?
  | .rootOutput port => c.outbox.list[port]?

/-- Adds messages to the bag at the end of a route. -/
def deposit (c : Crew τ σ) (target : RouteTarget) (messages : List (Message τ)) : Crew τ σ :=
  match target with
  | .leaf p =>
    { c with leaves := c.leaves.modify p.leaf fun l =>
        { l with inbox := l.inbox.append p.port messages } }
  | .rootOutput port => { c with outbox := c.outbox.append port messages }

/-- **Following a route**: its messages are copied from one end to the other. -/
def follow (c : Crew τ σ) (r : Route) : Except Fault (Crew τ σ) :=
  (transfer (c.sourceBag r.source) (c.targetBag r.target)).map (c.deposit r.target)

/-- Following several routes, one after the other. -/
def followAll (c : Crew τ σ) (routes : List Route) (w : World ω) : Outcome (Crew τ σ) ω :=
  routes.foldl
    (fun o r => o.andThen fun c w =>
      match c.follow r with
      | .error fault => .broken c w fault
      | .ok c => .done c w)
    (.done c w)

/-! ## Reports -/

variable [AtomicModel τ σ] [Observer ω]

/-- Reports a call on the root. -/
def report (c : Crew τ σ) (phase : Phase) (time last next : Instant) (bags : List BagRecord)
    (w : World ω) : Outcome (Crew τ σ) ω :=
  let (w, fault) := w.report phase c.path time last next none bags
  ⟨c, w, fault.map .fault⟩

/-- **Initialization** at `t`, leaf by leaf. -/
def init (t : Instant) (c : Crew τ σ) (w : World ω) : Outcome (Crew τ σ) ω :=
  (c.onLeaves (Leaf.init t) (List.range c.leaves.length) w).andThen fun c w =>
    let next := Hub.earliest (c.leaves.map (·.toNode))
    { c with last := t, next := next, initialized := true }.report .init t t next [] w

/-- What the leader does when a step at `t` is over: the two reports of the
root, after which its messages are used up. -/
def close (t next : Instant) (c : Crew τ σ) (w : World ω) : Outcome (Crew τ σ) ω :=
  let previous := c.last
  -- The times of the root move on before the reports, which may fault.
  let c := { c with last := t, next := next }
  (c.report .collect t previous t (Record.bagsOf .output c.outbox) w).andThen fun c w =>
    (c.report .advance t t next (Record.bagsOf .input c.inbox) w).andThen fun c w =>
      .done { c with inbox := c.inbox.clear, outbox := c.outbox.clear } w

/-! ## Text -/

/-- The engine without its leaves. -/
def inspect (c : Crew τ σ) : String :=
  Text.openRecord "ParallelCoordinator"
    [("path", Text.quoted c.path), ("leaves", toString c.leaves.length),
     ("routes", toString c.routes.length), ("num_threads", toString c.workers),
     ("last", c.last.inspect), ("next", c.next.inspect)]

end Crew

/-! ## What the workers share during a run -/

/-- Why workers stopped early: the first fault and the first refusal. -/
structure Failure where
  fault : Option Fault := none
  violation : Option Violation := none

namespace Failure

/-- Whether some worker stopped early. -/
def isSet (f : Failure) : Bool := f.fault.isSome || f.violation.isSome

/-- Takes note of a reason; an earlier one of its kind stays. -/
def note (f : Failure) : Stop → Failure
  | .fault fault => { f with fault := f.fault <|> some fault }
  | .violation v => { f with violation := f.violation <|> some v }

/-- **The reason for which the run ends**: a fault before a refusal. -/
def stop (f : Failure) : Option Stop :=
  match f.fault with
  | some fault => some (.fault fault)
  | none => f.violation.map .violation

end Failure

/-- The state that the workers of a run share. -/
structure Shift (τ σ ω : Type) [MessageType τ] where
  crew : Crew τ σ
  world : World ω
  /-- The earliest next event among the leaves of each worker. -/
  minima : List Instant
  failure : Failure

namespace Shift

variable {τ σ ω π : Type} [MessageType τ]

/-- The beginning of a run. -/
def begin (c : Crew τ σ) (w : World ω) : Shift τ σ ω where
  crew := c
  world := w
  minima := List.replicate c.workers .max
  failure := {}

/-- Work of one worker in one phase, which is not begun after a failure. What
follows it, `finish`, is done only if the work came to its end. -/
def guarded (s : Shift τ σ ω) (work : Crew τ σ → World ω → Outcome (Crew τ σ) ω)
    (finish : Shift τ σ ω → Shift τ σ ω) : Shift τ σ ω :=
  if s.failure.isSet then s
  else
    let o := work s.crew s.world
    let s := { s with crew := o.state, world := o.world }
    match o.stop with
    | some stop => { s with failure := s.failure.note stop }
    | none => finish s

/-- One phase of all workers. -/
def allWorkers (phase : Nat → Shift τ σ ω → Shift τ σ ω) (s : Shift τ σ ω) : Shift τ σ ω :=
  (List.range s.crew.workers).foldl (fun s worker => phase worker s) s

/-- The leaves of a worker. -/
def leavesOf (s : Shift τ σ ω) (worker : Nat) : List Nat :=
  Share.items s.crew.leaves.length s.crew.workers worker

/-- The routes of a worker. -/
def routesOf (s : Shift τ σ ω) (worker : Nat) : List Route :=
  (Share.items s.crew.routes.length s.crew.workers worker).filterMap (s.crew.routes[·]?)

/-- The second phase of a worker. -/
def route (worker : Nat) (s : Shift τ σ ω) : Shift τ σ ω :=
  s.guarded (fun c w => c.followAll (s.routesOf worker) w) id

/-- The earliest next event among some leaves. -/
def earliestOf (c : Crew τ σ) (places : List Nat) : Instant :=
  Hub.earliest ((places.filterMap (c.leaves[·]?)).map (·.toNode))

variable [AtomicModel τ σ] [Observer ω]

/-- The first phase of a worker. -/
def collect (t : Instant) (worker : Nat) (s : Shift τ σ ω) : Shift τ σ ω :=
  s.guarded (fun c w => c.onLeaves (Leaf.collect t) (s.leavesOf worker) w) id

/-- The third phase of a worker. -/
def advance (t : Instant) (worker : Nat) (s : Shift τ σ ω) : Shift τ σ ω :=
  s.guarded (fun c w => c.onLeaves (Leaf.advance t) (s.leavesOf worker) w) fun s =>
    { s with minima := s.minima.set worker (earliestOf s.crew (s.leavesOf worker)) }

/-- The fourth phase, which belongs to the leader: the step is closed. -/
def close (t : Instant) (s : Shift τ σ ω) : Shift τ σ ω :=
  let o := s.crew.close t (s.minima.foldr min .max) s.world
  { s with
    crew := o.state
    world := o.world
    failure := match o.stop with
      | some stop => s.failure.note stop
      | none => s.failure }

/-- **One step** at `t`. -/
def step (t : Instant) (s : Shift τ σ ω) : Shift τ σ ω :=
  (((s.allWorkers (collect t)).allWorkers route).allWorkers (advance t)).close t

/-- The outcome of a run that ends here. -/
def outcome (s : Shift τ σ ω) (p : π) (stop : Option Stop) : Outcome (Crew τ σ × π) ω :=
  ⟨(s.crew, p), s.world, stop⟩

/-- Steps in a row, as long as the supervisor lets them go on. -/
def run [Supervisor π] : Nat → Shift τ σ ω → π → Option (Outcome (Crew τ σ × π) ω)
  | 0, _, _ => none
  | limit + 1, s, p =>
    let t := s.crew.next
    let decision := Supervisor.proceed t s.world.interrupted p
    let s := { s with world := s.world.heed decision }
    match decision.fault with
    | some fault => some (s.outcome decision.state (some (.fault fault)))
    | none =>
      if decision.answer then
        let s := s.step t
        -- After a failure the supervisor is not asked any more.
        if s.failure.isSet then
          some (s.outcome decision.state s.failure.stop)
        else
          let note := Supervisor.completed t decision.state
          let s := { s with world := s.world.heed note }
          match note.fault with
          | some fault => some (s.outcome note.state (some (.fault fault)))
          | none => run limit s note.state
      else
        some (s.outcome decision.state none)

end Shift

namespace Crew

variable {τ σ ω π : Type} [MessageType τ] [AtomicModel τ σ] [Observer ω] [Supervisor π]

/-- **Running** under a supervisor, with a limit on its decisions. -/
def run (decisions : Nat) (c : Crew τ σ) (p : π) (w : World ω) :
    Option (Outcome (Crew τ σ × π) ω) :=
  if c.initialized then Shift.run decisions (.begin c w) p
  else some (.refused (c, p) w (.uninitialized c.path))

/-- Taking all steps before `limit`. -/
def runUntil (decisions : Nat) (limit : Instant) (c : Crew τ σ) (w : World ω) :
    Option (Outcome (Crew τ σ) ω) :=
  (run decisions c (Until.mk limit) w).map fun o => o.map (·.1)

end Crew

end DiscreteEvent
