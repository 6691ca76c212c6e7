/-
Setups: simulations before their start.

A setup holds the model and everything a runner needs. The model may be the
result of an assembly that failed; the defect is then reported at the start.
One worker means the engine tree, several workers the flat engine. Starting
initializes all models, and then the clock is called for the first time, with
the start time as its deadline; its answer is not used.
-/
import DiscreteEvent.Execution.Runner
import DiscreteEvent.Model.Blueprint

set_option autoImplicit false

namespace DiscreteEvent

/-- **A simulation before its start.** -/
structure Setup (τ σ ω κ ρ : Type) [MessageType τ] where
  model : Except Defect (Model τ σ)
  workers : Nat := 1
  tolerance : Option Span := none
  clock : κ
  progress : Option ρ := none
  world : World ω

namespace Setup

variable {τ σ ω κ ρ : Type} [MessageType τ]

/-- The setup with a number of workers, of which there is at least one. -/
def withWorkers (s : Setup τ σ ω κ ρ) (workers : Nat) : Setup τ σ ω κ ρ :=
  { s with workers := max workers 1 }

/-- The engine for a model. -/
def backendFor (s : Setup τ σ ω κ ρ) (m : Model τ σ) : Backend τ σ :=
  if 1 < s.workers then .parallel (.ofModel s.workers m) else .sequential (.ofModel m)

variable [AtomicModel τ σ]

/-- **Starting** at `t`. The setup is handed back with its clock and its world
as the start left them, which matters when the start fails. -/
def init [Observer ω] [Clock κ] (t : Instant) (s : Setup τ σ ω κ ρ) :
    Setup τ σ ω κ ρ × Except Halt (Runner τ σ ω κ ρ) :=
  match s.model with
  | .error d =>
    let event : Event := ⟨.error, "invalid model tree: " ++ d.display, []⟩
    ({ s with world := s.world.announce event }, .error (.error (.construction d)))
  | .ok m =>
    let o := (s.backendFor m).init t s.world
    match o.stop with
    | some (.fault fault) => ({ s with world := o.world }, .error (.fault fault))
    | some (.violation v) => ({ s with world := o.world }, .error (.error (.simulation v)))
    | none =>
      let sync := Clock.synchronize t s.clock
      let s := { s with clock := sync.state, world := o.world.heed sync }
      match sync.fault with
      | some fault => (s, .error (.fault fault))
      | none =>
        let event : Event :=
          ⟨.debug, "simulation initialized at " ++ t.display ++ ", first event at "
              ++ o.state.next.display,
            [("model", o.state.path), ("num_threads", toString o.state.workers)]⟩
        let s := { s with world := s.world.announce event }
        (s, .ok ⟨o.state, s.clock, s.tolerance, s.progress, s.world⟩)

/-- The setup with the parts of its model. -/
def inspect (s : Setup τ σ ω κ ρ) : Except Fault String := do
  let model ← match s.model with
    | .ok m => (Text.tagged "Ok") <$> m.inspect
    | .error d => .ok (Text.tagged "Err" d.inspect)
  return Text.openRecord "SimInit"
    [("model", model), ("num_threads", toString s.workers),
     ("clock_tolerance", Text.optional (s.tolerance.map Span.inspect))]

end Setup

end DiscreteEvent
