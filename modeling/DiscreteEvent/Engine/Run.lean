/-
Runs: steps in a row, as long as a supervisor lets them go on.

Before each step the supervisor is told the time of the next event and decides
whether the step is taken; after it, it is told that the step is done. It also
learns whether the run was asked to stop in the meantime, and makes of this
what it wants.

A model may have one event after another without time going on, so a run need
not come to an end. The functions here are therefore given a limit on the
number of decisions, and answer `none` when it was too small. A larger limit
never changes an answer (`run_of_le`).
-/
import DiscreteEvent.Engine.Tree

set_option autoImplicit false

namespace DiscreteEvent

/-- **The contract of supervisors.** -/
class Supervisor (π : Type) where
  /-- Whether the step at `next` is to be taken. -/
  proceed : (next : Instant) → (interrupted : Bool) → π → Reply π Bool
  /-- The step at `t` is done. -/
  completed : (t : Instant) → π → Reply π Unit

/-- The supervisor that takes all steps before an end. -/
structure Until where
  limit : Instant

instance : Supervisor Until where
  proceed next _ u := { state := u, answer := next < u.limit }
  completed _ u := { state := u, answer := () }

namespace Engine

variable {τ σ ω π : Type} [MessageType τ] [AtomicModel τ σ] [Observer ω] [Supervisor π]

/-- **Running** under a supervisor. -/
def run : Nat → Engine τ σ → π → World ω → Option (Outcome (Engine τ σ × π) ω)
  | 0, _, _, _ => none
  | limit + 1, e, p, w =>
    let decision := Supervisor.proceed e.next w.interrupted p
    let w := w.heed decision
    match decision.fault with
    | some fault => some (.broken (e, decision.state) w fault)
    | none =>
      if decision.answer then
        let o := e.step w
        match o.stop with
        | some _ => some (o.map (·, decision.state))
        | none =>
          let note := Supervisor.completed e.next decision.state
          let w := o.world.heed note
          match note.fault with
          | some fault => some (.broken (o.state, note.state) w fault)
          | none => run limit o.state note.state w
      else
        some (.done (e, decision.state) w)

/-- A run that came to an end within a limit comes to the same end within any larger one. -/
theorem run_of_le {n m : Nat} (h : n ≤ m) {e : Engine τ σ} {p : π} {w : World ω}
    {o : Outcome (Engine τ σ × π) ω} (hr : run n e p w = some o) : run m e p w = some o := by
  induction n generalizing m e p w with
  | zero => cases hr
  | succ n ih =>
    cases m with
    | zero => exact absurd h (Nat.not_succ_le_zero n)
    | succ m =>
      simp only [run] at hr ⊢
      split <;> rename_i hd <;> simp only [hd] at hr
      · exact hr
      · split <;> rename_i ha <;> simp only [ha] at hr
        · split <;> rename_i hs <;> simp only [hs] at hr
          · exact hr
          · split <;> rename_i hc <;> simp only [hc] at hr
            · exact hr
            · exact ih (Nat.le_of_succ_le_succ h) hr
        · exact hr

/-- Taking all steps before `limit`. -/
def runUntil (decisions : Nat) (limit : Instant) (e : Engine τ σ) (w : World ω) :
    Option (Outcome (Engine τ σ) ω) :=
  (run decisions e (Until.mk limit) w).map fun o => o.map (·.1)

end Engine

end DiscreteEvent
