/-
Runs of an engine of either kind, under the eyes of a supervisor.

A run goes through a history of steps, and it ends when the supervisor does not want the
next one (`Backend.Ran`). What the supervisor knows of the steps that it has let happen is
an invariant of its own (`Supervisor.Keeps`), so that the same induction over the decisions
tells for a pacer that all steps were before its limit, and for one with a single step to
give that there was not more than one.

A run can be asked from outside to stop, at any moment. The supervisor looks before each
of its decisions, so what counts is whether the signal was given before it. A `Signalled`
supervisor has a list that says so.
-/
import DiscreteEvent.Proofs.Execution.History

set_option autoImplicit false

namespace DiscreteEvent

variable {τ σ ω π π' : Type} [MessageType τ]

/-! ## Signals from outside -/

/-- **A supervisor of a run that may be asked from outside to stop**: the list says for each
decision whether the signal is given before it. -/
structure Signalled (π : Type) where
  self : π
  signals : List Bool

namespace Signalled

variable [Supervisor π]

instance : Supervisor (Signalled π) where
  proceed next interrupted p :=
    let given := p.signals.headD false
    let r := Supervisor.proceed next (interrupted || given) p.self
    { state := ⟨r.state, p.signals.tail⟩, answer := r.answer,
      interrupts := r.interrupts || given, fault := r.fault }
  completed t p := (Supervisor.completed t p.self).mapState fun q => ⟨q, p.signals⟩

theorem calm (h : Supervisor.Calm π) : Supervisor.Calm (Signalled π) where
  proceed t interrupted p := h.proceed t (interrupted || p.signals.headD false) p.self
  completed t p := h.completed t p.self

theorem halting (h : Supervisor.Halting π) : Supervisor.Halting (Signalled π) where
  halt interrupted p := h.halt (interrupted || p.signals.headD false) p.self

/-- Without a signal the supervisor is as it is. -/
theorem mirrors_unsignalled : Supervisor.Mirrors fun p : π => Signalled.mk p [] where
  proceed t interrupted p := by
    show Reply.mk _ _ (_ || false) _ = Reply.mapState _ _
    rw [List.headD_nil, Bool.or_false, Bool.or_false]
    rfl
  completed _ _ := rfl

end Signalled

/-! ## What a supervisor knows -/

/-- **What a supervisor knows of the steps it has let happen**: `I` goes on holding when one
more step is wanted and done. -/
structure Supervisor.Keeps [Supervisor π] (I : List Instant → π → Prop) : Prop where
  step : ∀ {ts : List Instant} {t : Instant} {interrupted : Bool} {p : π}, I ts p →
    (Supervisor.proceed t interrupted p).answer = true →
      I (ts ++ [t]) (Supervisor.completed t (Supervisor.proceed t interrupted p).state).state

/-- A supervisor that takes no step at the last instant takes this one at another time. -/
theorem Supervisor.Halting.ne_max [Supervisor π] (hh : Supervisor.Halting π) {t : Instant}
    {interrupted : Bool} {p : π} (h : (Supervisor.proceed t interrupted p).answer = true) :
    t ≠ .max := by
  rintro rfl
  exact Bool.false_ne_true ((hh.halt interrupted p).symm.trans h)

/-- A wish to stop stays. -/
theorem World.interrupted_heed {α β : Type} (w : World ω) (r : Reply α β) :
    (w.heed r).interrupted = (w.interrupted || r.interrupts) := by
  unfold heed
  cases r.interrupts with
  | true => exact (Bool.or_true _).symm
  | false => exact (Bool.or_false _).symm

/-- What the observer hears depends only on what it was before. -/
theorem World.observer_after_congr [Observer ω] {w w' : World ω}
    (h : w.observer = w'.observer) (x : Effect) :
    (w.after x).observer = (w'.after x).observer := by
  rw [after, after, h]

variable [AtomicModel τ σ] [Observer ω] {good : Interface τ → Stage → σ → Prop} {m : Model τ σ}

namespace Backend

/-! ## Runs -/

/-- **Running** under a supervisor, the workers of a crew taking turns by plan. -/
def runOn [Supervisor π] (decisions : Nat) (plan : Nat → Timetable) (b : Backend τ σ) (p : π)
    (w : World ω) : Option (Outcome (Backend τ σ × π) ω) :=
  match b with
  | sequential e => (e.run decisions p w).map fun o => o.map fun s => (sequential s.1, s.2)
  | parallel c => (c.runOn decisions plan p w).map fun o => o.map fun s => (parallel s.1, s.2)

theorem run_eq_runOn [Supervisor π] (decisions : Nat) (b : Backend τ σ) (p : π) (w : World ω) :
    b.run decisions p w = b.runOn decisions (fun _ => {}) p w := by
  cases b with
  | sequential e => rfl
  | parallel c => exact congrArg (Option.map _) (c.run_eq_runOn decisions p w)

/-- Seeing the supervisor as another one changes nothing of a run. -/
theorem runOn_mirror [Supervisor π] [Supervisor π'] {f : π → π'} (hf : Supervisor.Mirrors f)
    (n : Nat) (plan : Nat → Timetable) (b : Backend τ σ) (p : π) (w : World ω) :
    (b.runOn n plan p w).map (Outcome.mirror f) = b.runOn n plan (f p) w := by
  cases b with
  | sequential e =>
      rw [runOn, runOn, ← Engine.run_mirror hf, Option.map_map, Option.map_map]
      rfl
  | parallel c =>
      rw [runOn, runOn, ← Crew.runOn_mirror hf, Option.map_map, Option.map_map]
      rfl

/-- **The end of a run**: the supervisor, which knows of the steps at `ts`, does not want the
next one. -/
structure Ended [Supervisor π] (I : List Instant → π → Prop) (ts : List Instant)
    (o : Outcome (Backend τ σ × π) ω) : Prop where
  stop : o.stop = none
  refused : ∃ (w : World ω) (p : π), I ts p ∧
    (Supervisor.proceed o.state.1.next w.interrupted p).answer = false ∧
    o.state.2 = (Supervisor.proceed o.state.1.next w.interrupted p).state ∧
    o.world = w.heed (Supervisor.proceed o.state.1.next w.interrupted p)

/-- **A run goes through a history of steps**, which is reported to the observer, and comes to
its end because the supervisor does not want the next step. -/
structure Ran [Supervisor π] (m : Model τ σ) (I : List Instant → π → Prop) (b : Backend τ σ)
    (w : World ω) (known ts : List Instant) (o : Outcome (Backend τ σ × π) ω) : Prop where
  unfolds : ∃ x, Unfolds m b (ts.map .step) x o.state.1 ∧
    o.world.observer = (w.after x).observer
  ended : Ended I (known ++ ts) o

section

variable [Supervisor π] {I : List Instant → π → Prop}

/-- One step before the rest of a run. -/
theorem Ran.cons {b b₁ : Backend τ σ} {w w₁ : World ω} {x : Effect} {known ts : List Instant}
    {o : Outcome (Backend τ σ × π) ω} (first : b.Step x b₁)
    (hw : w₁.observer = (w.after x).observer) (h : Ran m I b₁ w₁ (known ++ [b.next]) ts o) :
    Ran m I b w known (b.next :: ts) o where
  unfolds := by
    obtain ⟨y, hy, hobserver⟩ := h.unfolds
    refine ⟨x ++ y, .step first hy, hobserver.trans ?_⟩
    rw [World.after_append]
    exact World.observer_after_congr hw y
  ended := List.append_assoc known [b.next] ts ▸ h.ended

/-- No step at all. -/
theorem Ran.nil {b : Backend τ σ} {w : World ω} {known : List Instant} {p : π} (hI : I known p)
    (hno : (Supervisor.proceed b.next w.interrupted p).answer = false) :
    Ran m I b w known [] (.done (b, (Supervisor.proceed b.next w.interrupted p).state)
      (w.heed (Supervisor.proceed b.next w.interrupted p))) where
  unfolds := ⟨{}, .nothing,
    (World.observer_heed _ _).trans (congrArg _ (World.after_nothing w).symm)⟩
  ended := ⟨rfl, w, p, (List.append_nil known).symm ▸ hI, hno, rfl, rfl⟩

end

end Backend

end DiscreteEvent
