/-
What an atomic model promises.

The engines call the functions of a model in turn, and the promises of a model
are about calls in turn. A model that is asked for an output has said before
that an event is due; input never comes later than the event it announced. The
turns are the `Stage`s. A model keeps its contract if there is an invariant of
its states, by stage, under which no function faults, outputs go to declared
ports, and which every function hands on to the next stage. The invariant is
the author's; for a model that can do anything at any time it is `True`.

Two more promises are needed here and there. `Attended` is about observation:
the observer does not fault, and wherever one may be listening, states can be
rendered. `OrderFree` says that a transition does not depend on the order in
which messages lie in a bag.
-/
import DiscreteEvent.Proofs.Ports.Typed
import DiscreteEvent.Proofs.Time.Order

set_option autoImplicit false

namespace DiscreteEvent

variable {τ σ ω : Type} [MessageType τ]

/-- **Whose turn it is** in the life of a model. -/
inductive Stage
  /-- The model is about to be asked for its time advance. -/
  | due
  /-- The model has answered with this time advance. -/
  | settled (timeAdvance : Option Span)
  /-- The internal transition is over, and there is input at the same time. -/
  | fired

/-- **The contract**: on states in `good`, which may depend on the declared
ports, every function returns normally when its turn has come. -/
structure Contract [AtomicModel τ σ] (good : Interface τ → Stage → σ → Prop) : Prop where
  timeAdvance : ∀ {i g s}, good i g s →
    (AtomicModel.timeAdvance s).fault = none ∧
      good i (.settled (AtomicModel.timeAdvance s).answer) (AtomicModel.timeAdvance s).state
  output : ∀ {i d s}, good i (.settled (some d)) s →
    (AtomicModel.output s).fault = none ∧
      (∀ e ∈ (AtomicModel.output s).answer, e.port ∈ i.outputs) ∧
      good i (.settled (some d)) (AtomicModel.output s).state
  internal : ∀ {i d s}, good i (.settled (some d)) s →
    (AtomicModel.internal s).fault = none ∧ good i .fired (AtomicModel.internal s).state
  confluent : ∀ {i s} {x : Bags τ}, good i .fired s → x.Fits i.inputs → x.isEmpty = false →
    (AtomicModel.external s .zero x).fault = none ∧
      good i .due (AtomicModel.external s .zero x).state
  external : ∀ {i ta s elapsed} {x : Bags τ}, good i (.settled ta) s →
    (∀ d, ta = some d → elapsed ≤ d) → x.Fits i.inputs → x.isEmpty = false →
    (AtomicModel.external s elapsed x).fault = none ∧
      good i .due (AtomicModel.external s elapsed x).state

/-- **Observation returns normally.** An observer that never asks for a record
does not need states that can be rendered. -/
structure Attended (ω : Type) [Observer ω] [AtomicModel τ σ]
    (good : Interface τ → Stage → σ → Prop) : Prop where
  calm : ∀ (r : Record) (o : ω), (Observer.observe r o).2 = none
  legible : ∀ o : ω, (Observer.enabled o).1 = true →
    ∀ {i g s}, good i g s → ∃ text, AtomicModel.render s = .ok text

/-- Without an observer nothing is asked of the models. -/
theorem attended_unobserved [AtomicModel τ σ] (good : Interface τ → Stage → σ → Prop) :
    Attended Unobserved good where
  calm _ _ := rfl
  legible _ h := nomatch h

/-! ## Bags as multisets -/

/-- The same messages on every port, in whatever order. -/
def Bags.Alike (x y : Bags τ) : Prop := ∀ q, (x.messagesAt q).Perm (y.messagesAt q)

theorem Bags.Alike.isEmpty_eq {x y : Bags τ} (h : x.Alike y) : x.isEmpty = y.isEmpty := by
  rw [Bool.eq_iff_iff, Bags.isEmpty_iff, Bags.isEmpty_iff]
  constructor
  · intro hx q
    exact List.Perm.nil_eq (hx q ▸ h q) ▸ rfl
  · intro hy q
    exact List.Perm.nil_eq (hy q ▸ (h q).symm) ▸ rfl

/-- **The order of messages inside of a bag does not matter** for transitions
on good states. -/
structure OrderFree [AtomicModel τ σ] (good : Interface τ → Stage → σ → Prop) : Prop where
  external : ∀ {i g s} (elapsed : Span) {x y : Bags τ}, good i g s → x.Fits i.inputs →
    y.Fits i.inputs → x.Alike y →
    (AtomicModel.external s elapsed x : Reply σ Unit) = AtomicModel.external s elapsed y

/-! ## Trees of good models -/

/-- Every atomic model of the tree is in a good state, to be asked for its time advance. -/
inductive Model.AllGood (good : Interface τ → Stage → σ → Prop) : Model τ σ → Prop
  | atomic {a : Atomic τ σ} (self : good a.interface .due a.state) : AllGood good (.atomic a)
  | coupled {c : Coupled τ} {children : List (Model τ σ)}
      (each : ∀ m ∈ children, AllGood good m) : AllGood good (.coupled c children)

omit [MessageType τ] in
/-- Models that are good are so by any weaker invariant. -/
theorem Model.AllGood.mono {good good' : Interface τ → Stage → σ → Prop} {m : Model τ σ}
    (h : m.AllGood good) (hgood : ∀ i s, good i .due s → good' i .due s) : m.AllGood good' := by
  induction h with
  | atomic self => exact .atomic (hgood _ _ self)
  | coupled _ ih => exact .coupled ih

end DiscreteEvent
