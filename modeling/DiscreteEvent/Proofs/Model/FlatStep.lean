/-
The flat semantics of a model tree.

To a model tree belongs a system without networks: one cell for each leaf, all of
them stepping together at one time. Those whose event is due emit their output,
which is computed before anything moves. What is emitted travels along the
coupling chains, and what waits at the root along the chains that lead in. Then
every cell that is due or has input makes its transition, and the others stay.

This is the meaning that a tree has independently of any engine. `Cell.step` is
the transition of one cell on given input, `Model.Receives` says which bags are
its input -- their contents are fixed as multisets, their order is not -- and
`Model.FlatStep` relates the cells before and after a step.
-/
import DiscreteEvent.Proofs.Model.Chain
import DiscreteEvent.Proofs.Model.Contract

set_option autoImplicit false

namespace DiscreteEvent

variable {τ σ : Type} [MessageType τ]

/-- **The cell of a leaf**: its state and its window. -/
structure Cell (σ : Type) where
  state : σ
  last : Instant
  next : Instant

namespace Cell

variable [AtomicModel τ σ]

/-- What a cell emits at `t`: its output, if its event is due. -/
def emission (i : Interface τ) (t : Instant) (c : Cell σ) : Bags τ :=
  if c.next = t then ((Bags.ofPorts i.outputs).write (AtomicModel.output c.state).answer).1
  else .ofPorts i.outputs

/-- The cell after a transition at `t` that led to the state `s`: the next
event is scheduled anew. -/
def settle (t : Instant) (s : σ) : Cell σ where
  state := (AtomicModel.timeAdvance s).state
  last := t
  next := t.schedule (AtomicModel.timeAdvance s).answer

/-- **The step of a cell** at `t` on the input `x`. A due event without input
fires the internal transition; with input, the external one follows at once.
Input before the event fires the external transition, with the time since the
last one. Without either nothing happens. -/
def step (t : Instant) (x : Bags τ) (c : Cell σ) : Cell σ :=
  if c.next = t then
    let s := (AtomicModel.output c.state).state
    if x.isEmpty then settle t (AtomicModel.internal s).state
    else settle t (AtomicModel.external (AtomicModel.internal s).state .zero x).state
  else if x.isEmpty then c
  else settle t (AtomicModel.external c.state (c.last.elapsed t) x).state

end Cell

namespace Model

variable [AtomicModel τ σ]

/-- What is emitted at `t` on an output port of a leaf. -/
def emitted (m : Model τ σ) (t : Instant) (cells : List Nat → Option (Cell σ)) (o : Terminal) :
    Multiset (Message τ) :=
  match m.atomAt? o.address, cells o.address with
  | some atom, some c => ((c.emission atom.interface t).messagesAt o.port : Multiset (Message τ))
  | _, _ => 0

/-- **The input of a leaf** in the step at `t`, when `x` waits at the root: on
every port what is emitted at the beginnings of the chains that end there, and
what waits at the ports of the root whose ways in end there. -/
structure Receives (m : Model τ σ) (t : Instant) (x : Bags τ)
    (cells : List Nat → Option (Cell σ)) (address : List Nat) (i : Interface τ) (y : Bags τ) :
    Prop where
  fits : y.Fits i.inputs
  content : ∀ q < i.inputs.length, (y.messagesAt q : Multiset (Message τ))
    = m.inflow (m.emitted t cells) (fun p => (x.messagesAt p : Multiset (Message τ))) ⟨address, q⟩

/-- **One step of the flat system** at `t`, when `x` waits at the root: every
leaf steps on its input, whatever the order of the messages there. -/
structure FlatStep (m : Model τ σ) (t : Instant) (x : Bags τ)
    (before after : List Nat → Option (Cell σ)) : Prop where
  /-- There is a cell exactly where there is an atomic model. -/
  domain : ∀ a, (before a).isSome = (m.atomAt? a).isSome ∧
    (after a).isSome = (m.atomAt? a).isSome
  /-- Every leaf has input to step on. -/
  receives : ∀ {a : List Nat} {atom : Atomic τ σ}, m.atomAt? a = some atom →
    ∃ y, m.Receives t x before a atom.interface y
  /-- And on that input it steps. -/
  moves : ∀ {a : List Nat} {atom : Atomic τ σ} {c : Cell σ} {y : Bags τ},
    m.atomAt? a = some atom → before a = some c → m.Receives t x before a atom.interface y →
    after a = some (c.step t y)

/-- The cells after a step are determined by those before it. -/
theorem FlatStep.unique {m : Model τ σ} {t : Instant} {x : Bags τ}
    {before after after' : List Nat → Option (Cell σ)} (h : m.FlatStep t x before after)
    (h' : m.FlatStep t x before after') : after = after' := by
  funext a
  obtain ⟨hbefore, hafter⟩ := h.domain a
  obtain ⟨-, hafter'⟩ := h'.domain a
  cases ha : m.atomAt? a with
  | none =>
      rw [ha, Option.isSome_none, Option.isSome_eq_false_iff, Option.isNone_iff_eq_none]
        at hafter hafter'
      rw [hafter, hafter']
  | some atom =>
      rw [ha, Option.isSome_some] at hbefore
      obtain ⟨c, hc⟩ := Option.isSome_iff_exists.mp hbefore
      obtain ⟨y, hy⟩ := h.receives ha
      rw [h.moves ha hc hy, h'.moves ha hc hy]

end Model

/-- Bags that fit the same ports and have the same contents there are alike. -/
theorem Bags.Fits.alike {x y : Bags τ} {ports : List (Port τ)} (hx : x.Fits ports)
    (hy : y.Fits ports) (h : ∀ q < ports.length,
      (x.messagesAt q : Multiset (Message τ)) = y.messagesAt q) : x.Alike y := by
  intro q
  by_cases hq : q < ports.length
  · exact Multiset.coe_eq_coe.mp (h q hq)
  · rw [messagesAt_of_length_le (by rw [hx.length_eq]; omega),
      messagesAt_of_length_le (by rw [hy.length_eq]; omega)]

/-- On bags that are alike a cell makes the same step, if its model does not
look at the order. -/
theorem Cell.step_congr [AtomicModel τ σ] {good : Interface τ → Stage → σ → Prop}
    (ho : OrderFree good) {i : Interface τ} {g : Stage} {t : Instant} {c : Cell σ} {x y : Bags τ}
    (hg : good i g c.state)
    (hf : c.next = t → ∃ g, good i g (AtomicModel.internal (AtomicModel.output c.state).state).state)
    (hx : x.Fits i.inputs) (hy : y.Fits i.inputs) (h : x.Alike y) : c.step t x = c.step t y := by
  unfold step
  rw [h.isEmpty_eq]
  by_cases hdue : c.next = t
  · obtain ⟨g', hg'⟩ := hf hdue
    simp only [if_pos hdue, ho.external _ hg' hx hy h]
  · simp only [if_neg hdue, ho.external _ hg hx hy h]

end DiscreteEvent
