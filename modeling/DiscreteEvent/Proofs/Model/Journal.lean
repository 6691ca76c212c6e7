/-
Models that keep a journal.

Which functions of a model are called, and in which order, does not show in what the
engines do with the answers. `Journaled` is a model around another one: it hands every
call on and writes it down in its own state, with its arguments and its answer. So a
statement about the journals of a tree is one about the calls that an engine makes, and
when a state has not changed, no function was called either.

A journal may be kept of any model. `Model.journaled` gives every atomic model of a tree
an empty one, and what the models promised, they promise with their journals as well.
-/
import DiscreteEvent.Proofs.Model.Accepted
import DiscreteEvent.Proofs.Model.Chain
import DiscreteEvent.Proofs.Model.Contract

set_option autoImplicit false

namespace DiscreteEvent

variable {τ σ σ' ω : Type}

/-! ## The same tree over other states -/

/-- The same atomic model in another state. -/
def Atomic.mapState (f : σ → σ') (a : Atomic τ σ) : Atomic τ σ' := ⟨a.id, a.interface, f a.state⟩

namespace Model

mutual

/-- **The same tree** with other states in its atomic models. -/
def mapState (f : σ → σ') : Model τ σ → Model τ σ'
  | .atomic a => .atomic (a.mapState f)
  | .coupled c children => .coupled c (mapStates f children)

def mapStates (f : σ → σ') : List (Model τ σ) → List (Model τ σ')
  | [] => []
  | m :: rest => mapState f m :: mapStates f rest

end

theorem mapStates_eq (f : σ → σ') (models : List (Model τ σ)) :
    mapStates f models = models.map (mapState f) := by
  induction models with
  | nil => rfl
  | cons m models ih => rw [mapStates, ih, List.map_cons]

theorem interface_mapState (f : σ → σ') (m : Model τ σ) :
    (m.mapState f).interface = m.interface := by
  cases m <;> rfl

/-- The ports of the children are the same. -/
theorem portAt_mapState (f : σ → σ') (models : List (Model τ σ)) (direction : Direction)
    (p : Place) : portAt (models.map (mapState f)) direction p = portAt models direction p := by
  rw [portAt, portAt, List.getElem?_map]
  cases models[p.child]? with
  | none => rfl
  | some m =>
      simp only [Option.map_some, Option.bind_some, interface_mapState]

/-- The atomic models are at the same addresses. -/
theorem atomAt_mapState (f : σ → σ') {a : List Nat} :
    ∀ {m : Model τ σ}, (m.mapState f).atomAt? a = (m.atomAt? a).map (Atomic.mapState f) := by
  induction a with
  | nil =>
      intro m
      cases m <;> rfl
  | cons i a ih =>
      intro m
      cases m with
      | atomic => rfl
      | coupled c children =>
          rw [mapState, mapStates_eq, atomAt?, atomAt?, List.getElem?_map]
          cases children[i]? with
          | none => rfl
          | some m => exact ih

/-- A wired tree is wired whatever the states are. -/
theorem Wired.mapState (f : σ → σ') {m : Model τ σ} (h : m.Wired) : (m.mapState f).Wired := by
  induction h with
  | atomic distinct => exact .atomic distinct
  | @coupled c children self _ ih =>
      rw [Model.mapState, mapStates_eq]
      refine .coupled ⟨self.distinct, ?_, ?_, ?_, self.apart⟩ fun m hm => ?_
      · simp only [portAt_mapState]
        exact self.eic
      · simp only [portAt_mapState]
        exact self.eoc
      · simp only [portAt_mapState]
        exact self.ic
      · obtain ⟨m', hm', rfl⟩ := List.mem_map.mp hm
        exact ih m' hm'

end Model

/-! ## Journals -/

variable [MessageType τ]

/-- **A call of a model** by an engine, with its arguments and its answer. -/
inductive ModelCall (τ : Type) [MessageType τ]
  | timeAdvance (answer : Option Span)
  | output (emissions : List (Emission τ))
  | internal
  | external (elapsed : Span) (input : Bags τ)

/-- **A model with a journal.** -/
structure Journaled (τ σ : Type) [MessageType τ] where
  self : σ
  journal : List (ModelCall τ) := []

namespace Journaled

/-- The model in a new state, with one more entry in its journal. -/
def noting (s : Journaled τ σ) (c : ModelCall τ) (self : σ) : Journaled τ σ :=
  ⟨self, s.journal ++ [c]⟩

variable [AtomicModel τ σ]

instance : AtomicModel τ (Journaled τ σ) where
  interface s := AtomicModel.interface s.self
  timeAdvance s :=
    (AtomicModel.timeAdvance s.self).mapState
      (s.noting (.timeAdvance (AtomicModel.timeAdvance s.self).answer))
  output s :=
    (AtomicModel.output s.self).mapState (s.noting (.output (AtomicModel.output s.self).answer))
  internal s := (AtomicModel.internal s.self).mapState (s.noting .internal)
  external s elapsed input :=
    (AtomicModel.external s.self elapsed input).mapState (s.noting (.external elapsed input))
  render s := AtomicModel.render s.self

/-! ### What is written down -/

theorem journal_timeAdvance (s : Journaled τ σ) : (AtomicModel.timeAdvance s).state.journal
    = s.journal ++ [.timeAdvance (AtomicModel.timeAdvance s.self).answer] := rfl

theorem journal_output (s : Journaled τ σ) : (AtomicModel.output s).state.journal
    = s.journal ++ [.output (AtomicModel.output s.self).answer] := rfl

theorem journal_internal (s : Journaled τ σ) :
    (AtomicModel.internal s).state.journal = s.journal ++ [.internal] := rfl

theorem journal_external (s : Journaled τ σ) (elapsed : Span) (input : Bags τ) :
    (AtomicModel.external s elapsed input).state.journal
      = s.journal ++ [.external elapsed input] := rfl

/-! ### Promises -/

variable {good : Interface τ → Stage → σ → Prop}

/-- The states of a model with a journal that are good without it. -/
def Good (good : Interface τ → Stage → σ → Prop) (i : Interface τ) (g : Stage)
    (s : Journaled τ σ) : Prop := good i g s.self

/-- **A model keeps its contract** with a journal as well. -/
theorem contract (hc : Contract good) : Contract (Good good) where
  timeAdvance h := hc.timeAdvance h
  output h := hc.output h
  internal h := hc.internal h
  confluent h hx he := hc.confluent h hx he
  external h hle hx he := hc.external h hle hx he

theorem attended [Observer ω] (ha : Attended ω good) : Attended ω (Good good) where
  calm := ha.calm
  legible o he _ _ _ h := ha.legible o he h

end Journaled

namespace Model

/-- **The same tree with journals**, all of them empty. -/
def journaled (m : Model τ σ) : Model τ (Journaled τ σ) := m.mapState fun s => ⟨s, []⟩

theorem interface_journaled (m : Model τ σ) : m.journaled.interface = m.interface :=
  interface_mapState _ m

theorem Wired.journaled {m : Model τ σ} (h : m.Wired) : m.journaled.Wired := h.mapState _

theorem AllGood.journaled {good : Interface τ → Stage → σ → Prop} {m : Model τ σ}
    (h : m.AllGood good) : m.journaled.AllGood (Journaled.Good good) := by
  induction h with
  | atomic self => exact .atomic self
  | @coupled c children _ ih =>
      rw [Model.journaled, Model.mapState, mapStates_eq]
      refine .coupled fun m hm => ?_
      obtain ⟨m', hm', rfl⟩ := List.mem_map.mp hm
      exact ih m' hm'

/-- No call has been written down yet. -/
theorem blank_journaled (m : Model τ σ) : m.journaled.AllGood fun _ _ s => s.journal = [] := by
  induction m using Model.induction with
  | atomic a => exact .atomic rfl
  | coupled c children ih =>
      rw [journaled, mapState, mapStates_eq]
      refine .coupled fun m hm => ?_
      obtain ⟨m', hm', rfl⟩ := List.mem_map.mp hm
      exact ih m' hm'

end Model

end DiscreteEvent
