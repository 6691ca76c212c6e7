/-
What the assembly of models guarantees.

A model tree is made by `Model.ofState` at its leaves and by `Blueprint.build`
at its inner nodes, and `Model.Accepted` are the trees that all of these
accepted. The names in a description are looked up once, and engines use the
places that were found ever after. `Model.Wired` is what they rely on: every
place exists, the ends of every coupling carry messages of one type, no internal
coupling leads from a child to itself, and no port name occurs twice on a side.

`Accepted.wired` derives the second from the first. The lemmas before it follow
`build` from its end to its beginning: a successful look-up leads to a port that
is there, a resolved coupling joins two such ports, and every coupling of the
model was resolved.
-/
import DiscreteEvent.Model.Blueprint
import Mathlib.Data.List.Forall2

set_option autoImplicit false

namespace DiscreteEvent

/-! ## Calls that may report an error -/

/-- What a computation did that came to its end. -/
theorem Except.bind_eq_ok {ε α β : Type} {x : Except ε α} {f : α → Except ε β} {b : β} :
    x >>= f = .ok b ↔ ∃ a, x = .ok a ∧ f a = .ok b := by
  cases x with
  | error e => exact ⟨nofun, nofun⟩
  | ok a =>
      constructor
      · intro h
        exact ⟨a, rfl, h⟩
      · rintro ⟨_, ha, h⟩
        cases ha
        exact h

/-- Every element of a list that was computed is the result of a computation. -/
theorem Except.of_mem_mapM {ε α β : Type} {f : α → Except ε β} {xs : List α} :
    ∀ {ys : List β}, xs.mapM f = .ok ys → ∀ y ∈ ys, ∃ x ∈ xs, f x = .ok y := by
  induction xs with
  | nil =>
      intro ys h y hy
      rw [List.mapM_nil] at h
      cases h
      exact absurd hy List.not_mem_nil
  | cons x xs ih =>
      intro ys h y hy
      rw [List.mapM_cons] at h
      obtain ⟨z, hz, h⟩ := bind_eq_ok.mp h
      obtain ⟨zs, hzs, h⟩ := bind_eq_ok.mp h
      cases h
      rcases List.mem_cons.mp hy with rfl | hy
      · exact ⟨x, by simp, hz⟩
      · obtain ⟨x', hx', hf⟩ := ih hzs y hy
        exact ⟨x', by simp [hx'], hf⟩

variable {τ σ : Type}

/-! ## Trees -/

/-- **Induction on model trees**, with a hypothesis for every child. -/
@[elab_as_elim]
theorem Model.induction {motive : Model τ σ → Prop} (atomic : ∀ a, motive (.atomic a))
    (coupled : ∀ c children, (∀ m ∈ children, motive m) → motive (.coupled c children))
    (m : Model τ σ) : motive m :=
  @Model.rec τ σ motive (fun ms => ∀ m ∈ ms, motive m) atomic
    (fun c children ih => coupled c children ih) (fun _ hm => absurd hm (List.not_mem_nil))
    (fun _ _ ihm ihms c hc => (List.mem_cons.mp hc).elim (fun h => h ▸ ihm) (ihms c)) m

/-! ## Wired models -/

/-- No two ports of one direction share a name. -/
structure Interface.Distinct (i : Interface τ) : Prop where
  inputs : (i.inputs.map (·.name)).Nodup
  outputs : (i.outputs.map (·.name)).Nodup

/-- Both places have a port, and the two ports carry messages of one type. -/
def Joined (p q : Option (Port τ)) : Prop :=
  ∃ x y, p = some x ∧ q = some y ∧ x.type = y.type

/-- The port of a child. -/
def portAt (children : List (Model τ σ)) (direction : Direction) (p : Place) :
    Option (Port τ) :=
  children[p.child]?.bind fun m => (m.interface.ports direction)[p.port]?

/-- **The couplings of one network** join places that are there. -/
structure Coupled.Wired (c : Coupled τ) (children : List (Model τ σ)) : Prop where
  distinct : c.interface.Distinct
  eic : ∀ l ∈ c.eic, Joined (c.interface.inputs[l.source.place]?)
    (portAt children .input l.destination.place)
  eoc : ∀ l ∈ c.eoc, Joined (portAt children .output l.source.place)
    (c.interface.outputs[l.destination.place]?)
  ic : ∀ l ∈ c.ic, Joined (portAt children .output l.source.place)
    (portAt children .input l.destination.place)
  apart : ∀ l ∈ c.ic, l.source.place.child ≠ l.destination.place.child

namespace Model

/-- **A tree whose couplings all join places that are there.** -/
inductive Wired : Model τ σ → Prop
  | atomic {a : Atomic τ σ} (distinct : a.interface.Distinct) : Wired (.atomic a)
  | coupled {c : Coupled τ} {children : List (Model τ σ)} (self : c.Wired children)
      (each : ∀ m ∈ children, Wired m) : Wired (.coupled c children)

/-- **The trees that can be made**: atomic models of a state, and networks that
were built of such trees. -/
inductive Accepted [MessageType τ] [AtomicModel τ σ] : Model τ σ → Prop
  | atomic {id : String} {state : σ} {m : Model τ σ} (h : ofState id state = .ok m) : Accepted m
  | coupled {b : Blueprint τ σ} {m : Model τ σ} (children : ∀ c ∈ b.children, Accepted c)
      (h : b.build = .ok m) : Accepted m

theorem Wired.distinct {m : Model τ σ} (h : m.Wired) : m.interface.Distinct := by
  cases h with
  | atomic distinct => exact distinct
  | coupled self => exact self.distinct

theorem Wired.self {c : Coupled τ} {children : List (Model τ σ)}
    (h : Wired (.coupled c children)) : c.Wired children := by
  cases h with
  | coupled self => exact self

theorem Wired.child {c : Coupled τ} {children : List (Model τ σ)}
    (h : Wired (.coupled c children)) {m : Model τ σ} (hm : m ∈ children) : m.Wired := by
  cases h with
  | coupled _ each => exact each m hm

end Model

theorem Interface.distinct_of_duplicate? {i : Interface τ} (h : i.duplicate? = none) :
    i.Distinct := by
  obtain ⟨hi, ho⟩ := i.duplicate?_eq_none_iff.mp h
  exact ⟨hi, ho⟩

/-! ## Looking up and resolving -/

namespace Blueprint

theorem locatePort_ok {id name : String} {i : Interface τ} {direction : Direction} {place : Nat}
    {port : Port τ} (h : locatePort id i direction name = .ok (place, port)) :
    (i.ports direction)[place]? = some port := by
  unfold locatePort at h
  split at h
  case h_1 found _ =>
    split at h
    case h_1 p hp =>
      cases h
      exact hp
    case h_2 => cases h
  case h_2 => split at h <;> cases h

theorem locateBoundary_ok {b : Blueprint τ σ} {direction : Direction} {e : BoundaryPort}
    {slot : BoundarySlot} {port : Port τ} (h : b.locateBoundary direction e = .ok (slot, port)) :
    (b.interface.ports direction)[slot.place]? = some port := by
  obtain ⟨⟨place, p⟩, hl, hr⟩ := Except.bind_eq_ok.mp h
  cases hr
  exact locatePort_ok hl

theorem locateChild_ok {b : Blueprint τ σ} {direction : Direction} {e : ChildPort}
    {slot : ChildSlot} {port : Port τ} (h : b.locateChild direction e = .ok (slot, port)) :
    portAt b.children direction slot.place = some port := by
  unfold locateChild at h
  split at h
  case h_1 => cases h
  case h_2 child _ =>
    split at h
    case h_1 => cases h
    case h_2 model hm =>
      obtain ⟨⟨place, p⟩, hl, hr⟩ := Except.bind_eq_ok.mp h
      cases hr
      rw [portAt, hm, Option.bind_some]
      exact locatePort_ok hl

variable [MessageType τ]

theorem checkTypes_ok {α β : Type} [LinkEnd α] [LinkEnd β] {b : Blueprint τ σ} {l : Link α β}
    {p q : Port τ} (h : b.checkTypes l p q = .ok ()) : p.type = q.type := by
  unfold checkTypes at h
  split at h
  case isTrue ht => exact ht
  case isFalse => cases h

theorem resolveInput_ok {b : Blueprint τ σ} {l : Link BoundaryPort ChildPort}
    {r : Link BoundarySlot ChildSlot} (h : b.resolveInput l = .ok r) :
    Joined (b.interface.inputs[r.source.place]?)
      (portAt b.children .input r.destination.place) := by
  obtain ⟨⟨source, p⟩, hs, h⟩ := Except.bind_eq_ok.mp h
  obtain ⟨⟨destination, q⟩, hd, h⟩ := Except.bind_eq_ok.mp h
  obtain ⟨⟨⟩, ht, h⟩ := Except.bind_eq_ok.mp h
  cases h
  exact ⟨p, q, locateBoundary_ok hs, locateChild_ok hd, checkTypes_ok ht⟩

theorem resolveOutput_ok {b : Blueprint τ σ} {l : Link ChildPort BoundaryPort}
    {r : Link ChildSlot BoundarySlot} (h : b.resolveOutput l = .ok r) :
    Joined (portAt b.children .output r.source.place)
      (b.interface.outputs[r.destination.place]?) := by
  obtain ⟨⟨source, p⟩, hs, h⟩ := Except.bind_eq_ok.mp h
  obtain ⟨⟨destination, q⟩, hd, h⟩ := Except.bind_eq_ok.mp h
  obtain ⟨⟨⟩, ht, h⟩ := Except.bind_eq_ok.mp h
  cases h
  exact ⟨p, q, locateChild_ok hs, locateBoundary_ok hd, checkTypes_ok ht⟩

theorem resolveInternal_ok {b : Blueprint τ σ} {l : Link ChildPort ChildPort}
    {r : Link ChildSlot ChildSlot} (h : b.resolveInternal l = .ok r) :
    Joined (portAt b.children .output r.source.place)
      (portAt b.children .input r.destination.place) ∧
      r.source.place.child ≠ r.destination.place.child := by
  obtain ⟨⟨source, p⟩, hs, h⟩ := Except.bind_eq_ok.mp h
  obtain ⟨⟨destination, q⟩, hd, h⟩ := Except.bind_eq_ok.mp h
  by_cases hself : source.place.child = destination.place.child
  · simp only [if_pos hself] at h
    cases h
  · simp only [if_neg hself] at h
    obtain ⟨⟨⟩, ht, h⟩ := Except.bind_eq_ok.mp h
    cases h
    exact ⟨⟨p, q, locateChild_ok hs, locateChild_ok hd, checkTypes_ok ht⟩, hself⟩

omit [MessageType τ] in
theorem checkBoundary_ok {b : Blueprint τ σ} (h : b.checkBoundary = .ok ()) :
    b.interface.Distinct := by
  unfold checkBoundary at h
  split at h
  case h_1 => cases h
  case h_2 hd => exact Interface.distinct_of_duplicate? hd

/-- **What was built** has the children of its description, and its couplings
join ports of them. -/
theorem build_ok {b : Blueprint τ σ} {m : Model τ σ} (h : b.build = .ok m) :
    ∃ c : Coupled τ, m = .coupled c b.children ∧ c.Wired b.children := by
  obtain ⟨⟨⟩, hb, h⟩ := Except.bind_eq_ok.mp h
  obtain ⟨⟨⟩, -, h⟩ := Except.bind_eq_ok.mp h
  obtain ⟨eic, hi, h⟩ := Except.bind_eq_ok.mp h
  obtain ⟨eoc, ho, h⟩ := Except.bind_eq_ok.mp h
  obtain ⟨ic, hc, h⟩ := Except.bind_eq_ok.mp h
  cases h
  refine ⟨_, rfl, checkBoundary_ok hb, ?_, ?_, ?_, ?_⟩
  · intro l hl
    obtain ⟨_, -, hr⟩ := Except.of_mem_mapM hi l hl
    exact resolveInput_ok hr
  · intro l hl
    obtain ⟨_, -, hr⟩ := Except.of_mem_mapM ho l hl
    exact resolveOutput_ok hr
  · intro l hl
    obtain ⟨_, -, hr⟩ := Except.of_mem_mapM hc l hl
    exact (resolveInternal_ok hr).1
  · intro l hl
    obtain ⟨_, -, hr⟩ := Except.of_mem_mapM hc l hl
    exact (resolveInternal_ok hr).2

end Blueprint

/-! ## Accepted trees -/

namespace Model

variable [MessageType τ] [AtomicModel τ σ]

theorem ofState_ok {id : String} {state : σ} {m : Model τ σ} (h : ofState id state = .ok m) :
    m = .atomic ⟨id, AtomicModel.interface state, state⟩ ∧
      (AtomicModel.interface state : Interface τ).Distinct := by
  unfold ofState at h
  simp only at h
  split at h
  case h_1 => cases h
  case h_2 hd =>
    cases h
    exact ⟨rfl, Interface.distinct_of_duplicate? hd⟩

/-- **An accepted tree is wired**, at every level. -/
theorem Accepted.wired {m : Model τ σ} (h : m.Accepted) : m.Wired := by
  induction h with
  | atomic h =>
      obtain ⟨rfl, hd⟩ := ofState_ok h
      exact .atomic hd
  | coupled _ h ih =>
      obtain ⟨c, rfl, hw⟩ := Blueprint.build_ok h
      exact .coupled hw ih

end Model

end DiscreteEvent
