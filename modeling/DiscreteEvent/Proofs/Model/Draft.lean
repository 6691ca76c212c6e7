/-
Drafts: whole model trees, before anything is built.

The children of a blueprint are models. In a draft nothing is a model yet: it has the states
of its leaves, and above them descriptions of networks, which `Draft.build` builds from the
leaves up. The accepted trees are those that have a draft which can be built
(`Model.accepted_iff_exists_draft`).

A network is described by lists, and its author has to write them in some order. A draft is
`Rearranged` when at any of its networks the children, the ports of the boundary and the
couplings of each kind are in other orders.
-/
import DiscreteEvent.Proofs.Model.WellFormed
import Mathlib.Data.List.Perm.Basic

set_option autoImplicit false

namespace DiscreteEvent

variable {τ σ : Type}

/-- **The description of a network without its children**: a blueprint to which they are yet
to be added. -/
structure Plan (τ : Type) where
  id : String
  interface : Interface τ
  eic : List (Link BoundaryPort ChildPort)
  eoc : List (Link ChildPort BoundaryPort)
  ic : List (Link ChildPort ChildPort)

/-- The plan with the children. -/
def Plan.blueprint (p : Plan τ) (children : List (Model τ σ)) : Blueprint τ σ :=
  ⟨p.id, p.interface, children, p.eic, p.eoc, p.ic⟩

/-- **The description of a whole tree.** -/
inductive Draft (τ σ : Type) where
  | atomic (id : String) (state : σ)
  | coupled (plan : Plan τ) (children : List (Draft τ σ))

/-! ## Building a draft -/

namespace Draft

section

variable [MessageType τ] [AtomicModel τ σ]

mutual

/-- **Building a whole tree**, the children before the network they are in. -/
def build : Draft τ σ → Except Defect (Model τ σ)
  | atomic id state => Model.ofState id state
  | coupled plan children => do
    let models ← buildAll children
    (plan.blueprint models).build

/-- Building several trees, one after the other. -/
def buildAll : List (Draft τ σ) → Except Defect (List (Model τ σ))
  | [] => return []
  | d :: ds => return (← d.build) :: (← buildAll ds)

end

theorem buildAll_eq_ok {ds : List (Draft τ σ)} :
    ∀ {ms : List (Model τ σ)},
      buildAll ds = .ok ms ↔ List.Forall₂ (fun d m => d.build = .ok m) ds ms := by
  induction ds with
  | nil =>
      intro ms
      rw [buildAll, List.forall₂_nil_left_iff]
      exact ⟨fun h => (Except.ok.inj h).symm, fun h => congrArg Except.ok h.symm⟩
  | cons d ds ih =>
      intro ms
      rw [buildAll, Except.bind_eq_ok, List.forall₂_cons_left_iff]
      simp only [Except.bind_eq_ok, ih]
      constructor
      · rintro ⟨m, hm, ms, hms, h⟩
        exact ⟨m, ms, hm, hms, (Except.ok.inj h).symm⟩
      · rintro ⟨m, ms, hm, hms, rfl⟩
        exact ⟨m, hm, ms, hms, rfl⟩

/-- **A network is built** when all its children are, and then its plan with these. -/
theorem build_coupled {p : Plan τ} {ds : List (Draft τ σ)} {m : Model τ σ} :
    (coupled p ds).build = .ok m ↔
      ∃ ms, List.Forall₂ (fun d m => d.build = .ok m) ds ms ∧ (p.blueprint ms).build = .ok m := by
  rw [build, Except.bind_eq_ok]
  simp only [buildAll_eq_ok]

end

/-- **Induction on drafts**, with a hypothesis for every child. -/
@[elab_as_elim]
theorem induction {motive : Draft τ σ → Prop} (atomic : ∀ id state, motive (.atomic id state))
    (coupled : ∀ p ds, (∀ d ∈ ds, motive d) → motive (.coupled p ds)) (d : Draft τ σ) :
    motive d :=
  @Draft.rec τ σ motive (fun ds => ∀ d ∈ ds, motive d) atomic
    (fun p ds ih => coupled p ds ih) (fun _ hd => absurd hd (List.not_mem_nil))
    (fun _ _ ihd ihds d hd => (List.mem_cons.mp hd).elim (fun h => h ▸ ihd) (ihds d)) d

section

variable [MessageType τ] [AtomicModel τ σ]

/-- What is built of a draft is accepted. -/
theorem accepted (d : Draft τ σ) : ∀ {m : Model τ σ}, d.build = .ok m → m.Accepted := by
  induction d using Draft.induction with
  | atomic id state => exact fun h => .atomic h
  | coupled p ds ih =>
      intro m h
      obtain ⟨ms, hms, hbuild⟩ := build_coupled.mp h
      refine .coupled (b := p.blueprint ms) (fun c hc => ?_) hbuild
      obtain ⟨i, hi, rfl⟩ := List.getElem_of_mem hc
      have hi' : i < ds.length := hms.length_eq ▸ hi
      exact ih _ (List.getElem_mem hi') (hms.get hi' hi)

end

end Draft

section

variable [MessageType τ] [AtomicModel τ σ]

/-- **The accepted trees are those that can be built of a draft.** -/
theorem Model.accepted_iff_exists_draft {m : Model τ σ} :
    m.Accepted ↔ ∃ d : Draft τ σ, d.build = .ok m := by
  refine ⟨fun h => ?_, fun ⟨d, h⟩ => d.accepted h⟩
  induction h with
  | @atomic id state m h => exact ⟨.atomic id state, h⟩
  | @coupled b m _ h ih =>
      have hdrafts : ∃ ds : List (Draft τ σ),
          List.Forall₂ (fun d m => d.build = .ok m) ds b.children := by
        generalize b.children = ms at ih
        induction ms with
        | nil => exact ⟨[], .nil⟩
        | cons m ms ih' =>
            obtain ⟨⟨d, hd⟩, hrest⟩ := List.forall_mem_cons.mp ih
            obtain ⟨ds, hds⟩ := ih' hrest
            exact ⟨d :: ds, .cons hd hds⟩
      obtain ⟨ds, hds⟩ := hdrafts
      exact ⟨.coupled ⟨b.id, b.interface, b.eic, b.eoc, b.ic⟩ ds,
        Draft.build_coupled.mpr ⟨b.children, hds, h⟩⟩

end

/-! ## Other orders -/

/-- **The same plan, with its lists in other orders.** -/
structure Plan.Reordered (p p' : Plan τ) : Prop where
  id : p.id = p'.id
  inputs : p.interface.inputs.Perm p'.interface.inputs
  outputs : p.interface.outputs.Perm p'.interface.outputs
  eic : p.eic.Perm p'.eic
  eoc : p.eoc.Perm p'.eoc
  ic : p.ic.Perm p'.ic

/-- **The same draft, but for the orders in which things are declared**, in any of its
networks. The children in between are the rearranged ones, before they change places. -/
inductive Draft.Rearranged : Draft τ σ → Draft τ σ → Prop
  | atomic (id : String) (state : σ) : Rearranged (.atomic id state) (.atomic id state)
  | coupled {p p' : Plan τ} {ds es ds' : List (Draft τ σ)} (plan : p.Reordered p')
      (length : ds.length = es.length)
      (each : ∀ (i : Nat) (d e : Draft τ σ), ds[i]? = some d → es[i]? = some e → Rearranged d e)
      (order : es.Perm ds') : Rearranged (.coupled p ds) (.coupled p' ds')

/-! ## Well-formed descriptions in other orders -/

namespace Blueprint

variable {b b' : Blueprint τ σ}

/-- A description has the models of another one, with their ports. -/
def HasHosts (b' b : Blueprint τ σ) : Prop :=
  ∀ id i, b.Hosts id i → ∃ i', b'.Hosts id i' ∧
    ∀ direction, i.ports direction ⊆ i'.ports direction

theorem HasHosts.declares (h : b'.HasHosts b) {ε : Type} [LinkEnd ε] {direction : Direction}
    {e : ε} {p : Port τ} (he : b.Declares direction e p) : b'.Declares direction e p := by
  obtain ⟨i, hi, hp, hname⟩ := he
  obtain ⟨i', hi', hports⟩ := h _ i hi
  exact ⟨i', hi', hports direction hp, hname⟩

theorem HasHosts.joins (h : b'.HasHosts b) {α β : Type} [LinkEnd α] [LinkEnd β]
    {source destination : Direction} {l : Link α β} (hl : b.Joins source destination l) :
    b'.Joins source destination l := by
  obtain ⟨p, q, hp, hq, htype⟩ := hl
  exact ⟨p, q, h.declares hp, h.declares hq, htype⟩

variable [MessageType τ]

/-- **A description whose children are wired can be built exactly if it is well formed.** -/
theorem exists_build_iff (hchildren : ∀ m ∈ b.children, m.Wired) :
    (∃ m, b.build = .ok m) ↔ b.WellFormed := by
  rw [wellFormed_iff fun m hm => (hchildren m hm).distinct]
  exact b.build_blames.eq_nil_iff.symm

end Blueprint

/-- **A well-formed description stays so** when its lists are in other orders, and its children
are others with the same ids and at least the same ports. -/
theorem Plan.Reordered.wellFormed {p p' : Plan τ} {ms ms' : List (Model τ σ)}
    (h : p.Reordered p') (hids : (ms.map Model.id).Perm (ms'.map Model.id))
    (hhosts : ∀ m ∈ ms, ∃ m' ∈ ms', m'.id = m.id ∧
      ∀ direction, m.interface.ports direction ⊆ m'.interface.ports direction)
    (hw : (p.blueprint ms).WellFormed) : (p'.blueprint ms').WellFormed := by
  have hhas : (p'.blueprint ms').HasHosts (p.blueprint ms) := by
    intro id i hi
    cases hi with
    | boundary =>
        refine ⟨_, .boundary, fun direction => ?_⟩
        cases direction with
        | input => exact h.inputs.subset
        | output => exact h.outputs.subset
    | child hm =>
        obtain ⟨m', hm', hid, hports⟩ := hhosts _ hm
        exact ⟨_, hid ▸ .child hm', hports⟩
  exact {
    inputs := (h.inputs.map _).nodup_iff.mp hw.inputs
    outputs := (h.outputs.map _).nodup_iff.mp hw.outputs
    children := hids.nodup_iff.mp hw.children
    eic := fun l hl => hhas.joins (hw.eic l (h.eic.mem_iff.mpr hl))
    eoc := fun l hl => hhas.joins (hw.eoc l (h.eoc.mem_iff.mpr hl))
    ic := fun l hl => hhas.joins (hw.ic l (h.ic.mem_iff.mpr hl))
    apart := fun l hl => hw.apart l (h.ic.mem_iff.mpr hl) }

end DiscreteEvent
