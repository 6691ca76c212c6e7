/-
Leaves that nothing reaches from outside.

A set of leaves is `Sheltered` if no coupling chain leads into it from another leaf. Two trees
are the `SameOn` such a set if they differ at most in the states of the other leaves, and so in
their behaviour. Then what a leaf of the set receives in a step is the same in both
(`SameOn.receives`), and if no leaf of the set is due it receives nothing
(`Sheltered.receives_isEmpty`). Neither depends on what the other leaves do.

A `Transition` is what a leaf undergoes in a step, as far as it can tell.
-/
import DiscreteEvent.Proofs.Model.FlatStep
import DiscreteEvent.Proofs.Model.Journal

set_option autoImplicit false

namespace DiscreteEvent

variable {τ σ σ' μ : Type}

/-! ## Chains do not depend on states -/

namespace Model

section

variable (f : σ → σ') (children : List (Model τ σ)) (p : Place)

theorem entriesOf_mapState
    (h : ∀ m ∈ children, ∀ q, (m.mapState f).entries q = m.entries q) :
    entriesOf (children.map (mapState f)) p = entriesOf children p := by
  rw [entriesOf, entriesOf, entriesAt_eq, entriesAt_eq, List.getElem?_map]
  cases hm : children[p.child]? with
  | none => rfl
  | some m => exact congrArg _ (h m (List.mem_of_getElem? hm) _)

theorem exitsOf_mapState (h : ∀ m ∈ children, ∀ q, (m.mapState f).exits q = m.exits q) :
    exitsOf (children.map (mapState f)) p = exitsOf children p := by
  rw [exitsOf, exitsOf, exitsAt_eq, exitsAt_eq, List.getElem?_map]
  cases hm : children[p.child]? with
  | none => rfl
  | some m => exact congrArg _ (h m (List.mem_of_getElem? hm) _)

end

/-- The ways in are the same whatever the states are. -/
theorem entries_mapState (f : σ → σ') (m : Model τ σ) :
    ∀ p, (m.mapState f).entries p = m.entries p := by
  induction m using Model.induction with
  | atomic a => exact fun _ => rfl
  | coupled c children ih =>
      intro p
      rw [mapState, mapStates_eq, entries_coupled, entries_coupled]
      exact List.flatMap_congr fun l _ => entriesOf_mapState f children _ ih

/-- The ways out are the same whatever the states are. -/
theorem exits_mapState (f : σ → σ') (m : Model τ σ) :
    ∀ p, (m.mapState f).exits p = m.exits p := by
  induction m using Model.induction with
  | atomic a => exact fun _ => rfl
  | coupled c children ih =>
      intro p
      rw [mapState, mapStates_eq, exits_coupled, exits_coupled]
      exact List.flatMap_congr fun l _ => exitsOf_mapState f children _ ih

/-- **The chains inside** are the same whatever the states are. -/
theorem crossings_mapState (f : σ → σ') (m : Model τ σ) :
    (m.mapState f).crossings = m.crossings := by
  induction m using Model.induction with
  | atomic a => rfl
  | coupled c children ih =>
      -- The children are counted from any number on, so that the induction passes to the rest.
      have hfrom : ∀ (models : List (Model τ σ)) (k : Nat), (∀ m ∈ models, m ∈ children) →
          crossingsFrom k (models.map (mapState f)) = crossingsFrom k models := by
        intro models
        induction models with
        | nil => exact fun _ _ => rfl
        | cons m rest ihrest =>
            intro k hmem
            rw [List.map_cons, crossingsFrom, crossingsFrom, ih m (hmem m (by simp)),
              ihrest _ fun m' hm' => hmem m' (by simp [hm'])]
      rw [mapState, mapStates_eq, crossings, crossings, hfrom children 0 fun _ hm => hm]
      congr 1
      refine List.flatMap_congr fun l _ => ?_
      rw [exitsOf_mapState f children _ fun m _ => exits_mapState f m,
        entriesOf_mapState f children _ fun m _ => entries_mapState f m]

end Model

/-- What chains carry to a port depends only on the loads of those that end there. -/
theorem carried_congr_of_target {α : Type} {chains : Multiset α} {target : α → Terminal}
    {load load' : α → Multiset μ} {d : Terminal}
    (h : ∀ c ∈ chains, target c = d → load c = load' c) :
    carried chains target load d = carried chains target load' d := by
  refine Multiset.bind_congr fun c hc => ?_
  by_cases hd : target c = d
  · rw [if_pos hd, if_pos hd, h c hc hd]
  · rw [if_neg hd, if_neg hd]

/-! ## Sheltered leaves -/

namespace Model

/-- **No coupling chain leads into the set** from a leaf outside of it. -/
def Sheltered (m : Model τ σ) (leaves : Set (List Nat)) : Prop :=
  ∀ c ∈ m.crossings, c.2.address ∈ leaves → c.1.address ∈ leaves

/-- **Two trees that are the same on some leaves.** They have the same ids, ports and
couplings; and at an address in the set they have the same atomic model. -/
structure SameOn (leaves : Set (List Nat)) (m m' : Model τ σ) : Prop where
  shape : m.mapState (fun _ => ()) = m'.mapState fun _ => ()
  leaf : ∀ a ∈ leaves, m.atomAt? a = m'.atomAt? a

namespace SameOn

variable {leaves : Set (List Nat)} {m m' : Model τ σ}

theorem interface_eq (h : SameOn leaves m m') : m.interface = m'.interface := by
  rw [← interface_mapState (fun _ => ()) m, h.shape, interface_mapState]

theorem entries_eq (h : SameOn leaves m m') (p : Nat) : m.entries p = m'.entries p := by
  rw [← entries_mapState (fun _ => ()) m, h.shape, entries_mapState]

theorem crossings_eq (h : SameOn leaves m m') : m.crossings = m'.crossings := by
  rw [← crossings_mapState (fun _ => ()) m, h.shape, crossings_mapState]

end SameOn

variable [MessageType τ] [AtomicModel τ σ] {leaves : Set (List Nat)} {m m' : Model τ σ}
  {t : Instant} {cells cells' : List Nat → Option (Cell σ)} {a : List Nat} {i : Interface τ}
  {y : Bags τ}

/-- **A sheltered leaf receives the same** in both trees, if the cells of the sheltered leaves
are the same. -/
theorem SameOn.receives (h : SameOn leaves m m') (hm : m.Sheltered leaves)
    (hcells : ∀ b ∈ leaves, cells b = cells' b) (ha : a ∈ leaves) {x : Bags τ}
    (hy : m.Receives t x cells a i y) : m'.Receives t x cells' a i y := by
  refine ⟨hy.fits, fun q hq => (hy.content q hq).trans ?_⟩
  rw [inflow, inflow, h.interface_eq, ← h.crossings_eq]
  simp only [h.entries_eq]
  congr 1
  -- A chain that ends at a sheltered leaf begins at one, where the trees are the same.
  refine carried_congr_of_target fun c hc hd => ?_
  have hfrom : c.1.address ∈ leaves :=
    hm c (Multiset.mem_coe.mp hc) ((congrArg Terminal.address hd).symm ▸ ha)
  rw [emitted, emitted, h.leaf _ hfrom, hcells _ hfrom]

/-- A leaf that is not due emits nothing. -/
theorem emitted_eq_zero {o : Terminal} (h : ∀ c, cells o.address = some c → c.next ≠ t) :
    m.emitted t cells o = 0 := by
  unfold emitted
  split
  · rename_i atom c _ hc
    rw [Cell.emission, if_neg (h c hc), Bags.messagesAt_ofPorts]
    rfl
  · rfl

/-- **A sheltered leaf receives nothing** when none of the sheltered leaves is due, and nothing
waits at the root. -/
theorem Sheltered.receives_isEmpty (hm : m.Sheltered leaves) (ha : a ∈ leaves)
    (hsilent : ∀ b ∈ leaves, ∀ c, cells b = some c → c.next ≠ t) {ports : List (Port τ)}
    (hy : m.Receives t (.ofPorts ports) cells a i y) : y.isEmpty = true := by
  refine Bags.isEmpty_iff.mpr fun q => ?_
  by_cases hq : q < i.inputs.length
  · refine (Multiset.coe_eq_zero _).mp ((hy.content q hq).trans ?_)
    have hinside : carried (m.crossings : Multiset (Terminal × Terminal)) Prod.snd
        (fun c => m.emitted t cells c.1) ⟨a, q⟩
          = carried (m.crossings : Multiset (Terminal × Terminal)) Prod.snd (fun _ => 0) ⟨a, q⟩ :=
      carried_congr_of_target fun c hc hd => emitted_eq_zero
        (hsilent _ (hm c (Multiset.mem_coe.mp hc) ((congrArg Terminal.address hd).symm ▸ ha)))
    rw [inflow, hinside]
    simp only [Bags.messagesAt_ofPorts, Multiset.coe_nil, carried, ite_self, Multiset.bind_zero,
      add_zero]
  · exact Bags.messagesAt_of_length_le (by rw [hy.fits.length_eq]; omega)

end Model

/-! ## Transitions -/

/-- **A transition of a leaf**: when it was made, whether the event of the leaf was due, how long
after the last transition, on what input, and to which state it led. -/
structure Transition (τ σ : Type) [MessageType τ] where
  time : Instant
  due : Bool
  elapsed : Span
  input : Bags τ
  state : σ

variable [MessageType τ]

/-- **The same transition**, the input taken as a multiset of messages on every port. -/
structure Transition.Alike (x y : Transition τ σ) : Prop where
  time : x.time = y.time
  due : x.due = y.due
  elapsed : x.elapsed = y.elapsed
  input : x.input.Alike y.input
  state : x.state = y.state

/-- **Where transitions lead** a leaf: to a state and a last transition. -/
def Transition.lead (position : σ × Instant) (life : List (Transition τ σ)) : σ × Instant :=
  life.foldl (fun _ x => (x.state, x.time)) position

theorem Transition.lead_append (position : σ × Instant) (xs ys : List (Transition τ σ)) :
    lead position (xs ++ ys) = lead (lead position xs) ys :=
  List.foldl_append

namespace Cell

/-- The state and the last transition of a cell. -/
def position (c : Cell σ) : σ × Instant := (c.state, c.last)

variable [AtomicModel τ σ]

/-- The transition that a cell makes at `t` on the input `x`, if it makes one. -/
def transition? (t : Instant) (x : Bags τ) (c : Cell σ) : Option (Transition τ σ) :=
  if x.isEmpty && !decide (c.next = t) then none
  else some ⟨t, decide (c.next = t), c.last.elapsed t, x, (c.step t x).state⟩

/-- A cell that is neither due nor has input makes no transition and stays as it is. -/
theorem transition?_of_idle {t : Instant} {x : Bags τ} {c : Cell σ} (hx : x.isEmpty = true)
    (hnot : c.next ≠ t) : c.transition? t x = none ∧ c.step t x = c := by
  refine ⟨?_, ?_⟩
  · rw [transition?, hx, decide_eq_false hnot]
    rfl
  · rw [step, if_neg hnot, if_pos hx]

/-- The transition of a cell leads to where its step leads. -/
theorem lead_transition? (t : Instant) (x : Bags τ) (c : Cell σ) :
    Transition.lead c.position (c.transition? t x).toList = (c.step t x).position := by
  by_cases hidle : (x.isEmpty && !decide (c.next = t)) = true
  · obtain ⟨hx, hnot⟩ := Bool.and_eq_true_iff.mp hidle
    rw [Bool.not_eq_true', decide_eq_false_iff_not] at hnot
    rw [(transition?_of_idle hx hnot).1, (transition?_of_idle hx hnot).2]
    rfl
  · have hlast : (c.step t x).last = t := by
      unfold step
      split
      · split <;> rfl
      · split
        · rename_i hnot hx
          exact absurd (by rw [hx, decide_eq_false hnot]; rfl) hidle
        · rfl
    rw [transition?, if_neg hidle, position, position, hlast]
    rfl

/-- On inputs that are alike a cell makes the same transition. -/
theorem transition?_alike {good : Interface τ → Stage → σ → Prop} (ho : OrderFree good)
    {i : Interface τ} {g : Stage} {t : Instant} {c : Cell σ} {x y : Bags τ}
    (hg : good i g c.state)
    (hf : c.next = t →
      ∃ g, good i g (AtomicModel.internal (AtomicModel.output c.state).state).state)
    (hx : x.Fits i.inputs) (hy : y.Fits i.inputs) (h : x.Alike y) :
    List.Forall₂ Transition.Alike (c.transition? t x).toList (c.transition? t y).toList := by
  rw [transition?, transition?, h.isEmpty_eq]
  split
  · exact .nil
  · exact .cons ⟨rfl, rfl, rfl, h, by rw [Cell.step_congr ho hg hf hx hy h]⟩ .nil

end Cell

end DiscreteEvent
