/-
Routes and chains bring the same.

A crew sends along routes, leaf by number, and an engine tree along chains, from level
to level. When their leaves are the same, so is what arrives: at a port of a leaf the
routes bring what reaches it in the tree (`mailFor_eq_reaching`), and at an output of
the root what the leaves behind it send (`mailOut_eq_sent`). The order of messages is
not the same, and so both are equations between multisets.
-/
import DiscreteEvent.Proofs.Flat.Sound

set_option autoImplicit false

namespace DiscreteEvent

variable {τ σ μ : Type}

/-! ## Routes as chains -/

namespace Model

/-- A leaf has a port of its own number only at its own address. -/
theorem leafPort_eq_iff {m : Model τ σ} {d : Terminal} {a : List Nat} {q : Nat} {x y : Atomic τ σ}
    (hd : m.atomAt? d.address = some x) (ha : m.atomAt? a = some y) :
    m.leafPort 0 d = ⟨m.number a, q⟩ ↔ d = ⟨a, q⟩ := by
  rw [leafPort, Nat.zero_add, LeafPort.mk.injEq, Terminal.ext_iff]
  constructor
  · rintro ⟨hnumber, hport⟩
    exact ⟨number_inj hd ha hnumber, hport⟩
  · rintro ⟨rfl, hport⟩
    exact ⟨rfl, hport⟩

/-- **What the routes to a port of a leaf carry** is what flows in along its chains. -/
theorem bind_routes_leaf [MessageType τ] {m : Model τ σ} (hm : m.Wired) {a : List Nat}
    {x : Atomic τ σ} (ha : m.atomAt? a = some x) (q : Nat) (load : RouteSource → Multiset μ) :
    (m.routes : Multiset Route).bind
        (fun r => if r.target = .leaf ⟨m.number a, q⟩ then load r.source else 0)
      = m.inflow (fun o => load (.leaf (m.leafPort 0 o))) (fun p => load (.rootInput p)) ⟨a, q⟩ := by
  have hinside : (m.crossings.map (m.innerRoute 0) : Multiset Route).bind
      (fun r => if r.target = .leaf ⟨m.number a, q⟩ then load r.source else 0)
        = carried (m.crossings : Multiset (Terminal × Terminal)) Prod.snd
            (fun c => load (.leaf (m.leafPort 0 c.1))) ⟨a, q⟩ := by
    rw [← Multiset.map_coe, Multiset.bind_map]
    refine Multiset.bind_congr fun c hc => ?_
    obtain ⟨-, y, -, hy, -⟩ := joined_crossings m hm c hc
    obtain ⟨b, hb, -⟩ := exists_atom hy
    simp only [innerRoute, RouteTarget.leaf.injEq, leafPort_eq_iff hb ha]
  have hentering : (((List.range m.interface.inputs.length).flatMap fun p =>
        (m.entries p).map fun t => ⟨.rootInput p, .leaf (m.leafPort 0 t)⟩ : List Route) :
          Multiset Route).bind
      (fun r => if r.target = .leaf ⟨m.number a, q⟩ then load r.source else 0)
        = (Multiset.range m.interface.inputs.length).bind fun p =>
            carried (m.entries p : Multiset Terminal) (fun t => t) (fun _ => load (.rootInput p))
              ⟨a, q⟩ := by
    rw [← Multiset.coe_bind, Multiset.bind_assoc]
    refine Multiset.bind_congr fun p hp => ?_
    rw [← Multiset.map_coe, Multiset.bind_map]
    refine Multiset.bind_congr fun t ht => ?_
    have hport := List.getElem?_eq_getElem (List.mem_range.mp hp)
    obtain ⟨-, y, -, hy, -⟩ := joined_entries m hm hport t ht
    obtain ⟨b, hb, -⟩ := exists_atom hy
    simp only [RouteTarget.leaf.injEq, leafPort_eq_iff hb ha]
  -- The routes out of the root do not end at a leaf.
  have hleaving : (((List.range m.interface.outputs.length).flatMap fun p =>
        (m.exits p).map fun t => ⟨.leaf (m.leafPort 0 t), .rootOutput p⟩ : List Route) :
          Multiset Route).bind
      (fun r => if r.target = .leaf ⟨m.number a, q⟩ then load r.source else 0) = 0 := by
    refine (Multiset.bind_congr fun r hr => ?_).trans (Multiset.bind_zero _)
    obtain ⟨p, -, hr⟩ := List.mem_flatMap.mp hr
    obtain ⟨t, -, rfl⟩ := List.mem_map.mp hr
    rfl
  rw [routes, ← Multiset.coe_add, ← Multiset.coe_add, Multiset.add_bind, Multiset.add_bind,
    hinside, hentering, hleaving, add_zero, inflow]

/-- **What the routes to an output of the root carry** is what comes in along its ways out. -/
theorem bind_routes_root {m : Model τ σ} {p : Nat} (hp : p < m.interface.outputs.length)
    (load : RouteSource → Multiset μ) :
    (m.routes : Multiset Route).bind
        (fun r => if r.target = .rootOutput p then load r.source else 0)
      = (m.exits p : Multiset Terminal).bind fun o => load (.leaf (m.leafPort 0 o)) := by
  -- Routes that end at a leaf bring nothing to the root.
  have hzero : ∀ routes : List Route, (∀ r ∈ routes, ∃ d, r.target = .leaf d) →
      (routes : Multiset Route).bind
        (fun r => if r.target = .rootOutput p then load r.source else 0) = 0 := by
    intro routes h
    refine (Multiset.bind_congr fun r hr => ?_).trans (Multiset.bind_zero _)
    obtain ⟨d, hd⟩ := h r hr
    rw [hd, if_neg (by simp)]
  have hinside := hzero (m.crossings.map (m.innerRoute 0)) fun r hr => by
    obtain ⟨c, -, rfl⟩ := List.mem_map.mp hr
    exact ⟨_, rfl⟩
  have hentering := hzero ((List.range m.interface.inputs.length).flatMap fun p =>
      (m.entries p).map fun t => ⟨.rootInput p, .leaf (m.leafPort 0 t)⟩) fun r hr => by
    obtain ⟨p, -, hr⟩ := List.mem_flatMap.mp hr
    obtain ⟨t, -, rfl⟩ := List.mem_map.mp hr
    exact ⟨_, rfl⟩
  rw [routes, ← Multiset.coe_add, ← Multiset.coe_add, Multiset.add_bind, Multiset.add_bind,
    hinside, hentering, zero_add, zero_add, ← Multiset.coe_bind, Multiset.bind_assoc]
  -- Of the ways out of the root only those that leave by this output count.
  have hways : ∀ p' ∈ (List.range m.interface.outputs.length : Multiset Nat),
      (((m.exits p').map fun t => ⟨.leaf (m.leafPort 0 t), .rootOutput p'⟩ : List Route) :
          Multiset Route).bind
        (fun r => if r.target = .rootOutput p then load r.source else 0)
        = if p' = p then
            (m.exits p' : Multiset Terminal).bind fun o => load (.leaf (m.leafPort 0 o))
          else 0 := by
    intro p' _
    rw [← Multiset.map_coe, Multiset.bind_map]
    by_cases hpp : p' = p
    · simp only [hpp, if_true]
    · simp only [RouteTarget.rootOutput.injEq, if_neg hpp, Multiset.bind_zero]
  rw [Multiset.bind_congr hways, ← bind_filter_key (fun p' => p') p, List.filter_beq,
    List.count_eq_one_of_mem List.nodup_range (List.mem_range.mpr hp), List.replicate_one,
    Multiset.coe_singleton, Multiset.singleton_bind]

/-- What flows in is determined by what the leaves send. -/
theorem inflow_congr [MessageType τ] {m : Model τ σ} (hm : m.Wired)
    {sent sent' : Terminal → Multiset μ}
    (h : ∀ o x, m.atomAt? o.address = some x → sent o = sent' o) (waiting : Nat → Multiset μ)
    (d : Terminal) : m.inflow sent waiting d = m.inflow sent' waiting d := by
  rw [inflow, inflow]
  congr 1
  refine carried_congr fun c hc => ?_
  obtain ⟨y, -, hy, -, -⟩ := joined_crossings m hm c hc
  obtain ⟨x, hx, -⟩ := exists_atom hy
  exact h c.1 x hx

end Model

/-! ## Mail -/

variable [MessageType τ]

namespace Crew

variable {good : Interface τ → Stage → σ → Prop} {m : Model τ σ} {c : Crew τ σ} {e : Engine τ σ}

/-- What routes bring to a port of a leaf, as a sum over the routes. -/
theorem bind_mailFor (c : Crew τ σ) (routes : List Route) (i q : Nat) :
    ((((c.mailFor routes i).filter (·.port == q)).flatMap (·.messages) : List (Message τ)) :
        Multiset (Message τ))
      = (routes : Multiset Route).bind fun r =>
          if r.target = .leaf ⟨i, q⟩ then (c.load r.source : Multiset (Message τ)) else 0 := by
  induction routes with
  | nil => rfl
  | cons r routes ih =>
      rw [← Multiset.cons_coe, Multiset.cons_bind, ← ih, mailFor, List.filterMap_cons]
      cases hr : r.target with
      | rootOutput p =>
          simp only [deliveryFor, hr, reduceCtorEq, if_false, zero_add]
          rfl
      | leaf d =>
          by_cases hi : d.leaf = i
          · by_cases hq : d.port = q
            · have hd : d = ⟨i, q⟩ := by rw [← hi, ← hq]
              simp only [deliveryFor, hr, hd, List.filter_cons, beq_self_eq_true, if_true,
                List.flatMap_cons, ← Multiset.coe_add]
              rfl
            · have hd : ¬d = ⟨i, q⟩ := fun h => hq (by rw [h])
              have hq' : (d.port == q) = false := by simpa using hq
              simp only [deliveryFor, hr, if_pos hi, RouteTarget.leaf.injEq, if_neg hd, zero_add,
                List.filter_cons, hq', Bool.false_eq_true, if_false]
              rfl
          · have hd : ¬d = ⟨i, q⟩ := fun h => hi (by rw [h])
            simp only [deliveryFor, hr, if_neg hi, RouteTarget.leaf.injEq, if_neg hd, zero_add]
            rfl

/-- What routes bring to an output of the root, as a sum over the routes. -/
theorem bind_mailOut (c : Crew τ σ) (routes : List Route) (p : Nat) :
    ((((c.mailOut routes).filter (·.port == p)).flatMap (·.messages) : List (Message τ)) :
        Multiset (Message τ))
      = (routes : Multiset Route).bind fun r =>
          if r.target = .rootOutput p then (c.load r.source : Multiset (Message τ)) else 0 := by
  induction routes with
  | nil => rfl
  | cons r routes ih =>
      rw [← Multiset.cons_coe, Multiset.cons_bind, ← ih, mailOut, List.filterMap_cons]
      cases hr : r.target with
      | leaf d =>
          simp only [deliveryOut, hr, reduceCtorEq, if_false, zero_add]
          rfl
      | rootOutput p' =>
          by_cases hp : p' = p
          · simp only [deliveryOut, hr, hp, List.filter_cons, beq_self_eq_true, if_true,
              List.flatMap_cons, ← Multiset.coe_add]
            rfl
          · have hp' : (p' == p) = false := by simpa using hp
            simp only [deliveryOut, hr, RouteTarget.rootOutput.injEq, if_neg hp, zero_add,
              List.filter_cons, hp', Bool.false_eq_true, if_false]
            rfl

/-- **What a route takes from a leaf** is what the leaf sends in the tree. -/
theorem load_leaf (hs : Engine.Sound good m e) (hleaves : c.leaves = e.leaves) {o : Terminal}
    {x : Atomic τ σ} (ho : m.atomAt? o.address = some x) :
    (c.load (.leaf (m.leafPort 0 o)) : Multiset (Message τ)) = e.sent o := by
  obtain ⟨l, hl, -⟩ := hs.exists_leaf.1 ho
  rw [load, sourceBag, Model.leafPort, Nat.zero_add, hleaves, hs.getElem?_leaves hl,
    Option.bind_some, Engine.sent, hl]
  simp only [Bags.messagesAt]
  cases l.outbox.list[o.port]? <;> rfl

theorem load_rootInput (c : Crew τ σ) (p : Nat) :
    c.load (.rootInput p) = c.inbox.messagesAt p := by
  rw [load, sourceBag, Bags.messagesAt]
  cases c.inbox.list[p]? <;> rfl

/-- **At a port of a leaf** the routes bring what reaches it in the tree. -/
theorem mailFor_eq_reaching (hm : m.Wired) (hs : Engine.Sound good m e)
    (hleaves : c.leaves = e.leaves) (hx : c.inbox.Fits m.interface.inputs) {routes : List Route}
    (hr : routes.Perm m.routes) {a : List Nat} {atom : Atomic τ σ} (ha : m.atomAt? a = some atom)
    (q : Nat) :
    ((((c.mailFor routes (m.number a)).filter (·.port == q)).flatMap (·.messages) :
        List (Message τ)) : Multiset (Message τ))
      = Engine.reaching m e c.inbox.asMail ⟨a, q⟩ := by
  rw [bind_mailFor, Multiset.coe_eq_coe.mpr hr,
    Model.bind_routes_leaf hm ha q fun source => (c.load source : Multiset (Message τ)),
    Engine.reaching_asMail hx]
  simp only [load_rootInput]
  exact Model.inflow_congr hm (fun o x ho => load_leaf hs hleaves ho) _ _

/-- **At an output of the root** the routes bring what the leaves behind it send. -/
theorem mailOut_eq_sent (hm : m.Wired) (hs : Engine.Sound good m e)
    (hleaves : c.leaves = e.leaves) {routes : List Route} (hr : routes.Perm m.routes) {p : Nat}
    (hp : p < m.interface.outputs.length) :
    ((((c.mailOut routes).filter (·.port == p)).flatMap (·.messages) : List (Message τ)) :
        Multiset (Message τ))
      = (m.exits p : Multiset Terminal).bind e.sent := by
  rw [bind_mailOut, Multiset.coe_eq_coe.mpr hr,
    Model.bind_routes_root hp fun source => (c.load source : Multiset (Message τ))]
  refine Multiset.bind_congr fun o ho => ?_
  obtain ⟨y, -, hy, -, -⟩ := Model.joined_exits m hm (List.getElem?_eq_getElem hp) o ho
  obtain ⟨x, hx, -⟩ := Model.exists_atom hy
  exact load_leaf hs hleaves hx

end Crew

end DiscreteEvent
