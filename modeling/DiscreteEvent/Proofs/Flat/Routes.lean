/-
Routes are coupling chains, with leaves by their numbers.

Flattening follows the couplings of a tree once and keeps the ends of every
chain. `allRoutes_eq` says that it does so exactly: the routes of a flattened
tree are the crossings of the tree, its ways in and its ways out, each as often as
it can be formed, and with numbers instead of addresses. The leaves of the flattened
tree are those of the engine tree (`leaves_eq`).

That a chain joins two ports of one type follows from the same of each coupling
on the way (`joined_entries`, `joined_exits`, `joined_crossings`). So every route
joins two places that are there (`Model.joined_routes`), which is all that a crew
relies on.
-/
import DiscreteEvent.Flat.Route
import DiscreteEvent.Proofs.Flat.Numbering

set_option autoImplicit false

namespace DiscreteEvent

variable {τ σ : Type}

/-! ## Chains join ports -/

theorem Joined.trans {p q r : Option (Port τ)} (h : Joined p q) (h' : Joined q r) :
    Joined p r := by
  obtain ⟨x, y, hx, hy, hxy⟩ := h
  obtain ⟨y', z, hy', hz, hyz⟩ := h'
  cases hy.symm.trans hy'
  exact ⟨x, z, hx, hz, hxy.trans hyz⟩

namespace Model

/-- The port of a leaf. -/
def terminalPort (m : Model τ σ) (direction : Direction) (t : Terminal) : Option (Port τ) :=
  (m.atomAt? t.address).bind fun a => (a.interface.ports direction)[t.port]?

theorem terminalPort_below {c : Coupled τ} {ms : List (Model τ σ)} {i : Nat} {m : Model τ σ}
    (h : ms[i]? = some m) (direction : Direction) (t : Terminal) :
    (Model.coupled c ms).terminalPort direction (t.below i) = m.terminalPort direction t := by
  rw [terminalPort, Terminal.below, atomAt?, h, Option.bind_some, terminalPort]

/-- A port of a leaf that is there belongs to an atomic model. -/
theorem exists_atom {m : Model τ σ} {direction : Direction} {t : Terminal} {p : Port τ}
    (h : m.terminalPort direction t = some p) :
    ∃ a, m.atomAt? t.address = some a ∧ (a.interface.ports direction)[t.port]? = some p :=
  Option.bind_eq_some_iff.mp h

/-- **A way in** joins a port of the root and an input of a leaf. -/
theorem joined_entries (m : Model τ σ) :
    m.Wired → ∀ {p : Nat} {x : Port τ}, m.interface.inputs[p]? = some x → ∀ t ∈ m.entries p,
      Joined (some x) (m.terminalPort .input t) := by
  induction m using Model.induction with
  | atomic a =>
      intro _ p x hx t ht
      rw [entries, List.mem_singleton] at ht
      subst ht
      exact ⟨x, x, rfl, hx, rfl⟩
  | coupled c ms ih =>
      intro hm p x hx t ht
      rw [entries_coupled, List.mem_flatMap] at ht
      obtain ⟨l, hl, ht⟩ := ht
      obtain ⟨hl, hsource⟩ := List.mem_filter.mp hl
      rw [beq_iff_eq] at hsource
      obtain ⟨x', y, hx', hy, htype⟩ := hm.self.eic l hl
      rw [hsource] at hx'
      cases hx.symm.trans hx'
      obtain ⟨m, hmi, hy⟩ := Option.bind_eq_some_iff.mp hy
      rw [entriesOf_eq hmi, List.mem_map] at ht
      obtain ⟨t, ht, rfl⟩ := ht
      rw [terminalPort_below hmi]
      have hmem := List.mem_of_getElem? hmi
      exact Joined.trans ⟨x, y, rfl, rfl, htype⟩ (ih m hmem (hm.child hmem) hy t ht)

/-- **A way out** joins a port of the root and an output of a leaf. -/
theorem joined_exits (m : Model τ σ) :
    m.Wired → ∀ {p : Nat} {x : Port τ}, m.interface.outputs[p]? = some x → ∀ t ∈ m.exits p,
      Joined (m.terminalPort .output t) (some x) := by
  induction m using Model.induction with
  | atomic a =>
      intro _ p x hx t ht
      rw [exits, List.mem_singleton] at ht
      subst ht
      exact ⟨x, x, hx, rfl, rfl⟩
  | coupled c ms ih =>
      intro hm p x hx t ht
      rw [exits_coupled, List.mem_flatMap] at ht
      obtain ⟨l, hl, ht⟩ := ht
      obtain ⟨hl, hdestination⟩ := List.mem_filter.mp hl
      rw [beq_iff_eq] at hdestination
      obtain ⟨y, x', hy, hx', htype⟩ := hm.self.eoc l hl
      rw [hdestination] at hx'
      cases hx.symm.trans hx'
      obtain ⟨m, hmi, hy⟩ := Option.bind_eq_some_iff.mp hy
      rw [exitsOf_eq hmi, List.mem_map] at ht
      obtain ⟨t, ht, rfl⟩ := ht
      rw [terminalPort_below hmi]
      have hmem := List.mem_of_getElem? hmi
      exact (ih m hmem (hm.child hmem) hy t ht).trans ⟨y, x, rfl, rfl, htype⟩

/-- A chain inside of a child is one inside of the whole. -/
theorem exists_of_mem_crossingsFrom {c : Terminal × Terminal} (ms : List (Model τ σ)) :
    ∀ {k : Nat}, c ∈ crossingsFrom k ms → ∃ (i : Nat) (m : Model τ σ) (c' : Terminal × Terminal),
      ms[i]? = some m ∧ c' ∈ m.crossings ∧ c = (c'.1.below (k + i), c'.2.below (k + i)) := by
  induction ms with
  | nil => exact fun h => nomatch h
  | cons m ms ih =>
      intro k h
      rw [crossingsFrom, List.mem_append] at h
      rcases h with h | h
      · obtain ⟨c', hc', rfl⟩ := List.mem_map.mp h
        exact ⟨0, m, c', rfl, hc', rfl⟩
      · obtain ⟨i, m', c', hm', hc', rfl⟩ := ih h
        exact ⟨i + 1, m', c', hm', hc', by rw [Nat.add_right_comm, ← Nat.add_assoc]⟩

/-- **A chain inside** joins an output and an input of leaves. -/
theorem joined_crossings (m : Model τ σ) :
    m.Wired → ∀ c ∈ m.crossings,
      Joined (m.terminalPort .output c.1) (m.terminalPort .input c.2) := by
  induction m using Model.induction with
  | atomic a => exact fun _ c hc => absurd hc List.not_mem_nil
  | coupled network ms ih =>
      intro hm c hc
      rw [crossings, List.mem_append] at hc
      rcases hc with hc | hc
      · obtain ⟨i, m, c, hmi, hcm, rfl⟩ := exists_of_mem_crossingsFrom ms hc
        rw [Nat.zero_add, terminalPort_below hmi, terminalPort_below hmi]
        have hmem := List.mem_of_getElem? hmi
        exact ih m hmem (hm.child hmem) c hcm
      · obtain ⟨l, hl, hc⟩ := List.mem_flatMap.mp hc
        obtain ⟨o, ho, hc⟩ := List.mem_flatMap.mp hc
        obtain ⟨d, hd, rfl⟩ := List.mem_map.mp hc
        -- The chain goes up to a coupling of two children, along it, and down on the other side.
        obtain ⟨x, y, hx, hy, htype⟩ := hm.self.ic l hl
        obtain ⟨ms₁, hm₁, hx⟩ := Option.bind_eq_some_iff.mp hx
        obtain ⟨ms₂, hm₂, hy⟩ := Option.bind_eq_some_iff.mp hy
        rw [exitsOf_eq hm₁, List.mem_map] at ho
        rw [entriesOf_eq hm₂, List.mem_map] at hd
        obtain ⟨o, ho, rfl⟩ := ho
        obtain ⟨d, hd, rfl⟩ := hd
        rw [terminalPort_below hm₁, terminalPort_below hm₂]
        have hout := joined_exits ms₁ (hm.child (List.mem_of_getElem? hm₁)) hx o ho
        have hin := joined_entries ms₂ (hm.child (List.mem_of_getElem? hm₂)) hy d hd
        exact (hout.trans ⟨x, y, rfl, rfl, htype⟩).trans hin

end Model

/-! ## Flattened trees -/

/-- A port of a leaf by number, when the first leaf is number `n`. -/
def Model.leafPort (m : Model τ σ) (n : Nat) (t : Terminal) : LeafPort :=
  ⟨n + m.number t.address, t.port⟩

theorem Model.leafPort_below {c : Coupled τ} {ms : List (Model τ σ)} {i : Nat} {m : Model τ σ}
    (h : ms[i]? = some m) (n : Nat) (t : Terminal) :
    (Model.coupled c ms).leafPort n (t.below i) = m.leafPort (n + offset atoms ms i) t := by
  rw [leafPort, leafPort, Terminal.below, number_cons h, Nat.add_assoc]

/-- A chain inside as a route. -/
def Model.innerRoute (m : Model τ σ) (n : Nat) (c : Terminal × Terminal) : Route :=
  ⟨.leaf (m.leafPort n c.1), .leaf (m.leafPort n c.2)⟩

namespace FlatPart

variable [MessageType τ]

theorem leaves_coupled (parent : Option String) (n : Nat) (c : Coupled τ)
    (ms : List (Model τ σ)) :
    (ofModel parent n (.coupled c ms)).leaves
      = (ofModels (childPath parent c.id) n ms).flatMap (·.leaves) := rfl

theorem length_leaves (m : Model τ σ) :
    ∀ {parent : Option String} {n : Nat}, (ofModel parent n m).leaves.length = m.atoms.length := by
  induction m using Model.induction with
  | atomic a => exact rfl
  | coupled c ms ih =>
      intro parent n
      rw [leaves_coupled, Model.atoms_coupled]
      generalize childPath parent c.id = path
      induction ms generalizing n with
      | nil => rfl
      | cons m ms ihs =>
          rw [ofModels, List.flatMap_cons, List.flatMap_cons, List.length_append,
            List.length_append, ih m (by simp), ihs fun m hm => ih m (by simp [hm])]

/-- The flattened children of a network, with the numbers of their first leaves. -/
theorem getElem?_ofModels (path : String) (ms : List (Model τ σ)) (n i : Nat) :
    (ofModels path n ms)[i]?
      = ms[i]?.map fun m => ofModel (some path) (n + offset Model.atoms ms i) m := by
  induction ms generalizing n i with
  | nil => rfl
  | cons m ms ih =>
      cases i with
      | zero => rfl
      | succ i =>
          rw [ofModels, List.getElem?_cons_succ, List.getElem?_cons_succ, ih, length_leaves,
            offset_cons_succ, Nat.add_assoc]

/-- **The leaves of a flattened tree** are those of the engine tree. -/
theorem leaves_eq (m : Model τ σ) :
    ∀ {parent : Option String} {n : Nat},
      (ofModel parent n m).leaves = (Engine.ofModelBelow parent m).leaves := by
  induction m using Model.induction with
  | atomic a => exact rfl
  | coupled c ms ih =>
      intro parent n
      rw [leaves_coupled, Engine.ofModelBelow, Engine.leaves_hub]
      generalize childPath parent c.id = path
      induction ms generalizing n with
      | nil => rfl
      | cons m ms ihs =>
          rw [ofModels, Engine.ofModelsBelow, List.flatMap_cons, List.flatMap_cons,
            ih m (by simp), ihs fun m hm => ih m (by simp [hm])]

/-- The ports of leaves behind an input of a child. -/
theorem behindInput_eq {c : Coupled τ} {ms : List (Model τ σ)} {path : String} {n : Nat}
    {p : Place} {m : Model τ σ} (hm : ms[p.child]? = some m)
    (h : (ofModel (some path) (n + offset Model.atoms ms p.child) m).inputs[p.port]?
      = some ((m.entries p.port).map (m.leafPort (n + offset Model.atoms ms p.child)))) :
    behindInput (ofModels path n ms) p
      = (Model.entriesOf ms p).map ((Model.coupled c ms).leafPort n) := by
  rw [behindInput, getElem?_ofModels, hm, Option.map_some, Option.bind_some, h, Option.getD_some,
    Model.entriesOf_eq hm, List.map_map]
  exact List.map_congr_left fun t _ => (Model.leafPort_below hm n t).symm

theorem behindOutput_eq {c : Coupled τ} {ms : List (Model τ σ)} {path : String} {n : Nat}
    {p : Place} {m : Model τ σ} (hm : ms[p.child]? = some m)
    (h : (ofModel (some path) (n + offset Model.atoms ms p.child) m).outputs[p.port]?
      = some ((m.exits p.port).map (m.leafPort (n + offset Model.atoms ms p.child)))) :
    behindOutput (ofModels path n ms) p
      = (Model.exitsOf ms p).map ((Model.coupled c ms).leafPort n) := by
  rw [behindOutput, getElem?_ofModels, hm, Option.map_some, Option.bind_some, h, Option.getD_some,
    Model.exitsOf_eq hm, List.map_map]
  exact List.map_congr_left fun t _ => (Model.leafPort_below hm n t).symm

/-- **The ports behind an input** are the ends of the ways in. -/
theorem getElem?_inputs (m : Model τ σ) :
    m.Wired → ∀ {parent : Option String} {n p : Nat}, p < m.interface.inputs.length →
      (ofModel parent n m).inputs[p]? = some ((m.entries p).map (m.leafPort n)) := by
  induction m using Model.induction with
  | atomic a =>
      intro _ parent n p hp
      have hrange : (List.range a.interface.inputs.length)[p]? = some p := List.getElem?_range hp
      rw [ofModel, ofAtomic, List.getElem?_map, hrange]
      rfl
  | coupled c ms ih =>
      intro hm parent n p hp
      have hrange : (List.range c.interface.inputs.length)[p]? = some p := List.getElem?_range hp
      rw [ofModel, join, List.getElem?_map, hrange, Option.map_some, Model.entries_coupled,
        List.map_flatMap]
      congr 1
      refine List.flatMap_congr fun l hl => ?_
      obtain ⟨_, y, -, hy, -⟩ := hm.self.eic l (List.mem_of_mem_filter hl)
      obtain ⟨m, hmi, hy⟩ := Option.bind_eq_some_iff.mp hy
      have hmem := List.mem_of_getElem? hmi
      exact behindInput_eq hmi (ih m hmem (hm.child hmem) (List.getElem?_eq_some_iff.mp hy).1)

/-- **The ports behind an output** are the beginnings of the ways out. -/
theorem getElem?_outputs (m : Model τ σ) :
    m.Wired → ∀ {parent : Option String} {n p : Nat}, p < m.interface.outputs.length →
      (ofModel parent n m).outputs[p]? = some ((m.exits p).map (m.leafPort n)) := by
  induction m using Model.induction with
  | atomic a =>
      intro _ parent n p hp
      have hrange : (List.range a.interface.outputs.length)[p]? = some p := List.getElem?_range hp
      rw [ofModel, ofAtomic, List.getElem?_map, hrange]
      rfl
  | coupled c ms ih =>
      intro hm parent n p hp
      have hrange : (List.range c.interface.outputs.length)[p]? = some p := List.getElem?_range hp
      rw [ofModel, join, List.getElem?_map, hrange, Option.map_some, Model.exits_coupled,
        List.map_flatMap]
      congr 1
      refine List.flatMap_congr fun l hl => ?_
      obtain ⟨y, _, hy, -, -⟩ := hm.self.eoc l (List.mem_of_mem_filter hl)
      obtain ⟨m, hmi, hy⟩ := Option.bind_eq_some_iff.mp hy
      have hmem := List.mem_of_getElem? hmi
      exact behindOutput_eq hmi (ih m hmem (hm.child hmem) (List.getElem?_eq_some_iff.mp hy).1)

/-! ## Routes -/

/-- The routes inside of several children, if the routes inside of each are its chains. -/
theorem routes_ofModels (path : String) (port : Terminal → LeafPort) (ms : List (Model τ σ)) :
    ∀ {k n : Nat},
      (∀ m ∈ ms, ∀ {parent : Option String} {n : Nat},
        (ofModel parent n m).routes = m.crossings.map (m.innerRoute n)) →
      (∀ (i : Nat) (m : Model τ σ), ms[i]? = some m → ∀ t : Terminal,
        port (t.below (k + i)) = m.leafPort (n + offset Model.atoms ms i) t) →
      (ofModels path n ms).flatMap (·.routes)
        = (Model.crossingsFrom k ms).map fun c => ⟨.leaf (port c.1), .leaf (port c.2)⟩ := by
  induction ms with
  | nil => exact fun _ _ => rfl
  | cons m ms ih =>
      intro k n hroutes hport
      have hrest := ih (k := k + 1) (n := n + m.atoms.length)
        (fun m hm => hroutes m (by simp [hm])) fun i m' hm' t => by
          have hnext := hport (i + 1) m' hm' t
          rw [offset_cons_succ, ← Nat.add_assoc n, Nat.add_comm i 1, ← Nat.add_assoc k] at hnext
          exact hnext
      rw [ofModels, List.flatMap_cons, length_leaves, hrest, hroutes m (by simp),
        Model.crossingsFrom, List.map_append, List.map_map]
      congr 1
      refine List.map_congr_left fun c _ => ?_
      have hfirst := hport 0 m rfl
      rw [Nat.add_zero] at hfirst
      simp only [Function.comp_apply, hfirst]
      rfl

theorem routes_coupled (parent : Option String) (n : Nat) (c : Coupled τ)
    (ms : List (Model τ σ)) :
    (ofModel parent n (.coupled c ms)).routes
      = (ofModels (childPath parent c.id) n ms).flatMap (·.routes) ++
          c.ic.flatMap (crossing (ofModels (childPath parent c.id) n ms)) := rfl

/-- **The routes inside of a flattened tree** are its chains. -/
theorem routes_eq (m : Model τ σ) :
    m.Wired → ∀ {parent : Option String} {n : Nat},
      (ofModel parent n m).routes = m.crossings.map (m.innerRoute n) := by
  induction m using Model.induction with
  | atomic a => exact fun _ => rfl
  | coupled c ms ih =>
      intro hm parent n
      have hchildren := routes_ofModels (childPath parent c.id)
        ((Model.coupled c ms).leafPort n) ms (k := 0) (n := n)
        (fun m hmem => ih m hmem (hm.child hmem)) fun i m hmi t => by
          rw [Nat.zero_add]
          exact Model.leafPort_below hmi n t
      rw [routes_coupled, Model.crossings, List.map_append, List.map_flatMap]
      refine congrArg₂ (· ++ ·) hchildren (List.flatMap_congr fun l hl => ?_)
      -- A coupling joins everything behind its one end with everything behind the other, in the
      -- order in which the chains are listed.
      obtain ⟨x, y, hx, hy, -⟩ := hm.self.ic l hl
      obtain ⟨ms₁, hm₁, hx⟩ := Option.bind_eq_some_iff.mp hx
      obtain ⟨ms₂, hm₂, hy⟩ := Option.bind_eq_some_iff.mp hy
      have hout : (ofModel (some (childPath parent c.id))
          (n + offset Model.atoms ms l.source.place.child) ms₁).outputs[l.source.place.port]? = _ :=
        getElem?_outputs ms₁ (hm.child (List.mem_of_getElem? hm₁))
          (List.getElem?_eq_some_iff.mp hx).1
      have hin : (ofModel (some (childPath parent c.id))
          (n + offset Model.atoms ms l.destination.place.child)
          ms₂).inputs[l.destination.place.port]? = _ :=
        getElem?_inputs ms₂ (hm.child (List.mem_of_getElem? hm₂))
          (List.getElem?_eq_some_iff.mp hy).1
      rw [crossing, behindOutput_eq (c := c) hm₁ hout, behindInput_eq (c := c) hm₂ hin,
        List.flatMap_map, List.map_flatMap]
      simp only [List.map_map]
      rfl

end FlatPart

/-- A list of which all entries are known, with the numbers of its entries. -/
theorem zipIdx_eq_map_range {α : Type} {f : Nat → α} (xs : List α)
    (h : ∀ i < xs.length, xs[i]? = some (f i)) :
    xs.zipIdx = (List.range xs.length).map fun i => (f i, i) := by
  refine List.ext_getElem? fun i => ?_
  rw [List.getElem?_zipIdx, List.getElem?_map, Nat.zero_add]
  by_cases hi : i < xs.length
  · rw [h i hi, List.getElem?_range hi]
    rfl
  · rw [List.getElem?_eq_none (by omega), List.getElem?_eq_none (by rw [List.length_range]; omega)]
    rfl

namespace Model

/-- **The routes of a tree**: its chains, its ways in and its ways out. -/
def routes (m : Model τ σ) : List Route :=
  m.crossings.map (m.innerRoute 0) ++
    ((List.range m.interface.inputs.length).flatMap fun p =>
      (m.entries p).map fun t => ⟨.rootInput p, .leaf (m.leafPort 0 t)⟩) ++
    (List.range m.interface.outputs.length).flatMap fun p =>
      (m.exits p).map fun t => ⟨.leaf (m.leafPort 0 t), .rootOutput p⟩

variable [MessageType τ]

theorem length_inputs (m : Model τ σ) (parent : Option String) (n : Nat) :
    (FlatPart.ofModel parent n m).inputs.length = m.interface.inputs.length := by
  cases m with
  | atomic a => exact (List.length_map _).trans List.length_range
  | coupled c ms => exact (List.length_map _).trans List.length_range

theorem length_outputs (m : Model τ σ) (parent : Option String) (n : Nat) :
    (FlatPart.ofModel parent n m).outputs.length = m.interface.outputs.length := by
  cases m with
  | atomic a => exact (List.length_map _).trans List.length_range
  | coupled c ms => exact (List.length_map _).trans List.length_range

/-- **Flattening finds every route**, each as often as its chain can be formed. -/
theorem allRoutes_eq {m : Model τ σ} (hm : m.Wired) :
    (FlatPart.ofModel none 0 m).allRoutes = m.routes := by
  have hinputs := zipIdx_eq_map_range (FlatPart.ofModel none 0 m).inputs fun p hp =>
    FlatPart.getElem?_inputs m hm (by rw [← length_inputs m none 0]; exact hp)
  have houtputs := zipIdx_eq_map_range (FlatPart.ofModel none 0 m).outputs fun p hp =>
    FlatPart.getElem?_outputs m hm (by rw [← length_outputs m none 0]; exact hp)
  rw [FlatPart.allRoutes, FlatPart.routes_eq m hm, FlatPart.entering, FlatPart.leaving, hinputs,
    houtputs, length_inputs, length_outputs, List.flatMap_map, List.flatMap_map, routes]
  simp only [List.map_map]
  rfl

/-! ## Routes join ports -/

/-- The port of a leaf by number. -/
def numberedPort (m : Model τ σ) (direction : Direction) (p : LeafPort) : Option (Port τ) :=
  m.atoms[p.leaf]?.bind fun a => (a.interface.ports direction)[p.port]?

/-- The port at the beginning of a route. -/
def sourcePort (m : Model τ σ) : RouteSource → Option (Port τ)
  | .leaf p => m.numberedPort .output p
  | .rootInput p => m.interface.inputs[p]?

/-- The port at the end of a route. -/
def targetPort (m : Model τ σ) : RouteTarget → Option (Port τ)
  | .leaf p => m.numberedPort .input p
  | .rootOutput p => m.interface.outputs[p]?

omit [MessageType τ] in
theorem numberedPort_leafPort {m : Model τ σ} {direction : Direction} {t : Terminal} {p : Port τ}
    (h : m.terminalPort direction t = some p) :
    m.numberedPort direction (m.leafPort 0 t) = some p := by
  obtain ⟨a, ha, hp⟩ := exists_atom h
  rw [numberedPort, leafPort, Nat.zero_add, getElem?_atoms ha, Option.bind_some, hp]

omit [MessageType τ] in
/-- **Every route joins two places that are there**, for messages of one type. -/
theorem joined_routes {m : Model τ σ} (hm : m.Wired) :
    ∀ r ∈ m.routes, Joined (m.sourcePort r.source) (m.targetPort r.target) := by
  intro r hr
  rw [routes, List.mem_append, List.mem_append] at hr
  rcases hr with (hr | hr) | hr
  · obtain ⟨c, hc, rfl⟩ := List.mem_map.mp hr
    obtain ⟨x, y, hx, hy, htype⟩ := joined_crossings m hm c hc
    exact ⟨x, y, numberedPort_leafPort hx, numberedPort_leafPort hy, htype⟩
  · obtain ⟨p, hp, hr⟩ := List.mem_flatMap.mp hr
    obtain ⟨t, ht, rfl⟩ := List.mem_map.mp hr
    have hx := List.getElem?_eq_getElem (List.mem_range.mp hp)
    obtain ⟨x, y, hxx, hy, htype⟩ := joined_entries m hm hx t ht
    exact ⟨x, y, hx.trans hxx, numberedPort_leafPort hy, htype⟩
  · obtain ⟨p, hp, hr⟩ := List.mem_flatMap.mp hr
    obtain ⟨t, ht, rfl⟩ := List.mem_map.mp hr
    have hy := List.getElem?_eq_getElem (List.mem_range.mp hp)
    obtain ⟨x, y, hx, hyy, htype⟩ := joined_exits m hm hy t ht
    exact ⟨x, y, numberedPort_leafPort hx, hy.trans hyy, htype⟩

end Model

end DiscreteEvent
