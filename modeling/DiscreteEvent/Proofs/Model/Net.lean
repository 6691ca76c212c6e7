/-
Nets: what a model tree is, apart from the order of its parts.

In a model tree everything has a place, and the engines find ports, children and leaves by
their places. The net of a tree says by names what there is: the leaves, by the ids on the
way to them from the root, the chains between them, and the ways to them from the ports of
the root. Sets and multisets have no order, so neither has a net.

The net of a network depends on the nets of its children, and on nothing else of them, and on
the names in its description (`Plan.net`, `Plan.net_of_build`). Therefore drafts that are
rearranged are built to trees with one net, if they are built at all; and they are, because
what makes a description well formed can be seen in the nets of the children
(`Draft.Rearranged.exists_net`).
-/
import DiscreteEvent.Proofs.Model.Chain
import DiscreteEvent.Proofs.Model.Draft

set_option autoImplicit false

namespace DiscreteEvent

variable {τ σ : Type}

/-! ## Names instead of places -/

/-- A port of a leaf, by the ids on the way to the leaf. -/
structure Spot where
  path : List String
  port : Nat

/-- A spot below the model `id`, seen from above. -/
def Spot.under (id : String) (s : Spot) : Spot := ⟨id :: s.path, s.port⟩

namespace Model

/-- **The ids on the way** from the root to an address. -/
def idsAt : List Nat → Model τ σ → List String
  | [], m => [m.id]
  | _ :: _, .atomic a => [a.id]
  | i :: a, .coupled c children => c.id :: (children[i]?.map (idsAt a)).getD []

/-- The spot of a terminal. -/
def spot (m : Model τ σ) (t : Terminal) : Spot := ⟨m.idsAt t.address, t.port⟩

section

variable {c : Coupled τ} {ms : List (Model τ σ)} {i : Nat} {m : Model τ σ}

theorem idsAt_cons (h : ms[i]? = some m) (a : List Nat) :
    (Model.coupled c ms).idsAt (i :: a) = c.id :: m.idsAt a := by
  rw [idsAt, h, Option.map_some, Option.getD_some]

theorem spot_below (h : ms[i]? = some m) (t : Terminal) :
    (Model.coupled c ms).spot (t.below i) = (m.spot t).under c.id := by
  rw [spot, Terminal.below, idsAt_cons h, Spot.under, spot]

end

/-- **The ways through one side of the boundary**: in behind an input, or out before an
output. -/
def ways (m : Model τ σ) : Direction → Nat → List Terminal
  | .input => m.entries
  | .output => m.exits

/-- The ways through one side of a child. -/
def waysOf (children : List (Model τ σ)) : Direction → Place → List Terminal
  | .input => entriesOf children
  | .output => exitsOf children

theorem waysOf_eq {children : List (Model τ σ)} {q : Place} {m : Model τ σ}
    (hm : children[q.child]? = some m) (direction : Direction) :
    waysOf children direction q = (m.ways direction q.port).map (·.below q.child) := by
  cases direction with
  | input => exact entriesOf_eq hm
  | output => exact exitsOf_eq hm

end Model

/-- The couplings through one side of the boundary: the place there, and that of the child's
port. -/
def Coupled.outer (c : Coupled τ) : Direction → List (Nat × Place)
  | .input => c.eic.map fun l => (l.source.place, l.destination.place)
  | .output => c.eoc.map fun l => (l.destination.place, l.source.place)

theorem Model.ways_coupled (c : Coupled τ) (ms : List (Model τ σ)) (direction : Direction)
    (q : Nat) :
    ((Model.coupled c ms).ways direction q : Multiset Terminal)
      = (c.outer direction : Multiset (Nat × Place)).bind fun l =>
          if l.1 = q then (waysOf ms direction l.2 : Multiset Terminal) else 0 := by
  cases direction with
  | input =>
      rw [ways, entries_coupled, ← Multiset.coe_bind, bind_filter_key, Coupled.outer,
        ← Multiset.map_coe, Multiset.bind_map]
      rfl
  | output =>
      rw [ways, exits_coupled, ← Multiset.coe_bind, bind_filter_key, Coupled.outer,
        ← Multiset.map_coe, Multiset.bind_map]
      rfl

/-! ## Nets -/

/-- **A tree without places.** -/
@[ext]
structure Net (τ σ : Type) where
  id : String
  ports : Direction → Multiset (Port τ)
  /-- The atomic models, by the ids on the way to them. -/
  leaves : Set (List String × Atomic τ σ)
  /-- The ways through the ports of the root. -/
  ways : Direction → String → Multiset Spot
  /-- The chains inside. -/
  links : Multiset (Spot × Spot)

/-- **The net of a tree.** -/
def Model.net (m : Model τ σ) : Net τ σ where
  id := m.id
  ports direction := m.interface.ports direction
  leaves := {x | ∃ a, m.atomAt? a = some x.2 ∧ m.idsAt a = x.1}
  ways direction name := ((m.interface.position? direction name).map fun q =>
    (m.ways direction q : Multiset Terminal).map m.spot).getD 0
  links := (m.crossings : Multiset (Terminal × Terminal)).map fun c => (m.spot c.1, m.spot c.2)

/-- The nets of several trees. -/
def Model.nets (ms : List (Model τ σ)) : Multiset (Net τ σ) := (ms : Multiset (Model τ σ)).map net

namespace Plan

/-- The couplings through one side of the boundary, by the names of their ends. -/
def outer (p : Plan τ) : Direction → List (String × ChildPort)
  | .input => p.eic.map fun l => (l.source.port, l.destination)
  | .output => p.eoc.map fun l => (l.destination.port, l.source)

/-- The ways through one side of the children with a name. -/
def behind (p : Plan τ) (nets : Multiset (Net τ σ)) (direction : Direction) (e : ChildPort) :
    Multiset Spot :=
  nets.bind fun n =>
    if n.id = e.child then (n.ways direction e.port).map (Spot.under p.id) else 0

/-- **The net of a network**, by the nets of its children and the names in its plan. -/
def net (p : Plan τ) (nets : Multiset (Net τ σ)) : Net τ σ where
  id := p.id
  ports direction := p.interface.ports direction
  leaves := {x | ∃ n ∈ nets, ∃ y ∈ n.leaves, x = (p.id :: y.1, y.2)}
  ways direction name := (p.outer direction : Multiset (String × ChildPort)).bind fun l =>
    if l.1 = name then p.behind nets direction l.2 else 0
  links :=
    (nets.bind fun n => n.links.map fun l => (l.1.under p.id, l.2.under p.id)) +
      (p.ic : Multiset (Link ChildPort ChildPort)).bind fun l =>
        (p.behind nets .output l.source).bind fun o =>
          (p.behind nets .input l.destination).map fun d => (o, d)

/-- **The order of a plan does not matter** for the net. -/
theorem Reordered.net_eq {p p' : Plan τ} (h : p.Reordered p') (nets : Multiset (Net τ σ)) :
    p.net nets = p'.net nets := by
  have hports : ∀ direction, (p.interface.ports direction : Multiset (Port τ))
      = p'.interface.ports direction := by
    rintro (_ | _)
    · exact Multiset.coe_eq_coe.mpr h.inputs
    · exact Multiset.coe_eq_coe.mpr h.outputs
  have houter : ∀ direction, (p.outer direction : Multiset (String × ChildPort))
      = p'.outer direction := by
    rintro (_ | _)
    · exact Multiset.coe_eq_coe.mpr (h.eic.map _)
    · exact Multiset.coe_eq_coe.mpr (h.eoc.map _)
  have hbehind : p.behind nets = p'.behind nets := by
    funext direction e
    rw [behind, behind, h.id]
  have hic := Multiset.coe_eq_coe.mpr h.ic
  simp only [net, hports, houter, hbehind, hic, h.id]

end Plan

/-! ## Sums over lists -/

section

variable {α β μ : Type}

/-- A sum over the entries with a key that only one entry has. -/
theorem bind_onlyAt {κ : Type} [DecidableEq κ] {key : α → κ} {k : κ} (f : α → Multiset μ)
    (xs : List α) : ∀ {i : Nat} {x : α}, OnlyAt key xs k i → xs[i]? = some x →
      (xs : Multiset α).bind (fun y => if key y = k then f y else 0) = f x := by
  induction xs with
  | nil => exact fun _ h => nomatch h
  | cons y ys ih =>
      intro i x h hx
      rw [← Multiset.cons_coe, Multiset.cons_bind]
      cases i with
      | zero =>
          cases hx
          obtain ⟨z, hz, hkey⟩ := (h 0).mpr rfl
          cases hz
          have hrest : ∀ z ∈ (ys : Multiset α), (if key z = k then f z else 0) = 0 := by
            intro z hz
            obtain ⟨j, hj⟩ := List.getElem?_of_mem (Multiset.mem_coe.mp hz)
            exact if_neg fun hzk => nomatch (h (j + 1)).mp ⟨z, hj, hzk⟩
          rw [if_pos hkey, Multiset.bind_congr hrest, Multiset.bind_zero, add_zero]
      | succ i =>
          have hfirst : key y ≠ k := fun hyk => nomatch (h 0).mp ⟨y, rfl, hyk⟩
          have hys : OnlyAt key ys k i := fun j => (h (j + 1)).trans Nat.succ_inj
          rw [if_neg hfirst, zero_add]
          exact ih hys hx

/-- Sums over lists that belong together, one by one. -/
theorem bind_congr_forall₂ {R : α → β → Prop} {f : α → Multiset μ} {g : β → Multiset μ}
    {as : List α} {bs : List β} (h : List.Forall₂ R as bs) (hfg : ∀ {a b}, R a b → f a = g b) :
    (as : Multiset α).bind f = (bs : Multiset β).bind g := by
  induction h with
  | nil => rfl
  | cons hab _ ih =>
      rw [← Multiset.cons_coe, ← Multiset.cons_coe, Multiset.cons_bind, Multiset.cons_bind,
        hfg hab, ih]

end

/-! ## The ways through a named port -/

theorem OnlyAt.position? {i : Interface τ} {direction : Direction} {name : String} {q : Nat}
    (h : OnlyAt (·.name) (i.ports direction) name q) : i.position? direction name = some q := by
  obtain ⟨x, hx, hname⟩ := (h q).mpr rfl
  obtain ⟨hq, rfl⟩ := List.getElem?_eq_some_iff.mp hx
  refine List.findIdx?_eq_some_iff_getElem.mpr ⟨hq, beq_iff_eq.mpr hname, fun j hj hbefore => ?_⟩
  have hjq := (h j).mp ⟨_, List.getElem?_eq_getElem (hj.trans hq), beq_iff_eq.mp hbefore⟩
  omega

/-- In an interface without duplicates the name of a port has one place. -/
theorem Interface.Distinct.onlyAt {i : Interface τ} (h : i.Distinct) {direction : Direction}
    {q : Nat} {x : Port τ} (hx : (i.ports direction)[q]? = some x) :
    OnlyAt (·.name) (i.ports direction) x.name q := by
  have hsome : ((i.ports direction).findIdx? (·.name == x.name)).isSome = true := by
    rw [List.findIdx?_isSome, List.any_eq_true]
    exact ⟨x, List.mem_of_getElem? hx, beq_self_eq_true x.name⟩
  obtain ⟨q', hq'⟩ := Option.isSome_iff_exists.mp hsome
  have honly := onlyAt_of_findIdx? (h.nodup direction) hq'
  exact (honly q).mp ⟨x, hx, rfl⟩ ▸ honly

namespace Model

variable {m : Model τ σ} {direction : Direction} {name : String}

theorem net_ways {q : Nat} (h : OnlyAt (·.name) (m.interface.ports direction) name q) :
    m.net.ways direction name = (m.ways direction q : Multiset Terminal).map m.spot := by
  show ((m.interface.position? direction name).map _).getD 0 = _
  rw [h.position?, Option.map_some, Option.getD_some]

theorem net_ways_eq_zero (h : ∀ x ∈ m.interface.ports direction, x.name ≠ name) :
    m.net.ways direction name = 0 := by
  have hnone : m.interface.position? direction name = none :=
    List.findIdx?_eq_none_iff.mpr fun x hx => beq_eq_false_iff_ne.mpr (h x hx)
  show ((m.interface.position? direction name).map _).getD 0 = _
  rw [hnone, Option.map_none, Option.getD_none]

end Model

/-! ## The net of what is built -/

/-- The place of a port of a child is the only one with its names. -/
structure IsPlace (ms : List (Model τ σ)) (direction : Direction) (e : ChildPort) (q : Place) :
    Prop where
  child : OnlyAt Model.id ms e.child q.child
  port : ∃ m, ms[q.child]? = some m ∧
    OnlyAt (·.name) (m.interface.ports direction) e.port q.port

section

variable {p : Plan τ} {ms : List (Model τ σ)} {c : Coupled τ}

/-- **The ways behind a name are those behind its place.** -/
theorem Plan.behind_eq (hid : c.id = p.id) {direction : Direction} {e : ChildPort} {q : Place}
    (h : IsPlace ms direction e q) :
    p.behind (Model.nets ms) direction e
      = (Model.waysOf ms direction q : Multiset Terminal).map (Model.coupled c ms).spot := by
  obtain ⟨m, hm, hport⟩ := h.port
  have hchild := bind_onlyAt
    (fun m => (m.net.ways direction e.port).map (Spot.under p.id)) ms h.child hm
  rw [behind, Model.nets, Multiset.bind_map]
  refine hchild.trans ?_
  rw [Model.net_ways hport, Model.waysOf_eq hm, ← Multiset.map_coe, Multiset.map_map,
    Multiset.map_map]
  refine Multiset.map_congr rfl fun t _ => ?_
  rw [Function.comp_apply, Function.comp_apply, Model.spot_below hm, hid]

/-- The chains inside of several children, told in another way. -/
theorem Model.map_crossingsFrom {μ : Type} {f : Terminal × Terminal → μ}
    {g : Model τ σ → Terminal × Terminal → μ} (ms : List (Model τ σ)) :
    ∀ {k : Nat}, (∀ i m, ms[i]? = some m → ∀ l, f (l.1.below (k + i), l.2.below (k + i)) = g m l) →
      (crossingsFrom k ms : Multiset (Terminal × Terminal)).map f
        = (ms : Multiset (Model τ σ)).bind fun m =>
            (m.crossings : Multiset (Terminal × Terminal)).map (g m) := by
  induction ms with
  | nil => exact fun _ => rfl
  | cons m ms ih =>
      intro k h
      have hrest : ∀ i m, ms[i]? = some m →
          ∀ l, f (l.1.below (k + 1 + i), l.2.below (k + 1 + i)) = g m l := by
        intro i m hm l
        rw [Nat.add_right_comm]
        exact h (i + 1) m hm l
      rw [crossingsFrom, ← Multiset.coe_add, Multiset.map_add, ih hrest, ← Multiset.cons_coe,
        Multiset.cons_bind, ← Multiset.map_coe, Multiset.map_map]
      exact congrArg (· + _) (Multiset.map_congr rfl fun l _ => h 0 m rfl l)

/-- The leaves of a network are those of its children. -/
theorem Model.leaves_coupled_iff (hid : c.id = p.id) (x : List String × Atomic τ σ) :
    x ∈ (Model.coupled c ms).net.leaves ↔
      x ∈ (p.net (Model.nets ms)).leaves := by
  constructor
  · rintro ⟨_ | ⟨i, a⟩, ha, hids⟩
    · cases ha
    · obtain ⟨m, hm, ha⟩ := Option.bind_eq_some_iff.mp ha
      rw [idsAt_cons hm, hid] at hids
      exact ⟨m.net, Multiset.mem_map_of_mem net (Multiset.mem_coe.mpr (List.mem_of_getElem? hm)),
        (m.idsAt a, x.2), ⟨a, ha, rfl⟩, Prod.ext hids.symm rfl⟩
  · rintro ⟨n, hn, y, hy, rfl⟩
    obtain ⟨m, hm, rfl⟩ := Multiset.mem_map.mp hn
    obtain ⟨i, hi⟩ := List.getElem?_of_mem (Multiset.mem_coe.mp hm)
    obtain ⟨a, ha, hids⟩ := hy
    exact ⟨i :: a, Option.bind_eq_some_iff.mpr ⟨m, hi, ha⟩, by rw [idsAt_cons hi, hid, hids]⟩

/-- The ways through the boundary of a network, coupling by coupling. -/
theorem Model.ways_coupled_eq (hid : c.id = p.id) (hinterface : c.interface = p.interface)
    (hdistinct : p.interface.Distinct) {direction : Direction}
    (houter : List.Forall₂
      (fun l r => OnlyAt (·.name) (p.interface.ports direction) l.1 r.1 ∧
        IsPlace ms direction l.2 r.2) (p.outer direction) (c.outer direction)) (name : String) :
    (Model.coupled c ms).net.ways direction name
      = (p.net (Model.nets ms)).ways direction name := by
  by_cases h : ∃ x ∈ p.interface.ports direction, x.name = name
  · obtain ⟨x, hx, rfl⟩ := h
    obtain ⟨q, hq⟩ := List.getElem?_of_mem hx
    have honly := hdistinct.onlyAt hq
    have hself : OnlyAt (·.name) ((Model.coupled c ms).interface.ports direction) x.name q := by
      rw [interface, hinterface]
      exact honly
    rw [net_ways hself, ways_coupled, Multiset.map_bind]
    refine (bind_congr_forall₂ houter fun {l r} hlr => ?_).symm
    -- The coupling begins at this port if its name does, and if its place does.
    have hsame : l.1 = x.name ↔ r.1 = q := by
      constructor
      · intro hl
        exact (honly r.1).mp (hl ▸ (hlr.1 r.1).mpr rfl)
      · rintro rfl
        obtain ⟨y, hy, hname⟩ := (hlr.1 r.1).mpr rfl
        cases hq.symm.trans hy
        exact hname.symm
    by_cases hl : l.1 = x.name
    · rw [if_pos hl, if_pos (hsame.mp hl), Plan.behind_eq hid hlr.2]
    · rw [if_neg hl, if_neg (mt hsame.mpr hl), Multiset.map_zero]
  · have hnone : ∀ x ∈ p.interface.ports direction, x.name ≠ name :=
      fun x hx hname => h ⟨x, hx, hname⟩
    have hself : ∀ x ∈ (Model.coupled c ms).interface.ports direction, x.name ≠ name := by
      rw [interface, hinterface]
      exact hnone
    have hzero : ∀ l ∈ (p.outer direction : Multiset (String × ChildPort)),
        (if l.1 = name then p.behind (nets ms) direction l.2 else 0) = 0 := by
      intro l hl
      obtain ⟨i, hi⟩ := List.getElem?_of_mem (Multiset.mem_coe.mp hl)
      obtain ⟨hlt, rfl⟩ := List.getElem?_eq_some_iff.mp hi
      obtain ⟨x, hx, hname⟩ := ((houter.get hlt (houter.length_eq ▸ hlt)).1 _).mpr rfl
      exact if_neg fun heq => hnone x (List.mem_of_getElem? hx) (hname.trans heq)
    rw [net_ways_eq_zero hself]
    exact ((Multiset.bind_congr hzero).trans (Multiset.bind_zero _)).symm

/-- The chains inside of a network, coupling by coupling. -/
theorem Model.links_coupled_eq (hid : c.id = p.id)
    (hic : List.Forall₂ (fun (l : Link ChildPort ChildPort) (r : Link ChildSlot ChildSlot) =>
      IsPlace ms .output l.source r.source.place ∧
        IsPlace ms .input l.destination r.destination.place) p.ic c.ic) :
    (Model.coupled c ms).net.links = (p.net (Model.nets ms)).links := by
  have hinside : (crossingsFrom 0 ms : Multiset (Terminal × Terminal)).map
        (fun l => ((Model.coupled c ms).spot l.1, (Model.coupled c ms).spot l.2))
      = (nets ms).bind fun n =>
          n.links.map fun l => (l.1.under p.id, l.2.under p.id) := by
    rw [map_crossingsFrom (g := fun m l => ((m.spot l.1).under p.id, (m.spot l.2).under p.id)) ms,
      nets, Multiset.bind_map]
    · refine Multiset.bind_congr fun m _ => ?_
      rw [net, Multiset.map_map]
      rfl
    · intro i m hm l
      rw [Nat.zero_add, spot_below hm, spot_below hm, hid]
  rw [net, crossings, ← Multiset.coe_add, Multiset.map_add, hinside]
  refine congrArg (_ + ·) ?_
  rw [← Multiset.coe_bind, Multiset.map_bind]
  refine (bind_congr_forall₂ hic fun {l r} hlr => ?_).symm
  rw [Plan.behind_eq hid hlr.1, Plan.behind_eq hid hlr.2, ← Multiset.coe_bind, Multiset.map_bind,
    Multiset.bind_map]
  refine Multiset.bind_congr fun o _ => ?_
  rw [← Multiset.map_coe, Multiset.map_map, Multiset.map_map]
  rfl

end

namespace Blueprint

variable {b : Blueprint τ σ} {direction : Direction}

theorem IsChildSlot.isPlace {e : ChildPort} {s : ChildSlot} (h : b.IsChildSlot direction e s) :
    IsPlace b.children direction e s.place :=
  ⟨h.child, h.port⟩

end Blueprint

section

variable [MessageType τ]

/-- **What is built has the net of its plan.** -/
theorem Plan.net_of_build {p : Plan τ} {ms : List (Model τ σ)} {m : Model τ σ}
    (hms : ∀ m ∈ ms, m.Wired) (h : (p.blueprint ms).build = .ok m) :
    m.net = p.net (Model.nets ms) := by
  have hw : (p.blueprint ms).WellFormed := (Blueprint.exists_build_iff hms).mp ⟨m, h⟩
  obtain ⟨eic, eoc, ic, rfl, heic, heoc, hic⟩ :=
    Blueprint.build_resolved (fun m hm => (hms m hm).distinct) hw h
  have hdistinct : p.interface.Distinct := ⟨hw.inputs, hw.outputs⟩
  refine Net.ext rfl rfl (Set.ext (Model.leaves_coupled_iff rfl)) ?_ ?_
  · funext direction name
    refine Model.ways_coupled_eq rfl rfl hdistinct ?_ name
    cases direction with
    | input =>
        refine List.forall₂_map_left_iff.mpr (List.forall₂_map_right_iff.mpr (heic.imp ?_))
        exact fun l r hr => ⟨hr.source.port, hr.destination.isPlace⟩
    | output =>
        refine List.forall₂_map_left_iff.mpr (List.forall₂_map_right_iff.mpr (heoc.imp ?_))
        exact fun l r hr => ⟨hr.destination.port, hr.source.isPlace⟩
  · exact Model.links_coupled_eq rfl
      (hic.imp fun l r hr => ⟨hr.source.isPlace, hr.destination.isPlace⟩)

end

/-! ## Rearranged drafts -/

/-- Models with the same net have the same ports. -/
theorem Model.ports_perm_of_net_eq {m m' : Model τ σ} (h : m.net = m'.net) (direction : Direction) :
    (m.interface.ports direction).Perm (m'.interface.ports direction) :=
  Multiset.coe_eq_coe.mp (congrFun (congrArg Net.ports h) direction)

/-- **Children with the same nets** serve in the place of the others. -/
theorem Plan.Reordered.wellFormed_of_nets {p p' : Plan τ} {ms ms' : List (Model τ σ)}
    (h : p.Reordered p') (hnets : (ms.map Model.net).Perm (ms'.map Model.net))
    (hw : (p.blueprint ms).WellFormed) : (p'.blueprint ms').WellFormed := by
  refine h.wellFormed ?_ (fun m hm => ?_) hw
  · have hids := hnets.map Net.id
    rw [List.map_map, List.map_map] at hids
    exact hids
  · obtain ⟨m', hm', hnet⟩ := List.mem_map.mp (hnets.mem_iff.mp (List.mem_map_of_mem hm))
    exact ⟨m', hm', congrArg Net.id hnet,
      fun direction => (Model.ports_perm_of_net_eq hnet.symm direction).subset⟩

section

variable [MessageType τ] [AtomicModel τ σ]

/-- Trees that are related one by one can be built of drafts that are. -/
theorem Draft.exists_forall₂ {ds es : List (Draft τ σ)} (hlength : ds.length = es.length)
    (heach : ∀ (i : Nat) (d e : Draft τ σ), ds[i]? = some d → es[i]? = some e →
      ∀ {m : Model τ σ}, d.build = .ok m → ∃ m', e.build = .ok m' ∧ m'.net = m.net) :
    ∀ {ms : List (Model τ σ)}, List.Forall₂ (fun d m => d.build = .ok m) ds ms →
      ∃ ns : List (Model τ σ), List.Forall₂ (fun e n => e.build = .ok n) es ns ∧
        ns.map Model.net = ms.map Model.net := by
  induction ds generalizing es with
  | nil =>
      intro ms hms
      cases hms
      rw [List.eq_nil_of_length_eq_zero hlength.symm]
      exact ⟨[], .nil, rfl⟩
  | cons d ds ih =>
      intro ms hms
      obtain ⟨e, es, rfl⟩ := List.exists_cons_of_length_eq_add_one hlength.symm
      cases hms with
      | cons hm hms =>
          obtain ⟨m', hm', hnet⟩ := heach 0 d e rfl rfl hm
          obtain ⟨ns, hns, hnets⟩ := ih (Nat.succ_inj.mp hlength)
            (fun i d e hd he => heach (i + 1) d e hd he) hms
          exact ⟨m' :: ns, .cons hm' hns, by rw [List.map_cons, List.map_cons, hnet, hnets]⟩

/-- **A rearranged draft is built if the draft is, and to a tree with the same net.** -/
theorem Draft.Rearranged.exists_net {d d' : Draft τ σ} (h : d.Rearranged d') :
    ∀ {m : Model τ σ}, d.build = .ok m → ∃ m', d'.build = .ok m' ∧ m'.net = m.net := by
  induction h with
  | atomic id state => exact fun hm => ⟨_, hm, rfl⟩
  | @coupled p p' ds es ds' plan length _ order ih =>
      intro m hm
      obtain ⟨ms, hms, hbuild⟩ := Draft.build_coupled.mp hm
      obtain ⟨ns, hns, hnets⟩ := Draft.exists_forall₂ length ih hms
      obtain ⟨ms', hms', horder⟩ := List.perm_comp_forall₂ order.symm hns
      have hwired : ∀ {ds : List (Draft τ σ)} {ms : List (Model τ σ)},
          List.Forall₂ (fun d m => d.build = .ok m) ds ms → ∀ m ∈ ms, m.Wired := by
        intro ds ms hms m hm
        obtain ⟨i, hi, rfl⟩ := List.getElem_of_mem hm
        exact (Draft.accepted _ (hms.get (hms.length_eq ▸ hi) hi)).wired
      have hperm : (ms.map Model.net).Perm (ms'.map Model.net) :=
        hnets ▸ (horder.map Model.net).symm
      have hw := plan.wellFormed_of_nets hperm
        ((Blueprint.exists_build_iff (b := p.blueprint ms) (hwired hms)).mp ⟨m, hbuild⟩)
      obtain ⟨m', hbuild'⟩ :=
        (Blueprint.exists_build_iff (b := p'.blueprint ms') (hwired hms')).mpr hw
      refine ⟨m', Draft.build_coupled.mpr ⟨ms', hms', hbuild'⟩, ?_⟩
      rw [Plan.net_of_build (hwired hms') hbuild', Plan.net_of_build (hwired hms) hbuild,
        plan.net_eq, Model.nets, Model.nets, Multiset.map_coe, Multiset.map_coe,
        Multiset.coe_eq_coe.mpr hperm]

end

end DiscreteEvent
