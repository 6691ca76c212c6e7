/-
The invariant of a crew.

A crew of a wired tree is sound if its routes are those of the tree, and its leaves,
by number, are sound leaves of the atomic models. It follows that every route can be
followed (`Sound.connected`) and that it brings messages of the right type
(`Sound.addressed_mailFor`). A crew in service keeps in addition its windows: they tie
the window of the crew to those of its leaves, and the crew has the earliest of their
next events.
-/
import DiscreteEvent.Proofs.Flat.Routes
import DiscreteEvent.Proofs.Flat.Step

set_option autoImplicit false

namespace DiscreteEvent

variable {τ σ ω : Type} [MessageType τ]

omit [MessageType τ] in
/-- At every level, and so for every atomic model, port names are distinct. -/
theorem Model.Wired.distinct_atoms (m : Model τ σ) :
    m.Wired → ∀ a ∈ m.atoms, a.interface.Distinct := by
  induction m using Model.induction with
  | atomic a =>
      intro hm b hb
      rw [Model.atoms, List.mem_singleton] at hb
      subst hb
      exact hm.distinct
  | coupled c ms ih =>
      intro hm a ha
      rw [Model.atoms_coupled, List.mem_flatMap] at ha
      obtain ⟨m, hmem, ha⟩ := ha
      exact ih m hmem (hm.child hmem) a ha

namespace Crew

variable {good : Interface τ → Stage → σ → Prop} {m : Model τ σ} {c : Crew τ σ}

/-- **A crew of `m`.** -/
structure Sound (good : Interface τ → Stage → σ → Prop) (m : Model τ σ) (c : Crew τ σ) :
    Prop where
  length_eq : c.leaves.length = m.atoms.length
  leaf : ∀ {i : Nat} {a : Atomic τ σ} {l : Leaf τ σ}, m.atoms[i]? = some a →
    c.leaves[i]? = some l → l.Sound good a.interface
  routes : c.routes = m.routes
  inbox : c.inbox.Fits m.interface.inputs
  outbox : c.outbox.Fits m.interface.outputs
  workers : 0 < c.workers

/-- Every leaf is that of an atomic model. -/
theorem Sound.atom (h : Sound good m c) {i : Nat} {l : Leaf τ σ} (hl : c.leaves[i]? = some l) :
    ∃ a, m.atoms[i]? = some a ∧ l.Sound good a.interface := by
  have hlt : i < m.atoms.length := by
    rw [← h.length_eq]
    exact (List.getElem?_eq_some_iff.mp hl).1
  have ha := List.getElem?_eq_getElem hlt
  exact ⟨_, ha, h.leaf ha hl⟩

theorem Sound.exists_leaf (h : Sound good m c) {i : Nat} {a : Atomic τ σ}
    (ha : m.atoms[i]? = some a) : ∃ l, c.leaves[i]? = some l ∧ l.Sound good a.interface := by
  have hlt : i < c.leaves.length := by
    rw [h.length_eq]
    exact (List.getElem?_eq_some_iff.mp ha).1
  have hl := List.getElem?_eq_getElem hlt
  exact ⟨_, hl, h.leaf ha hl⟩

/-- Sound calls of all leaves leave a sound crew. -/
theorem Sound.mapIdx {c' : Crew τ σ} (h : Sound good m c) {f : Nat → Leaf τ σ → Leaf τ σ}
    (hf : ∀ {i : Nat} {a : Atomic τ σ} {l : Leaf τ σ}, m.atoms[i]? = some a →
      c.leaves[i]? = some l → l.Sound good a.interface → (f i l).Sound good a.interface)
    (hleaves : c'.leaves = c.leaves.mapIdx f) (hroutes : c'.routes = c.routes)
    (hin : c'.inbox.Fits m.interface.inputs) (hout : c'.outbox.Fits m.interface.outputs)
    (hw : c'.workers = c.workers) : Sound good m c' where
  length_eq := by rw [hleaves, List.length_mapIdx, h.length_eq]
  leaf {i a l} ha hl := by
    rw [hleaves, List.getElem?_mapIdx, Option.map_eq_some_iff] at hl
    obtain ⟨l, hl, rfl⟩ := hl
    exact hf ha hl (h.leaf ha hl)
  routes := hroutes.trans h.routes
  inbox := hin
  outbox := hout
  workers := hw ▸ h.workers

/-! ## Both ends of a route -/

theorem Sound.sourceBag (h : Sound good m c) {source : RouteSource} {p : Port τ}
    (hp : m.sourcePort source = some p) :
    ∃ bag, c.sourceBag source = some bag ∧ bag.port = p ∧ ∀ x ∈ bag.messages, x.type = p.type := by
  have htyped : ∀ {b : Bags τ} {ports : List (Port τ)} {i : Nat}, b.Fits ports →
      ports[i]? = some p →
      ∃ bag, b.list[i]? = some bag ∧ bag.port = p ∧ ∀ x ∈ bag.messages, x.type = p.type := by
    intro b ports i hb hi
    obtain ⟨bag, hbag, hport⟩ := hb.exists_bag hi
    exact ⟨bag, hbag, hport, fun x hx => hport ▸ hb.typed bag (List.mem_of_getElem? hbag) x hx⟩
  cases source with
  | rootInput i => exact htyped h.inbox hp
  | leaf o =>
      obtain ⟨a, ha, hp⟩ := Option.bind_eq_some_iff.mp hp
      obtain ⟨l, hl, hsound⟩ := h.exists_leaf ha
      obtain ⟨bag, hbag, hport⟩ := htyped hsound.outbox hp
      refine ⟨bag, ?_, hport⟩
      rw [Crew.sourceBag, hl]
      exact hbag

theorem Sound.targetBag (h : Sound good m c) {target : RouteTarget} {p : Port τ}
    (hp : m.targetPort target = some p) :
    ∃ bag, c.targetBag target = some bag ∧ bag.port = p := by
  cases target with
  | rootOutput i => exact h.outbox.exists_bag hp
  | leaf d =>
      obtain ⟨a, ha, hp⟩ := Option.bind_eq_some_iff.mp hp
      obtain ⟨l, hl, hsound⟩ := h.exists_leaf ha
      obtain ⟨bag, hbag, hport⟩ := hsound.inbox.exists_bag hp
      refine ⟨bag, ?_, hport⟩
      rw [Crew.targetBag, hl]
      exact hbag

/-- **Every route of a sound crew can be followed.** -/
theorem Sound.connected (h : Sound good m c) (hm : m.Wired) : c.Connected := by
  intro r hr
  rw [h.routes] at hr
  obtain ⟨p, q, hp, hq, htype⟩ := Model.joined_routes hm r hr
  obtain ⟨x, hx, hxp, -⟩ := h.sourceBag hp
  obtain ⟨y, hy, hyq⟩ := h.targetBag hq
  exact ⟨x, y, hx, hy, by rw [hxp, hyq, htype]⟩

/-- What a route takes from its beginning has the type of its end. -/
theorem Sound.load_typed (h : Sound good m c) (hm : m.Wired) {r : Route} (hr : r ∈ m.routes)
    {q : Port τ} (hq : m.targetPort r.target = some q) :
    ∀ x ∈ c.load r.source, x.type = q.type := by
  obtain ⟨p, q', hp, hq', htype⟩ := Model.joined_routes hm r hr
  cases hq.symm.trans hq'
  obtain ⟨bag, hbag, -, htyped⟩ := h.sourceBag hp
  intro x hx
  rw [load, hbag] at hx
  rw [htyped x hx, htype]

/-- **What routes bring to a leaf** is for its ports. -/
theorem Sound.addressed_mailFor (h : Sound good m c) (hm : m.Wired) {routes : List Route}
    (hr : ∀ r ∈ routes, r ∈ m.routes) {i : Nat} {a : Atomic τ σ} (ha : m.atoms[i]? = some a) :
    Hub.Addressed a.interface.inputs (c.mailFor routes i) := by
  intro d hd p hp
  obtain ⟨r, hrm, hd⟩ := List.mem_filterMap.mp hd
  unfold deliveryFor at hd
  cases ht : r.target with
  | rootOutput q =>
      rw [ht] at hd
      cases hd
  | leaf q =>
      rw [ht] at hd
      by_cases hi : q.leaf = i
      · simp only [if_pos hi] at hd
        cases hd
        refine h.load_typed hm (hr r hrm) ?_
        rw [ht, Model.targetPort, Model.numberedPort, hi, ha]
        exact hp
      · simp only [if_neg hi] at hd
        cases hd

theorem Sound.addressed_mailOut (h : Sound good m c) (hm : m.Wired) {routes : List Route}
    (hr : ∀ r ∈ routes, r ∈ m.routes) :
    Hub.Addressed m.interface.outputs (c.mailOut routes) := by
  intro d hd p hp
  obtain ⟨r, hrm, hd⟩ := List.mem_filterMap.mp hd
  unfold deliveryOut at hd
  cases ht : r.target with
  | leaf q =>
      rw [ht] at hd
      cases hd
  | rootOutput q =>
      rw [ht] at hd
      cases hd
      exact h.load_typed hm (hr r hrm) (by rw [ht]; exact hp)

/-- **Routing leaves a sound crew.** -/
theorem Sound.deposited (h : Sound good m c) (hm : m.Wired) {routes : List Route}
    (hr : ∀ r ∈ routes, r ∈ m.routes) : Sound good m (c.deposited routes) := by
  refine h.mapIdx (f := fun i l => l.receive (c.mailFor routes i))
    (fun {i a l} ha _ hsound => ?_) (by rw [deposited_eq]) (by rw [deposited_eq])
    (by rw [deposited_eq]; exact h.inbox) ?_ (by rw [deposited_eq])
  · exact ⟨(h.addressed_mailFor hm hr ha).receive hsound.inbox, hsound.outbox, hsound.fresh,
      hsound.running⟩
  · rw [deposited_eq]
    exact (h.addressed_mailOut hm hr).receive h.outbox

/-! ## The crew of a model -/

/-- **A new crew is sound**, if its models are in a good state. -/
theorem sound_ofModel (hm : m.Wired) (hg : m.AllGood good) (wished : Nat) :
    Sound good m (ofModel wished m) where
  length_eq := FlatPart.length_leaves m
  leaf {i a l} ha hl := by
    have hsound := Engine.sound_ofModelBelow hg none
    have hleaves : (ofModel wished m).leaves = (Engine.ofModelBelow none m).leaves :=
      FlatPart.leaves_eq m
    obtain ⟨address, a', haddress, rfl⟩ :=
      m.exists_number (List.getElem?_eq_some_iff.mp ha).1
    cases ha.symm.trans (Model.getElem?_atoms haddress)
    obtain ⟨l', hl', hgood⟩ := hsound.exists_leaf.1 haddress
    rw [hleaves, hsound.getElem?_leaves hl'] at hl
    cases hl
    exact hgood
  routes := Model.allRoutes_eq hm
  inbox := Bags.fits_ofPorts _
  outbox := Bags.fits_ofPorts _
  workers := Share.workers_pos _ _

end Crew

end DiscreteEvent
