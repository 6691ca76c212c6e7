/-
Twins: the engine tree and the crew of one model, in service at the same point.

A `Twin` of an engine without messages is a live crew with the same leaves, one by one,
and the same window. What waits at the root is in the inbox of the crew; the tree has it
in its own when it is stepped. Both are twins after their initialization
(`Twin.started`), and after a step at the next event they are twins again
(`Twin.stepped`): a leaf fires on the same messages in both, in whatever order these came
in (`Twin.exists_turn`), and its model does not look at the order.
-/
import DiscreteEvent.Proofs.Flat.Attribution
import DiscreteEvent.Proofs.Flat.Driven
import DiscreteEvent.Proofs.Flat.Mail

set_option autoImplicit false

namespace DiscreteEvent

variable {τ σ ω : Type} [MessageType τ]

/-! ## The leaves of a tree -/

namespace Engine

/-- The time of the earliest event of some engines. -/
theorem IsEarliest.eq {next : Instant} {es : List (Engine τ σ)} (h : IsEarliest next es) :
    next = Hub.earliest (es.map node) := by
  refine le_antisymm (Hub.le_earliest fun n hn => ?_) ?_
  · obtain ⟨c, hc, rfl⟩ := List.mem_map.mp hn
    exact h.le c hc
  · by_cases hnil : es = []
    · rw [h.max hnil]
      exact Instant.le_max _
    · obtain ⟨c, hc, hnext⟩ := h.attained hnil
      rw [← hnext]
      exact Hub.earliest_le (List.mem_map_of_mem hc)

/-- **The next event of a tree** is the earliest one of its leaves. -/
theorem Windowed.next_eq (e : Engine τ σ) :
    e.Windowed → e.next = Hub.earliest (e.leaves.map (·.toNode)) := by
  induction e using Engine.induction with
  | leaf l => exact fun _ => (min_eq_left (Instant.le_max _)).symm
  | hub h es ih =>
      intro hw
      have hnext : h.next = Hub.earliest (es.map node) := by
        cases hw with
        | hub _ earliest => exact earliest.eq
      have hall : ∀ cs : List (Engine τ σ), (∀ c ∈ cs, c ∈ es) →
          Hub.earliest (cs.map node) = Hub.earliest ((cs.flatMap leaves).map (·.toNode)) := by
        intro cs
        induction cs with
        | nil => exact fun _ => rfl
        | cons c cs ihs =>
            intro hcs
            have hc := hcs c (by simp)
            rw [List.map_cons, Hub.earliest_cons, List.flatMap_cons, List.map_append,
              Hub.earliest_append, ← ih c hc (hw.child hc), ihs fun c' hc' => hcs c' (by simp [hc'])]
            rfl
      rw [leaves_hub, ← hall es fun _ hc => hc]
      exact hnext

variable [AtomicModel τ σ]

/-- The leaves of an initialized tree. -/
theorem leaves_started (t : Instant) (e : Engine τ σ) :
    (e.started t).leaves = e.leaves.map (Leaf.started t) := by
  induction e using Engine.induction with
  | leaf l => rfl
  | hub h es ih =>
      rw [started, leaves_hub, leaves_hub, startedAll_eq, ← map_eq_mapIdx, List.flatMap_map,
        List.map_flatMap]
      exact List.flatMap_congr ih

/-- Showing an output does not depend on what waits at the root. -/
theorem showEffect_withInbox (t : Instant) (x : Bags τ) (e : Engine τ σ) :
    (e.withInbox x).showEffect t = e.showEffect t := by
  cases e with
  | leaf l =>
      have hdue' : Node.isImminent { l.toNode with inbox := x } t = l.isImminent t := rfl
      cases hdue : l.isImminent t with
      | true =>
          rw [hdue] at hdue'
          simp only [withInbox, showEffect, Leaf.showEffect, Leaf.shown, hdue, hdue', if_true]
          rfl
      | false =>
          rw [hdue] at hdue'
          simp only [withInbox, showEffect, Leaf.showEffect, hdue, hdue', Bool.false_eq_true,
            if_false]
  | hub h es =>
      have hdue' : Node.isImminent { h.toNode with inbox := x } t = h.isImminent t := rfl
      cases hdue : h.isImminent t with
      | true =>
          rw [hdue] at hdue'
          simp only [withInbox, showEffect, shown, hdue, hdue', if_true]
          rfl
      | false =>
          rw [hdue] at hdue'
          simp only [withInbox, showEffect, hdue, hdue', Bool.false_eq_true, if_false]

/-- Advancing with messages in the inbox does what advancing with them as mail does. -/
theorem moveEffect_withInbox {t : Instant} {x : Bags τ} {e : Engine τ σ} {ports : List (Port τ)}
    (hin : e.node.inbox = .ofPorts ports) (hx : x.Fits ports) :
    (e.withInbox x).moveEffect t [] = e.moveEffect t x.asMail := by
  have hmail := hx.foldl_asMail
  rw [← hin] at hmail
  cases e with
  | leaf l =>
      have hreceive : l.receive x.asMail = { l with inbox := x } := by
        rw [Leaf.receive, Node.receive, show l.toNode = (leaf l).node from rfl, hmail]
      rw [moveEffect, hreceive]
      rfl
  | hub h es =>
      have hreceive : h.receive x.asMail = { h with inbox := x } := by
        rw [Hub.receive, Node.receive, show h.toNode = (hub h es).node from rfl, hmail]
      rw [moveEffect, moved, hreceive]
      rfl

/-- A tree that is due has its last transition at the time of a step. -/
theorem last_moved {t : Instant} {mail : List (Delivery τ)} {e : Engine τ σ} (hmax : t ≠ .max)
    (hnext : e.next = t) : (e.moved t mail).last = t := by
  cases e with
  | hub h es => rfl
  | leaf l =>
      have hdue : (l.receive mail).isImminent t = true := (Node.isImminent_iff hmax).mpr hnext
      have hidle : (l.receive mail).idle t = false := by
        rw [Leaf.idle, hdue, Bool.not_true, Bool.and_false]
      show ((l.receive mail).moved t).last = t
      rw [Leaf.moved, hidle, if_neg Bool.false_ne_true]
      rfl

end Engine

/-! ## Twins -/

variable {good : Interface τ → Stage → σ → Prop} {m : Model τ σ} {e : Engine τ σ} {c : Crew τ σ}

/-- **An engine tree without messages and a crew** with the same leaves. -/
structure Twin (good : Interface τ → Stage → σ → Prop) (m : Model τ σ) (e : Engine τ σ)
    (c : Crew τ σ) : Prop where
  engine : Engine.Live good m e
  quiet : e.Quiet
  crew : Crew.Live good m c
  outbox : c.outbox.isEmpty = true
  last_eq : c.last = e.last
  path_eq : c.path = e.node.path
  leaves_eq : c.leaves = e.leaves

namespace Twin

theorem next_eq (h : Twin good m e c) : c.next = e.next := by
  rw [h.crew.next_eq, Engine.Windowed.next_eq e h.engine.windowed, h.leaves_eq]

/-- A leaf of the tree is in the crew at its number. -/
theorem exists_leaf (h : Twin good m e c) {a : List Nat} {atom : Atomic τ σ}
    (ha : m.atomAt? a = some atom) :
    ∃ l, e.leafAt? a = some l ∧ c.leaves[m.number a]? = some l ∧ l.Sound good atom.interface := by
  obtain ⟨l, hl, hsound⟩ := h.engine.sound.exists_leaf.1 ha
  refine ⟨l, hl, ?_, hsound⟩
  rw [h.leaves_eq]
  exact h.engine.sound.getElem?_leaves hl

/-- Leaves that agree at every address are the same lists. -/
theorem leaves_eq_of {e' : Engine τ σ} {c' : Crew τ σ} (he : Engine.Sound good m e')
    (hc : Crew.Sound good m c')
    (h : ∀ {a atom}, m.atomAt? a = some atom →
      ∃ l, e'.leafAt? a = some l ∧ c'.leaves[m.number a]? = some l) :
    c'.leaves = e'.leaves := by
  refine List.ext_getElem? fun n => ?_
  by_cases hn : n < m.atoms.length
  · obtain ⟨a, atom, ha, rfl⟩ := m.exists_number hn
    obtain ⟨l, hl, hl'⟩ := h ha
    rw [hl', he.getElem?_leaves hl]
  · rw [List.getElem?_eq_none (by rw [hc.length_eq]; omega),
      List.getElem?_eq_none (by rw [he.length_leaves]; omega)]

variable [AtomicModel τ σ]

/-- **After their initialization** an engine and a crew are twins. -/
theorem started (hc : Contract good) (hm : m.Wired) (hg : m.AllGood good) (wished : Nat)
    (t : Instant) :
    Twin good m ((Engine.ofModel m).started t) ((Crew.ofModel wished m).started t) := by
  have ha := attended_unobserved (τ := τ) (σ := σ) good
  obtain ⟨-, hengine, -⟩ := (Engine.sound_ofModelBelow hg none).init hc ha t ⟨⟨⟩, false⟩
  obtain ⟨-, hcrew⟩ := (Crew.sound_ofModel hm hg wished).init hc ha t ⟨⟨⟩, false⟩
  refine ⟨hengine, (Engine.quiet_ofModelBelow hg none).started t, hcrew, Bags.isEmpty_ofPorts _,
    ?_, ?_, ?_⟩
  · cases m <;> rfl
  · cases m <;> rfl
  · have hleaves : (Crew.ofModel wished m).leaves = (Engine.ofModel m).leaves :=
      FlatPart.leaves_eq m
    rw [Engine.leaves_started, ← hleaves]
    rfl

/-! ## A step -/

/-- Both show the same outputs. -/
theorem leaves_shown (hc : Contract good) (hm : m.Wired) (h : Twin good m e c) {t : Instant}
    (ht : t ≤ c.next) : (c.shown t).leaves = (e.shown t).leaves := by
  have hte : t ≤ e.next := h.next_eq ▸ ht
  obtain ⟨-, hshown, -⟩ := h.engine.collect hc (attended_unobserved good) hm hte ⟨⟨⟩, false⟩
  refine leaves_eq_of hshown.sound (h.crew.sound_shown hc hm ht) fun {a atom} ha => ?_
  obtain ⟨l, hl, hcl, -⟩ := h.exists_leaf ha
  refine ⟨l.shown t, ?_, ?_⟩
  · rw [Engine.shown_leafAt h.engine.windowed hte, hl, Option.map_some]
  · rw [Crew.shown, List.getElem?_map, hcl, Option.map_some]

/-- **A leaf when its turn comes**, in both. It has shown its output, and in its inbox
there are the same messages, in whatever order. -/
theorem exists_turn (hc : Contract good) (hm : m.Wired) (h : Twin good m e c) {t : Instant}
    (ht : t ≤ c.next) {routes : List Route} (hr : routes.Perm c.routes) {a : List Nat}
    {atom : Atomic τ σ} (ha : m.atomAt? a = some atom) :
    ∃ (l : Leaf τ σ) (x y : Bags τ), e.leafAt? a = some l ∧ l.initialized = true ∧
      c.leaves[m.number a]? = some l ∧
      Engine.turnAt c.inbox.asMail a (e.shown t) = some { l.shown t with inbox := x } ∧
      (c.routed t routes).leaves[m.number a]? = some { l.shown t with inbox := y } ∧
      Leaf.Sound good atom.interface { l.shown t with inbox := x } ∧
      y.Fits atom.interface.inputs ∧ x.Alike y := by
  have hte : t ≤ e.next := h.next_eq ▸ ht
  obtain ⟨-, hshown, -⟩ := h.engine.collect hc (attended_unobserved good) hm hte ⟨⟨⟩, false⟩
  obtain ⟨l, hl, hcl, hbefore⟩ := h.exists_leaf ha
  have hi := h.engine.initialized.leafAt hl
  have hleaf : (e.shown t).leafAt? a = some (l.shown t) := by
    rw [Engine.shown_leafAt h.engine.windowed hte, hl, Option.map_some]
  obtain ⟨x, hturn, hx, hsum⟩ := Engine.exists_turnAt _ hm hshown.sound
    (Engine.gathered_shown t e hm h.engine.sound h.quiet) h.crew.sound.inbox.addressed_asMail ha
    hleaf
  have hleaves := h.leaves_shown hc hm ht
  have hrouted : (c.routed t routes).leaves[m.number a]?
      = some ((l.shown t).receive ((c.shown t).mailFor routes (m.number a))) := by
    rw [Crew.leaves_routed, List.getElem?_mapIdx, List.getElem?_map, hcl]
    rfl
  have hsound := (h.crew.sound_routed hc hm ht hr).leaf (Model.getElem?_atoms ha) hrouted
  refine ⟨l, x, _, hl, hi, hcl, hturn, hrouted, ⟨hx, hsound.outbox, hsound.fresh, hsound.running⟩,
    hsound.inbox, hx.alike hsound.inbox fun q hq => (hsum q hq).trans ?_⟩
  -- What is in both inboxes is the mail alone, and the sums of both are what reaches the leaf.
  have hinbox : (l.shown t).inbox = l.inbox := by rw [Leaf.toNode_shown]
  have hlt : q < (l.shown t).inbox.list.length := by
    rw [hinbox, hbefore.inbox.length_eq]
    exact hq
  have hempty : (l.shown t).inbox.isEmpty = true := hinbox ▸ (h.quiet.leafAt hl).1
  have hmail : ((l.shown t).receive ((c.shown t).mailFor routes (m.number a))).inbox.messagesAt q
      = (((c.shown t).mailFor routes (m.number a)).filter (·.port == q)).flatMap (·.messages) :=
    Bags.messagesAt_mail hempty _ hlt
  have hreaching := Crew.mailFor_eq_reaching hm hshown.sound hleaves h.crew.sound.inbox
    (hr.trans (List.Perm.of_eq h.crew.sound.routes)) ha q
  exact hreaching.symm.trans (congrArg Multiset.ofList hmail.symm)

/-- **The leaf after its turn**, in both. -/
theorem exists_moved (hc : Contract good) (ho : OrderFree good) (hm : m.Wired)
    (h : Twin good m e c) {t : Instant} (ht : t ≤ c.next) {routes : List Route}
    (hr : routes.Perm c.routes) {a : List Nat} {atom : Atomic τ σ} (ha : m.atomAt? a = some atom) :
    ∃ l, ((e.shown t).moved t c.inbox.asMail).leafAt? a = some l ∧
      (c.stepped t routes).leaves[m.number a]? = some l := by
  obtain ⟨l, x, y, -, hi, -, hturn, hrouted, hsound, hy, halike⟩ := h.exists_turn hc hm ht hr ha
  have hinit : (l.shown t).initialized = true := by
    rw [Leaf.toNode_shown]
    exact hi
  refine ⟨Leaf.moved t { l.shown t with inbox := x }, ?_, ?_⟩
  · rw [Engine.moved_leafAt, hturn, Option.map_some]
  · rw [Crew.stepped, List.getElem?_map, hrouted, Option.map_some,
      Leaf.moved_congr hc ho hsound hinit hy halike]

/-- **After a step** at the next event an engine and a crew are twins again. -/
theorem stepped (hc : Contract good) (ho : OrderFree good) (hm : m.Wired)
    (h : Twin good m e c) (hmax : c.next ≠ .max) {routes : List Route}
    (hr : routes.Perm c.routes) :
    Twin good m ((e.shown c.next).moved c.next c.inbox.asMail) (c.stepped c.next routes) := by
  have ha := attended_unobserved (τ := τ) (σ := σ) good
  have hl : e.last ≤ c.next := h.last_eq ▸ h.crew.window
  obtain ⟨-, -, -, hengine, -⟩ := h.engine.collect_advance hc ha hm h.quiet h.crew.sound.inbox
    hl (le_of_eq h.next_eq) ⟨⟨⟩, false⟩ ⟨⟨⟩, false⟩
  have hcrew := h.crew.stepped hc hm h.crew.window (le_refl _) hr
  have hpath : ((e.shown c.next).moved c.next c.inbox.asMail).pathAt? []
      = some e.node.path := by
    rw [Engine.pathAt_moved, Engine.pathAt_shown]
    rfl
  refine ⟨hengine, Engine.quiet_moved _ _, hcrew, ?_, ?_, ?_, ?_⟩
  · have hclear : (c.stepped c.next routes).outbox = (c.routed c.next routes).outbox.clear := rfl
    rw [hclear, (h.crew.sound_routed hc hm (le_refl _) hr).outbox.clear, Bags.isEmpty_ofPorts]
  · obtain ⟨-, -, hsame⟩ := h.engine.collect hc ha hm (le_of_eq h.next_eq) ⟨⟨⟩, false⟩
    exact (Engine.last_moved hmax (hsame.next.trans h.next_eq.symm)).symm
  · rw [Engine.pathAt?, Option.some_inj] at hpath
    rw [hpath, ← h.path_eq, Crew.stepped, Crew.routed, Crew.deposited_eq]
    rfl
  · exact leaves_eq_of hengine.sound hcrew.sound fun ha => h.exists_moved hc ho hm (le_refl _) hr ha

end Twin

end DiscreteEvent
