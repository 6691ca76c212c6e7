/-
The engine tree refines the flat semantics.

A step of the engine is two calls on the root, each of which is a recursion over
the tree. `Live.flatStep` says what they come to: the cells of the leaves
make one `Model.FlatStep`, whatever waits at the root, at any time inside of the
window. Both calls come to their end, the outbox of the root shows what has left
the tree, and no message stays behind.

The proof joins three things. A leaf alone makes the step of its cell
(`Leaf.cell_moved`); what it sends is what its cell emits (`sent_shown`); and
what it fires on is what reaches it along the chains (`exists_turnAt`).

`Stepped` are the states that such steps lead to, and `stepped_refines_flatStep` is the
refinement for all of them.
-/
import DiscreteEvent.Proofs.Engine.Flow
import DiscreteEvent.Proofs.Model.FlatStep

set_option autoImplicit false

namespace DiscreteEvent

variable {τ σ ω : Type} [MessageType τ]

/-! ## Leaves and cells -/

/-- The cell of a leaf. -/
def Leaf.cell (l : Leaf τ σ) : Cell σ := ⟨l.state, l.last, l.next⟩

namespace Node

/-- Away from the last instant an event is due at the time of the next event. -/
theorem isImminent_iff {n : Node τ} {t : Instant} (ht : t ≠ .max) :
    n.isImminent t = true ↔ n.next = t := by
  rw [isImminent, Bool.and_eq_true, beq_iff_eq, Bool.not_eq_true', Bool.eq_false_iff, ne_eq,
    Instant.isInfinite_iff]
  constructor
  · intro h
    exact h.1.symm
  · intro h
    exact ⟨h.symm, ht⟩

end Node

namespace Leaf

variable [AtomicModel τ σ]

/-- A leaf that is due fires the internal transition, and after it the external
one if there is input. -/
theorem cell_moved_of_due {l : Leaf τ σ} {t : Instant} (hdue : l.isImminent t = true) :
    (l.moved t).cell
      = if l.inbox.isEmpty then .settle t (AtomicModel.internal l.state).state
        else .settle t
          (AtomicModel.external (AtomicModel.internal l.state).state .zero l.inbox).state := by
  rw [moved, idle, hdue, Bool.not_true, Bool.and_false, if_neg Bool.false_ne_true, transition,
    if_pos hdue]
  cases l.inbox.isEmpty <;> rfl

/-- A leaf that is not due fires on input only. -/
theorem cell_moved_of_not_due {l : Leaf τ σ} {t : Instant} (hdue : l.isImminent t = false) :
    (l.moved t).cell
      = if l.inbox.isEmpty then l.cell
        else .settle t (AtomicModel.external l.state (l.last.elapsed t) l.inbox).state := by
  rw [moved, idle, hdue, Bool.not_false, Bool.and_true, transition, hdue]
  cases l.inbox.isEmpty <;> rfl

/-- **A leaf makes the step of its cell**, once it has shown its output. -/
theorem cell_moved (l : Leaf τ σ) {t : Instant} (ht : t ≠ .max) (x : Bags τ) :
    (moved t { l.shown t with inbox := x }).cell = l.cell.step t x := by
  by_cases hdue : l.isImminent t = true
  · have hnext : l.cell.next = t := (Node.isImminent_iff ht).mp hdue
    rw [shown, if_pos hdue, Cell.step, if_pos hnext]
    exact cell_moved_of_due hdue
  · have hnext : ¬l.cell.next = t := fun h => hdue ((Node.isImminent_iff ht).mpr h)
    rw [shown, if_neg hdue, Cell.step, if_neg hnext]
    exact cell_moved_of_not_due (Bool.eq_false_iff.mpr hdue)

/-- The state between the two transitions of a leaf that is due is good. -/
theorem Sound.exists_good_fired {good : Interface τ → Stage → σ → Prop} (hc : Contract good)
    {l : Leaf τ σ} {i : Interface τ} (h : Sound good i l) (hi : l.initialized = true)
    {t : Instant} (hmax : t ≠ .max) (hdue : l.cell.next = t) :
    ∃ g, good i g (AtomicModel.internal (AtomicModel.output l.cell.state).state).state := by
  obtain ⟨d, hd, -⟩ := h.of_imminent hi ((Node.isImminent_iff hmax).mpr hdue)
  exact ⟨_, (hc.internal (hc.output hd).2.2).2⟩

/-- The output of a leaf without messages is the emission of its cell. -/
theorem outbox_shown (l : Leaf τ σ) {t : Instant} (ht : t ≠ .max) {i : Interface τ}
    (hout : l.outbox.Fits i.outputs) (he : l.outbox.isEmpty = true) :
    (l.shown t).outbox = l.cell.emission i t := by
  by_cases hdue : l.isImminent t = true
  · have hnext : l.cell.next = t := (Node.isImminent_iff ht).mp hdue
    rw [shown, if_pos hdue, Cell.emission, if_pos hnext, ← hout.clear]
    rfl
  · have hnext : ¬l.cell.next = t := fun h => hdue ((Node.isImminent_iff ht).mpr h)
    rw [shown, if_neg hdue, Cell.emission, if_neg hnext]
    exact hout.eq_ofPorts he

end Leaf

/-! ## Leaves of a tree -/

namespace Engine

/-- The cells of a tree, by the addresses of the leaves. -/
def cells (e : Engine τ σ) (a : List Nat) : Option (Cell σ) := (e.leafAt? a).map Leaf.cell

variable {good : Interface τ → Stage → σ → Prop}

/-- **A sound engine has a leaf where its model has one.** -/
theorem Sound.exists_leaf {a : List Nat} :
    ∀ {m : Model τ σ} {e : Engine τ σ}, Sound good m e →
      (∀ {atom}, m.atomAt? a = some atom →
        ∃ l, e.leafAt? a = some l ∧ l.Sound good atom.interface) ∧
      (m.atomAt? a = none → e.leafAt? a = none) := by
  induction a with
  | nil =>
      intro m e hs
      cases hs with
      | leaf self =>
          refine ⟨fun h => ?_, nofun⟩
          cases h
          exact ⟨_, rfl, self⟩
      | hub => exact ⟨nofun, fun _ => rfl⟩
  | cons i a ih =>
      intro m e hs
      cases hs with
      | leaf => exact ⟨nofun, fun _ => rfl⟩
      | @hub c models h es _ length_eq each =>
          simp only [Model.atomAt?, leafAt?]
          cases hm : models[i]? with
          | none =>
              have he : es[i]? = none := by
                rw [List.getElem?_eq_none_iff, ← length_eq]
                exact List.getElem?_eq_none_iff.mp hm
              rw [he]
              refine ⟨fun h => ?_, fun _ => rfl⟩
              cases h
          | some m =>
              have hlt : i < es.length := by
                rw [← length_eq]
                exact (List.getElem?_eq_some_iff.mp hm).1
              have he := List.getElem?_eq_getElem hlt
              rw [he, Option.bind_some, Option.bind_some]
              exact ih (each i m _ hm he)

/-- The windows of the leaves, from that of the root. -/
theorem Windowed.leafAt {e : Engine τ σ} {a : List Nat} {l : Leaf τ σ} (hw : e.Windowed)
    (hl : e.leafAt? a = some l) : l.last ≤ e.last ∧ e.next ≤ l.next := by
  have hleaf := leafAt_of_child (P := fun c => c.Windowed ∧ c.last ≤ e.last ∧ e.next ≤ c.next)
    (fun h es c hc hp => ⟨hp.1.child hc, le_trans (hp.1.last_le hc) hp.2.1,
      le_trans hp.2.2 (hp.1.next_le hc)⟩) ⟨hw, le_refl _, le_refl _⟩ hl
  exact hleaf.2

theorem Initialized.leafAt {e : Engine τ σ} {a : List Nat} {l : Leaf τ σ} (hi : e.Initialized)
    (hl : e.leafAt? a = some l) : l.initialized = true :=
  (leafAt_of_child (fun _ _ _ hc hp => Initialized.child hp hc) hi hl).node

theorem Quiet.leafAt {e : Engine τ σ} {a : List Nat} {l : Leaf τ σ} (hq : e.Quiet)
    (hl : e.leafAt? a = some l) : l.inbox.isEmpty = true ∧ l.outbox.isEmpty = true :=
  have hleaf := leafAt_of_child (fun _ _ _ hc hp => Quiet.child hp hc) hq hl
  ⟨hleaf.inbox, hleaf.outbox⟩

variable [AtomicModel τ σ]

omit [AtomicModel τ σ] in
/-- A leaf of a tree is due only if the tree is. -/
theorem Windowed.not_due {e : Engine τ σ} {a : List Nat} {l : Leaf τ σ} {t : Instant}
    (hw : e.Windowed) (ht : t ≤ e.next) (hdue : e.node.isImminent t = false)
    (hl : e.leafAt? a = some l) : l.isImminent t = false := by
  rw [Bool.eq_false_iff, ne_eq] at hdue ⊢
  intro hleaf
  rw [Node.isImminent, Bool.and_eq_true, beq_iff_eq] at hleaf hdue
  refine hdue ⟨le_antisymm ht ?_, hleaf.2⟩
  rw [hleaf.1]
  exact (hw.leafAt hl).2

/-- Every leaf is initialized with its tree. -/
theorem started_leafAt (t : Instant) {a : List Nat} :
    ∀ {e : Engine τ σ}, (e.started t).leafAt? a = (e.leafAt? a).map (Leaf.started t) := by
  induction a with
  | nil =>
      intro e
      cases e <;> rfl
  | cons i a ih =>
      intro e
      cases e with
      | leaf => rfl
      | hub h es =>
          rw [started, leafAt?, leafAt?, startedAll_eq, List.getElem?_mapIdx]
          cases es[i]? with
          | none => rfl
          | some c => exact ih

/-- **Every leaf shows its output** when the outputs of the tree are collected. -/
theorem shown_leafAt {a : List Nat} {t : Instant} :
    ∀ {e : Engine τ σ}, e.Windowed → t ≤ e.next →
      (e.shown t).leafAt? a = (e.leafAt? a).map (Leaf.shown t) := by
  induction a with
  | nil =>
      intro e _ _
      cases e with
      | leaf => rfl
      | hub h es =>
          rw [shown]
          split <;> rfl
  | cons i a ih =>
      intro e hw ht
      cases e with
      | leaf => rfl
      | hub h es =>
          by_cases hdue : h.isImminent t = true
          · rw [shown, if_pos hdue, shownAll_eq]
            simp only [leafAt?, List.getElem?_mapIdx]
            cases he : es[i]? with
            | none => rfl
            | some c =>
                have hmem := List.mem_of_getElem? he
                exact ih (hw.child hmem) (le_trans ht (hw.next_le hmem))
          · rw [shown, if_neg hdue]
            cases hl : leafAt? (i :: a) (.hub h es) with
            | none => rfl
            | some l =>
                -- No event is due below a hub that has none.
                have hleaf := hw.not_due ht (Bool.eq_false_iff.mpr hdue) hl
                rw [Option.map_some, Leaf.shown, hleaf, if_neg Bool.false_ne_true]

/-- **What a leaf sends is what its cell emits.** -/
theorem sent_shown {m : Model τ σ} {e : Engine τ σ} {t : Instant} (hs : Sound good m e)
    (hw : e.Windowed) (hq : e.Quiet) (ht : t ≤ e.next) (hmax : t ≠ .max) (o : Terminal) :
    (e.shown t).sent o = m.emitted t e.cells o := by
  rw [sent, Model.emitted, shown_leafAt hw ht, cells]
  cases ha : m.atomAt? o.address with
  | none => rw [hs.exists_leaf.2 ha]; rfl
  | some atom =>
      obtain ⟨l, hl, hsound⟩ := hs.exists_leaf.1 ha
      rw [hl, Option.map_some, Option.map_some]
      show ((l.shown t).outbox.messagesAt o.port : Multiset (Message τ)) = _
      rw [Leaf.outbox_shown l hmax hsound.outbox (hq.leafAt hl).2]

end Engine

/-! ## Messages at the root -/

namespace Engine

theorem cells_withInbox (x : Bags τ) (e : Engine τ σ) : (e.withInbox x).cells = e.cells := by
  funext a
  cases e with
  | leaf l => cases a <;> rfl
  | hub h es => cases a <;> rfl

/-- The leaves of a tree do not depend on what waits at its root, but that the root may be
one of them. -/
theorem exists_leafAt_withInbox (x : Bags τ) {e : Engine τ σ} {a : List Nat} {l : Leaf τ σ}
    (hl : e.leafAt? a = some l) : ∃ y, (e.withInbox x).leafAt? a = some { l with inbox := y } := by
  cases e with
  | hub h es =>
      cases a with
      | nil => cases hl
      | cons i a => exact ⟨l.inbox, hl⟩
  | leaf l' =>
      cases a with
      | cons i a => cases hl
      | nil =>
          cases hl
          exact ⟨x, rfl⟩

theorem exists_of_leafAt_withInbox {e : Engine τ σ} {x : Bags τ} {a : List Nat} {l : Leaf τ σ}
    (hl : (e.withInbox x).leafAt? a = some l) :
    ∃ y, e.leafAt? a = some { l with inbox := y } := by
  have h := exists_leafAt_withInbox e.node.inbox hl
  rw [withInbox_withInbox, withInbox_self] at h
  exact h

variable [AtomicModel τ σ] {good : Interface τ → Stage → σ → Prop}

/-- Collecting does not look into the inbox of the root. -/
theorem shown_withInbox (t : Instant) (x : Bags τ) (e : Engine τ σ) :
    (e.withInbox x).shown t = (e.shown t).withInbox x := by
  cases e with
  | leaf l =>
      have hdue' : Node.isImminent { l.toNode with inbox := x } t = l.isImminent t := rfl
      cases hdue : l.isImminent t with
      | true =>
          rw [hdue] at hdue'
          simp only [withInbox, shown, Leaf.shown, hdue, hdue', if_true]
      | false =>
          rw [hdue] at hdue'
          simp only [withInbox, shown, Leaf.shown, hdue, hdue', Bool.false_eq_true, if_false]
  | hub h es =>
      have hdue' : Node.isImminent { h.toNode with inbox := x } t = h.isImminent t := rfl
      cases hdue : h.isImminent t with
      | true =>
          rw [hdue] at hdue'
          simp only [withInbox, shown, hdue, hdue', if_true]
          rfl
      | false =>
          rw [hdue] at hdue'
          simp only [withInbox, shown, hdue, hdue', Bool.false_eq_true, if_false]

/-- Advancing with messages in the inbox is advancing with them as mail. -/
theorem moved_withInbox {t : Instant} {x : Bags τ} {e : Engine τ σ} {ports : List (Port τ)}
    (hin : e.node.inbox = .ofPorts ports) (hx : x.Fits ports) :
    (e.withInbox x).moved t [] = e.moved t x.asMail := by
  have hmail := hx.foldl_asMail
  rw [← hin] at hmail
  cases e with
  | leaf l =>
      have hreceive : l.receive x.asMail = { l with inbox := x } := by
        rw [Leaf.receive, Node.receive, show l.toNode = (leaf l).node from rfl, hmail]
      rw [moved, hreceive]
      rfl
  | hub h es =>
      have hreceive : h.receive x.asMail = { h with inbox := x } := by
        rw [Hub.receive, Node.receive, show h.toNode = (hub h es).node from rfl, hmail]
      rw [moved, hreceive]
      rfl

/-! ## No message stays behind -/

/-- **After an advance** there is no message anywhere in the tree, whatever there
was before: a leaf that does not fire had none. -/
theorem quiet_moved (t : Instant) (e : Engine τ σ) :
    ∀ {mail : List (Delivery τ)}, (e.moved t mail).Quiet := by
  induction e using Engine.induction with
  | leaf l =>
      intro mail
      cases hidle : (l.receive mail).idle t with
      | true =>
          have hempty := hidle
          rw [Leaf.idle, Bool.and_eq_true] at hempty
          rw [moved, Leaf.moved, if_pos hidle]
          exact .leaf hempty.1 (Bags.isEmpty_clear _)
      | false =>
          rw [moved, Leaf.moved, if_neg (by rw [hidle]; exact Bool.false_ne_true)]
          exact .leaf (Bags.isEmpty_clear _) (Bags.isEmpty_clear _)
  | hub h es ih =>
      intro mail
      rw [moved, movedAll_eq]
      refine .hub (Bags.isEmpty_clear _) (Bags.isEmpty_clear _) fun c hc => ?_
      obtain ⟨i, hi, rfl⟩ := List.mem_mapIdx.mp hc
      exact ih _ (List.getElem_mem hi)

/-- Initialization does not touch messages. -/
theorem Quiet.started (t : Instant) (e : Engine τ σ) : e.Quiet → (e.started t).Quiet := by
  induction e using Engine.induction with
  | leaf l => exact fun hq => .leaf hq.inbox hq.outbox
  | hub h es ih =>
      intro hq
      rw [Engine.started, startedAll_eq]
      refine .hub hq.inbox hq.outbox fun c hc => ?_
      obtain ⟨i, hi, rfl⟩ := List.mem_mapIdx.mp hc
      exact ih _ (List.getElem_mem hi) (hq.child (List.getElem_mem hi))

omit [AtomicModel τ σ] in
/-- There are no messages in a new engine. -/
theorem quiet_ofModelBelow {m : Model τ σ} (h : m.AllGood good) (parent : Option String) :
    (ofModelBelow parent m).Quiet := by
  induction h generalizing parent with
  | atomic => exact .leaf (Bags.isEmpty_ofPorts _) (Bags.isEmpty_ofPorts _)
  | @coupled c models _ ih =>
      refine .hub (Bags.isEmpty_ofPorts _) (Bags.isEmpty_ofPorts _) fun e he => ?_
      obtain ⟨i, hi⟩ := List.getElem?_of_mem he
      rw [getElem?_ofModelsBelow, Option.map_eq_some_iff] at hi
      obtain ⟨m, hm, rfl⟩ := hi
      exact ih m (List.mem_of_getElem? hm) _

/-! ## The refinement -/

omit [AtomicModel τ σ] in
/-- What reaches a port when the root is given messages. -/
theorem reaching_asMail {m : Model τ σ} {x : Bags τ} (hx : x.Fits m.interface.inputs)
    (e : Engine τ σ) (d : Terminal) :
    reaching m e x.asMail d
      = m.inflow e.sent (fun p => (x.messagesAt p : Multiset (Message τ))) d := by
  rw [reaching, Model.inflow, arriving, Bags.asMail, ← Multiset.map_coe, Multiset.bind_map,
    hx.length_eq]
  rfl

theorem reaching_eq_inflow {m : Model τ σ} {e : Engine τ σ} {t : Instant} {x : Bags τ}
    (hs : Sound good m e) (hw : e.Windowed) (hq : e.Quiet) (ht : t ≤ e.next) (hmax : t ≠ .max)
    (hx : x.Fits m.interface.inputs) (d : Terminal) :
    reaching m (e.shown t) x.asMail d
      = m.inflow (m.emitted t e.cells) (fun p => (x.messagesAt p : Multiset (Message τ))) d := by
  rw [reaching_asMail hx, Model.inflow, Model.inflow,
    carried_congr fun c _ => sent_shown hs hw hq ht hmax c.1]

/-- **A cell steps on what is delivered to its leaf.** -/
theorem Live.exists_received {m : Model τ σ} {e : Engine τ σ} {t : Instant} {x : Bags τ}
    (hm : m.Wired) (h : Live good m e) (h' : Sound good m (e.shown t)) (hq : e.Quiet)
    (hx : x.Fits m.interface.inputs) (ht : t ≤ e.next) (hmax : t ≠ .max) {a : List Nat}
    {atom : Atomic τ σ} (ha : m.atomAt? a = some atom) :
    ∃ l y, e.leafAt? a = some l ∧ l.Sound good atom.interface ∧
      m.Receives t x e.cells a atom.interface y ∧
      ((e.shown t).moved t x.asMail).cells a = some (l.cell.step t y) := by
  obtain ⟨l, hl, hsound⟩ := h.sound.exists_leaf.1 ha
  have hshown : (e.shown t).leafAt? a = some (l.shown t) := by
    rw [shown_leafAt h.windowed ht, hl, Option.map_some]
  obtain ⟨y, hturn, hy, hsum⟩ := exists_turnAt _ hm h' (gathered_shown t e hm h.sound hq)
    hx.addressed_asMail ha hshown
  refine ⟨l, y, hl, hsound, ⟨hy, fun q hlt => ?_⟩, ?_⟩
  · rw [hsum q hlt]
    exact reaching_eq_inflow h.sound h.windowed hq ht hmax hx _
  · rw [cells, moved_leafAt, hturn, Option.map_some, Option.map_some, Leaf.cell_moved l hmax]

/-- **The cells make a flat step.** -/
theorem Live.flatStep {m : Model τ σ} {e : Engine τ σ} {t : Instant} {x : Bags τ}
    (hc : Contract good) (ho : OrderFree good) (hm : m.Wired) (h : Live good m e)
    (h' : Sound good m (e.shown t)) (h'' : Sound good m ((e.shown t).moved t x.asMail))
    (hq : e.Quiet) (hx : x.Fits m.interface.inputs) (ht : t ≤ e.next) (hmax : t ≠ .max) :
    m.FlatStep t x e.cells ((e.shown t).moved t x.asMail).cells := by
  have hleaf : ∀ {a : List Nat} {atom : Atomic τ σ}, m.atomAt? a = some atom →
      ∃ l y, e.leafAt? a = some l ∧ l.Sound good atom.interface ∧
        m.Receives t x e.cells a atom.interface y ∧
        ((e.shown t).moved t x.asMail).cells a = some (l.cell.step t y) :=
    fun ha => h.exists_received hm h' hq hx ht hmax ha
  refine ⟨fun a => ?_, fun ha => ?_, fun {a atom c y} ha hcell hy => ?_⟩
  · cases ha : m.atomAt? a with
    | none =>
        rw [cells, cells, h.sound.exists_leaf.2 ha, h''.exists_leaf.2 ha]
        exact ⟨rfl, rfl⟩
    | some atom =>
        obtain ⟨l, y, hl, -, -, hat⟩ := hleaf ha
        rw [hat, cells, hl]
        exact ⟨rfl, rfl⟩
  · obtain ⟨_, y, -, -, hy, -⟩ := hleaf ha
    exact ⟨y, hy⟩
  · obtain ⟨l, y', hl, hsound, hy', hat⟩ := hleaf ha
    rw [cells, hl, Option.map_some, Option.some_inj] at hcell
    subst hcell
    -- The model does not see in which order its input came.
    have halike : y'.Alike y :=
      hy'.fits.alike hy.fits fun q hlt => (hy'.content q hlt).trans (hy.content q hlt).symm
    obtain ⟨g, hg⟩ := hsound.exists_good
    have hfired := hsound.exists_good_fired hc (h.initialized.leafAt hl) hmax
    rw [hat, Cell.step_congr ho hg hfired hy'.fits hy.fits halike]

variable [Observer ω]

/-- **The states that an engine of `m` is led to by steps**, from its initialization
on: messages are put into the root, the outputs are collected, and the engine is
advanced to the same time, which may be any one inside of its window. -/
inductive Stepped (ω : Type) [Observer ω] (m : Model τ σ) : Engine τ σ → Prop
  | init (t : Instant) (w : World ω) : Stepped ω m ((ofModel m).init t w).state
  | step {e : Engine τ σ} {x : Bags τ} {t : Instant} (he : Stepped ω m e)
      (hx : x.Fits m.interface.inputs) (hl : e.last ≤ t) (ht : t ≤ e.next) (hmax : t ≠ .max)
      (w w' : World ω) :
      Stepped ω m ((((e.withInbox x).collect t w).state).advance t w').state

/-- **One step of a live engine without messages**: both calls come to their end,
and the engine is live and without messages again. -/
theorem Live.collect_advance {m : Model τ σ} {e : Engine τ σ} {t : Instant} {x : Bags τ}
    (hc : Contract good) (ha : Attended ω good) (hm : m.Wired) (h : Live good m e)
    (hq : e.Quiet) (hx : x.Fits m.interface.inputs) (hl : e.last ≤ t) (ht : t ≤ e.next)
    (w w' : World ω) :
    (e.withInbox x).collect t w
        = .done ((e.shown t).withInbox x) (w.after ((e.withInbox x).showEffect t)) ∧
      ((e.shown t).withInbox x).advance t w'
        = .done ((e.shown t).moved t x.asMail)
            (w'.after (((e.shown t).withInbox x).moveEffect t [])) ∧
      Live good m (e.shown t) ∧ Live good m ((e.shown t).moved t x.asMail) ∧
      At t ((e.shown t).moved t x.asMail) := by
  obtain ⟨-, hshown, hsame⟩ := h.collect hc ha hm ht w
  have htx : t ≤ (e.withInbox x).next := by rw [next_withInbox]; exact ht
  obtain ⟨hcollect, -, -⟩ := (h.withInbox hx).collect hc ha hm htx w
  rw [shown_withInbox] at hcollect
  have hlx : ((e.shown t).withInbox x).last ≤ t := by rw [last_withInbox, hsame.last]; exact hl
  have hnx : t ≤ ((e.shown t).withInbox x).next := by rw [next_withInbox, hsame.next]; exact ht
  obtain ⟨hadvance, hmoved, hat⟩ := (hshown.withInbox hx).advance hc ha hm hlx hnx w'
  have hin : (e.shown t).node.inbox = .ofPorts m.interface.inputs :=
    hshown.sound.inbox.eq_ofPorts (gathered_shown t e hm h.sound hq).inbox
  rw [moved_withInbox hin hx] at hadvance hmoved hat
  exact ⟨hcollect, hadvance, hshown, hmoved, hat⟩

/-- The states that steps lead to are live and without messages. -/
theorem Stepped.live {m : Model τ σ} {e : Engine τ σ} (hc : Contract good)
    (ha : Attended ω good) (hm : m.Wired) (hg : m.AllGood good) (h : Stepped ω m e) :
    Live good m e ∧ e.Quiet := by
  induction h with
  | init t w =>
      obtain ⟨heq, hlive, -⟩ := (sound_ofModelBelow hg none).init hc ha t w
      rw [ofModel, heq]
      exact ⟨hlive, (quiet_ofModelBelow hg none).started t⟩
  | step _ hx hl ht hmax w w' ih =>
      obtain ⟨hcollect, hadvance, -, hlive, -⟩ :=
        ih.1.collect_advance hc ha hm ih.2 hx hl ht w w'
      rw [hcollect, Outcome.done, hadvance]
      exact ⟨hlive, quiet_moved _ _⟩

/-- **The engine refines the flat semantics.** In every state that steps have led
to, with anything waiting at the root, and at any time inside of the window but
the last instant, collecting and advancing come to their end. Together they make
the flat step; in between, the outbox of the root shows on every port what the
leaves emit behind it, once for each way out; and afterwards no message is left. -/
theorem stepped_refines_flatStep {m : Model τ σ} (hacc : m.Accepted) (hc : Contract good)
    (ho : OrderFree good) (ha : Attended ω good) (hg : m.AllGood good) {e : Engine τ σ}
    (h : Stepped ω m e) {x : Bags τ} (hx : x.Fits m.interface.inputs) {t : Instant}
    (hl : e.last ≤ t) (ht : t ≤ e.next) (hmax : t ≠ .max) (w w' : World ω) :
    ∃ e₁ e₂ w₁ w₂, (e.withInbox x).collect t w = .done e₁ w₁ ∧ e₁.advance t w' = .done e₂ w₂ ∧
      m.FlatStep t x e.cells e₂.cells ∧
      (∀ p < m.interface.outputs.length, (e₁.node.outbox.messagesAt p : Multiset (Message τ))
        = (m.exits p : Multiset Terminal).bind (m.emitted t e.cells)) ∧
      e₂.Quiet := by
  obtain ⟨hlive, hq⟩ := h.live hc ha hacc.wired hg
  obtain ⟨hcollect, hadvance, hshown, hmoved, hat⟩ :=
    hlive.collect_advance hc ha hacc.wired hq hx hl ht w w'
  refine ⟨_, _, _, _, hcollect, hadvance,
    hlive.flatStep hc ho hacc.wired hshown.sound hmoved.sound hq hx ht hmax,
    fun p hp => ?_, quiet_moved _ _⟩
  rw [node_withInbox, (gathered_shown t e hacc.wired hlive.sound hq).outbox hp]
  exact Multiset.bind_congr fun o _ => sent_shown hlive.sound hlive.windowed hq ht hmax o

/-- The first step of a tower of doublers, with a message waiting for two of them at
the very time of their events. -/
theorem stepped_refines_flatStep_tower :
    let w : World Unobserved := ⟨⟨⟩, false⟩
    let e := ((ofModel Doubler.tower).init .epoch w).state
    let x := (Bags.ofPorts [Doubler.add]).append 0 [⟨Payload.word64, (5 : UInt64)⟩]
    let t : Instant := ⟨2, 0, by decide⟩
    (Stepped Unobserved Doubler.tower e ∧ x.Fits Doubler.tower.interface.inputs ∧
      e.last ≤ t ∧ t ≤ e.next ∧ t ≠ .max) ∧
    ∃ e₁ e₂ w₁ w₂, (e.withInbox x).collect t w = .done e₁ w₁ ∧ e₁.advance t w = .done e₂ w₂ ∧
      Doubler.tower.FlatStep t x e.cells e₂.cells ∧
      (∀ p < 1, (e₁.node.outbox.messagesAt p : Multiset (Message Payload))
        = (Doubler.tower.exits p : Multiset Terminal).bind (Doubler.tower.emitted t e.cells)) ∧
      e₂.Quiet := by
  intro w e x t
  have hx : x.Fits Doubler.tower.interface.inputs := by
    refine (Bags.fits_ofPorts [Doubler.add]).append fun p hp m hm => ?_
    cases hp
    rw [List.mem_singleton.mp hm]
    rfl
  have hl : e.last ≤ t := by decide +kernel
  have ht : t ≤ e.next := by decide +kernel
  have hmax : t ≠ .max := by decide +kernel
  have he : Stepped Unobserved Doubler.tower e := .init _ _
  exact ⟨⟨he, hx, hl, ht, hmax⟩, stepped_refines_flatStep Doubler.accepted_tower Doubler.contract
    Doubler.orderFree (attended_unobserved _) Doubler.allGood_tower he hx hl ht hmax w w⟩

end Engine

end DiscreteEvent
