/-
Rearranged trees run in step.

The engines of counterparts `Agree` when they have the same last transition and the same next
event, every leaf has the state and the times of its counterpart, and the same messages wait
at the root. A step leads from engines that agree to engines that agree (`Synced.step`). All
outputs are collected before anything moves, so what a leaf sends does not depend on who comes
first; and what a leaf receives is what its counterpart receives, but for the order of the
messages, which its model does not look at. The next event is that of a leaf.

So two engines are `InStep` in whatever happens to them (`Synced.unfolds`), and in their runs
(`Synced.runs`). It does not matter of which kind the engines are, nor how many workers a crew
has.

Drafts that are rearranged are built to counterparts, and that is why no simulation depends on
the order in which children, ports and couplings are declared (`order_independent`).
-/
import DiscreteEvent.Proofs.Components.Doubler
import DiscreteEvent.Proofs.Engine.Apart
import DiscreteEvent.Proofs.Engine.Ledger
import DiscreteEvent.Proofs.Execution.Segments
import DiscreteEvent.Proofs.Model.Counterparts

set_option autoImplicit false

namespace DiscreteEvent

variable {τ σ ω : Type} [MessageType τ]

/-! ## Engines that agree -/

namespace Backend

/-- **What leaves the root in the next step**, when the outputs have been collected. The routes
of a crew are followed in some order. -/
inductive Collects [AtomicModel τ σ] : Backend τ σ → Bags τ → Prop
  | sequential {e : Engine τ σ} :
      Collects (.sequential e)
        (e.collect e.next (⟨⟨⟩, false⟩ : World Unobserved)).state.node.outbox
  | parallel {c : Crew τ σ} {routes : List Route} (order : routes.Perm c.routes) :
      Collects (.parallel c) (c.routed c.next routes).outbox

/-- **Two engines are at the same point** of one simulation. -/
structure Agrees (m m' : Model τ σ) (b b' : Backend τ σ) : Prop where
  last : b.last = b'.last
  next : b.next = b'.next
  cells : ∀ {a a' atom}, m.SameLeaf m' a a' atom → b.cells m a = b'.cells m' a'
  inbox : b.inbox.AlikeBy b'.inbox m.interface.inputs m'.interface.inputs

/-- **Two engines go through one history in step**: they agree before everything that happens
and at the end, their steps are at the same times, and in each step the same leaves the roots. -/
inductive InStep [AtomicModel τ σ] (m m' : Model τ σ) :
    Backend τ σ → Backend τ σ → List (Occurrence τ) → Backend τ σ → Backend τ σ → Prop
  | nothing {b b' : Backend τ σ} (agree : Agrees m m' b b') : InStep m m' b b' [] b b'
  | inject {b b' b₁ b₁' : Backend τ σ} {i : Injection τ} {x x' : Bags τ}
      {h : List (Occurrence τ)} (agree : Agrees m m' b b')
      (declared : i.port ∈ m.interface.inputs)
      (extended : b.inbox.extend i.port i.values = .ok x)
      (extended' : b'.inbox.extend i.port i.values = .ok x')
      (rest : InStep m m' (b.withInbox x) (b'.withInbox x') h b₁ b₁') :
      InStep m m' b b' (.inject i :: h) b₁ b₁'
  | step {b b' b₁ b₁' b₂ b₂' : Backend τ σ} {x x' : Effect} {h : List (Occurrence τ)}
      (agree : Agrees m m' b b') (first : b.Step x b₁) (first' : b'.Step x' b₁')
      (outputs : ∀ y y', b.Collects y → b'.Collects y' →
        y.AlikeBy y' m.interface.outputs m'.interface.outputs)
      (rest : InStep m m' b₁ b₁' h b₂ b₂') : InStep m m' b b' (.step b.next :: h) b₂ b₂'

/-- A new engine of a tree, of either kind. -/
inductive New (m : Model τ σ) : Backend τ σ → Prop
  | sequential : New m (.sequential (Engine.ofModel m))
  | parallel (wished : Nat) : New m (.parallel (Crew.ofModel wished m))

end Backend

variable [AtomicModel τ σ] {good : Interface τ → Stage → σ → Prop} {m m' : Model τ σ}

/-! ## One step -/

omit [AtomicModel τ σ] in
/-- **The next event is that of a leaf** at some address, if there is one. -/
theorem Engine.Live.exists_due {e : Engine τ σ} (h : Live good m e) (hmax : e.next ≠ .max) :
    ∃ a atom c, m.atomAt? a = some atom ∧ e.cells a = some c ∧ c.next = e.next := by
  obtain ⟨c, hc, hdue⟩ := Backend.Live.exists_due (b := .sequential e) h hmax
  obtain ⟨l, hl, rfl⟩ := List.mem_map.mp hc
  obtain ⟨a, atom, ha, hat, -⟩ := h.sound.exists_leafAt hl
  exact ⟨a, atom, l.cell, ha, by rw [cells, hat, Option.map_some], hdue⟩

namespace Backend

variable {b b' b₁ b₁' : Backend τ σ}

/-- **An engine in service has the cells of a quiet tree.** -/
theorem Serves.exists_tree (h : b.Serves good m) :
    ∃ e, Engine.Live good m e ∧ e.Quiet ∧ b.next = e.next ∧ ∀ a, b.cells m a = e.cells a := by
  cases b with
  | sequential e =>
      obtain ⟨e₀, x, hlive, hquiet, -, rfl⟩ := h
      exact ⟨e₀, hlive, hquiet, Engine.next_withInbox e₀ x,
        fun a => congrFun (Engine.cells_withInbox x e₀) a⟩
  | parallel c =>
      obtain ⟨-, e, htwin⟩ := h
      exact ⟨e, htwin.engine, htwin.quiet, htwin.next_eq, htwin.cells_eq⟩

/-- **What leaves the root** is what the leaves emit on the ways out. -/
theorem Collects.outflow (hc : Contract good) (hm : m.Wired) (hb : b.Serves good m)
    (hmax : b.next ≠ .max) {y : Bags τ} (h : b.Collects y) {q : Nat}
    (hq : q < m.interface.outputs.length) :
    (y.messagesAt q : Multiset (Message τ))
      = (m.exits q : Multiset Terminal).bind (m.emitted b.next (b.cells m)) := by
  -- In a tree the messages have climbed up to the outbox of the root.
  have htree : ∀ {e : Engine τ σ}, Engine.Live good m e → e.Quiet → e.next ≠ .max →
      ((e.shown e.next).node.outbox.messagesAt q : Multiset (Message τ))
        = (m.exits q : Multiset Terminal).bind (m.emitted e.next e.cells) := by
    intro e hlive hquiet hmax
    rw [(Engine.gathered_shown e.next e hm hlive.sound hquiet).outbox hq]
    exact congrArg _ (funext fun o =>
      Engine.sent_shown hlive.sound hlive.windowed hquiet (le_refl _) hmax o)
  cases h with
  | @sequential e =>
      obtain ⟨e₀, x, hlive, hquiet, hx, rfl⟩ := hb
      have hcells : (Backend.sequential (e₀.withInbox x)).cells m = e₀.cells :=
        Engine.cells_withInbox x e₀
      obtain ⟨hcollect, -⟩ := (hlive.withInbox hx).collect hc (attended_unobserved good) hm
        (le_refl _) ⟨⟨⟩, false⟩
      rw [Engine.next_withInbox] at hcollect
      rw [Backend.next, Engine.next_withInbox] at hmax ⊢
      rw [hcollect, Outcome.done, hcells, Engine.shown_withInbox, Engine.node_withInbox]
      exact htree hlive hquiet hmax
  | @parallel c routes order =>
      obtain ⟨-, e, htwin⟩ := hb
      obtain ⟨-, -, halike⟩ := htwin.outbox_alike hc hm (le_refl _) order
      rw [Backend.next, htwin.next_eq] at hmax ⊢
      rw [funext htwin.cells_eq, ← htree htwin.engine htwin.quiet hmax, ← htwin.next_eq]
      exact (Multiset.coe_eq_coe.mpr (halike q)).symm

/-- The next event of an engine is not after that of an engine with the same cells. -/
theorem Serves.next_le (hcp : m.Counterparts m') (hb : b.Serves good m) (hb' : b'.Serves good m')
    (hcells : ∀ {a a' atom}, m.SameLeaf m' a a' atom → b.cells m a = b'.cells m' a') :
    b.next ≤ b'.next := by
  obtain ⟨e, hlive, -, hnext, hat⟩ := hb.exists_tree
  obtain ⟨e', hlive', -, hnext', hat'⟩ := hb'.exists_tree
  rw [hnext, hnext']
  by_cases hmax : e'.next = .max
  · exact hmax ▸ e.next.le_max
  · obtain ⟨a', atom, c, ha', hc, hdue⟩ := hlive'.exists_due hmax
    obtain ⟨a, hleaf⟩ := hcp.symm.exists_leaf ha'
    have hcell : e.cells a = some c := by rw [← hat, hcells hleaf.symm, hat', hc]
    obtain ⟨l, hl, rfl⟩ := Option.map_eq_some_iff.mp hcell
    exact hdue ▸ (hlive.windowed.leafAt hl).2

/-- **Engines agree if their cells do**: the next event is one of these. -/
theorem agrees_of_cells (hcp : m.Counterparts m') (hb : b.Serves good m) (hb' : b'.Serves good m')
    (hlast : b.last = b'.last)
    (hcells : ∀ {a a' atom}, m.SameLeaf m' a a' atom → b.cells m a = b'.cells m' a')
    (hinbox : b.inbox.AlikeBy b'.inbox m.interface.inputs m'.interface.inputs) :
    Agrees m m' b b' := by
  have hle := hb.next_le hcp hb' hcells
  have hge := hb'.next_le hcp.symm hb fun hleaf => (hcells hleaf.symm).symm
  exact ⟨hlast, le_antisymm hle hge, hcells, hinbox⟩

omit [AtomicModel τ σ] in
/-- Nothing waits where nothing waits. -/
theorem alikeBy_ofPorts (ports ports' : List (Port τ)) :
    (Bags.ofPorts ports).AlikeBy (.ofPorts ports') ports ports' := by
  intro q q' _ _ _
  rw [Bags.isEmpty_iff.mp (Bags.isEmpty_ofPorts ports) q,
    Bags.isEmpty_iff.mp (Bags.isEmpty_ofPorts ports') q']

/-- An engine in service can take a step, if there is an event. -/
theorem Live.exists_step (hc : Contract good) (hm : m.Wired) (h : b.Live good m)
    (hmax : b.next ≠ .max) : ∃ x b₁, b.Step x b₁ := by
  cases b with
  | sequential e => exact ⟨_, _, .sequential hmax⟩
  | parallel c =>
      obtain ⟨x, _, hx, -⟩ := Crew.Live.stepOn hc (attended_unobserved good) hm
        (s := ⟨c, ⟨⟨⟩, false⟩, List.replicate c.workers .max, {}⟩) h rfl List.length_replicate
        (Crew.Live.window h) (le_refl _) {}
      exact ⟨_, _, .parallel hmax hx⟩

/-! ### Two engines -/

/-- **Two engines in service that agree.** -/
structure Synced (good : Interface τ → Stage → σ → Prop) (m m' : Model τ σ)
    (b b' : Backend τ σ) : Prop where
  agree : Agrees m m' b b'
  here : b.Serves good m
  there : b'.Serves good m'

namespace Synced

/-- **Cells of counterparts step alike.** -/
theorem cells_step (hc : Contract good) (ho : OrderFree good) (hcp : m.Counterparts m')
    (h : Synced good m m' b b') (hmax : b.next ≠ .max) {x x' : Effect} (hs : b.Step x b₁)
    (hs' : b'.Step x' b₁') {a a' : List Nat} {atom : Atomic τ σ}
    (hleaf : m.SameLeaf m' a a' atom) : b₁.cells m a = b₁'.cells m' a' := by
  obtain ⟨c, y, hcell, hy, hafter⟩ := hs.delivers hc hcp.wired h.here a atom hleaf.here
  obtain ⟨c', y', hcell', hy', hafter'⟩ := hs'.delivers hc hcp.wired' h.there a' atom hleaf.there
  have hsame : c = c' :=
    Option.some.inj (hcell.symm.trans ((h.agree.cells hleaf).trans hcell'))
  rw [← h.agree.next] at hy' hafter'
  have halike : y.Alike y' := hcp.receives_alike h.agree.cells h.agree.inbox hleaf hy hy'
  -- The cell is one of a live tree, so its model is in a good state.
  obtain ⟨e, hlive, -, hnext, hat⟩ := h.here.exists_tree
  obtain ⟨l, hl, hsound⟩ := hlive.sound.exists_leaf.1 hleaf.here
  have hlcell : l.cell = c := by
    rw [hat, Engine.cells, hl] at hcell
    exact Option.some.inj hcell
  obtain ⟨g, hg⟩ := hsound.exists_good
  have hfired := hsound.exists_good_fired hc (hlive.initialized.leafAt hl) hmax
  subst hlcell hsame
  rw [hafter, hafter', Cell.step_congr ho hg hfired hy.fits hy'.fits halike]

/-- **After a step of both** the engines agree again. -/
theorem step (hc : Contract good) (ho : OrderFree good) (hcp : m.Counterparts m')
    (h : Synced good m m' b b') (hmax : b.next ≠ .max) {x x' : Effect} (hs : b.Step x b₁)
    (hs' : b'.Step x' b₁') : Synced good m m' b₁ b₁' := by
  obtain ⟨hserves, hinbox⟩ := hs.serves hc hcp.wired h.here
  obtain ⟨hserves', hinbox'⟩ := hs'.serves hc hcp.wired' h.there
  refine ⟨agrees_of_cells hcp hserves hserves' ?_ (h.cells_step hc ho hcp hmax hs hs') ?_,
    hserves, hserves'⟩
  · rw [hs.last_eq, hs'.last_eq, h.agree.next]
  · rw [hinbox, hinbox']
    exact alikeBy_ofPorts _ _

/-- **The same leaves the roots** of engines that agree. -/
theorem collects (hc : Contract good) (hcp : m.Counterparts m') (h : Synced good m m' b b')
    (hmax : b.next ≠ .max) {y y' : Bags τ} (hy : b.Collects y) (hy' : b'.Collects y') :
    y.AlikeBy y' m.interface.outputs m'.interface.outputs := by
  intro q q' port hq hq'
  have hlt := (List.getElem?_eq_some_iff.mp hq).1
  have hlt' := (List.getElem?_eq_some_iff.mp hq').1
  have hmax' : b'.next ≠ .max := h.agree.next ▸ hmax
  refine Multiset.coe_eq_coe.mp ?_
  rw [hy.outflow hc hcp.wired h.here hmax hlt, hy'.outflow hc hcp.wired' h.there hmax' hlt',
    ← h.agree.next]
  exact hcp.outflow_eq (Model.Counterparts.emitted_eq h.agree.cells) hq hq'

/-- **Messages for one port** are put in at both roots. -/
theorem inject (hcp : m.Counterparts m') (h : Synced good m m' b b') {i : Injection τ}
    (hi : i.port ∈ m.interface.inputs) {x : Bags τ}
    (hx : b.inbox.extend i.port i.values = .ok x) :
    ∃ x', b'.inbox.extend i.port i.values = .ok x' ∧
      Synced good m m' (b.withInbox x) (b'.withInbox x') := by
  have hi' : i.port ∈ m'.interface.inputs :=
    (Model.ports_perm_of_net_eq hcp.net .input).mem_iff.mp hi
  obtain ⟨_, hextended, hfits, hmessages⟩ :=
    h.here.inbox.extend_messagesAt hcp.wired.distinct.inputs hi i.values
  cases hx.symm.trans hextended
  obtain ⟨x', hx', hfits', hmessages'⟩ :=
    h.there.inbox.extend_messagesAt hcp.wired'.distinct.inputs hi' i.values
  refine ⟨x', hx', ⟨?_, ?_, fun hleaf => ?_, fun q q' port hq hq' => ?_⟩,
    h.here.withInbox hfits, h.there.withInbox hfits'⟩
  · rw [last_withInbox, last_withInbox, h.agree.last]
  · rw [next_withInbox, next_withInbox, h.agree.next]
  · rw [cells_withInbox, cells_withInbox, h.agree.cells hleaf]
  · rw [inbox_withInbox, inbox_withInbox, hmessages, hmessages', Call.messagesAt, Call.messagesAt,
      hq, hq']
    exact (h.agree.inbox q q' port hq hq').append_right _

end Synced

/-! ## Histories and runs -/

/-- There is an event when a step is taken. -/
theorem Step.next_ne_max {x : Effect} (h : b.Step x b₁) : b.next ≠ .max := by
  cases h with
  | sequential event => exact event
  | parallel event _ => exact event

/-- One step more in step. -/
theorem Synced.instep (hc : Contract good) (hcp : m.Counterparts m') (h : Synced good m m' b b')
    {b₂ b₂' : Backend τ σ} {x x' : Effect} {occurrences : List (Occurrence τ)}
    (hs : b.Step x b₁) (hs' : b'.Step x' b₁') (hrest : InStep m m' b₁ b₁' occurrences b₂ b₂') :
    InStep m m' b b' (.step b.next :: occurrences) b₂ b₂' :=
  .step h.agree hs hs' (fun _ _ hy hy' => h.collects hc hcp hs.next_ne_max hy hy') hrest

/-- **Whatever happens to one engine can happen to the other**, and they stay in step. -/
theorem Synced.unfolds (hc : Contract good) (ho : OrderFree good) (hcp : m.Counterparts m')
    {h : List (Occurrence τ)} {x : Effect} (hx : Unfolds m b h x b₁) :
    ∀ {b' : Backend τ σ}, Synced good m m' b b' → ∃ b₁', InStep m m' b b' h b₁ b₁' := by
  induction hx with
  | nothing => exact fun hsynced => ⟨_, .nothing hsynced.agree⟩
  | inject declared extended _ ih =>
      intro b' hsynced
      obtain ⟨x', extended', hafter⟩ := hsynced.inject hcp declared extended
      obtain ⟨b₁', hrest⟩ := ih hafter
      exact ⟨b₁', .inject hsynced.agree declared extended extended' hrest⟩
  | step first _ ih =>
      intro b' hsynced
      obtain ⟨x', b₁', first'⟩ := hsynced.there.live.exists_step hc hcp.wired'
        (hsynced.agree.next ▸ first.next_ne_max)
      obtain ⟨b₂', hrest⟩ := ih (hsynced.step hc ho hcp first.next_ne_max first first')
      exact ⟨b₂', hsynced.instep hc hcp first first' hrest⟩

/-- Engines that go through a history in step agree at its end, and are in service. -/
theorem InStep.synced (hc : Contract good) (ho : OrderFree good) (hcp : m.Counterparts m')
    {h : List (Occurrence τ)} (hin : InStep m m' b b' h b₁ b₁') (hb : Synced good m m' b b') :
    Synced good m m' b₁ b₁' := by
  induction hin with
  | nothing => exact hb
  | inject _ declared extended extended' _ ih =>
      obtain ⟨x', hx', hafter⟩ := hb.inject hcp declared extended
      cases extended'.symm.trans hx'
      exact ih hafter
  | step _ first first' _ _ ih => exact ih (hb.step hc ho hcp first.next_ne_max first first')

/-- **The ends of two runs in step**: both are regular, and the runs have taken the same steps. -/
def EndInStep (m m' : Model τ σ) (b b' : Backend τ σ) (o o' : Outcome (Backend τ σ) ω) : Prop :=
  o.stop = none ∧ o'.stop = none ∧
    ∃ ts : List Instant, InStep m m' b b' (ts.map .step) o.state o'.state

variable [Observer ω]

/-- **Taking all steps before the limit**, the workers of a crew taking turns by plan. -/
def runUntilOn (decisions : Nat) (plan : Nat → Timetable) (limit : Instant) (b : Backend τ σ)
    (w : World ω) : Option (Outcome (Backend τ σ) ω) :=
  match b with
  | sequential e => (e.runUntil decisions limit w).map fun o => o.map sequential
  | parallel c => (c.runUntilOn decisions plan limit w).map fun o => o.map parallel

theorem runUntilOn_eq (decisions : Nat) (plan : Nat → Timetable) (limit : Instant)
    (b : Backend τ σ) (w : World ω) :
    b.runUntilOn decisions plan limit w
      = (b.runOn decisions plan (Until.mk limit) w).map fun o => o.map Prod.fst := by
  cases b with
  | sequential e =>
      rw [runUntilOn, Engine.runUntil, runOn, Option.map_map, Option.map_map]
      rfl
  | parallel c =>
      rw [runUntilOn, Crew.runUntilOn, runOn, Option.map_map, Option.map_map]
      rfl

/-- **Runs up to one limit are in step**: neither comes to an end without the other. -/
theorem Synced.runs (hc : Contract good) (ho : OrderFree good) (ha : Attended ω good)
    (hcp : m.Counterparts m') {limit : Instant} {n : Nat} :
    ∀ {b b' : Backend τ σ} {plan plan' : Nat → Timetable} {w w' : World ω}
      {result result' : Option (Outcome (Backend τ σ × Until) ω)}, Synced good m m' b b' →
      b.Rest n plan (Until.mk limit) w result → b'.Rest n plan' (Until.mk limit) w' result' →
      Option.Rel (fun o o' => EndInStep m m' b b' (o.map Prod.fst) (o'.map Prod.fst)) result
        result' := by
  induction n with
  | zero =>
      intro b b' plan plan' w w' result result' _ hr hr'
      rw [hr.zero, hr'.zero]
      exact .none
  | succ n ih =>
      intro b b' plan plan' w w' result result' h hr hr'
      have hwant : decide (b.next < limit) = decide (b'.next < limit) :=
        congrArg (fun t => decide (t < limit)) h.agree.next
      -- Both supervisors are asked about the same time, and answer the same.
      obtain ⟨hno, rfl⟩ | ⟨hgo, x, b₁, hs, hrest⟩ :=
        h.here.live.decision hc ha hcp.wired calm_until halting_until hr
      · obtain ⟨-, rfl⟩ | ⟨hgo', -⟩ :=
          h.there.live.decision hc ha hcp.wired' calm_until halting_until hr'
        · exact .some ⟨rfl, rfl, [], .nothing h.agree⟩
        · exact absurd (hno.symm.trans (hwant.trans hgo')) Bool.false_ne_true
      · obtain ⟨hno', -⟩ | ⟨-, x', b₁', hs', hrest'⟩ :=
          h.there.live.decision hc ha hcp.wired' calm_until halting_until hr'
        · exact absurd (hno'.symm.trans (hwant.symm.trans hgo)) Bool.false_ne_true
        · have hends := ih (h.step hc ho hcp hs.next_ne_max hs hs') hrest hrest'
          refine option_rel_imp hends fun o o' hend => ?_
          obtain ⟨hstop, hstop', ts, hsteps⟩ := hend
          exact ⟨hstop, hstop', b.next :: ts, h.instep hc hcp hs hs' hsteps⟩

theorem Synced.runUntilOn (hc : Contract good) (ho : OrderFree good) (ha : Attended ω good)
    (hcp : m.Counterparts m') (h : Synced good m m' b b') (n : Nat)
    (plan plan' : Nat → Timetable) (limit : Instant) (w w' : World ω) :
    Option.Rel (EndInStep m m' b b') (b.runUntilOn n plan limit w)
      (b'.runUntilOn n plan' limit w') := by
  have hends := h.runs hc ho ha hcp (h.here.live.rest n plan (Until.mk limit) w)
    (h.there.live.rest n plan' (Until.mk limit) w')
  rw [runUntilOn_eq, runUntilOn_eq]
  generalize b.runOn n plan (Until.mk limit) w = result at hends ⊢
  generalize b'.runOn n plan' (Until.mk limit) w' = result' at hends ⊢
  cases hends with
  | none => exact .none
  | some hend => exact .some hend

/-! ## The beginning -/

/-- **A new engine** is initialized without a fault, and then every leaf is settled. -/
theorem New.init (hc : Contract good) (ho : OrderFree good) (ha : Attended ω good) (hm : m.Wired)
    (hg : m.AllGood good) (hb : b.New m) (t : Instant) (w : World ω) :
    (b.init t w).stop = none ∧ (b.init t w).state.Serves good m ∧
      (b.init t w).state.last = t ∧
      (b.init t w).state.inbox = .ofPorts m.interface.inputs ∧
      ∀ a, (b.init t w).state.cells m a
        = (m.atomAt? a).map fun atom => Cell.settle t atom.state := by
  cases hb with
  | sequential =>
      obtain ⟨hstop, hstate, hpoised⟩ := Engine.poised_init hc ha hg t w
      have hinbox : ((Engine.ofModel m).started t).node.inbox = .ofPorts m.interface.inputs :=
        hpoised.live.sound.inbox.eq_ofPorts hpoised.quiet.inbox
      refine ⟨hstop, ?_, ?_, ?_, fun a => ?_⟩
      · show Serves good m (.sequential ((Engine.ofModel m).init t w).state)
        rw [hstate]
        exact ⟨_, _, hpoised.live, hpoised.quiet, hpoised.live.sound.inbox,
          (Engine.withInbox_self _).symm⟩
      · show ((Engine.ofModel m).init t w).state.last = t
        rw [hstate]
        cases m <;> rfl
      · show ((Engine.ofModel m).init t w).state.node.inbox = _
        rw [hstate, hinbox]
      · show ((Engine.ofModel m).init t w).state.cells a = _
        rw [hstate, Engine.cells_started]
  | parallel wished =>
      obtain ⟨hinit, hlive⟩ := (Crew.sound_ofModel hm hg wished).init hc ha t w
      have htwin := Twin.started hc hm hg wished t
      rw [Backend.init, hinit]
      exact ⟨rfl, ⟨ho, _, htwin⟩, rfl, rfl,
        fun a => (htwin.cells_eq a).trans (Engine.cells_started t m a)⟩

/-- **New engines of counterparts agree** after their initialization. -/
theorem New.synced (hc : Contract good) (ho : OrderFree good) (ha : Attended ω good)
    (hcp : m.Counterparts m') (hg : m.AllGood good) (hb : b.New m) (hb' : b'.New m') (t : Instant)
    (w w' : World ω) : Synced good m m' (b.init t w).state (b'.init t w').state := by
  obtain ⟨-, hserves, hlast, hinbox, hcells⟩ := hb.init hc ho ha hcp.wired hg t w
  obtain ⟨-, hserves', hlast', hinbox', hcells'⟩ :=
    hb'.init hc ho ha hcp.wired' (hcp.allGood hg) t w'
  refine ⟨agrees_of_cells hcp hserves hserves' (hlast.trans hlast'.symm) (fun hleaf => ?_) ?_,
    hserves, hserves'⟩
  · rw [hcells, hcells', hleaf.here, hleaf.there]
  · rw [hinbox, hinbox']
    exact alikeBy_ofPorts _ _

end Backend

section

variable [Observer ω]

/-- **A simulation does not depend on the order in which things are declared.** Take any draft
that can be built, of good atomic models that do not look at the order of messages, and the same
draft rearranged: at any of its networks the children, the ports of the boundary and the
couplings of each kind may be in other orders. Then this one can be built as well, and to every
leaf of the one tree belongs exactly one of the other, to which the same ids lead; it is the
same atomic model.

Take a new engine of either tree, and initialize both at the same time. Whatever happens to the
one, with messages put in before and between the steps, can happen to the other in step with it:
at every moment the last transition and the next event are the same, as are the state and the
times of every leaf, and in every step the same messages leave the roots on every port. And
from any such moment, runs of both up to any limit are in step. Neither comes to an end without
the other, as long as the same number of decisions is allowed. -/
theorem order_independent {d d' : Draft τ σ} (hd : d.Rearranged d') (hm : d.build = .ok m)
    (hc : Contract good) (ho : OrderFree good) (ha : Attended ω good) (hg : m.AllGood good) :
    ∃ m', d'.build = .ok m' ∧
      (∀ a atom, m.atomAt? a = some atom → ∃! a', m.SameLeaf m' a a' atom) ∧
      (∀ a' atom, m'.atomAt? a' = some atom → ∃! a, m.SameLeaf m' a a' atom) ∧
      ∀ (b b' : Backend τ σ), b.New m → b'.New m' → ∀ (t₀ : Instant) (w w' : World ω),
        (∀ h x b₁, Backend.Unfolds m (b.init t₀ w).state h x b₁ →
          ∃ b₁', Backend.InStep m m' (b.init t₀ w).state (b'.init t₀ w').state h b₁ b₁') ∧
        ∀ h b₁ b₁', Backend.InStep m m' (b.init t₀ w).state (b'.init t₀ w').state h b₁ b₁' →
          ∀ (n : Nat) (plan plan' : Nat → Timetable) (limit : Instant) (w₁ w₁' : World ω),
            Option.Rel (Backend.EndInStep m m' b₁ b₁') (b₁.runUntilOn n plan limit w₁)
              (b₁'.runUntilOn n plan' limit w₁') := by
  obtain ⟨m', hm', hcp⟩ := hd.exists_counterpart hm
  refine ⟨m', hm', fun a atom hat => ?_, fun a' atom hat => ?_, fun b b' hb hb' t₀ w w' => ?_⟩
  · obtain ⟨a', hleaf⟩ := hcp.exists_leaf hat
    exact ⟨a', hleaf, fun a'' hleaf' => hcp.unique hleaf' hleaf⟩
  · obtain ⟨a, hleaf⟩ := hcp.symm.exists_leaf hat
    exact ⟨a, hleaf.symm, fun a'' hleaf' => hcp.symm.unique hleaf'.symm hleaf⟩
  · have hsynced := hb.synced hc ho ha hcp hg hb' t₀ w w'
    refine ⟨fun h x b₁ hx => hsynced.unfolds hc ho hcp hx,
      fun h b₁ b₁' hin n plan plan' limit w₁ w₁' => ?_⟩
    exact (hin.synced hc ho hcp hsynced).runUntilOn hc ho ha hcp n plan plan' limit w₁ w₁'

end

namespace Doubler

/-- A second output of a network of doublers. -/
def tap : Port Payload := ⟨"tap", Payload.word64⟩

/-- The description of a pair with a second output, in some order. -/
def pairPlan (order : ∀ {α : Type}, List α → List α) : Plan Payload where
  id := "pair"
  interface := ⟨order [add], order [out, tap]⟩
  eic := order pairBlueprint.eic
  eoc := order (⟨⟨"first", "out"⟩, ⟨"tap"⟩⟩ :: pairBlueprint.eoc)
  ic := order pairBlueprint.ic

/-- The description of a tower on such a pair, in some order. -/
def towerPlan (order : ∀ {α : Type}, List α → List α) : Plan Payload where
  id := "tower"
  interface := ⟨order [add], order [out, tap]⟩
  eic := order towerBlueprint.eic
  eoc := order (⟨⟨"pair", "tap"⟩, ⟨"tap"⟩⟩ :: towerBlueprint.eoc)
  ic := order (⟨⟨"pair", "tap"⟩, ⟨"third", "add"⟩⟩ :: towerBlueprint.ic)

/-- The draft of such a pair. -/
def pairDraft (order : ∀ {α : Type}, List α → List α) : Draft Payload Doubler :=
  .coupled (pairPlan order) (order [.atomic "first" (every 2), .atomic "second" (every 3)])

/-- **The draft of a tower**, with everything declared in some order. -/
def towerDraft (order : ∀ {α : Type}, List α → List α) : Draft Payload Doubler :=
  .coupled (towerPlan order) (order [pairDraft order, .atomic "third" (every 2)])

/-- Whatever the order, it is the same draft rearranged. -/
theorem rearranged_towerDraft {order : ∀ {α : Type}, List α → List α}
    (h : ∀ {α : Type} (xs : List α), xs.Perm (order xs)) :
    (towerDraft fun xs => xs).Rearranged (towerDraft order) := by
  have hpair : (pairDraft fun xs => xs).Rearranged (pairDraft order) := by
    refine .coupled ⟨rfl, h _, h _, h _, h _, h _⟩ rfl (fun i d e hd he => ?_) (h _)
    cases hd.symm.trans he
    match i with
    | 0 =>
        cases hd
        exact .atomic _ _
    | 1 =>
        cases hd
        exact .atomic _ _
  refine .coupled ⟨rfl, h _, h _, h _, h _, h _⟩ ?_ (fun i d e hd he => ?_)
    (h [pairDraft order, .atomic "third" (every 2)])
  · rfl
  · match i with
    | 0 =>
        cases hd
        cases he
        exact hpair
    | 1 =>
        cases hd
        cases he
        exact .atomic _ _

/-- The tower that is built of the draft. -/
theorem built_towerDraft {m : Model Payload Doubler}
    (h : (towerDraft fun xs => xs).build = .ok m) :
    m.AllGood Good ∧ add ∈ m.interface.inputs ∧
      m.atomAt? [0, 1] = some ⟨"second", ⟨[add], [out]⟩, every 3⟩ := by
  have hbuild : (towerDraft fun xs => xs).build = .ok _ := rfl
  cases Except.ok.inj (h.symm.trans hbuild)
  refine ⟨.coupled fun m hm => ?_, List.mem_singleton_self _, rfl⟩
  rcases List.mem_pair.mp hm with rfl | rfl
  · refine .coupled fun m hm => ?_
    rcases List.mem_pair.mp hm with rfl | rfl
    · exact .atomic rfl
    · exact .atomic rfl
  · exact .atomic rfl

end Doubler

/-- The tower of doublers, and the same with everything declared in the reverse order. A tree and
a crew of two workers get a message at their beginning, and both are run up to the fifth
second. -/
theorem order_independent_tower :
    let d := Doubler.towerDraft fun xs => xs
    let d' := Doubler.towerDraft List.reverse
    let i : Injection Payload := ⟨Doubler.add, [(5 : UInt64)]⟩
    let limit : Instant := ⟨5, 0, by decide⟩
    let w : World Recorder := ⟨{}, false⟩
    ∃ m m', (d.Rearranged d' ∧ d.build = .ok m ∧ m.AllGood Doubler.Good) ∧ d'.build = .ok m' ∧
      (∃ a, m.SameLeaf m' [0, 1] a ⟨"second", ⟨[Doubler.add], [Doubler.out]⟩, Doubler.every 3⟩) ∧
      ∃ b₁ b₁' o o',
        Backend.InStep m m' ((Backend.sequential (Engine.ofModel m)).init .epoch w).state
          ((Backend.parallel (Crew.ofModel 2 m')).init .epoch w).state [.inject i] b₁ b₁' ∧
        b₁.runUntilOn 9 (fun _ => {}) limit w = some o ∧
        b₁'.runUntilOn 9 (fun _ => {}) limit w = some o' ∧
        o.state.last = ⟨4, 0, by decide⟩ ∧ Backend.EndInStep m m' b₁ b₁' o o' := by
  intro d d' i limit w
  have hrun : (d.build.toOption.bind fun m =>
      let b := ((Backend.sequential (Engine.ofModel m)).init .epoch w).state
      (b.inbox.extend i.port i.values).toOption.bind fun x =>
        ((b.withInbox x).runUntilOn 9 (fun _ => {}) limit w).map fun o =>
          decide (o.state.last = ⟨4, 0, by decide⟩)) = some true := by decide +kernel
  simp only [Option.bind_eq_some_iff, Option.map_eq_some_iff, decide_eq_true_eq] at hrun
  obtain ⟨m, hm, x, hx, o, ho, hlast⟩ := hrun
  have hbuild : d.build = .ok m := Except.eq_ok_of_toOption hm
  obtain ⟨hg, hdeclared, hat⟩ := Doubler.built_towerDraft hbuild
  have hd : d.Rearranged d' :=
    Doubler.rearranged_towerDraft fun xs => (List.reverse_perm xs).symm
  obtain ⟨m', hbuild', hleaf, -, hall⟩ := order_independent hd hbuild Doubler.contract
    Doubler.orderFree Doubler.attended_recorder hg
  obtain ⟨hunfolds, hruns⟩ := hall _ _ .sequential (.parallel 2) .epoch w w
  obtain ⟨b₁', hin⟩ := hunfolds [.inject i] _ _
    (.inject hdeclared (Except.eq_ok_of_toOption hx) .nothing)
  have hend := hruns _ _ _ hin 9 (fun _ => {}) (fun _ => {}) limit w w
  rw [ho] at hend
  cases hrun' : b₁'.runUntilOn 9 (fun _ => {}) limit w with
  | none =>
      rw [hrun'] at hend
      cases hend
  | some o' =>
      rw [hrun'] at hend
      cases hend with
      | some hend =>
          exact ⟨m, m', ⟨hd, hbuild, hg⟩, hbuild', (hleaf _ _ hat).exists, _, b₁', o, o', hin, ho,
            hrun', hlast, hend⟩

end DiscreteEvent
