/-
What the calls of a leaf do when nothing goes wrong.

The code of the engines is written for every case: a model may fault, input may
be missing, an observer may break off a report. On a leaf whose model keeps its
contract none of this happens, and what is left is plain. `started`, `shown` and
`moved` are the states that the three calls lead to, and `startEffect`,
`showEffect` and `moveEffect` what they do to the world. Neither depends on the
world that the call is made in.

`Leaf.Sound` is the invariant that makes it so: the bags fit the ports, and the
model is in the stage that the next call assumes. `init_eq`, `collect_eq` and
`advance_eq` are the equations, each with the invariant of the state it leads
to.
-/
import DiscreteEvent.Proofs.Engine.Effect
import DiscreteEvent.Proofs.Model.Accepted
import DiscreteEvent.Proofs.Engine.Window

set_option autoImplicit false

namespace DiscreteEvent

variable {τ σ ω : Type} [MessageType τ] [AtomicModel τ σ]

/-- The report of a node about itself. -/
def Node.noted (n : Node τ) (state : Option String) (phase : Phase) (t : Instant)
    (bags : List BagRecord) : Effect :=
  .ofRecord ⟨phase, n.path, t, n.last, n.next, state, bags⟩

/-! ## Leaves -/

namespace Leaf

/-- The report of a leaf about itself. -/
def noted (l : Leaf τ σ) (phase : Phase) (t : Instant) (bags : List BagRecord) : Effect :=
  l.toNode.noted (AtomicModel.render l.state).toOption phase t bags

/-- The leaf in a new state, with a new event, after a transition at `t`. -/
def settle (l : Leaf τ σ) (t : Instant) (s : σ) : Leaf τ σ :=
  { l with
    state := (AtomicModel.timeAdvance s).state
    last := t
    next := t.schedule (AtomicModel.timeAdvance s).answer }

/-- The leaf after its initialization at `t`. -/
def started (t : Instant) (l : Leaf τ σ) : Leaf τ σ :=
  { l.settle t l.state with initialized := true }

def startEffect (t : Instant) (l : Leaf τ σ) : Effect :=
  .ofReply (AtomicModel.timeAdvance l.state) ++ (l.started t).noted .init t []

/-- The leaf after its output at `t`, if its event is due. -/
def shown (t : Instant) (l : Leaf τ σ) : Leaf τ σ :=
  if l.isImminent t then
    { l with
      state := (AtomicModel.output l.state).state
      outbox := (l.outbox.clear.write (AtomicModel.output l.state).answer).1 }
  else l

def showEffect (t : Instant) (l : Leaf τ σ) : Effect :=
  if l.isImminent t then
    .ofReply (AtomicModel.output l.state) ++
      (l.shown t).noted .collect t (Record.bagsOf .output (l.shown t).outbox)
  else {}

/-- Whether nothing happens at `t`: no event is due, and there is no input. -/
def idle (t : Instant) (l : Leaf τ σ) : Bool := l.inbox.isEmpty && !l.isImminent t

/-- **The transition at `t`**: internal, external, or one after the other. -/
def transition (t : Instant) (l : Leaf τ σ) : Reply σ Unit :=
  if l.isImminent t then
    let r := AtomicModel.internal l.state
    if l.inbox.isEmpty then r
    else
      let r' := AtomicModel.external r.state .zero l.inbox
      { r' with interrupts := r.interrupts || r'.interrupts }
  else AtomicModel.external l.state (l.last.elapsed t) l.inbox

/-- The leaf after it advanced to `t`. -/
def moved (t : Instant) (l : Leaf τ σ) : Leaf τ σ :=
  if l.idle t then { l with outbox := l.outbox.clear }
  else
    { l.settle t (l.transition t).state with
      inbox := l.inbox.clear, outbox := l.outbox.clear }

def moveEffect (t : Instant) (l : Leaf τ σ) : Effect :=
  if l.idle t then {}
  else
    .ofReply (l.transition t) ++ .ofReply (AtomicModel.timeAdvance (l.transition t).state) ++
      (l.settle t (l.transition t).state).noted .advance t (Record.bagsOf .input l.inbox)

/-- Showing an output changes nothing of a leaf but its state and its outbox. -/
theorem toNode_shown (l : Leaf τ σ) (t : Instant) :
    (l.shown t).toNode = { l.toNode with outbox := (l.shown t).outbox } := by
  unfold shown
  split <;> rfl

theorem initialized_moved (l : Leaf τ σ) (t : Instant) :
    (l.moved t).initialized = l.initialized := by
  unfold moved
  split <;> rfl

/-- A leaf that has advanced to `t` has `t` in its window. -/
theorem moved_window {l : Leaf τ σ} {t : Instant} (hl : l.last ≤ t) (ht : t ≤ l.next) :
    (l.moved t).last ≤ t ∧ t ≤ (l.moved t).next := by
  unfold moved
  split
  · exact ⟨hl, ht⟩
  · exact ⟨le_refl t, t.le_schedule _⟩

/-- **The invariant of a leaf**: its bags fit the ports, and the model is in the
stage that the next call assumes. -/
structure Sound (good : Interface τ → Stage → σ → Prop) (i : Interface τ) (l : Leaf τ σ) :
    Prop where
  inbox : l.inbox.Fits i.inputs
  outbox : l.outbox.Fits i.outputs
  fresh : l.initialized = false → good i .due l.state
  running : l.initialized = true → ∃ ta, good i (.settled ta) l.state ∧ l.next = l.last.schedule ta

variable {good : Interface τ → Stage → σ → Prop} {i : Interface τ} {l : Leaf τ σ} {t : Instant}

omit [AtomicModel τ σ] in
theorem Sound.exists_good (h : l.Sound good i) : ∃ g, good i g l.state := by
  cases hi : l.initialized with
  | false => exact ⟨_, h.fresh hi⟩
  | true =>
      obtain ⟨ta, hg, -⟩ := h.running hi
      exact ⟨_, hg⟩

omit [AtomicModel τ σ] in
/-- A model whose event is due has announced it. -/
theorem Sound.of_imminent (h : l.Sound good i) (hi : l.initialized = true)
    (hdue : l.isImminent t = true) :
    ∃ d, good i (.settled (some d)) l.state ∧ l.next = l.last.schedule (some d) := by
  obtain ⟨ta, hg, hn⟩ := h.running hi
  cases ta with
  | some d => exact ⟨d, hg, hn⟩
  | none =>
      rw [Node.isImminent, hn, Instant.schedule_none, Bool.and_eq_true, beq_iff_eq] at hdue
      rw [hdue.1] at hdue
      exact absurd hdue.2 (by simp)

/-- The leaf is sound again once a state, good at any stage, is settled. -/
theorem Sound.settle (hc : Contract good) {s : σ} {g : Stage} (hg : good i g s)
    (hin : l.inbox.Fits i.inputs) (hout : l.outbox.Fits i.outputs) (hi : l.initialized = true) :
    (l.settle t s).Sound good i where
  inbox := hin
  outbox := hout
  fresh h := absurd (hi.symm.trans h) (by simp)
  running _ := ⟨_, (hc.timeAdvance hg).2, rfl⟩

variable [Observer ω]

theorem report_eq (ha : Attended ω good) {g : Stage} (hg : good i g l.state) (phase : Phase)
    (t : Instant) (bags : List BagRecord) (w : World ω) :
    l.report phase t bags w = .done l (w.after (l.noted phase t bags)) := by
  rw [report, World.report_render ha hg]
  rfl

/-- A model that is asked for its time advance answers. -/
theorem reschedule_eq (hc : Contract good) {g : Stage} (hg : good i g l.state) (t : Instant)
    (w : World ω) :
    l.reschedule t w
      = .done (l.settle t l.state) (w.after (.ofReply (AtomicModel.timeAdvance l.state))) := by
  simp only [reschedule, absorb, (hc.timeAdvance hg).1, Option.map_none, World.heed_eq_after]
  rfl

/-- **Initializing a leaf.** -/
theorem init_eq (hc : Contract good) (ha : Attended ω good) (h : l.Sound good i) (t : Instant)
    (w : World ω) :
    l.init t w = .done (l.started t) (w.after (l.startEffect t)) ∧
      (l.started t).Sound good i := by
  obtain ⟨g, hg⟩ := h.exists_good
  have hs : (l.started t).Sound good i :=
    ⟨h.inbox, h.outbox, nofun, fun _ => ⟨_, (hc.timeAdvance hg).2, rfl⟩⟩
  obtain ⟨g', hg'⟩ := hs.exists_good
  refine ⟨?_, hs⟩
  rw [init, reschedule_eq hc hg, Outcome.andThen_done]
  exact (report_eq ha hg' .init t [] _).trans (by rw [startEffect, World.after_append])

/-- **Collecting from a leaf** up to its next event. -/
theorem collect_eq (hc : Contract good) (ha : Attended ω good) (hd : i.Distinct)
    (h : l.Sound good i) (hi : l.initialized = true) (ht : t ≤ l.next) (w : World ω) :
    l.collect t w = .done (l.shown t) (w.after (l.showEffect t)) ∧ (l.shown t).Sound good i := by
  have hr : l.refuseCollect t = none := Node.refuseCollect_eq_none hi ht
  by_cases hdue : l.isImminent t = true
  · obtain ⟨d, hg, hn⟩ := h.of_imminent hi hdue
    obtain ⟨hf, hports, hg'⟩ := hc.output hg
    have hclear : l.outbox.clear.Fits i.outputs := h.outbox.clear ▸ Bags.fits_ofPorts _
    obtain ⟨hwrite, hout⟩ := Bags.Fits.write hd.outputs hclear hports
    have hs : (l.shown t).Sound good i := by
      rw [shown, if_pos hdue]
      exact ⟨h.inbox, hout, fun h' => absurd (hi.symm.trans h') (by simp), fun _ => ⟨_, hg', hn⟩⟩
    have hemit : l.emit t w = .done (l.shown t) (w.after (.ofReply (AtomicModel.output l.state))) := by
      simp only [emit, shown, if_pos hdue, absorb, hwrite, hf, World.heed_eq_after]
      rfl
    obtain ⟨_, hg''⟩ := hs.exists_good
    refine ⟨?_, hs⟩
    simp only [collect, hr, if_pos hdue]
    rw [hemit, Outcome.andThen_done, report_eq ha hg'', showEffect, if_pos hdue,
      World.after_append]
  · simp only [collect, hr, showEffect, shown, if_neg hdue, World.after_nothing,
      true_and]
    exact h

/-- **The transition that is called for at `t`** does not fault. -/
theorem fire_eq (hc : Contract good) (h : l.Sound good i) (hi : l.initialized = true)
    (hl : l.last ≤ t) (ht : t ≤ l.next) (hf : l.idle t = false) (w : World ω) :
    l.fire t w = .done { l with state := (l.transition t).state }
        (w.after (.ofReply (l.transition t))) ∧
      ∃ g, good i g (l.transition t).state := by
  unfold fire transition
  by_cases hdue : l.isImminent t = true
  · obtain ⟨d, hg, -⟩ := h.of_imminent hi hdue
    obtain ⟨hint, hg'⟩ := hc.internal hg
    have hfire : l.fireInternal w = .done { l with state := (AtomicModel.internal l.state).state }
        (w.after (.ofReply (AtomicModel.internal l.state))) := by
      rw [fireInternal, absorb, hint, World.heed_eq_after]
      rfl
    simp only [if_pos hdue]
    by_cases he : l.inbox.isEmpty = true
    · simp only [if_pos he]
      exact ⟨hfire, _, hg'⟩
    · simp only [if_neg he]
      obtain ⟨hext, hg''⟩ := hc.confluent hg' h.inbox (Bool.eq_false_iff.mpr he)
      refine ⟨?_, _, hg''⟩
      rw [hfire, Outcome.andThen_done]
      simp only [fireExternal, if_neg he, Instant.since?_of_le (le_refl t), Instant.elapsed_self,
        absorb, hext, World.heed_eq_after]
      rw [← World.after_append]
      rfl
  · simp only [if_neg hdue]
    obtain ⟨ta, hg, hn⟩ := h.running hi
    have he : l.inbox.isEmpty = false := by
      rw [idle, Bool.eq_false_iff.mpr hdue, Bool.not_false, Bool.and_true] at hf
      exact hf
    -- What goes by up to the announced event is at most the time advance.
    have hle : ∀ d, ta = some d → l.last.elapsed t ≤ d := by
      rintro d rfl
      exact Instant.elapsed_le_of_le_schedule hl (hn ▸ ht)
    obtain ⟨hext, hg'⟩ := hc.external hg hle h.inbox he
    refine ⟨?_, _, hg'⟩
    simp only [fireExternal, he, Bool.false_eq_true, if_false, Instant.since?_of_le hl, absorb,
      hext, World.heed_eq_after]
    rfl

/-- **Advancing a leaf** inside of its window. -/
theorem advance_eq (hc : Contract good) (ha : Attended ω good) (h : l.Sound good i)
    (hi : l.initialized = true) (hl : l.last ≤ t) (ht : t ≤ l.next) (w : World ω) :
    l.advance t w = .done (l.moved t) (w.after (l.moveEffect t)) ∧ (l.moved t).Sound good i := by
  have hr : l.refuseAdvance t = none := Node.refuseAdvance_eq_none hi hl ht
  have hin : l.inbox.clear.Fits i.inputs := h.inbox.clear ▸ Bags.fits_ofPorts _
  have hout : l.outbox.clear.Fits i.outputs := h.outbox.clear ▸ Bags.fits_ofPorts _
  have hl' : Sound good i { l with outbox := l.outbox.clear } :=
    ⟨h.inbox, hout, h.fresh, h.running⟩
  have hadvance : l.advance t w
      = if l.idle t then .done { l with outbox := l.outbox.clear } w
        else (fire { l with outbox := l.outbox.clear } t w).andThen fun l w =>
          (l.reschedule t w).andThen fun l w =>
            (l.report .advance t (Record.bagsOf .input l.inbox) w).andThen fun l w =>
              .done { l with inbox := l.inbox.clear } w := by
    rw [advance, hr]
    rfl
  unfold moved moveEffect
  rw [hadvance]
  by_cases hidle : l.idle t = true
  · simp only [if_pos hidle]
    rw [World.after_nothing]
    exact ⟨rfl, hl'⟩
  · simp only [if_neg hidle]
    obtain ⟨hfire, g, hg⟩ := fire_eq hc hl' hi hl ht (Bool.eq_false_iff.mpr hidle) w
    refine ⟨?_, Sound.settle (l := { l with inbox := l.inbox.clear, outbox := l.outbox.clear })
      hc hg hin hout hi⟩
    rw [hfire, Outcome.andThen_done, reschedule_eq hc hg, Outcome.andThen_done,
      report_eq ha (hc.timeAdvance hg).2, Outcome.andThen_done, World.after_append,
      World.after_append]
    rfl

end Leaf

end DiscreteEvent
