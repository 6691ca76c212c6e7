/-
Engines before their initialization.

A client may put messages into a new engine, and it may try to step it. Messages are all
that such an engine takes: as long as it is not initialized it is the engine of its model with
something in the inbox of the root (`Engine.Fresh.exists_inbox`, `Crew.Fresh.exists_inbox`), so
no function of a model was called, and no time has moved.

Collecting and advancing are refused by the root of a tree, and a crew refuses every run. A
tree checks for its initialization only when it takes a step, though. Its next event is at
the last instant by then, and a run up to a limit takes no step there, so it comes to its end
as if there were nothing to do (`stepping_fresh`).
-/
import DiscreteEvent.Proofs.Engine.Refusal
import DiscreteEvent.Proofs.Flat.Runs

set_option autoImplicit false

namespace DiscreteEvent

variable {τ σ ω π : Type} [MessageType τ]

/-! ## Trees -/

namespace Engine

theorem next_ofModel (m : Model τ σ) : (ofModel m).next = .max := by
  cases m <;> rfl

/-- There is nothing in the journals of a new engine, whatever waits at its root. -/
theorem journalAt_ofModel (m : Model τ σ) {x : Bags τ} {a : List Nat}
    {journal : List (ModelCall τ)}
    (h : ((ofModel m.journaled).withInbox x).journalAt? a = some journal) : journal = [] := by
  obtain ⟨l, hwith, rfl⟩ := Option.map_eq_some_iff.mp h
  obtain ⟨y, hl⟩ := exists_of_leafAt_withInbox hwith
  have hs := sound_ofModelBelow (Model.blank_journaled m) none
  cases hatom : m.journaled.atomAt? a with
  | none => cases (hs.exists_leaf.2 hatom).symm.trans hl
  | some atom =>
      obtain ⟨l', hl', hsound⟩ := hs.exists_leaf.1 hatom
      cases hl.symm.trans hl'
      obtain ⟨_, hblank⟩ := hsound.exists_good
      exact hblank

variable [AtomicModel τ σ] [Observer ω]

/-- **The states of an engine of `m` that is not initialized yet**: a client has put messages
into it, at any ports, has tried to step it, and has run it under any supervisors. -/
inductive Fresh (ω : Type) [Observer ω] (m : Model τ σ) : Engine τ σ → Prop
  | create : Fresh ω m (ofModel m)
  | call {e : Engine τ σ} {c : Call τ} (w : World ω) (h : Fresh ω m e)
      (hc : ∀ t, c ≠ .init t) : Fresh ω m (e.perform w c).state
  | run {π : Type} [Supervisor π] {e : Engine τ σ} {n : Nat} {p : π} {w : World ω}
      {o : Outcome (Engine τ σ × π) ω} (h : Fresh ω m e) (ho : e.run n p w = some o) :
      Fresh ω m o.state.1

variable {m : Model τ σ} {e : Engine τ σ}

/-- **A run of a tree that is not initialized** is over with the first decision: either the
supervisor wants no step, or the step is refused. -/
theorem run_uninitialized [Supervisor π] (hi : e.node.initialized = false) {n : Nat} {p : π}
    {w : World ω} {o : Outcome (Engine τ σ × π) ω} (ho : e.run n p w = some o) :
    let decision := Supervisor.proceed e.next w.interrupted p
    o.state = (e, decision.state) ∧ o.world = w.heed decision ∧
      (decision.fault = none → o.stop =
        if decision.answer then some (.violation (.uninitialized e.node.path)) else none) := by
  intro decision
  cases n with
  | zero => cases ho
  | succ n =>
      simp only [Engine.run, Engine.step, collect_uninitialized hi] at ho
      split at ho
      · -- The supervisor has faulted itself.
        rename_i fault hfault
        cases ho
        exact ⟨rfl, rfl, fun hnone => absurd (hnone.symm.trans hfault) (Option.some_ne_none _).symm⟩
      · split at ho
        · -- It wants a step, and the root refuses to collect.
          rename_i hgo
          cases ho
          exact ⟨rfl, rfl, fun _ => (if_pos hgo).symm⟩
        · rename_i hgo
          cases ho
          exact ⟨rfl, rfl, fun _ => (if_neg hgo).symm⟩

/-- **Nothing but messages at the root** has come into an engine that is not initialized. -/
theorem Fresh.exists_inbox (h : Fresh ω m e) : ∃ x, e = (ofModel m).withInbox x := by
  induction h with
  | create => exact ⟨_, (withInbox_self _).symm⟩
  | @call e c w h hc ih =>
      obtain ⟨x, rfl⟩ := ih
      have hi : ((ofModel m).withInbox x).node.initialized = false := by
        rw [node_withInbox]
        exact initialized_ofModel m
      cases c with
      | init t => exact absurd rfl (hc t)
      | inject port values =>
          simp only [perform]
          split
          · exact ⟨x, rfl⟩
          · exact ⟨_, withInbox_withInbox _ _ _⟩
      | collect t =>
          rw [perform, collect_uninitialized hi]
          exact ⟨x, rfl⟩
      | advance t =>
          rw [perform, advance_uninitialized hi]
          exact ⟨x, rfl⟩
  | run h ho ih =>
      obtain ⟨x, rfl⟩ := ih
      have hi : ((ofModel m).withInbox x).node.initialized = false := by
        rw [node_withInbox]
        exact initialized_ofModel m
      exact ⟨x, congrArg Prod.fst (run_uninitialized hi ho).1⟩

theorem Fresh.initialized (h : Fresh ω m e) : e.node.initialized = false := by
  obtain ⟨x, rfl⟩ := h.exists_inbox
  rw [node_withInbox]
  exact initialized_ofModel m

theorem Fresh.path (h : Fresh ω m e) : e.node.path = m.id := by
  obtain ⟨x, rfl⟩ := h.exists_inbox
  rw [node_withInbox]
  exact path_ofModel m

theorem Fresh.next (h : Fresh ω m e) : e.next = .max := by
  obtain ⟨x, rfl⟩ := h.exists_inbox
  rw [next_withInbox]
  exact next_ofModel m

/-- **A run up to a limit is not refused** before the initialization: it takes no step. -/
theorem Fresh.runUntil (h : Fresh ω m e) (n : Nat) (limit : Instant) (w : World ω) :
    e.runUntil (n + 1) limit w = some (.done e w) := by
  have hhalt : (Supervisor.proceed e.next w.interrupted (Until.mk limit)).answer = false := by
    rw [h.next]
    exact halting_until.halt _ _
  simp only [Engine.runUntil, Engine.run, calm_until.proceed, hhalt]
  rfl

end Engine

/-! ## Crews -/

namespace Crew

variable [AtomicModel τ σ] [Observer ω]

/-- **The states of a crew of `m` that is not initialized yet**. -/
inductive Fresh (ω : Type) [Observer ω] (wished : Nat) (m : Model τ σ) : Crew τ σ → Prop
  | create : Fresh ω wished m (ofModel wished m)
  | inject {c : Crew τ σ} {port : Port τ} (values : List (MessageType.Value port.type))
      (w : World ω) (h : Fresh ω wished m c) : Fresh ω wished m (c.inject port values w).state
  | run {π : Type} [Supervisor π] {c : Crew τ σ} {n : Nat} {plan : Nat → Timetable} {p : π}
      {w : World ω} {o : Outcome (Crew τ σ × π) ω} (h : Fresh ω wished m c)
      (ho : c.runOn n plan p w = some o) : Fresh ω wished m o.state.1

variable {wished : Nat} {m : Model τ σ} {c : Crew τ σ}

theorem runOn_uninitialized [Supervisor π] (hi : c.initialized = false) (n : Nat)
    (plan : Nat → Timetable) (p : π) (w : World ω) :
    c.runOn n plan p w = some (.refused (c, p) w (.uninitialized c.path)) := by
  rw [Crew.runOn, hi, if_neg Bool.false_ne_true]

theorem Fresh.exists_inbox (h : Fresh ω wished m c) :
    ∃ x, c = { ofModel wished m with inbox := x } := by
  induction h with
  | create => exact ⟨_, rfl⟩
  | inject values w h ih =>
      obtain ⟨x, rfl⟩ := ih
      unfold Crew.inject
      split
      · exact ⟨x, rfl⟩
      · exact ⟨_, rfl⟩
  | run h ho ih =>
      obtain ⟨x, rfl⟩ := ih
      rw [runOn_uninitialized rfl] at ho
      cases ho
      exact ⟨x, rfl⟩

/-- **Every run is refused** before the initialization, and leaves everything as it is. -/
theorem Fresh.runOn [Supervisor π] (h : Fresh ω wished m c) (n : Nat) (plan : Nat → Timetable)
    (p : π) (w : World ω) :
    c.runOn n plan p w = some (.refused (c, p) w (.uninitialized m.id)) := by
  obtain ⟨x, rfl⟩ := h.exists_inbox
  exact runOn_uninitialized rfl n plan p w

end Crew

/-! ## Both kinds of engines -/

variable [AtomicModel τ σ] [Observer ω]

/-- **Stepping an engine that is not initialized.** A tree refuses to collect and to advance,
and a crew to run, in the name of the root and with everything left as it is; no model has
been called, as the journals show. But a run of a tree up to a limit is not refused: it comes
to its end without a step, and the next event is at the last instant. -/
theorem stepping_fresh (m : Model τ σ) :
    (∀ e : Engine τ σ, e.Fresh ω m →
      (∃ x, e = (Engine.ofModel m).withInbox x) ∧ e.next = .max ∧
      (∀ t (w : World ω), e.collect t w = .refused e w (.uninitialized m.id)) ∧
      (∀ t (w : World ω), e.advance t w = .refused e w (.uninitialized m.id)) ∧
      ∀ n limit (w : World ω), e.runUntil (n + 1) limit w = some (.done e w)) ∧
    (∀ wished (c : Crew τ σ), c.Fresh ω wished m →
      (∃ x, c = { Crew.ofModel wished m with inbox := x }) ∧
      ∀ n plan limit (w : World ω),
        c.runUntilOn n plan limit w = some (.refused c w (.uninitialized m.id))) ∧
    ∀ e : Engine τ (Journaled τ σ), e.Fresh ω m.journaled → ∀ a journal,
      e.journalAt? a = some journal → journal = [] := by
  refine ⟨fun e he => ⟨he.exists_inbox, he.next, fun t w => ?_, fun t w => ?_, he.runUntil⟩,
    fun wished c h => ⟨h.exists_inbox, fun n plan limit w => ?_⟩, fun e he a journal hj => ?_⟩
  · rw [Engine.collect_uninitialized he.initialized, he.path]
  · rw [Engine.advance_uninitialized he.initialized, he.path]
  · rw [Crew.runUntilOn, h.runOn]
    rfl
  · obtain ⟨x, rfl⟩ := he.exists_inbox
    exact Engine.journalAt_ofModel m hj

/-- A tower of doublers that is not initialized, with a message at its root, and a crew for it. -/
theorem stepping_fresh_tower :
    let w : World Unobserved := ⟨⟨⟩, false⟩
    let e := ((Engine.ofModel Doubler.tower).perform w (.inject Doubler.add [(5 : UInt64)])).state
    let c := ((Crew.ofModel 2 Doubler.tower).inject Doubler.add [(5 : UInt64)] w).state
    let limit : Instant := ⟨1, 0, by decide⟩
    (e.Fresh Unobserved Doubler.tower ∧ c.Fresh Unobserved 2 Doubler.tower ∧
      e.node.inbox.isEmpty = false) ∧
    e.collect limit w = .refused e w (.uninitialized "tower") ∧
    e.advance limit w = .refused e w (.uninitialized "tower") ∧
    e.runUntil 1 limit w = some (.done e w) ∧
    ∀ plan, c.runUntilOn 1 plan limit w = some (.refused c w (.uninitialized "tower")) := by
  intro w e c limit
  have he : e.Fresh Unobserved Doubler.tower :=
    .call (c := .inject Doubler.add [(5 : UInt64)]) w .create fun _ => nofun
  have hc : c.Fresh Unobserved 2 Doubler.tower := .inject _ w .create
  obtain ⟨htree, hcrew, -⟩ := stepping_fresh (ω := Unobserved) Doubler.tower
  obtain ⟨-, -, hcollect, hadvance, hrun⟩ := htree e he
  exact ⟨⟨he, hc, by decide +kernel⟩, hcollect limit w, hadvance limit w, hrun 0 limit w,
    fun plan => (hcrew 2 c hc).2 1 plan limit w⟩

/-- **A tree and a crew do not agree** on a run before their initialization: the crew is refused,
and the tree is not. -/
theorem fresh_runs_differ :
    let w : World Unobserved := ⟨⟨⟩, false⟩
    let limit : Instant := ⟨1, 0, by decide⟩
    ((Engine.ofModel Doubler.tower).runUntil 1 limit w).map (·.stop) = some none ∧
    ((Crew.ofModel 1 Doubler.tower).runUntil 1 limit w).map (·.stop)
      = some (some (.violation (.uninitialized "tower"))) ∧
    ¬∀ e : Engine Payload Doubler, e.Fresh Unobserved Doubler.tower →
      ∃ v, (e.runUntil 1 limit w).map (·.stop) = some (some (.violation v)) := by
  intro w limit
  have hrun : ((Engine.ofModel Doubler.tower).runUntil 1 limit w).map (·.stop) = some none := by
    decide +kernel
  refine ⟨hrun, by decide +kernel, fun h => ?_⟩
  obtain ⟨v, hv⟩ := h _ .create
  rw [hrun] at hv
  cases hv

end DiscreteEvent
