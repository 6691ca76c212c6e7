/-
Observation changes nothing of a crew.

The leaves of a crew report in the middle of their turns, and the leader reports for the
root when a step is over. What the workers share is compared with itself in the same world
without an observer (`Shift.unobserved`), turn by turn: the workers touch the same leaves
and bags, note the same reasons for stopping and have the same left to do. So the same
turns can be played on both sides, and whole steps and runs agree under one plan.
-/
import DiscreteEvent.Proofs.Engine.Unobserved
import DiscreteEvent.Proofs.Flat.Natural

set_option autoImplicit false

namespace DiscreteEvent

variable {τ σ ω π : Type} [MessageType τ]

/-! ## Calls -/

theorem Engine.Within.leaves {P : σ → Prop} {e : Engine τ σ} (h : e.Within P) :
    ∀ l ∈ e.leaves, l.Within P := by
  induction h with
  | leaf self =>
      intro l hl
      rw [Engine.leaves, List.mem_singleton] at hl
      exact hl ▸ self
  | hub _ ih =>
      intro l hl
      rw [leaves_hub, List.mem_flatMap] at hl
      obtain ⟨e, he, hl⟩ := hl
      exact ih e he l hl

namespace Crew

/-- All states of the crew are in `P`. -/
def Within (P : σ → Prop) (c : Crew τ σ) : Prop := ∀ l ∈ c.leaves, l.Within P

variable {P : σ → Prop}

/-- A new crew has the states of the model. -/
theorem within_ofModel {m : Model τ σ} (hm : m.AllGood fun _ _ => P) (wished : Nat) :
    (ofModel wished m).Within P := by
  have hleaves : (ofModel wished m).leaves = (Engine.ofModelBelow none m).leaves :=
    FlatPart.leaves_eq m
  rw [Within, hleaves]
  exact (Engine.within_ofModelBelow hm none).leaves

theorem Within.set {c : Crew τ σ} (h : c.Within P) (i : Nat) {l : Leaf τ σ} (hl : l.Within P) :
    ({ c with leaves := c.leaves.set i l } : Crew τ σ).Within P := by
  intro l' hl'
  rcases List.mem_or_eq_of_mem_set hl' with hmem | rfl
  · exact h l' hmem
  · exact hl

theorem Within.deposit {c : Crew τ σ} (h : c.Within P) (target : RouteTarget)
    (messages : List (Message τ)) : (c.deposit target messages).Within P := by
  cases target with
  | rootOutput p => exact h
  | leaf p =>
      intro l' hmem
      obtain ⟨i, hi⟩ := List.getElem?_of_mem hmem
      rw [Crew.deposit, List.getElem?_modify] at hi
      obtain ⟨l, hl, rfl⟩ := Option.map_eq_some_iff.mp hi
      -- A deposit changes an inbox, and leaves all states alone.
      have hwithin : l.Within P := h l (List.mem_of_getElem? hl)
      split
      · exact hwithin
      · exact hwithin

/-- A call on one leaf. -/
theorem onLeaf_unseen {call : Leaf τ σ → World ω → Outcome (Leaf τ σ) ω}
    {call' : Leaf τ σ → World Unobserved → Outcome (Leaf τ σ) Unobserved}
    (hcall : ∀ l w, l.Within P → Outcome.Unseen (Leaf.Within P) (call l w) (call' l w.unobserved))
    {c : Crew τ σ} (h : c.Within P) (i : Nat) (w : World ω) :
    Outcome.Unseen (Within P) (c.onLeaf i call w) (c.onLeaf i call' w.unobserved) := by
  unfold onLeaf
  split
  · exact ⟨rfl, rfl, rfl, h⟩
  · rename_i l hl
    exact (hcall l w (h l (List.mem_of_getElem? hl))).map fun l => h.set i

theorem onLeaves_unseen {call : Leaf τ σ → World ω → Outcome (Leaf τ σ) ω}
    {call' : Leaf τ σ → World Unobserved → Outcome (Leaf τ σ) Unobserved}
    (hcall : ∀ l w, l.Within P → Outcome.Unseen (Leaf.Within P) (call l w) (call' l w.unobserved))
    {places : List Nat} : ∀ {c : Crew τ σ} {w : World ω}, c.Within P →
      Outcome.Unseen (Within P) (onLeaves call c places w)
        (onLeaves call' c places w.unobserved) := by
  induction places with
  | nil => exact fun h => ⟨rfl, rfl, rfl, h⟩
  | cons i places ih =>
      intro c w h
      rw [onLeaves_cons, onLeaves_cons]
      exact (onLeaf_unseen hcall h i w).andThen fun c w h => ih h

theorem inject_unseen {c : Crew τ σ} (h : c.Within P) (port : Port τ)
    (values : List (MessageType.Value port.type)) (w : World ω) :
    Outcome.Unseen (Within P) (c.inject port values w) (c.inject port values w.unobserved) := by
  unfold inject
  split
  · exact ⟨rfl, rfl, rfl, h⟩
  · exact ⟨rfl, rfl, rfl, h⟩

variable [Observer ω]

/-- **The root reports** while nobody notices. -/
theorem report_unseen (hcalm : Observer.Calm ω) {c : Crew τ σ} (h : c.Within P) (phase : Phase)
    (time last next : Instant) (bags : List BagRecord) (w : World ω) :
    Outcome.Unseen (Within P) (c.report phase time last next bags w)
      (c.report phase time last next bags w.unobserved) := by
  obtain ⟨hworld, hfault⟩ := w.report_unseen hcalm phase c.path time last next none nofun bags
  exact ⟨rfl, hworld.symm, (congrArg (Option.map Stop.fault) hfault).symm, h⟩

/-- **The leader closes a step** with two reports. -/
theorem close_unseen (hcalm : Observer.Calm ω) {c : Crew τ σ} (h : c.Within P) (t next : Instant)
    (w : World ω) :
    Outcome.Unseen (Within P) (c.close t next w) (c.close t next w.unobserved) := by
  unfold close
  have hmoved : ({ c with last := t, next := next } : Crew τ σ).Within P := h
  refine (report_unseen hcalm hmoved .collect t c.last t _ w).andThen fun c w h => ?_
  exact (report_unseen hcalm h .advance t t next _ w).andThen fun c w h => ⟨rfl, rfl, rfl, h⟩

variable [AtomicModel τ σ]

/-- **Initialization** does the same without the observer. -/
theorem init_unseen (hcalm : Observer.Calm ω) (hP : Legible P) (t : Instant) {c : Crew τ σ}
    (h : c.Within P) (w : World ω) :
    Outcome.Unseen (Within P) (c.init t w) (c.init t w.unobserved) := by
  unfold init
  refine (onLeaves_unseen (fun l w hl => Leaf.init_unseen hcalm hP hl t w) h).andThen
    fun c w h => ?_
  have hmoved : ({ c with
      last := t
      next := Hub.earliest (c.leaves.map (·.toNode))
      initialized := true } : Crew τ σ).Within P := h
  exact report_unseen hcalm hmoved .init t t _ [] w

end Crew

theorem LeafCall.perform_unseen [AtomicModel τ σ] [Observer ω] {P : σ → Prop}
    (hcalm : Observer.Calm ω) (hP : Legible P) (call : LeafCall) (l : Leaf τ σ) (w : World ω)
    (hl : l.Within P) :
    Outcome.Unseen (Leaf.Within P) (call.perform l w) (call.perform l w.unobserved) := by
  cases call with
  | init t => exact Leaf.init_unseen hcalm hP hl t w
  | collect t => exact Leaf.collect_unseen hcalm hP hl t w
  | advance t => exact Leaf.advance_unseen hcalm hP hl t w

/-! ## Turns -/

namespace Shift

/-- **What the workers share, without the observer.** -/
def unobserved (s : Shift τ σ ω) : Shift τ σ Unobserved :=
  ⟨s.crew, s.world.unobserved, s.minima, s.failure⟩

@[simp] theorem crew_unobserved (s : Shift τ σ ω) : s.unobserved.crew = s.crew := rfl

@[simp] theorem world_unobserved (s : Shift τ σ ω) :
    s.unobserved.world = s.world.unobserved := rfl

@[simp] theorem failure_unobserved (s : Shift τ σ ω) : s.unobserved.failure = s.failure := rfl

variable {P : σ → Prop}

/-- What a worker leaves behind, and what remains of its script. -/
theorem settle_unobserved (s : Shift τ σ ω) {o : Outcome (Crew τ σ) ω}
    {o' : Outcome (Crew τ σ) Unobserved} (h : Outcome.Unseen (Crew.Within P) o o')
    (rest : List (Task τ)) :
    s.unobserved.settle o' rest = ((s.settle o rest).1.unobserved, (s.settle o rest).2) ∧
      (s.settle o rest).1.crew.Within P := by
  simp only [settle, h.stop, h.state, h.world]
  cases o.stop with
  | none => exact ⟨rfl, h.within⟩
  | some stop => exact ⟨rfl, h.within⟩

variable [AtomicModel τ σ] [Observer ω]

/-- **A turn of a worker** does the same without the observer, and leaves the same to be done. -/
theorem turn_unobserved (hcalm : Observer.Calm ω) (hP : Legible P) (worker : Nat)
    {s : Shift τ σ ω} (hs : s.crew.Within P) (script : List (Task τ)) :
    s.unobserved.turn worker script
        = ((s.turn worker script).1.unobserved, (s.turn worker script).2) ∧
      (s.turn worker script).1.crew.Within P := by
  cases script with
  | nil => exact ⟨rfl, hs⟩
  | cons task rest =>
      cases task with
      | enter => exact ⟨rfl, hs⟩
      -- Only here something is reported.
      | call c i =>
          exact s.settle_unobserved
            (Crew.onLeaf_unseen (LeafCall.perform_unseen hcalm hP c) hs i s.world) rest
      | fetch r => exact ⟨rfl, hs⟩
      | deliver r copy =>
          simp only [turn, crew_unobserved]
          split
          · exact s.settle_unobserved ⟨rfl, rfl, rfl, hs⟩ rest
          · exact s.settle_unobserved ⟨rfl, rfl, rfl, hs.deposit r.target _⟩ rest
      | note places => exact ⟨rfl, hs⟩

end Shift

variable [AtomicModel τ σ] [Observer ω] {P : σ → Prop}

namespace Floor

theorem play_unobserved (hcalm : Observer.Calm ω) (hP : Legible P) (turns : List Nat) :
    ∀ {f : Floor τ σ ω}, f.shift.crew.Within P →
      Floor.play ⟨f.shift.unobserved, f.scripts⟩ turns
          = ⟨(f.play turns).shift.unobserved, (f.play turns).scripts⟩ ∧
        (f.play turns).shift.crew.Within P := by
  induction turns with
  | nil => exact fun h => ⟨rfl, h⟩
  | cons k turns ih =>
      intro f h
      have hturn : Floor.turn ⟨f.shift.unobserved, f.scripts⟩ k
            = ⟨(f.turn k).shift.unobserved, (f.turn k).scripts⟩ ∧
          (f.turn k).shift.crew.Within P := by
        unfold Floor.turn
        cases f.scripts[k]? with
        | none => exact ⟨rfl, h⟩
        | some script =>
            obtain ⟨hturn, hwithin⟩ := Shift.turn_unobserved hcalm hP k h script
            simp only [hturn]
            exact ⟨trivial, hwithin⟩
      obtain ⟨hrest, hwithin⟩ := ih hturn.2
      exact ⟨(congrArg (Floor.play · turns) hturn.1).trans hrest, hwithin⟩

end Floor

/-! ## Steps and runs -/

namespace Shift

/-- **A phase in any order of turns** does the same without the observer. -/
theorem phase_unobserved (hcalm : Observer.Calm ω) (hP : Legible P)
    (script : Shift τ σ ω → Nat → List (Task τ))
    (script' : Shift τ σ Unobserved → Nat → List (Task τ)) {s : Shift τ σ ω}
    (hs : s.crew.Within P) (hscript : script' s.unobserved = script s) (turns : List Nat) :
    s.unobserved.phase script' turns = (s.phase script turns).unobserved ∧
      (s.phase script turns).crew.Within P := by
  obtain ⟨hplay, hwithin⟩ := Floor.play_unobserved hcalm hP turns
    (f := ⟨s, (List.range s.crew.workers).map (script s)⟩) hs
  obtain ⟨hrest, hfinished⟩ := Floor.play_unobserved hcalm hP
    (Floor.play ⟨s, (List.range s.crew.workers).map (script s)⟩ turns).rest hwithin
  refine ⟨?_, hfinished⟩
  rw [phase, hscript]
  -- The turns that remain are the same, because the scripts are.
  exact congrArg Floor.shift ((congrArg (fun f => Floor.play f f.rest) hplay).trans hrest)

/-- **A step** does the same without the observer. -/
theorem stepOn_unobserved (hcalm : Observer.Calm ω) (hP : Legible P) {s : Shift τ σ ω}
    (hs : s.crew.Within P) (table : Timetable) (t : Instant) :
    s.unobserved.stepOn table t = (s.stepOn table t).unobserved ∧
      (s.stepOn table t).crew.Within P := by
  obtain ⟨hcollect, hs₁⟩ := phase_unobserved hcalm hP (collectScript t) (collectScript t) hs rfl
    table.collect
  obtain ⟨hroute, hs₂⟩ := phase_unobserved hcalm hP routeScript routeScript hs₁ rfl table.route
  obtain ⟨hadvance, hs₃⟩ := phase_unobserved hcalm hP (advanceScript t) (advanceScript t) hs₂ rfl
    table.advance
  rw [stepOn, hcollect, hroute, hadvance, stepOn]
  generalize ((s.phase (collectScript t) table.collect).phase routeScript table.route).phase
    (advanceScript t) table.advance = s₃ at hs₃ ⊢
  have hclose := Crew.close_unseen hcalm hs₃ t (s₃.minima.foldr min .max) s₃.world
  refine ⟨?_, hclose.within⟩
  simp only [close, unobserved, hclose.state, hclose.world, hclose.stop]

/-- **A run** takes the same course without the observer. -/
theorem runOn_unseen [Supervisor π] (hcalm : Observer.Calm ω) (hP : Legible P) {n : Nat} :
    ∀ {plan : Nat → Timetable} {s : Shift τ σ ω} {p : π}, s.crew.Within P →
      Option.Rel (Outcome.Unseen fun x => x.1.Within P) (s.runOn n plan p)
        (s.unobserved.runOn n plan p) := by
  induction n with
  | zero => exact fun _ => .none
  | succ n ih =>
      intro plan s p hs
      obtain ⟨hstep, hwithin⟩ := stepOn_unobserved hcalm hP
        (s := { s with
          world := s.world.heed (Supervisor.proceed s.crew.next s.world.interrupted p) })
        hs (plan 0) s.crew.next
      have hstep : Shift.stepOn (plan 0) s.crew.next ⟨s.crew,
            s.world.unobserved.heed (Supervisor.proceed s.crew.next s.world.interrupted p),
            s.minima, s.failure⟩ = _ :=
        (congrArg (fun w => Shift.stepOn (plan 0) s.crew.next ⟨s.crew, w, s.minima, s.failure⟩)
          (World.unobserved_heed _ _).symm).trans hstep
      simp only [runOn, unobserved, World.interrupted_unobserved, hstep]
      split
      · exact .some ⟨rfl, (World.unobserved_heed _ _).symm, rfl, hs⟩
      · split
        · split
          · exact .some ⟨rfl, rfl, rfl, hwithin⟩
          · split
            · exact .some ⟨rfl, (World.unobserved_heed _ _).symm, rfl, hwithin⟩
            · rw [← World.unobserved_heed]
              exact ih hwithin
        · exact .some ⟨rfl, (World.unobserved_heed _ _).symm, rfl, hs⟩

end Shift

/-- **A run of a crew** takes the same course without the observer, under one plan. -/
theorem Crew.runOn_unseen [Supervisor π] (hcalm : Observer.Calm ω) (hP : Legible P)
    {c : Crew τ σ} (h : c.Within P) (n : Nat) (plan : Nat → Timetable) (p : π) (w : World ω) :
    Option.Rel (Outcome.Unseen fun x => x.1.Within P) (c.runOn n plan p w)
      (c.runOn n plan p w.unobserved) := by
  unfold Crew.runOn
  split
  · exact Shift.runOn_unseen hcalm hP (s := .begin c w) h
  · exact .some ⟨rfl, rfl, rfl, h⟩

end DiscreteEvent
