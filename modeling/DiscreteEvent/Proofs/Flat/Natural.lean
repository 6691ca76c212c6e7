/-
Crews do not look into states.

What is true of engine trees (`Engine.perform_mapState`) is true of crews as well, and
of every turn of a worker: it calls a leaf, follows a route or reads the times of some
leaves, and in changed states it does the same. What a worker has left to do does not
mention states at all, so the same turns can be played on both sides (`phase_mapState`).

So a crew of models with journals is the crew of these models, and its journals are
true, whatever turns the workers take.
-/
import DiscreteEvent.Proofs.Engine.Natural
import DiscreteEvent.Proofs.Flat.Driven

set_option autoImplicit false

namespace DiscreteEvent

variable {τ σ σ' ω π : Type} [MessageType τ]

/-! ## Flattened trees -/

omit [MessageType τ] in
/-- The atomic models have the same numbers. -/
theorem Model.atoms_mapState (f : σ → σ') (m : Model τ σ) :
    (m.mapState f).atoms = m.atoms.map (Atomic.mapState f) := by
  induction m using Model.induction with
  | atomic a => rfl
  | coupled c ms ih =>
      rw [mapState, mapStates_eq, atoms_coupled, atoms_coupled, List.map_flatMap, List.flatMap_map]
      exact List.flatMap_congr fun m hm => ih m hm

namespace FlatPart

/-- The part of a flattened tree with changed states. -/
def mapState (f : σ → σ') (p : FlatPart τ σ) : FlatPart τ σ' :=
  ⟨p.leaves.map (Leaf.mapState f), p.routes, p.inputs, p.outputs⟩

/-- The routes of a network do not depend on states. -/
theorem join_mapState (f : σ → σ') (c : Coupled τ) (parts : List (FlatPart τ σ)) :
    join c (parts.map (mapState f)) = (join c parts).mapState f := by
  have hinput : behindInput (parts.map (mapState f)) = behindInput parts := by
    funext p
    rw [behindInput, behindInput, List.getElem?_map]
    cases parts[p.child]? <;> rfl
  have houtput : behindOutput (parts.map (mapState f)) = behindOutput parts := by
    funext p
    rw [behindOutput, behindOutput, List.getElem?_map]
    cases parts[p.child]? <;> rfl
  have hcrossing : crossing (parts.map (mapState f)) = crossing parts := by
    funext l
    rw [crossing, crossing, hinput, houtput]
  rw [join, hinput, houtput, hcrossing, List.flatMap_map, List.flatMap_map, join, mapState,
    List.map_flatMap]
  rfl

/-- **Flattening a tree of models with journals** is flattening the tree of the models,
once the journals are struck out. -/
theorem plain_ofModel (m : Model τ σ) :
    ∀ (parent : Option String) (n : Nat),
      (ofModel parent n m.journaled).mapState Journaled.self = ofModel parent n m := by
  induction m using Model.induction with
  | atomic a => exact fun _ _ => rfl
  | coupled c ms ih =>
      intro parent n
      rw [Model.journaled, Model.mapState, Model.mapStates_eq, ofModel, ← join_mapState, ofModel]
      congr 1
      -- What is left is about a list of children, each numbered after those before it.
      generalize childPath parent c.id = path
      induction ms generalizing n with
      | nil => rfl
      | cons m ms ihs =>
          -- The next number is the same, since the first part has as many leaves.
          have hfirst := ih m (by simp) (some path) n
          have hlength : (ofModel (some path) n m.journaled).leaves.length
              = (ofModel (some path) n m).leaves.length := by
            rw [← hfirst, mapState, List.length_map]
          have hrest := ihs (fun m hm => ih m (by simp [hm]))
            (n + (ofModel (some path) n m).leaves.length)
          rw [← hlength] at hrest
          rw [ofModels, List.map_cons, ofModels, List.map_cons, ← hlength, ← hrest]
          exact congrArg₂ List.cons hfirst rfl

end FlatPart

/-! ## Calls -/

namespace Crew

/-- **The crew with changed states.** -/
def mapState (f : σ → σ') (c : Crew τ σ) : Crew τ σ' where
  path := c.path
  leaves := c.leaves.map (Leaf.mapState f)
  routes := c.routes
  workers := c.workers
  last := c.last
  next := c.next
  initialized := c.initialized
  inbox := c.inbox
  outbox := c.outbox

@[simp] theorem leaves_mapState (f : σ → σ') (c : Crew τ σ) :
    (c.mapState f).leaves = c.leaves.map (Leaf.mapState f) := rfl

@[simp] theorem workers_mapState (f : σ → σ') (c : Crew τ σ) :
    (c.mapState f).workers = c.workers := rfl

@[simp] theorem next_mapState (f : σ → σ') (c : Crew τ σ) : (c.mapState f).next = c.next := rfl

@[simp] theorem initialized_mapState (f : σ → σ') (c : Crew τ σ) :
    (c.mapState f).initialized = c.initialized := rfl

@[simp] theorem inbox_mapState (f : σ → σ') (c : Crew τ σ) : (c.mapState f).inbox = c.inbox := rfl

/-- **The crew of models with journals** is the crew of the models, once the journals are
struck out. -/
theorem plain_ofModel (wished : Nat) (m : Model τ σ) :
    (ofModel wished m.journaled).mapState Journaled.self = ofModel wished m := by
  have hpart := FlatPart.plain_ofModel m none 0
  have hid : m.journaled.id = m.id := by cases m <;> rfl
  have hinterface : m.journaled.interface = m.interface := Model.interface_mapState _ m
  rw [ofModel, mapState, hid, hinterface, ofModel, ← hpart]
  simp only [FlatPart.mapState, List.length_map]
  rfl

section

variable {f : σ → σ'} {call : Leaf τ σ → World ω → Outcome (Leaf τ σ) ω}
  {call' : Leaf τ σ' → World ω → Outcome (Leaf τ σ') ω}

theorem onLeaf_mapState
    (hcall : ∀ l w, call' (l.mapState f) w = (call l w).map (Leaf.mapState f)) (c : Crew τ σ)
    (i : Nat) (w : World ω) :
    (c.mapState f).onLeaf i call' w = (c.onLeaf i call w).map (mapState f) := by
  rw [onLeaf, onLeaf, leaves_mapState, List.getElem?_map]
  cases c.leaves[i]? with
  | none => rfl
  | some l =>
      simp only [Option.map_some, hcall, Outcome.map, mapState, List.map_set]

theorem onLeaves_mapState
    (hcall : ∀ l w, call' (l.mapState f) w = (call l w).map (Leaf.mapState f))
    {places : List Nat} : ∀ (c : Crew τ σ) (w : World ω),
      onLeaves call' (c.mapState f) places w = (onLeaves call c places w).map (mapState f) := by
  induction places with
  | nil => exact fun _ _ => rfl
  | cons i places ih =>
      intro c w
      rw [onLeaves_cons, onLeaves_cons, onLeaf_mapState hcall]
      exact Outcome.andThen_map ih

end

theorem sourceBag_mapState (f : σ → σ') (c : Crew τ σ) (source : RouteSource) :
    (c.mapState f).sourceBag source = c.sourceBag source := by
  cases source with
  | rootInput p => rfl
  | leaf p =>
      simp only [sourceBag, leaves_mapState, List.getElem?_map]
      cases c.leaves[p.leaf]? <;> rfl

theorem targetBag_mapState (f : σ → σ') (c : Crew τ σ) (target : RouteTarget) :
    (c.mapState f).targetBag target = c.targetBag target := by
  cases target with
  | rootOutput p => rfl
  | leaf p =>
      simp only [targetBag, leaves_mapState, List.getElem?_map]
      cases c.leaves[p.leaf]? <;> rfl

theorem deposit_mapState (f : σ → σ') (c : Crew τ σ) (target : RouteTarget)
    (messages : List (Message τ)) :
    (c.mapState f).deposit target messages = (c.deposit target messages).mapState f := by
  cases target with
  | rootOutput p => rfl
  | leaf p =>
      simp only [deposit, mapState, Crew.mk.injEq, true_and, and_true]
      refine List.ext_getElem? fun i => ?_
      rw [List.getElem?_modify, List.getElem?_map, List.getElem?_map, List.getElem?_modify]
      cases c.leaves[i]? with
      | none => rfl
      | some l =>
          simp only [Option.map_eq_map, Option.map_some]
          split <;> rfl

/-- The times of the leaves are as they were. -/
theorem nodes_mapState (f : σ → σ') (leaves : List (Leaf τ σ)) :
    (leaves.map (Leaf.mapState f)).map (·.toNode) = leaves.map (·.toNode) := by
  rw [List.map_map]
  rfl

theorem inject_mapState (f : σ → σ') (c : Crew τ σ) (port : Port τ)
    (values : List (MessageType.Value port.type)) (w : World ω) :
    (c.mapState f).inject port values w = (c.inject port values w).map (mapState f) := by
  simp only [inject, inbox_mapState]
  split <;> rfl

variable [AtomicModel τ σ] [AtomicModel τ σ'] [Observer ω] {f : σ → σ'}

theorem perform_mapState (hf : Faithful f)
    (call : LeafCall) (l : Leaf τ σ) (w : World ω) :
    call.perform (l.mapState f) w = (call.perform l w).map (Leaf.mapState f) := by
  cases call with
  | init t => exact Leaf.init_mapState hf l t w
  | collect t => exact Leaf.collect_mapState hf l t w
  | advance t => exact Leaf.advance_mapState hf l t w

/-- **Initialization** does the same in changed states. -/
theorem init_mapState (hf : Faithful f) (t : Instant) (c : Crew τ σ) (w : World ω) :
    (c.mapState f).init t w = (c.init t w).map (mapState f) := by
  rw [init, init, leaves_mapState, List.length_map, onLeaves_mapState (Leaf.init_mapState hf · t)]
  refine Outcome.andThen_map fun c w => ?_
  rw [leaves_mapState, nodes_mapState]
  rfl

omit [AtomicModel τ σ] [AtomicModel τ σ'] in
theorem close_mapState (f : σ → σ') (c : Crew τ σ) (t next : Instant) (w : World ω) :
    (c.mapState f).close t next w = (c.close t next w).map (mapState f) := by
  rw [close]
  -- Both reports of the root are about its own node and bags.
  show ((report { c with last := t, next := next } .collect t c.last t
    (Record.bagsOf .output c.outbox) w).map (mapState f)).andThen _ = _
  refine Outcome.andThen_map fun c w => ?_
  show ((c.report .advance t t next (Record.bagsOf .input c.inbox) w).map (mapState f)).andThen _ = _
  exact Outcome.andThen_map fun _ _ => rfl

end Crew

/-! ## Turns -/

namespace Shift

/-- What the workers share, with changed states. -/
def mapState (f : σ → σ') (s : Shift τ σ ω) : Shift τ σ' ω :=
  ⟨s.crew.mapState f, s.world, s.minima, s.failure⟩

@[simp] theorem crew_mapState (f : σ → σ') (s : Shift τ σ ω) :
    (s.mapState f).crew = s.crew.mapState f := rfl

@[simp] theorem world_mapState (f : σ → σ') (s : Shift τ σ ω) :
    (s.mapState f).world = s.world := rfl

@[simp] theorem minima_mapState (f : σ → σ') (s : Shift τ σ ω) :
    (s.mapState f).minima = s.minima := rfl

@[simp] theorem failure_mapState (f : σ → σ') (s : Shift τ σ ω) :
    (s.mapState f).failure = s.failure := rfl

theorem settle_mapState (f : σ → σ') (s : Shift τ σ ω) (o : Outcome (Crew τ σ) ω)
    (rest : List (Task τ)) :
    (s.mapState f).settle (o.map (Crew.mapState f)) rest
      = ((s.settle o rest).1.mapState f, (s.settle o rest).2) := by
  simp only [settle, Outcome.map]
  cases o.stop <;> rfl

theorem earliestOf_mapState (f : σ → σ') (c : Crew τ σ) (places : List Nat) :
    earliestOf (c.mapState f) places = earliestOf c places := by
  simp only [earliestOf, Crew.leaves_mapState, List.getElem?_map, ← List.map_filterMap,
    Crew.nodes_mapState]

variable [AtomicModel τ σ] [AtomicModel τ σ'] [Observer ω] {f : σ → σ'}

/-- **A turn of a worker** does the same in changed states, and leaves the same to be done. -/
theorem turn_mapState (hf : Faithful f) (worker : Nat) (s : Shift τ σ ω)
    (script : List (Task τ)) :
    (s.mapState f).turn worker script
      = ((s.turn worker script).1.mapState f, (s.turn worker script).2) := by
  cases script with
  | nil => rfl
  | cons task rest =>
      cases task with
      | enter => rfl
      -- Only here a model is called; the other tasks read nodes, bags and routes.
      | call c i =>
          have hcall := Crew.onLeaf_mapState (Crew.perform_mapState hf c) s.crew i s.world
          exact (congrArg (settle _ · rest) hcall).trans (settle_mapState f s _ rest)
      | fetch r =>
          have hsource := s.crew.sourceBag_mapState f r.source
          exact congrArg (fun copy => (s.mapState f, Task.deliver r copy :: rest)) hsource
      | deliver r copy =>
          simp only [turn, crew_mapState, Crew.targetBag_mapState, Crew.deposit_mapState]
          split
          · exact settle_mapState f s (.broken s.crew s.world _) rest
          · exact settle_mapState f s (.done (s.crew.deposit r.target _) s.world) rest
      | note places =>
          simp only [turn, crew_mapState, earliestOf_mapState]
          rfl

end Shift

namespace Floor

variable [AtomicModel τ σ] [AtomicModel τ σ'] [Observer ω] {f : σ → σ'}

theorem play_mapState (hf : Faithful f) {turns : List Nat} :
    ∀ (s : Shift τ σ ω) (scripts : List (List (Task τ))),
      Floor.play ⟨s.mapState f, scripts⟩ turns
        = ⟨(Floor.play ⟨s, scripts⟩ turns).shift.mapState f,
            (Floor.play ⟨s, scripts⟩ turns).scripts⟩ := by
  induction turns with
  | nil => exact fun _ _ => rfl
  | cons k turns ih =>
      intro s scripts
      have hturn : Floor.turn ⟨s.mapState f, scripts⟩ k
          = ⟨(Floor.turn ⟨s, scripts⟩ k).shift.mapState f, (Floor.turn ⟨s, scripts⟩ k).scripts⟩ := by
        simp only [Floor.turn, Shift.turn_mapState hf]
        cases scripts[k]? <;> rfl
      exact (congrArg (Floor.play · turns) hturn).trans (ih _ _)

end Floor

/-! ## Steps and runs -/

namespace Shift

theorem leavesOf_mapState (f : σ → σ') (s : Shift τ σ ω) : (s.mapState f).leavesOf = s.leavesOf := by
  funext k
  rw [leavesOf, leavesOf, crew_mapState, Crew.leaves_mapState, List.length_map]
  rfl

variable [AtomicModel τ σ] [AtomicModel τ σ'] [Observer ω] {f : σ → σ'}

/-- **A phase in any order of turns** does the same in changed states. -/
theorem phase_mapState (hf : Faithful f) {script : Shift τ σ ω → Nat → List (Task τ)}
    {script' : Shift τ σ' ω → Nat → List (Task τ)} {s : Shift τ σ ω}
    (hscript : script' (s.mapState f) = script s) (turns : List Nat) :
    (s.mapState f).phase script' turns = (s.phase script turns).mapState f := by
  rw [phase, phase, hscript, crew_mapState, Crew.workers_mapState, Floor.play_mapState hf]
  exact congrArg Floor.shift (Floor.play_mapState hf _ _)

/-- **A step** does the same in changed states. -/
theorem stepOn_mapState (hf : Faithful f) (s : Shift τ σ ω) (table : Timetable) (t : Instant) :
    (s.mapState f).stepOn table t = (s.stepOn table t).mapState f := by
  have hcollect : ∀ s : Shift τ σ ω, collectScript t (s.mapState f) = collectScript t s := by
    intro s
    funext k
    rw [collectScript, collectScript, leavesOf_mapState]
  have hadvance : ∀ s : Shift τ σ ω, advanceScript t (s.mapState f) = advanceScript t s := by
    intro s
    funext k
    rw [advanceScript, advanceScript, leavesOf_mapState]
  have hroute : ∀ s : Shift τ σ ω, routeScript (s.mapState f) = routeScript s := fun _ => rfl
  rw [stepOn, phase_mapState hf (hcollect s), phase_mapState hf (hroute _),
    phase_mapState hf (hadvance _), stepOn, close, close]
  simp only [crew_mapState, Crew.close_mapState]
  rfl

/-- **A run** takes the same course in changed states. -/
theorem runOn_mapState [Supervisor π] (hf : Faithful f) {n : Nat} :
    ∀ {plan : Nat → Timetable} {s : Shift τ σ ω} {p : π}, (s.mapState f).runOn n plan p
      = (s.runOn n plan p).map fun o => o.map fun x => (x.1.mapState f, x.2) := by
  induction n with
  | zero => exact rfl
  | succ n ih =>
      intro plan s p
      -- The step is taken in the world that the supervisor has been asked in.
      have hstep : ∀ w : World ω, Shift.stepOn (plan 0) s.crew.next
            ⟨s.crew.mapState f, w, s.minima, s.failure⟩
          = (Shift.stepOn (plan 0) s.crew.next { s with world := w }).mapState f :=
        fun w => stepOn_mapState hf { s with world := w } _ _
      simp only [runOn, crew_mapState, world_mapState, minima_mapState, failure_mapState,
        Crew.next_mapState, hstep]
      split
      · rfl
      · split
        · split
          · rfl
          · split
            · rfl
            · rw [← ih]
              rfl
        · rfl

end Shift

/-- **A run of a crew** takes the same course in changed states. -/
theorem Crew.runOn_mapState [AtomicModel τ σ] [AtomicModel τ σ'] [Observer ω] [Supervisor π]
    {f : σ → σ'} (hf : Faithful f) (c : Crew τ σ) (n : Nat) (plan : Nat → Timetable) (p : π)
    (w : World ω) : (c.mapState f).runOn n plan p w
      = (c.runOn n plan p w).map fun o => o.map fun x => (x.1.mapState f, x.2) := by
  rw [Crew.runOn, Crew.runOn, Crew.initialized_mapState]
  by_cases hi : c.initialized = true
  · rw [if_pos hi, if_pos hi]
    exact Shift.runOn_mapState hf (s := .begin c w)
  · rw [if_neg hi, if_neg hi]
    rfl

end DiscreteEvent
