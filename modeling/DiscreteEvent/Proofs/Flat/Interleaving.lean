/-
Workers that take turns in any order.

`Shift.step` lets the workers do their phases one after the other. In truth they
do them at the same time, and only the barriers between two phases keep order. What
a worker does in a phase is a list of tasks, its script, and the workers share
nothing but what a single task touches: a leaf, or a bag at one end of a route. So
whatever happens in a phase is an interleaving of the scripts. It is described by
saying who takes the next turn (`Floor.play`). When nothing more is said the workers
finish one by one, so any list of turns will do, and every interleaving has one.

To copy messages along a route takes two turns, one for each end; in between the
worker holds the messages and others may have their turns.

A `Timetable` has the turns of the three phases of a step, and `Crew.runOn` is a run
in which every step follows its own. The run of a crew is the one in which nothing
is said (`Crew.run_eq_runOn`), so what holds for all timetables holds for it.
-/
import DiscreteEvent.Flat.Crew
import DiscreteEvent.Proofs.Engine.Traversal
import Mathlib.Algebra.GroupWithZero.Nat

set_option autoImplicit false

namespace DiscreteEvent

variable {τ σ ω π : Type} [MessageType τ]

/-! ## Tasks -/

/-- A call on a leaf. -/
inductive LeafCall
  | init (t : Instant)
  | collect (t : Instant)
  | advance (t : Instant)

/-- **What a worker does in one turn.** -/
inductive Task (τ : Type) [MessageType τ]
  /-- The phase is begun, unless there was a failure. -/
  | enter
  /-- A leaf is called. -/
  | call (call : LeafCall) (leaf : Nat)
  /-- The bag at the beginning of a route is copied. -/
  | fetch (route : Route)
  /-- The messages of the copy are added at the end of the route. -/
  | deliver (route : Route) (copy : Option (Bag τ))
  /-- The earliest next event among the leaves of the worker is noted. -/
  | note (places : List Nat)

/-- The number of turns that a task takes: two to fetch and to deliver. -/
def Task.length : Task τ → Nat
  | .enter => 1
  | .call _ _ => 1
  | .fetch _ => 2
  | .deliver _ _ => 1
  | .note _ => 1

/-- The number of turns that a script takes at most. -/
def Task.turns (script : List (Task τ)) : Nat := (script.map Task.length).sum

section Calls

variable [AtomicModel τ σ] [Observer ω]

/-- The call of a leaf. -/
def LeafCall.perform : LeafCall → Leaf τ σ → World ω → Outcome (Leaf τ σ) ω
  | .init t => Leaf.init t
  | .collect t => Leaf.collect t
  | .advance t => Leaf.advance t

end Calls

namespace Shift

/-- What a worker leaves behind in a turn, and what remains of its script. After a
failure nothing does. -/
def settle (s : Shift τ σ ω) (o : Outcome (Crew τ σ) ω) (rest : List (Task τ)) :
    Shift τ σ ω × List (Task τ) :=
  let s := { s with crew := o.state, world := o.world }
  match o.stop with
  | some stop => ({ s with failure := s.failure.note stop }, [])
  | none => (s, rest)

variable [AtomicModel τ σ] [Observer ω]

/-- **One turn of a worker** with the given script. -/
def turn (worker : Nat) (s : Shift τ σ ω) : List (Task τ) → Shift τ σ ω × List (Task τ)
  | [] => (s, [])
  | .enter :: rest => (s, if s.failure.isSet then [] else rest)
  | .call c i :: rest => s.settle (s.crew.onLeaf i c.perform s.world) rest
  | .fetch r :: rest => (s, .deliver r (s.crew.sourceBag r.source) :: rest)
  | .deliver r copy :: rest =>
    match transfer copy (s.crew.targetBag r.target) with
    | .error fault => s.settle (.broken s.crew s.world fault) rest
    | .ok messages => s.settle (.done (s.crew.deposit r.target messages) s.world) rest
  | .note places :: rest =>
    ({ s with minima := s.minima.set worker (earliestOf s.crew places) }, rest)

end Shift

/-! ## Turns of all workers -/

/-- What the workers share, and the script of each of them. -/
structure Floor (τ σ ω : Type) [MessageType τ] where
  shift : Shift τ σ ω
  scripts : List (List (Task τ))

namespace Floor

/-- The turns after which nobody has anything left to do: one worker after the other. -/
def rest (f : Floor τ σ ω) : List Nat :=
  (List.range f.scripts.length).flatMap fun k =>
    List.replicate (Task.turns (f.scripts[k]?.getD [])) k

variable [AtomicModel τ σ] [Observer ω]

/-- One worker takes a turn. -/
def turn (f : Floor τ σ ω) (worker : Nat) : Floor τ σ ω :=
  match f.scripts[worker]? with
  | none => f
  | some script =>
    { shift := (f.shift.turn worker script).1
      scripts := f.scripts.set worker (f.shift.turn worker script).2 }

/-- The workers take the given turns. -/
def play (f : Floor τ σ ω) (turns : List Nat) : Floor τ σ ω := turns.foldl turn f

end Floor

/-- **Who takes the next turn**, phase by phase. -/
structure Timetable where
  collect : List Nat := []
  route : List Nat := []
  advance : List Nat := []

namespace Shift

/-- What a worker does when the outputs are collected at `t`. -/
def collectScript (t : Instant) (s : Shift τ σ ω) (worker : Nat) : List (Task τ) :=
  .enter :: (s.leavesOf worker).map (.call (.collect t))

/-- What a worker does when messages are routed. -/
def routeScript (s : Shift τ σ ω) (worker : Nat) : List (Task τ) :=
  .enter :: (s.routesOf worker).map .fetch

/-- What a worker does when the leaves advance to `t`. -/
def advanceScript (t : Instant) (s : Shift τ σ ω) (worker : Nat) : List (Task τ) :=
  .enter :: ((s.leavesOf worker).map (.call (.advance t)) ++ [.note (s.leavesOf worker)])

variable [AtomicModel τ σ] [Observer ω]

/-- **A phase in any order of turns.** Nobody goes on before all have finished. -/
def phase (script : Shift τ σ ω → Nat → List (Task τ)) (turns : List Nat) (s : Shift τ σ ω) :
    Shift τ σ ω :=
  let f := (Floor.mk s ((List.range s.crew.workers).map (script s))).play turns
  (f.play f.rest).shift

/-- **One step** at `t` in any order of turns. -/
def stepOn (table : Timetable) (t : Instant) (s : Shift τ σ ω) : Shift τ σ ω :=
  (((s.phase (collectScript t) table.collect).phase routeScript table.route).phase
    (advanceScript t) table.advance).close t

/-- Steps in a row, as long as the supervisor lets them go on, each in an order
of its own. -/
def runOn [Supervisor π] : Nat → (Nat → Timetable) → Shift τ σ ω → π →
    Option (Outcome (Crew τ σ × π) ω)
  | 0, _, _, _ => none
  | limit + 1, plan, s, p =>
    let t := s.crew.next
    let decision := Supervisor.proceed t s.world.interrupted p
    let s := { s with world := s.world.heed decision }
    match decision.fault with
    | some fault => some (s.outcome decision.state (some (.fault fault)))
    | none =>
      if decision.answer then
        let s := s.stepOn (plan 0) t
        if s.failure.isSet then
          some (s.outcome decision.state s.failure.stop)
        else
          let note := Supervisor.completed t decision.state
          let s := { s with world := s.world.heed note }
          match note.fault with
          | some fault => some (s.outcome note.state (some (.fault fault)))
          | none => runOn limit (fun n => plan (n + 1)) s note.state
      else
        some (s.outcome decision.state none)

end Shift

namespace Crew

variable [AtomicModel τ σ] [Observer ω]

/-- **Running** under a supervisor, the workers taking turns by plan. -/
def runOn [Supervisor π] (decisions : Nat) (plan : Nat → Timetable) (c : Crew τ σ) (p : π)
    (w : World ω) : Option (Outcome (Crew τ σ × π) ω) :=
  if c.initialized then Shift.runOn decisions plan (.begin c w) p
  else some (.refused (c, p) w (.uninitialized c.path))

/-- Taking all steps before `limit`, the workers taking turns by plan. -/
def runUntilOn (decisions : Nat) (plan : Nat → Timetable) (limit : Instant) (c : Crew τ σ)
    (w : World ω) : Option (Outcome (Crew τ σ) ω) :=
  (runOn decisions plan c (Until.mk limit) w).map fun o => o.map (·.1)

end Crew

/-! ## Every phase comes to its end -/

/-- Putting an entry where it is changes nothing. -/
theorem set_eq_self {α : Type} {xs : List α} {i : Nat} {x : α} (h : xs[i]? = some x) :
    xs.set i x = xs := by
  obtain ⟨hi, rfl⟩ := List.getElem?_eq_some_iff.mp h
  exact List.set_getElem_self hi

theorem Task.turns_cons (task : Task τ) (script : List (Task τ)) :
    turns (task :: script) = task.length + turns script := by
  rw [turns, List.map_cons, List.sum_cons, turns]

theorem Task.one_le_length (task : Task τ) : 1 ≤ task.length := by
  cases task <;> simp only [length] <;> omega

theorem Task.eq_nil_of_turns {script : List (Task τ)} (h : turns script = 0) : script = [] := by
  cases script with
  | nil => rfl
  | cons task script =>
      have hle := task.one_le_length
      rw [turns_cons] at h
      omega

namespace Shift

/-- A script goes on, or it ends with a failure. -/
theorem settle_script (s : Shift τ σ ω) (o : Outcome (Crew τ σ) ω) (rest : List (Task τ)) :
    (s.settle o rest).2 = [] ∨ (s.settle o rest).2 = rest := by
  unfold settle
  split
  · exact .inl rfl
  · exact .inr rfl

variable [AtomicModel τ σ] [Observer ω]

/-- A turn brings a script nearer to its end. -/
theorem turns_turn (worker : Nat) (s : Shift τ σ ω) (script : List (Task τ)) :
    Task.turns (s.turn worker script).2 ≤ Task.turns script - 1 := by
  have hnil : Task.turns ([] : List (Task τ)) = 0 := rfl
  -- A call takes its task off the script, and a call that fails takes the rest off as well.
  have hsettle : ∀ (o : Outcome (Crew τ σ) ω) (task : Task τ) (rest : List (Task τ)),
      Task.turns (s.settle o rest).2 ≤ Task.turns (task :: rest) - 1 := by
    intro o task rest
    have hle := task.one_le_length
    rw [Task.turns_cons]
    rcases s.settle_script o rest with h | h
    · rw [h, hnil]
      exact Nat.zero_le _
    · rw [h]
      omega
  cases script with
  | nil => exact Nat.zero_le _
  | cons task rest =>
      cases task with
      | enter =>
          rw [turn, Task.turns_cons, Task.length, Nat.add_sub_cancel_left]
          by_cases hf : s.failure.isSet = true
          · simp only [if_pos hf, hnil]
            exact Nat.zero_le _
          · simp only [if_neg hf]
            exact Nat.le_refl _
      | call c i => exact hsettle _ _ _
      | fetch r =>
          rw [turn, Task.turns_cons, Task.turns_cons, Task.length, Task.length]
          omega
      | deliver r copy =>
          rw [turn]
          split
          · exact hsettle _ _ _
          · exact hsettle _ _ _
      | note places =>
          rw [Task.turns_cons, Task.length, Nat.add_sub_cancel_left]
          exact Nat.le_refl _

/-- Several turns in a row of one worker. -/
def solo (worker : Nat) : Nat → Shift τ σ ω × List (Task τ) → Shift τ σ ω × List (Task τ)
  | 0, x => x
  | n + 1, x => solo worker n (x.1.turn worker x.2)

theorem solo_nil (worker n : Nat) (s : Shift τ σ ω) : solo worker n (s, []) = (s, []) := by
  induction n with
  | zero => rfl
  | succ n ih => exact ih

theorem solo_script {worker n : Nat} :
    ∀ {s : Shift τ σ ω} {script : List (Task τ)}, Task.turns script ≤ n →
      (solo worker n (s, script)).2 = [] := by
  induction n with
  | zero => exact fun h => Task.eq_nil_of_turns (Nat.le_zero.mp h)
  | succ n ih =>
      intro s script h
      have hle := turns_turn worker s script
      show (solo worker n ((s.turn worker script).1, (s.turn worker script).2)).2 = []
      exact ih (by omega)

end Shift

namespace Floor

variable [AtomicModel τ σ] [Observer ω]

theorem play_append (f : Floor τ σ ω) (turns turns' : List Nat) :
    f.play (turns ++ turns') = (f.play turns).play turns' := List.foldl_append

@[simp] theorem length_scripts_turn (f : Floor τ σ ω) (worker : Nat) :
    (f.turn worker).scripts.length = f.scripts.length := by
  unfold turn
  split
  · rfl
  · exact List.length_set

/-- What every turn keeps holds after all of them. -/
theorem play_induction {P : Floor τ σ ω → Prop} (hturn : ∀ f k, P f → P (f.turn k))
    {turns : List Nat} : ∀ {f : Floor τ σ ω}, P f → P (f.play turns) := by
  induction turns with
  | nil => exact fun h => h
  | cons k turns ih => exact fun h => ih (hturn _ k h)

@[simp] theorem length_scripts_play (f : Floor τ σ ω) (turns : List Nat) :
    (f.play turns).scripts.length = f.scripts.length :=
  play_induction (P := fun g => g.scripts.length = f.scripts.length)
    (fun g k h => (length_scripts_turn g k).trans h) rfl

theorem turn_eq {f : Floor τ σ ω} {k : Nat} {script : List (Task τ)}
    (h : f.scripts[k]? = some script) :
    f.turn k = ⟨(f.shift.turn k script).1, f.scripts.set k (f.shift.turn k script).2⟩ := by
  rw [turn, h]

/-- Turns of one worker only. -/
theorem play_replicate {k n : Nat} :
    ∀ {f : Floor τ σ ω} {script : List (Task τ)}, f.scripts[k]? = some script →
      f.play (List.replicate n k)
        = ⟨(Shift.solo k n (f.shift, script)).1,
            f.scripts.set k (Shift.solo k n (f.shift, script)).2⟩ := by
  induction n with
  | zero =>
      intro f script h
      rw [Shift.solo, set_eq_self h]
      rfl
  | succ n ih =>
      intro f script h
      have hlt := (List.getElem?_eq_some_iff.mp h).1
      rw [List.replicate_succ]
      have hnext : (f.turn k).scripts[k]? = some (f.shift.turn k script).2 := by
        rw [turn_eq h, List.getElem?_set_self hlt]
      refine (ih hnext).trans ?_
      rw [turn_eq h, List.set_set]
      rfl

/-- **Workers who finish one by one** do so without regard to each other's scripts. -/
theorem play_flatMap (script : Nat → List (Task τ)) {ks : List Nat} :
    ∀ {f : Floor τ σ ω}, ks.Nodup → (∀ k ∈ ks, f.scripts[k]? = some (script k)) →
      let g := f.play (ks.flatMap fun k => List.replicate (Task.turns (script k)) k)
      g.shift = ks.foldl (fun s k => (Shift.solo k (Task.turns (script k)) (s, script k)).1)
          f.shift ∧
        (∀ k ∈ ks, g.scripts[k]? = some []) ∧
        ∀ k ∉ ks, g.scripts[k]? = f.scripts[k]? := by
  induction ks with
  | nil => exact fun _ _ => ⟨rfl, fun _ hk => absurd hk List.not_mem_nil, fun _ _ => rfl⟩
  | cons k ks ih =>
      intro f hnodup hscript
      obtain ⟨hk, hks⟩ := List.nodup_cons.mp hnodup
      have hfirst := play_replicate (n := Task.turns (script k)) (hscript k (by simp))
      rw [Shift.solo_script (Nat.le_refl _)] at hfirst
      rw [List.flatMap_cons, play_append, hfirst]
      have hother : ∀ j, j ≠ k → (f.scripts.set k [])[j]? = f.scripts[j]? := by
        intro j hj
        rw [List.getElem?_set_ne (Ne.symm hj)]
      obtain ⟨hshift, hdone, hleft⟩ := ih
        (f := ⟨(Shift.solo k (Task.turns (script k)) (f.shift, script k)).1, f.scripts.set k []⟩)
        hks fun j hj => (hother j fun hjk => hk (hjk ▸ hj)).trans (hscript j (by simp [hj]))
      refine ⟨hshift, fun j hj => ?_, fun j hj => ?_⟩
      · rcases List.mem_cons.mp hj with rfl | hj
        · rw [hleft j hk]
          exact List.getElem?_set_self (List.getElem?_eq_some_iff.mp (hscript j (by simp))).1
        · exact hdone j hj
      · rw [List.mem_cons, not_or] at hj
        rw [hleft j hj.2, hother j hj.1]

/-- **In the end nobody has anything left to do.** -/
theorem play_rest (f : Floor τ σ ω) :
    (f.play f.rest).shift = (List.range f.scripts.length).foldl (fun s k =>
        (Shift.solo k (Task.turns (f.scripts[k]?.getD [])) (s, f.scripts[k]?.getD [])).1) f.shift ∧
      ∀ script ∈ (f.play f.rest).scripts, script = [] := by
  obtain ⟨hshift, hdone, -⟩ := play_flatMap (fun k => f.scripts[k]?.getD []) (f := f)
    List.nodup_range fun k hk => by
      rw [List.getElem?_eq_getElem (List.mem_range.mp hk), Option.getD_some]
  refine ⟨hshift, fun script hs => ?_⟩
  obtain ⟨k, hk⟩ := List.getElem?_of_mem hs
  have hlt := (List.getElem?_eq_some_iff.mp hk).1
  rw [length_scripts_play] at hlt
  exact Option.some_inj.mp (hk.symm.trans (hdone k (List.mem_range.mpr hlt)))

end Floor

namespace Shift

variable [AtomicModel τ σ] [Observer ω]

/-- **What holds at the end of a phase**: anything that held at its beginning and
that every turn keeps, and no worker has anything left to do. -/
theorem exists_phase_eq (script : Shift τ σ ω → Nat → List (Task τ)) (turns : List Nat)
    {s : Shift τ σ ω} {P : Floor τ σ ω → Prop}
    (hbegin : P ⟨s, (List.range s.crew.workers).map (script s)⟩)
    (hturn : ∀ f k, P f → P (f.turn k)) :
    ∃ f, P f ∧ (∀ script ∈ f.scripts, script = []) ∧ f.scripts.length = s.crew.workers ∧
      s.phase script turns = f.shift := by
  refine ⟨_, Floor.play_induction hturn (Floor.play_induction hturn hbegin),
    (Floor.play_rest _).2, ?_, rfl⟩
  rw [Floor.length_scripts_play, Floor.length_scripts_play, List.length_map, List.length_range]

end Shift

/-! ## The order of the program -/

namespace Crew

/-- What workers never change: the number of leaves, the routes and their own number. -/
def shape (c : Crew τ σ) : Nat × List Route × Nat := (c.leaves.length, c.routes, c.workers)

@[simp] theorem shape_onLeaf (c : Crew τ σ) (i : Nat)
    (call : Leaf τ σ → World ω → Outcome (Leaf τ σ) ω) (w : World ω) :
    (c.onLeaf i call w).state.shape = c.shape := by
  unfold onLeaf
  split
  · rfl
  · simp only [Outcome.map, shape, List.length_set]

@[simp] theorem shape_deposit (c : Crew τ σ) (target : RouteTarget) (messages : List (Message τ)) :
    (c.deposit target messages).shape = c.shape := by
  cases target with
  | leaf p => simp only [deposit, shape, List.length_modify]
  | rootOutput p => rfl

/-- Calls in a row after one that stopped are not made. -/
theorem foldl_andThen {α : Type} {call : α → Crew τ σ → World ω → Outcome (Crew τ σ) ω}
    (xs : List α) (o : Outcome (Crew τ σ) ω) :
    xs.foldl (fun o x => o.andThen (call x)) o
      = o.andThen fun c w => xs.foldl (fun o x => o.andThen (call x)) (.done c w) := by
  induction xs generalizing o with
  | nil =>
      cases o with
      | mk c w stop => cases stop <;> rfl
  | cons x xs ih =>
      rw [List.foldl_cons, ih]
      cases o with
      | mk c w stop =>
          cases stop with
          | some stop => rfl
          | none =>
              show (call x c w).andThen _ = (Outcome.done c w).andThen _
              rw [Outcome.andThen_done, List.foldl_cons, Outcome.andThen_done, ih]

theorem onLeaves_cons (call : Leaf τ σ → World ω → Outcome (Leaf τ σ) ω) (c : Crew τ σ) (i : Nat)
    (places : List Nat) (w : World ω) :
    c.onLeaves call (i :: places) w
      = (c.onLeaf i call w).andThen fun c w => c.onLeaves call places w := by
  rw [onLeaves, List.foldl_cons, Outcome.andThen_done, foldl_andThen]
  rfl

/-- What a call on any leaf leaves alone, calls on several leaves do. -/
theorem onLeaves_keeps {α : Type} {f : Crew τ σ → α}
    {call : Leaf τ σ → World ω → Outcome (Leaf τ σ) ω}
    (hcall : ∀ c i w, f (onLeaf c i call w).state = f c) (places : List Nat) :
    ∀ (c : Crew τ σ) (w : World ω), f (c.onLeaves call places w).state = f c := by
  induction places with
  | nil => exact fun _ _ => rfl
  | cons i places ih =>
      intro c w
      rw [onLeaves_cons, Outcome.andThen]
      split
      · rw [ih, hcall]
      · exact hcall c i w

theorem shape_onLeaves (call : Leaf τ σ → World ω → Outcome (Leaf τ σ) ω) (places : List Nat)
    (c : Crew τ σ) (w : World ω) : (c.onLeaves call places w).state.shape = c.shape :=
  onLeaves_keeps (fun c i => shape_onLeaf c i call) places c w

/-- Following one route, as an outcome. -/
def followOne (r : Route) (c : Crew τ σ) (w : World ω) : Outcome (Crew τ σ) ω :=
  match c.follow r with
  | .error fault => .broken c w fault
  | .ok c => .done c w

theorem followAll_cons (c : Crew τ σ) (r : Route) (routes : List Route) (w : World ω) :
    c.followAll (r :: routes) w
      = (followOne r c w).andThen fun c w => c.followAll routes w := by
  rw [followAll, List.foldl_cons, Outcome.andThen_done]
  exact foldl_andThen routes (followOne r c w)

theorem shape_followOne (r : Route) (c : Crew τ σ) (w : World ω) :
    (followOne r c w).state.shape = c.shape := by
  unfold followOne follow
  cases transfer (c.sourceBag r.source) (c.targetBag r.target) with
  | error fault => rfl
  | ok messages => exact shape_deposit c r.target messages

theorem shape_followAll (routes : List Route) :
    ∀ (c : Crew τ σ) (w : World ω), (c.followAll routes w).state.shape = c.shape := by
  induction routes with
  | nil => exact fun _ _ => rfl
  | cons r routes ih =>
      intro c w
      rw [followAll_cons, Outcome.andThen]
      split
      · rw [ih, shape_followOne]
      · exact shape_followOne r c w

end Crew

namespace Shift

theorem shape_guarded {s : Shift τ σ ω} {work : Crew τ σ → World ω → Outcome (Crew τ σ) ω}
    {finish : Shift τ σ ω → Shift τ σ ω} (hwork : ∀ c w, (work c w).state.shape = c.shape)
    (hfinish : ∀ s, (finish s).crew = s.crew) :
    (s.guarded work finish).crew.shape = s.crew.shape := by
  cases hf : s.failure.isSet with
  | true => simp only [guarded, hf, if_true]
  | false =>
      cases ho : (work s.crew s.world).stop with
      | some stop => simpa only [guarded, hf, Bool.false_eq_true, if_false, ho] using hwork _ _
      | none =>
          simp only [guarded, hf, Bool.false_eq_true, if_false, ho]
          rw [hfinish]
          exact hwork _ _

/-- Where a worker is after an outcome: at the end of its script, or at `rest`. -/
def resume (s : Shift τ σ ω) (o : Outcome (Crew τ σ) ω)
    (rest : Shift τ σ ω → Shift τ σ ω × List (Task τ)) : Shift τ σ ω × List (Task τ) :=
  match o.stop with
  | some stop =>
    ({ s with crew := o.state, world := o.world, failure := s.failure.note stop }, [])
  | none => rest { s with crew := o.state, world := o.world }

theorem resume_andThen (s : Shift τ σ ω) (o : Outcome (Crew τ σ) ω)
    (next : Crew τ σ → World ω → Outcome (Crew τ σ) ω)
    (rest : Shift τ σ ω → Shift τ σ ω × List (Task τ)) :
    s.resume (o.andThen next) rest = s.resume o fun s => s.resume (next s.crew s.world) rest := by
  cases o with
  | mk c w stop =>
      cases stop with
      | some stop => rfl
      | none => rfl

/-- A worker whose work is guarded, as one who follows a script. -/
theorem guarded_eq_resume (s : Shift τ σ ω) (work : Crew τ σ → World ω → Outcome (Crew τ σ) ω)
    (finish : Shift τ σ ω → Shift τ σ ω) :
    s.guarded work finish
      = if s.failure.isSet then s
        else (s.resume (work s.crew s.world) fun s => (finish s, [])).1 := by
  cases ho : (work s.crew s.world).stop <;> simp only [guarded, resume, ho]

variable [AtomicModel τ σ] [Observer ω]

theorem solo_settle (s : Shift τ σ ω) (o : Outcome (Crew τ σ) ω) (worker n : Nat)
    (rest : List (Task τ)) :
    solo worker n (s.settle o rest) = s.resume o fun s => solo worker n (s, rest) := by
  unfold settle resume
  cases o.stop with
  | some stop => exact solo_nil worker n _
  | none => rfl

/-- A worker alone who calls leaves. -/
theorem solo_calls (c : LeafCall) (worker n : Nat) (tail : List (Task τ)) (places : List Nat) :
    ∀ s : Shift τ σ ω, solo worker (places.length + n) (s, places.map (.call c) ++ tail)
      = s.resume (s.crew.onLeaves c.perform places s.world) fun s => solo worker n (s, tail) := by
  induction places with
  | nil =>
      intro s
      rw [List.length_nil, Nat.zero_add]
      rfl
  | cons i places ih =>
      intro s
      rw [Crew.onLeaves_cons, resume_andThen, List.length_cons, Nat.add_right_comm]
      refine (solo_settle s _ worker _ _).trans ?_
      congr 1
      funext s
      exact ih s

/-- A worker alone who follows routes. -/
theorem solo_routes (worker : Nat) (routes : List Route) :
    ∀ s : Shift τ σ ω, solo worker (routes.length * 2) (s, routes.map .fetch)
      = s.resume (s.crew.followAll routes s.world) fun s => (s, []) := by
  induction routes with
  | nil => exact fun _ => rfl
  | cons r routes ih =>
      intro s
      have hdeliver : s.turn worker (.deliver r (s.crew.sourceBag r.source) :: routes.map .fetch)
          = s.settle (Crew.followOne r s.crew s.world) (routes.map .fetch) := by
        rw [turn, Crew.followOne, Crew.follow]
        cases transfer (s.crew.sourceBag r.source) (s.crew.targetBag r.target) <;> rfl
      rw [Crew.followAll_cons, resume_andThen, List.length_cons, Nat.add_mul]
      show solo worker (routes.length * 2) (s.turn worker
        (.deliver r (s.crew.sourceBag r.source) :: routes.map .fetch)) = _
      rw [hdeliver, solo_settle]
      congr 1
      funext s
      exact ih s

/-- A script begins with the question whether there was a failure. -/
theorem solo_enter (s : Shift τ σ ω) (worker n : Nat) (script : List (Task τ)) :
    (solo worker (n + 1) (s, .enter :: script)).1
      = if s.failure.isSet then s else (solo worker n (s, script)).1 := by
  rw [solo, turn]
  split
  · rw [solo_nil]
  · rfl

theorem turns_calls (c : LeafCall) (places : List Nat) (tail : List (Task τ)) :
    Task.turns (places.map (.call c) ++ tail) = places.length + Task.turns tail := by
  induction places with
  | nil => exact (Nat.zero_add _).symm
  | cons i places ih =>
      rw [List.map_cons, List.cons_append, Task.turns_cons, ih, Task.length, List.length_cons]
      omega

theorem turns_routes (routes : List Route) :
    Task.turns (routes.map .fetch : List (Task τ)) = routes.length * 2 := by
  induction routes with
  | nil => rfl
  | cons r routes ih =>
      rw [List.map_cons, Task.turns_cons, ih, Task.length, List.length_cons]
      omega

theorem turns_enter (script : List (Task τ)) :
    Task.turns (.enter :: script) = Task.turns script + 1 := by
  rw [Task.turns_cons, Task.length, Nat.add_comm]

omit [AtomicModel τ σ] [Observer ω] in
/-- The share of a worker depends on the shape of the crew only. -/
theorem leavesOf_congr {s s' : Shift τ σ ω} (h : s.crew.shape = s'.crew.shape) :
    s.leavesOf = s'.leavesOf := by
  rw [Crew.shape, Crew.shape, Prod.mk.injEq, Prod.mk.injEq] at h
  funext k
  rw [leavesOf, leavesOf, h.1, h.2.2]

/-- A worker who collects alone does the first phase of the program. -/
theorem solo_collectScript (t : Instant) (worker : Nat) (s : Shift τ σ ω) :
    (solo worker (Task.turns (s.collectScript t worker)) (s, s.collectScript t worker)).1
      = s.collect t worker := by
  have hcalls := solo_calls (.collect t) worker 0 ([] : List (Task τ)) (s.leavesOf worker) s
  rw [List.append_nil, Nat.add_zero] at hcalls
  have hturns := turns_calls (.collect t) (s.leavesOf worker) ([] : List (Task τ))
  rw [List.append_nil] at hturns
  rw [collectScript, turns_enter, solo_enter, hturns, collect, guarded_eq_resume]
  exact congrArg _ (congrArg Prod.fst hcalls)

/-- A worker who routes alone does the second phase of the program. -/
theorem solo_routeScript (worker : Nat) (s : Shift τ σ ω) :
    (solo worker (Task.turns (s.routeScript worker)) (s, s.routeScript worker)).1
      = s.route worker := by
  rw [routeScript, turns_enter, solo_enter, turns_routes, solo_routes, route, guarded_eq_resume]
  rfl

/-- A worker who advances alone does the third phase of the program. -/
theorem solo_advanceScript (t : Instant) (worker : Nat) (s : Shift τ σ ω) :
    (solo worker (Task.turns (s.advanceScript t worker)) (s, s.advanceScript t worker)).1
      = s.advance t worker := by
  have hcalls := solo_calls (.advance t) worker 1 [.note (s.leavesOf worker)]
    (s.leavesOf worker) s
  have hturns := turns_calls (.advance t) (s.leavesOf worker)
    [(.note (s.leavesOf worker) : Task τ)]
  have hleaves : ∀ (c : Crew τ σ) (w : World ω), c.shape = s.crew.shape →
      leavesOf { s with crew := c, world := w } worker = s.leavesOf worker :=
    fun _ _ h => congrFun (leavesOf_congr h) worker
  rw [advanceScript, turns_enter, solo_enter, hturns, advance, guarded_eq_resume]
  refine congrArg _ ((congrArg Prod.fst hcalls).trans ?_)
  unfold resume
  simp only [LeafCall.perform]
  cases (s.crew.onLeaves (Leaf.advance t) (s.leavesOf worker) s.world).stop with
  | some stop => rfl
  | none =>
      simp only [solo, turn]
      rw [hleaves _ _ (Crew.shape_onLeaves _ _ _ _)]

/-- **A phase in which nothing is said** about turns is that of the program. -/
theorem phase_eq_allWorkers {script : Shift τ σ ω → Nat → List (Task τ)}
    {work : Nat → Shift τ σ ω → Shift τ σ ω}
    (hscript : ∀ s s' : Shift τ σ ω, s.crew.shape = s'.crew.shape → script s = script s')
    (hshape : ∀ k s, (work k s).crew.shape = s.crew.shape)
    (hsolo : ∀ k s, (solo k (Task.turns (script s k)) (s, script s k)).1 = work k s)
    (s : Shift τ σ ω) : s.phase script [] = s.allWorkers work := by
  have hfold : ∀ (ks : List Nat) (s' : Shift τ σ ω), s'.crew.shape = s.crew.shape →
      ks.foldl (fun s' k => (solo k (Task.turns (script s k)) (s', script s k)).1) s'
        = ks.foldl (fun s k => work k s) s' := by
    intro ks
    induction ks with
    | nil => exact fun _ _ => rfl
    | cons k ks ih =>
        intro s' hs'
        have hfirst := hsolo k s'
        rw [hscript s' s hs'] at hfirst
        rw [List.foldl_cons, List.foldl_cons, hfirst]
        exact ih _ ((hshape k s').trans hs')
  rw [allWorkers, ← hfold _ s rfl]
  refine (Floor.play_rest ⟨s, (List.range s.crew.workers).map (script s)⟩).1.trans ?_
  rw [List.length_map, List.length_range]
  refine List.foldl_ext _ _ _ fun s' k hk => ?_
  rw [List.getElem?_map, List.getElem?_range (List.mem_range.mp hk), Option.map_some,
    Option.getD_some]

/-- A step in which nothing is said about turns is that of the program. -/
theorem step_eq_stepOn (t : Instant) (s : Shift τ σ ω) : s.step t = s.stepOn {} t := by
  have hcollect : ∀ s : Shift τ σ ω, s.phase (collectScript t) [] = s.allWorkers (collect t) := by
    refine phase_eq_allWorkers (fun s s' h => ?_) (fun k s => ?_) (solo_collectScript t)
    · funext k
      rw [collectScript, collectScript, leavesOf_congr h]
    · exact shape_guarded (Crew.shape_onLeaves _ _) fun _ => rfl
  have hroute : ∀ s : Shift τ σ ω, s.phase routeScript [] = s.allWorkers route := by
    refine phase_eq_allWorkers (fun s s' h => ?_) (fun k s => ?_) solo_routeScript
    · rw [Crew.shape, Crew.shape, Prod.mk.injEq, Prod.mk.injEq] at h
      funext k
      rw [routeScript, routeScript, routesOf, routesOf, h.2.1, h.2.2]
    · exact shape_guarded (Crew.shape_followAll _) fun _ => rfl
  have hadvance : ∀ s : Shift τ σ ω, s.phase (advanceScript t) [] = s.allWorkers (advance t) := by
    refine phase_eq_allWorkers (fun s s' h => ?_) (fun k s => ?_) (solo_advanceScript t)
    · funext k
      rw [advanceScript, advanceScript, leavesOf_congr h]
    · exact shape_guarded (Crew.shape_onLeaves _ _) fun _ => rfl
  rw [step, stepOn, hcollect, hroute, hadvance]

theorem run_eq_runOn [Supervisor π] (limit : Nat) :
    ∀ (s : Shift τ σ ω) (p : π), s.run limit p = s.runOn limit (fun _ => {}) p := by
  induction limit with
  | zero => exact fun _ _ => rfl
  | succ limit ih =>
      intro s p
      rw [run]
      simp only [step_eq_stepOn, ih]
      rfl

end Shift

/-- **A run of the program** is one in which nothing is said about turns. -/
theorem Crew.run_eq_runOn [AtomicModel τ σ] [Observer ω] [Supervisor π] (decisions : Nat)
    (c : Crew τ σ) (p : π) (w : World ω) :
    c.run decisions p w = c.runOn decisions (fun _ => {}) p w := by
  simp only [Crew.run, Crew.runOn, Shift.run_eq_runOn]

/-! ## What stays through a step -/

theorem Shift.crew_settle (s : Shift τ σ ω) (o : Outcome (Crew τ σ) ω) (rest : List (Task τ)) :
    (s.settle o rest).1.crew = o.state := by
  unfold settle
  split <;> rfl

variable [AtomicModel τ σ] [Observer ω]

/-- **A part of a crew that stays** whatever the workers and the leader do in a step. -/
structure Crew.Steady (ω : Type) [Observer ω] {α : Type} (f : Crew τ σ → α) : Prop where
  onLeaf : ∀ (call : LeafCall) (c : Crew τ σ) (i : Nat) (w : World ω),
    f (c.onLeaf i call.perform w).state = f c
  deposit : ∀ (c : Crew τ σ) (target : RouteTarget) (messages : List (Message τ)),
    f (c.deposit target messages) = f c
  /-- The times move on. -/
  times : ∀ (c : Crew τ σ) (last next : Instant) (initialized : Bool),
    f { c with last := last, next := next, initialized := initialized } = f c
  bags : ∀ (c : Crew τ σ) (inbox outbox : Bags τ),
    f { c with inbox := inbox, outbox := outbox } = f c

namespace Crew.Steady

variable {α : Type} {f : Crew τ σ → α}

theorem turn (h : Steady ω f) (k : Nat) (s : Shift τ σ ω) (script : List (Task τ)) :
    f (s.turn k script).1.crew = f s.crew := by
  cases script with
  | nil => rfl
  | cons task rest =>
      cases task with
      | enter => rfl
      | call c i =>
          rw [Shift.turn, Shift.crew_settle]
          exact h.onLeaf _ _ _ _
      | fetch r => rfl
      | deliver r copy =>
          rw [Shift.turn]
          split
          · rw [Shift.crew_settle]
            rfl
          · rw [Shift.crew_settle]
            exact h.deposit _ _ _
      | note places => rfl

theorem phase (h : Steady ω f) (script : Shift τ σ ω → Nat → List (Task τ)) (turns : List Nat)
    (s : Shift τ σ ω) : f (s.phase script turns).crew = f s.crew := by
  obtain ⟨g, hg, -, -, hphase⟩ := Shift.exists_phase_eq script turns (s := s)
    (P := fun g => f g.shift.crew = f s.crew) rfl fun g k hg => by
      unfold Floor.turn
      split
      · exact hg
      · exact (h.turn _ _ _).trans hg
  rw [hphase]
  exact hg

theorem close (h : Steady ω f) (c : Crew τ σ) (t next : Instant) (w : World ω) :
    f (c.close t next w).state = f c := by
  have hthen : ∀ (o : Outcome (Crew τ σ) ω) (next : Crew τ σ → World ω → Outcome (Crew τ σ) ω),
      f o.state = f c → (∀ w, f (next o.state w).state = f o.state) →
        f (o.andThen next).state = f c := by
    intro o next ho hnext
    unfold Outcome.andThen
    split
    · exact (hnext _).trans ho
    · exact ho
  refine hthen _ _ (h.times c t next c.initialized) fun w => ?_
  unfold Outcome.andThen
  split
  · exact h.bags _ _ _
  · rfl

theorem stepOn (h : Steady ω f) (table : Timetable) (t : Instant) (s : Shift τ σ ω) :
    f (s.stepOn table t).crew = f s.crew := by
  rw [Shift.stepOn]
  exact (h.close _ _ _ _).trans
    ((h.phase _ _ _).trans ((h.phase _ _ _).trans (h.phase _ _ _)))

theorem runOn [Supervisor π] (h : Steady ω f) {limit : Nat} :
    ∀ {plan : Nat → Timetable} {s : Shift τ σ ω} {p : π} {o : Outcome (Crew τ σ × π) ω},
      s.runOn limit plan p = some o → f o.state.1 = f s.crew := by
  induction limit with
  | zero => exact fun ho => nomatch ho
  | succ limit ih =>
      intro plan s p o ho
      simp only [Shift.runOn] at ho
      split at ho
      · cases ho
        rfl
      · split at ho
        · split at ho
          · cases ho
            exact h.stepOn _ _ _
          · split at ho
            · cases ho
              exact h.stepOn _ _ _
            · exact (ih ho).trans (h.stepOn _ _ _)
        · cases ho
          rfl

end Crew.Steady

theorem Crew.steady_shape : Steady ω (shape : Crew τ σ → _) where
  onLeaf call c i w := shape_onLeaf c i call.perform w
  deposit := shape_deposit
  times _ _ _ _ := rfl
  bags _ _ _ := rfl

end DiscreteEvent
