/-
Who does what in a phase.

A phase is what the workers do in turns. Its chronicle (`Shift.chronicle`) says for every turn
who took it and which task was done in it. From the chronicle one can see what each worker has
done, and a turn keeps the balance: what a worker has done and what it has still in front of it
is what its script had in store, unless it was stopped and the rest was dropped, and then there
is a failure (`Floor.balance_turn`). Hence nobody does anything but its own share, in order
and without repeating a thing, and in a phase without failure everybody does all of it
(`Shift.phase_shared`).

For the leaves and the routes of a crew this means that in every phase each of them is
somebody's work, once (`SharedStep`), and since everybody notes the earliest event of its own
leaves, every leaf counts for one note (`Shift.Manned.sharedStep`).
-/
import DiscreteEvent.Proofs.Flat.Aborted
import DiscreteEvent.Proofs.Flat.Failing
import DiscreteEvent.Proofs.Flat.Share
import DiscreteEvent.Proofs.Components.Doubler

set_option autoImplicit false

namespace DiscreteEvent

variable {τ σ ω α : Type} [MessageType τ]

/-! ## The things that tasks are about -/

namespace Task

/-- The leaf that is called, and how. -/
def call? : Task τ → Option (LeafCall × Nat)
  | .call c i => some (c, i)
  | _ => none

/-- The route whose beginning is copied. -/
def fetch? : Task τ → Option Route
  | .fetch r => some r
  | _ => none

/-- The route at whose end messages are added. -/
def delivery? : Task τ → Option Route
  | .deliver r _ => some r
  | _ => none

/-- The leaves among which the earliest event is noted. -/
def note? : Task τ → Option (List Nat)
  | .note places => some places
  | _ => none

/-- **What a task has in store**. To copy a route has its delivery in store, too. -/
def store (item : Task τ → Option α) : Task τ → List α
  | .fetch r => (item (.fetch r)).toList ++ (item (.deliver r none)).toList
  | task => (item task).toList

/-- What a delivery is about does not depend on what is delivered. -/
def Blind (item : Task τ → Option α) : Prop :=
  ∀ r copy, item (.deliver r copy) = item (.deliver r none)

end Task

/-! ## The chronicle of a phase -/

/-- What worker `k` has done, by a chronicle. -/
def doneBy (item : Task τ → Option α) (k : Nat) (log : List (Nat × Task τ)) : List α :=
  (log.filter (·.1 == k)).filterMap (item ·.2)

namespace Floor

/-- The task that a worker has in front of it. -/
def task? (f : Floor τ σ ω) (k : Nat) : Option (Task τ) := (f.scripts[k]?.getD []).head?

/-- What the script of a worker has in store. -/
def ahead (item : Task τ → Option α) (f : Floor τ σ ω) (k : Nat) : List α :=
  (f.scripts[k]?.getD []).flatMap (Task.store item)

variable [AtomicModel τ σ] [Observer ω]

/-- **Who does which task**, turn by turn. -/
def chronicle (f : Floor τ σ ω) : List Nat → List (Nat × Task τ)
  | [] => []
  | k :: turns => ((f.task? k).map (k, ·)).toList ++ (f.turn k).chronicle turns

end Floor

/-- **The chronicle of a phase**, up to its end. -/
def Shift.chronicle [AtomicModel τ σ] [Observer ω] (script : Shift τ σ ω → Nat → List (Task τ))
    (turns : List Nat) (s : Shift τ σ ω) : List (Nat × Task τ) :=
  let f := Floor.mk s ((List.range s.crew.workers).map (script s))
  f.chronicle (turns ++ (f.play turns).rest)

theorem doneBy_append (item : Task τ → Option α) (k : Nat) (log log' : List (Nat × Task τ)) :
    doneBy item k (log ++ log') = doneBy item k log ++ doneBy item k log' := by
  rw [doneBy, List.filter_append, List.filterMap_append, doneBy, doneBy]

theorem doneBy_self (item : Task τ → Option α) (k : Nat) (task : Task τ) :
    doneBy item k [(k, task)] = (item task).toList := by
  simp only [doneBy, List.filter_cons, List.filter_nil, beq_self_eq_true, if_true,
    List.filterMap_cons, List.filterMap_nil]
  cases item task <;> rfl

theorem doneBy_of_ne {item : Task τ → Option α} {k : Nat} {log : List (Nat × Task τ)}
    (h : ∀ e ∈ log, e.1 ≠ k) : doneBy item k log = [] := by
  rw [doneBy, List.filter_eq_nil_iff.mpr fun e he => by simp [h e he], List.filterMap_nil]

/-- **All that is done is done by some worker.** -/
theorem perm_doneBy (item : Task τ → Option α) {workers : Nat} {log : List (Nat × Task τ)}
    (h : ∀ e ∈ log, e.1 < workers) :
    (log.filterMap (item ·.2)).Perm ((List.range workers).flatMap (doneBy item · log)) := by
  have hall : (log.filter fun e => (List.range workers).contains e.1) = log :=
    List.filter_eq_self.mpr fun e he => by simpa using h e he
  have hgroups := (flatMap_filter_perm (·.1) log (List.nodup_range (n := workers))).filterMap
    (item ·.2)
  rw [hall, List.filterMap_flatMap] at hgroups
  exact hgroups.symm

/-! ## The balance of a worker -/

namespace Shift

variable [AtomicModel τ σ] [Observer ω]

omit [AtomicModel τ σ] [Observer ω] in
theorem isSet_settle {s : Shift τ σ ω} (o : Outcome (Crew τ σ) ω) (rest : List (Task τ))
    (h : s.failure.isSet = true) : (s.settle o rest).1.failure.isSet = true := by
  unfold settle
  split
  · exact Failure.isSet_note _ _
  · exact h

/-- A failure is not forgotten. -/
theorem isSet_turn {s : Shift τ σ ω} (k : Nat) (script : List (Task τ))
    (h : s.failure.isSet = true) : (s.turn k script).1.failure.isSet = true := by
  cases script with
  | nil => exact h
  | cons task rest =>
      cases task with
      | enter => exact h
      | call c i => exact isSet_settle _ _ h
      | fetch r => exact h
      | deliver r copy =>
          rw [turn]
          split
          · exact isSet_settle _ _ h
          · exact isSet_settle _ _ h
      | note places => exact h

omit [AtomicModel τ σ] [Observer ω] in
/-- After a task a script goes on, or the rest of it is dropped and there is a failure. -/
theorem settle_dropped (s : Shift τ σ ω) (o : Outcome (Crew τ σ) ω) (rest : List (Task τ)) :
    (s.settle o rest).2 = rest ∨
      (s.settle o rest).2 = [] ∧ (s.settle o rest).1.failure.isSet = true := by
  unfold settle
  split
  · exact .inr ⟨rfl, Failure.isSet_note _ _⟩
  · exact .inl rfl

/-- **The balance of a turn**: what the script had in store is what was done in the turn,
what is still in front of the worker, and what was dropped because there is a failure. -/
theorem balance_turn {item : Task τ → Option α} (hitem : Task.Blind item) (k : Nat)
    (s : Shift τ σ ω) (task : Task τ) (rest : List (Task τ)) :
    ∃ dropped, (task :: rest).flatMap (Task.store item)
        = (item task).toList ++ ((s.turn k (task :: rest)).2.flatMap (Task.store item) ++ dropped) ∧
      (dropped = [] ∨ (s.turn k (task :: rest)).1.failure.isSet = true) := by
  -- What holds of a task that stores nothing but itself, if the rest stays or is dropped.
  have hfirst : ∀ x : Shift τ σ ω × List (Task τ), Task.store item task = (item task).toList →
      x.2 = rest ∨ x.2 = [] ∧ x.1.failure.isSet = true →
      ∃ dropped, (task :: rest).flatMap (Task.store item)
          = (item task).toList ++ (x.2.flatMap (Task.store item) ++ dropped) ∧
        (dropped = [] ∨ x.1.failure.isSet = true) := by
    intro x hstore hx
    rw [List.flatMap_cons, hstore]
    rcases hx with hx | ⟨hx, hfailed⟩
    · exact ⟨[], by rw [hx, List.append_nil], .inl rfl⟩
    · exact ⟨rest.flatMap (Task.store item), by rw [hx, List.flatMap_nil, List.nil_append],
        .inr hfailed⟩
  cases task with
  | enter =>
      refine hfirst _ rfl ?_
      rw [turn]
      split
      · rename_i hset
        exact .inr ⟨rfl, hset⟩
      · exact .inl rfl
  | call c i => exact hfirst _ rfl (settle_dropped _ _ _)
  | fetch r =>
      refine ⟨[], ?_, .inl rfl⟩
      have hstore : Task.store item (.deliver r (s.crew.sourceBag r.source))
          = (item (.deliver r none)).toList := congrArg Option.toList (hitem r _)
      rw [turn, List.flatMap_cons, List.flatMap_cons, List.append_nil, hstore, Task.store,
        List.append_assoc]
  | deliver r copy =>
      refine hfirst _ rfl ?_
      rw [turn]
      split
      · exact settle_dropped _ _ _
      · exact settle_dropped _ _ _
  | note places => exact hfirst _ rfl (.inl rfl)

end Shift

namespace Floor

variable [AtomicModel τ σ] [Observer ω]

theorem isSet_turn {f : Floor τ σ ω} (k : Nat) (h : f.shift.failure.isSet = true) :
    (f.turn k).shift.failure.isSet = true := by
  unfold turn
  split
  · exact h
  · exact Shift.isSet_turn k _ h

/-- **The balance of worker `k` after a turn**, whoever took it. -/
theorem balance_turn {item : Task τ → Option α} (hitem : Task.Blind item) (f : Floor τ σ ω)
    (j k : Nat) :
    ∃ dropped, f.ahead item k
        = doneBy item k ((f.task? j).map (j, ·)).toList ++ ((f.turn j).ahead item k ++ dropped) ∧
      (dropped = [] ∨ (f.turn j).shift.failure.isSet = true) := by
  cases hj : f.scripts[j]? with
  | none =>
      refine ⟨[], ?_, .inl rfl⟩
      rw [turn, task?, hj, List.append_nil]
      rfl
  | some script =>
      rw [turn_eq hj, task?, hj, Option.getD_some]
      by_cases hjk : j = k
      · subst hjk
        have hlt := (List.getElem?_eq_some_iff.mp hj).1
        rw [ahead, ahead, hj, Option.getD_some]
        dsimp only
        rw [List.getElem?_set_self hlt, Option.getD_some]
        cases script with
        | nil => exact ⟨[], rfl, .inl rfl⟩
        | cons task rest =>
            rw [List.head?_cons, Option.map_some, Option.toList_some, doneBy_self]
            exact Shift.balance_turn hitem j f.shift task rest
      · refine ⟨[], ?_, .inl rfl⟩
        have hnothing : doneBy item k ((script.head?).map (j, ·)).toList = [] :=
          doneBy_of_ne fun e he => by
            obtain ⟨task, -, rfl⟩ := Option.map_eq_some_iff.mp (Option.mem_toList.mp he)
            exact hjk
        rw [hnothing, List.nil_append, List.append_nil, ahead, ahead]
        dsimp only
        rw [List.getElem?_set_ne hjk]

/-- **The balance of worker `k` after many turns.** -/
theorem balance_play {item : Task τ → Option α} (hitem : Task.Blind item) (k : Nat)
    (turns : List Nat) : ∀ f : Floor τ σ ω,
      ∃ dropped, f.ahead item k
          = doneBy item k (f.chronicle turns) ++ ((f.play turns).ahead item k ++ dropped) ∧
        (dropped = [] ∨ (f.play turns).shift.failure.isSet = true) := by
  induction turns with
  | nil => exact fun f => ⟨[], (List.append_nil _).symm, .inl rfl⟩
  | cons j turns ih =>
      intro f
      obtain ⟨now, hnow, hfailed⟩ := f.balance_turn hitem j k
      obtain ⟨later, hlater, hfailed'⟩ := ih (f.turn j)
      have hplay : f.play (j :: turns) = (f.turn j).play turns := rfl
      refine ⟨later ++ now, ?_, ?_⟩
      · rw [chronicle, doneBy_append, hnow, hlater, hplay]
        simp only [List.append_assoc]
      · rw [hplay]
        rcases hfailed with rfl | hset
        · rw [List.append_nil]
          exact hfailed'
        · exact .inr (play_induction (P := fun f => f.shift.failure.isSet = true)
            (fun _ i h => isSet_turn i h) hset)

omit [AtomicModel τ σ] [Observer ω] in
/-- Where all scripts are done, nobody has anything in store. -/
theorem ahead_of_done {f : Floor τ σ ω} (h : ∀ script ∈ f.scripts, script = [])
    (item : Task τ → Option α) (k : Nat) : f.ahead item k = [] := by
  rw [ahead]
  cases hscript : f.scripts[k]? with
  | none => rfl
  | some script =>
      rw [h script (List.mem_of_getElem? hscript)]
      rfl

/-- Only workers who have a script take part. -/
theorem lt_of_mem_chronicle {turns : List Nat} {e : Nat × Task τ} :
    ∀ {f : Floor τ σ ω}, e ∈ f.chronicle turns → e.1 < f.scripts.length := by
  induction turns with
  | nil => exact fun h => absurd h List.not_mem_nil
  | cons k turns ih =>
      intro f h
      rcases List.mem_append.mp h with h | h
      · obtain ⟨task, htask, rfl⟩ := Option.map_eq_some_iff.mp (Option.mem_toList.mp h)
        by_contra hlt
        rw [task?, List.getElem?_eq_none (Nat.le_of_not_lt hlt)] at htask
        cases htask
      · exact (ih h).trans_eq (length_scripts_turn f k)

end Floor

/-! ## Shared phases -/

/-- **Work that is shared out**, by a chronicle: everybody does its own share from its beginning
on, and nothing else. If there is no failure everybody does all of it, so that everything that
there was to do has been done once. -/
structure SharedOut (item : Task τ → Option α) (share : Nat → List α) (workers : Nat)
    (log : List (Nat × Task τ)) (failed : Bool) : Prop where
  own : ∀ k < workers, doneBy item k log <+: share k
  nobody : ∀ k, workers ≤ k → doneBy item k log = []
  complete : failed = false → ∀ k < workers, doneBy item k log = share k
  once : failed = false → (log.filterMap (item ·.2)).Perm ((List.range workers).flatMap share)

namespace Shift

variable [AtomicModel τ σ] [Observer ω]

/-- **The balance of worker `k` after a phase**: at the end nobody has anything in front of it, so
its share was done or dropped. -/
theorem balance_phase {item : Task τ → Option α} (hitem : Task.Blind item)
    (script : Shift τ σ ω → Nat → List (Task τ)) (s : Shift τ σ ω) (turns : List Nat) {k : Nat}
    (hk : k < s.crew.workers) :
    ∃ dropped, (script s k).flatMap (Task.store item)
        = doneBy item k (s.chronicle script turns) ++ dropped ∧
      (dropped = [] ∨ (s.phase script turns).failure.isSet = true) := by
  obtain ⟨dropped, hdropped, hfailed⟩ := Floor.balance_play hitem k
    (turns ++ (Floor.play ⟨s, (List.range s.crew.workers).map (script s)⟩ turns).rest)
    ⟨s, (List.range s.crew.workers).map (script s)⟩
  have hdone := (Floor.play_rest
    (Floor.play ⟨s, (List.range s.crew.workers).map (script s)⟩ turns)).2
  rw [Floor.play_append] at hdropped hfailed
  rw [Floor.ahead_of_done hdone, List.nil_append, Floor.ahead, List.getElem?_map,
    List.getElem?_range hk, Option.map_some, Option.getD_some] at hdropped
  exact ⟨dropped, hdropped, hfailed⟩

/-- **What is done in a phase**, in any order of turns and whatever the models do. -/
theorem phase_shared {item : Task τ → Option α} (hitem : Task.Blind item)
    {script : Shift τ σ ω → Nat → List (Task τ)} {s : Shift τ σ ω} {share : Nat → List α}
    (hshare : ∀ k, (script s k).flatMap (Task.store item) = share k) (turns : List Nat) :
    SharedOut item share s.crew.workers (s.chronicle script turns)
      (s.phase script turns).failure.isSet := by
  have hworkers : ∀ e ∈ s.chronicle script turns, e.1 < s.crew.workers := by
    intro e he
    have hlt := Floor.lt_of_mem_chronicle he
    rwa [List.length_map, List.length_range] at hlt
  have hcomplete : (s.phase script turns).failure.isSet = false →
      ∀ k < s.crew.workers, doneBy item k (s.chronicle script turns) = share k := by
    intro hset k hk
    obtain ⟨dropped, hdropped, rfl | hfailed⟩ := balance_phase hitem script s turns hk
    · rw [← hshare, hdropped, List.append_nil]
    · rw [hset] at hfailed
      cases hfailed
  refine ⟨fun k hk => ?_, fun k hk => ?_, hcomplete, fun hset => ?_⟩
  · obtain ⟨dropped, hdropped, -⟩ := balance_phase hitem script s turns hk
    exact ⟨dropped, hdropped.symm.trans (hshare k)⟩
  · exact doneBy_of_ne fun e he => Nat.ne_of_lt (Nat.lt_of_lt_of_le (hworkers e he) hk)
  · refine (perm_doneBy item hworkers).trans (List.Perm.of_eq ?_)
    exact List.flatMap_congr fun k hk => hcomplete hset k (List.mem_range.mp hk)

end Shift

/-! ## Shared steps -/

section Steps

variable {c : Crew τ σ} {s : Shift τ σ ω}

/-- **A shift of the crew `c`** has its leaves, its routes and its workers, and keeps a note for
each worker. -/
structure Shift.Manned (s : Shift τ σ ω) (c : Crew τ σ) : Prop where
  shape : s.crew.shape = c.shape
  length_minima : s.minima.length = c.workers

variable [AtomicModel τ σ] [Observer ω]

/-- **A step that is shared out**, phase by phase: every leaf is called by the worker who has it,
every route is copied and delivered by the worker who has it, and everybody notes the earliest
event of its own leaves. -/
structure Shift.SharedStep (s : Shift τ σ ω) (table : Timetable) (t : Instant) : Prop where
  collect : SharedOut Task.call? (fun k => (s.leavesOf k).map (.collect t, ·)) s.crew.workers
    (s.chronicle (collectScript t) table.collect)
    (s.phase (collectScript t) table.collect).failure.isSet
  fetch : SharedOut Task.fetch? s.routesOf s.crew.workers
    ((s.phase (collectScript t) table.collect).chronicle routeScript table.route)
    (s.prepared table t).failure.isSet
  deliver : SharedOut Task.delivery? s.routesOf s.crew.workers
    ((s.phase (collectScript t) table.collect).chronicle routeScript table.route)
    (s.prepared table t).failure.isSet
  advance : SharedOut Task.call? (fun k => (s.leavesOf k).map (.advance t, ·)) s.crew.workers
    ((s.prepared table t).chronicle (advanceScript t) table.advance)
    (s.worked table t).failure.isSet
  note : SharedOut Task.note? (fun k => [s.leavesOf k]) s.crew.workers
    ((s.prepared table t).chronicle (advanceScript t) table.advance)
    (s.worked table t).failure.isSet
  minima : (s.worked table t).failure.isSet = false → (s.worked table t).minima
    = (List.range s.crew.workers).map fun k =>
        Shift.earliestOf (s.worked table t).crew (s.leavesOf k)

namespace Shift

omit [AtomicModel τ σ] [Observer ω] in
theorem Manned.workers (h : s.Manned c) : s.crew.workers = c.workers :=
  congrArg (·.2.2) h.shape

omit [AtomicModel τ σ] [Observer ω] in
/-- Everybody begins with a shift of the crew, whatever has become of its leaves. -/
theorem manned_begin {c' : Crew τ σ} (h : c'.shape = c.shape) (w : World ω) :
    (begin c' w).Manned c :=
  ⟨h, List.length_replicate.trans (congrArg (·.2.2) h)⟩

/-- **A step leaves a shift of the same crew.** -/
theorem Manned.stepOn (h : s.Manned c) (hw : 0 < c.workers) (table : Timetable) (t : Instant) :
    (s.stepOn table t).Manned c := by
  have hworkers := h.workers
  obtain ⟨-, -, hlength, -⟩ :=
    worked_fates t table (hworkers.symm ▸ hw) (h.length_minima.trans hworkers.symm)
  exact ⟨(Crew.steady_shape.stepOn table t s).trans h.shape, hlength.trans hworkers⟩

omit [AtomicModel τ σ] [Observer ω] in
/-- What tasks have in store that are about one thing each. -/
theorem flatMap_store_map {β : Type} {item : Task τ → Option α} {f : β → Task τ} {g : β → α}
    (h : ∀ x, Task.store item (f x) = [g x]) (xs : List β) :
    (xs.map f).flatMap (Task.store item) = xs.map g := by
  rw [List.flatMap_map, List.map_eq_flatMap]
  exact List.flatMap_congr fun x _ => h x

/-- **If nobody has failed**, everybody has come to its end and made its note. -/
theorem Manned.minima_worked (h : s.Manned c) (hw : 0 < c.workers) (table : Timetable)
    (t : Instant) (hdone : (s.worked table t).failure.isSet = false) :
    (s.worked table t).minima = (List.range s.crew.workers).map fun k =>
      earliestOf (s.worked table t).crew (s.leavesOf k) := by
  obtain ⟨finished, hfates, hlength, -, hfailure, -⟩ :=
    worked_fates t table (h.workers.symm ▸ hw) (h.length_minima.trans h.workers.symm)
  refine List.ext_getElem? fun k => ?_
  rw [List.getElem?_map]
  by_cases hk : k < s.crew.workers
  · have hfinished : finished k = true := by
      by_contra hfalse
      rw [hfailure.mpr ⟨k, hk, Bool.eq_false_iff.mpr hfalse⟩] at hdone
      cases hdone
    rw [(hfates k hk).2, if_pos hfinished, List.getElem?_range hk, Option.map_some]
  · rw [List.getElem?_eq_none (by omega), List.getElem?_eq_none, Option.map_none]
    rw [List.length_range]
    omega

/-- **Every step is shared out**, in any order of turns and whatever the models do. -/
theorem Manned.sharedStep (h : s.Manned c) (hw : 0 < c.workers) (table : Timetable)
    (t : Instant) : s.SharedStep table t := by
  have hcollected := Crew.steady_shape.phase (collectScript t) table.collect s
  have hprepared := steady_prepared Crew.steady_shape table t s
  have hworkers := h.workers
  -- The shares are those of the beginning of the step.
  have hroutes : (s.phase (collectScript t) table.collect).routesOf = s.routesOf := by
    rw [Crew.shape, Crew.shape, Prod.mk.injEq, Prod.mk.injEq] at hcollected
    funext k
    rw [routesOf, routesOf, hcollected.2.1, hcollected.2.2]
  have hleaves : (s.prepared table t).leavesOf = s.leavesOf := leavesOf_congr hprepared
  have hrouting : (s.phase (collectScript t) table.collect).crew.workers = s.crew.workers :=
    congrArg (·.2.2) hcollected
  have hadvancing : (s.prepared table t).crew.workers = s.crew.workers :=
    congrArg (·.2.2) hprepared
  -- Each route is fetched and delivered, which is counted in the same way.
  have hroute : ∀ {item : Task τ → Option Route}, Task.Blind item →
      Task.store item .enter = [] → (∀ r, Task.store item (.fetch r) = [r]) →
      SharedOut item s.routesOf s.crew.workers
        ((s.phase (collectScript t) table.collect).chronicle routeScript table.route)
        (s.prepared table t).failure.isSet := by
    intro item hitem henter hfetch
    rw [← hrouting, ← hroutes]
    refine phase_shared hitem (fun k => ?_) table.route
    rw [routeScript, List.flatMap_cons, henter, List.nil_append]
    exact (flatMap_store_map hfetch _).trans (List.map_id _)
  refine ⟨phase_shared (fun _ _ => rfl) (fun k => ?_) table.collect, ?_, ?_, ?_, ?_,
    fun hdone => ?_⟩
  · rw [collectScript, List.flatMap_cons]
    exact flatMap_store_map (fun _ => rfl) _
  · exact hroute (fun _ _ => rfl) rfl fun _ => rfl
  · exact hroute (fun _ _ => rfl) rfl fun _ => rfl
  · rw [← hadvancing, ← hleaves]
    refine phase_shared (fun _ _ => rfl) (fun k => ?_) table.advance
    rw [advanceScript, List.flatMap_cons, List.flatMap_append,
      flatMap_store_map (g := (.advance t, ·)) fun _ => rfl]
    exact List.append_nil _
  · rw [← hadvancing, ← hleaves]
    refine phase_shared (fun _ _ => rfl) (fun k => ?_) table.advance
    have hcalls : (((s.prepared table t).leavesOf k).map fun i =>
        (.call (.advance t) i : Task τ)).flatMap (Task.store Task.note?) = [] := by
      rw [List.flatMap_map]
      exact List.flatMap_eq_nil_iff.mpr fun _ _ => rfl
    rw [advanceScript, List.flatMap_cons, List.flatMap_append, hcalls]
    rfl
  · exact h.minima_worked hw table t hdone

end Shift

/-- **The work is shared out exactly.** Computed on machine words, the shares of any number of
items among any number of workers are fair, if the product of the two is a word. Nothing
that is computed for them is more than a word, and they are the shares that a crew uses. A crew has
a worker, and every worker has a leaf if there is one. And in each step of a run, whatever the
models do and whoever takes the next turn, the shares of the workers are all leaves and all routes,
everybody does its own share and nothing else, and if nobody fails, everything is done once and
each leaf counts for the note of the one worker who has it. -/
theorem Crew.work_shared_exactly :
    (∀ count workers : USize, 0 < workers → workers.toNat * count.toNat < USize.size →
      Share.Fair count.toNat workers.toNat (fun w =>
        ((Share.boundsOnWords count workers (.ofNat w)).1.toNat,
          (Share.boundsOnWords count workers (.ofNat w)).2.toNat)) ∧
      ∀ worker < workers, (worker * count).toNat = worker.toNat * count.toNat ∧
        ((worker + 1) * count).toNat = (worker.toNat + 1) * count.toNat ∧
        Share.items count.toNat workers.toNat worker.toNat
          = List.range' (Share.boundsOnWords count workers worker).1.toNat
              ((Share.boundsOnWords count workers worker).2.toNat
                - (Share.boundsOnWords count workers worker).1.toNat)) ∧
    ∀ (m : Model τ σ) (wished : Nat), let c := ofModel wished m
      1 ≤ c.workers ∧
      (0 < c.leaves.length → ∀ k < c.workers,
        0 < (Share.items c.leaves.length c.workers k).length) ∧
      (∀ (c' : Crew τ σ) (w : World ω), c'.Driven ω m wished → (Shift.begin c' w).Manned c) ∧
      ∀ s : Shift τ σ ω, s.Manned c →
        (∀ w : World ω, { s with world := w }.Manned c) ∧
        (∀ k, s.leavesOf k = Share.items c.leaves.length c.workers k) ∧
        (List.range c.workers).flatMap s.leavesOf = List.range c.leaves.length ∧
        (∀ i < c.leaves.length, ∃! k, k < c.workers ∧ i ∈ s.leavesOf k) ∧
        (List.range c.workers).flatMap s.routesOf = c.routes ∧
        ∀ (table : Timetable) (t : Instant), (s.stepOn table t).Manned c ∧ s.SharedStep table t := by
  refine ⟨fun count workers hpos hsize => ⟨Share.fair_boundsOnWords hpos hsize,
    fun worker hworker => ⟨?_, ?_, Share.items_eq_boundsOnWords hsize hworker⟩⟩,
    fun m wished => ?_⟩
  · exact Share.toNat_mul_of_le hsize (USize.lt_iff_toNat_lt.mp hworker).le (Nat.le_refl _)
  · rw [Share.toNat_mul_of_le hsize _ (Nat.le_refl _), Share.toNat_succ hworker]
    rw [Share.toNat_succ hworker]
    exact USize.lt_iff_toNat_lt.mp hworker
  · intro c
    have hw : 0 < c.workers := Share.workers_pos _ _
    refine ⟨hw, fun hleaf k _ => Share.length_items_pos hw (Share.workers_le hleaf) k,
      fun c' w hc' => Shift.manned_begin hc'.shape w, fun s hs => ?_⟩
    have hleaves : s.leavesOf = Share.items c.leaves.length c.workers := by
      have hlength : s.crew.leaves.length = c.leaves.length := congrArg Prod.fst hs.shape
      funext k
      rw [Shift.leavesOf, hlength, hs.workers]
    have hroutes : s.crew.routes = c.routes := congrArg (·.2.1) hs.shape
    refine ⟨fun _ => ⟨hs.shape, hs.length_minima⟩, congrFun hleaves, ?_, fun i hi => ?_, ?_,
      fun table t => ⟨hs.stepOn hw table t, hs.sharedStep hw table t⟩⟩
    · rw [hleaves]
      exact Share.flatMap_items hw
    · rw [hleaves]
      obtain ⟨k, hk, hmem⟩ := (Share.mem_items_iff hw).mpr hi
      refine ⟨k, ⟨hk, hmem⟩, fun k' hk' => ?_⟩
      by_contra hne
      exact Share.not_mem_items hne hk'.2 hmem
    · rw [← hroutes, ← hs.workers]
      exact s.flatMap_routesOf (hs.workers.symm ▸ hw)

end Steps

/-- Ten items among three workers, and the three leaves of a tower among two. In the first step
the second worker calls both of its leaves before the first one begins. -/
theorem Crew.work_shared_exactly_tower :
    let w : World Unobserved := ⟨⟨⟩, false⟩
    let c : Crew Payload Doubler := ofModel 2 Doubler.tower
    let s : Shift Payload Doubler Unobserved := .begin (c.init .epoch w).state w
    let t : Instant := ⟨2, 0, by decide⟩
    let table : Timetable := { collect := [1, 1, 1] }
    let log := s.chronicle (Shift.collectScript t) table.collect
    (0 < (3 : USize) ∧ (3 : USize).toNat * (10 : USize).toNat < USize.size ∧
      (c.init .epoch w).state.Driven Unobserved Doubler.tower 2 ∧ s.Manned c ∧ s.crew.next = t ∧
      (s.phase (Shift.collectScript t) table.collect).failure.isSet = false) ∧
    Share.Fair (10 : USize).toNat (3 : USize).toNat (fun w =>
      ((Share.boundsOnWords 10 3 (.ofNat w)).1.toNat,
        (Share.boundsOnWords 10 3 (.ofNat w)).2.toNat)) ∧
    ((List.range c.workers).map s.leavesOf = [[0], [1, 2]] ∧
      (List.range c.workers).flatMap s.routesOf = c.routes) ∧
    (log.filterMap fun e => e.2.call?.map fun call => (e.1, call.2)) = [(1, 1), (1, 2), (0, 0)] ∧
    doneBy Task.call? 1 log = (s.leavesOf 1).map (.collect t, ·) := by
  intro w c s t table log
  obtain ⟨hwords, hcrew⟩ := work_shared_exactly (τ := Payload) (σ := Doubler) (ω := Unobserved)
  obtain ⟨-, -, hbegin, hshift⟩ := hcrew Doubler.tower 2
  have hthree : (3 : USize).toNat = 3 := USize.toNat_ofNat_of_lt_32 (by decide)
  have hten : (10 : USize).toNat = 10 := USize.toNat_ofNat_of_lt_32 (by decide)
  have hpos : 0 < (3 : USize) := by
    rw [USize.lt_iff_toNat_lt, hthree]
    exact Nat.zero_lt_succ 2
  have hsize : (3 : USize).toNat * (10 : USize).toNat < USize.size := by
    rw [hthree, hten]
    exact Nat.lt_of_lt_of_le (by decide) USize.le_size
  have hdriven : (c.init .epoch w).state.Driven Unobserved Doubler.tower 2 := .init .create
  have hmanned : s.Manned c := hbegin _ w hdriven
  have hdone : (s.phase (Shift.collectScript t) table.collect).failure.isSet = false := by
    decide +kernel
  obtain ⟨-, -, -, -, hroutes, hstep⟩ := hshift s hmanned
  exact ⟨⟨hpos, hsize, hdriven, hmanned, by decide +kernel, hdone⟩, (hwords 10 3 hpos hsize).1,
    ⟨by decide +kernel, hroutes⟩, by decide +kernel,
    (hstep table t).2.collect.complete hdone 1 (by decide)⟩

end DiscreteEvent
