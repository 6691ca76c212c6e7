/-
Who says what in a flat engine.

The leaves of a crew are called by its workers, turn by turn, and the root speaks where the
leader reports. So a record or a refusal is again that of an engine at an address: the root has
the empty one, and a leaf its number. `Floor.Says` follows the turns of a phase,
`Shift.StepSays` the phases of a step and `Shift.RunSays` the steps of a run, in whatever order
the workers take their turns.

The workers share one file of records and one note of the first refusal, which outlives the turn
in which it was made. What has been added to both of them from one moment to another is
accounted for by those who spoke in between (`Shift.Accounted`); this holds for a single turn
(`Shift.accounted_turn`) and goes through phases, steps and runs. Nothing is assumed of the
models or of the observer.
-/
import DiscreteEvent.Proofs.Engine.Speakers
import DiscreteEvent.Proofs.Flat.Attribution
import DiscreteEvent.Proofs.Flat.Labour

set_option autoImplicit false

namespace DiscreteEvent

variable {τ σ ω π : Type} [MessageType τ]

/-! ## The paths of a crew -/

namespace Crew

/-- The path of the root and those of the leaves. -/
def paths (c : Crew τ σ) : String × List String := (c.path, c.leaves.map (·.path))

theorem pathAt_congr {c c' : Crew τ σ} (h : c'.paths = c.paths) (a : List Nat) :
    c'.pathAt? a = c.pathAt? a := by
  obtain ⟨hroot, hleaves⟩ := Prod.mk.injEq .. ▸ h
  match a with
  | [] => exact congrArg some hroot
  | [i] =>
      have hi := congrArg (·[i]?) hleaves
      rw [List.getElem?_map, List.getElem?_map] at hi
      exact hi
  | _ :: _ :: _ => rfl

theorem paths_onLeaf {call : Leaf τ σ → World ω → Outcome (Leaf τ σ) ω}
    (hcall : ∀ l w, (call l w).state.path = l.path) (c : Crew τ σ) (i : Nat) (w : World ω) :
    (c.onLeaf i call w).state.paths = c.paths := by
  rw [paths, c.map_leaves_onLeaf hcall i w]
  unfold onLeaf
  split <;> rfl

end Crew

section Stays

variable [AtomicModel τ σ] [Observer ω]

theorem LeafCall.path_perform (call : LeafCall) (l : Leaf τ σ) (w : World ω) :
    (call.perform l w).state.path = l.path := by
  cases call with
  | init t => exact l.path_init t w
  | collect t => exact (l.kept_collect t w).path
  | advance t => exact l.path_advance t w

/-- **No path changes** in a step. -/
theorem Crew.steady_paths : Steady ω (paths : Crew τ σ → _) where
  onLeaf call := paths_onLeaf call.path_perform
  deposit c target messages := by
    rw [paths, c.map_leaves_deposit (fun _ _ => rfl) target messages]
    cases target <;> rfl
  times _ _ _ _ := rfl
  bags _ _ _ := rfl

end Stays

/-! ## What a leaf and the root say -/

section Said

variable [AtomicModel τ σ] [Observer ω]

theorem LeafCall.signed_perform (call : LeafCall) (l : Leaf τ σ) (w : World (Filed ω)) :
    (call.perform l w).Signed l.path w := by
  cases call with
  | init t => exact Leaf.signed_init rfl t w
  | collect t => exact Leaf.signed_collect rfl t w
  | advance t => exact Leaf.signed_advance rfl t w

omit [AtomicModel τ σ] in
theorem Crew.signed_report {c : Crew τ σ} {p : String} (h : c.path = p) (phase : Phase)
    (time last next : Instant) (bags : List BagRecord) (w : World (Filed ω)) :
    (c.report phase time last next bags w).Signed p w := by
  subst h
  exact Outcome.signed_report c w phase c.path time last next none bags

omit [AtomicModel τ σ] in
theorem Crew.signed_close (c : Crew τ σ) (t next : Instant) (w : World (Filed ω)) :
    (c.close t next w).Signed c.path w := by
  unfold close
  refine Outcome.Signed.andThen ?_ (Outcome.Signed.andThen ?_ ?_)
  · exact signed_report (c := { c with last := t, next := next }) rfl .collect t c.last t _ w
  · refine signed_report (ω := ω) ?_ .advance t t next _ _
    rfl
  · exact Outcome.signed_of_silent rfl Stop.none_ne_violation

end Said

/-! ## Turns -/

theorem Failure.violation_of_stop {f : Failure} {v : Violation} (h : f.stop = some (.violation v)) :
    f.violation = some v := by
  unfold stop at h
  split at h
  · cases h
  · obtain ⟨u, hu, hv⟩ := Option.map_eq_some_iff.mp h
    cases hv
    exact hu

namespace Floor

variable [AtomicModel τ σ] [Observer ω]

/-- **A leaf says something** when the workers take these turns. -/
inductive Says : Floor τ σ (Filed ω) → List Nat → Nat → Utterance → Prop
  | now {f : Floor τ σ (Filed ω)} {k : Nat} {turns : List Nat} {c : LeafCall} {i : Nat}
      {l : Leaf τ σ} {x : Utterance} (task : f.task? k = some (.call c i))
      (leaf : f.shift.crew.leaves[i]? = some l)
      (said : (c.perform l f.shift.world).Utters f.shift.world x) : Says f (k :: turns) i x
  | later {f : Floor τ σ (Filed ω)} {k : Nat} {turns : List Nat} {i : Nat} {x : Utterance}
      (said : Says (f.turn k) turns i x) : Says f (k :: turns) i x

end Floor

namespace Shift

/-- **What has come up** between two states of a run is accounted for by `P`, which tells who has
said what: the records that were added, and the first refusal if it was noted meanwhile. -/
structure Accounted (P : List Nat → Utterance → Prop) (s s' : Shift τ σ (Filed ω)) : Prop where
  records : ∃ rs, s.world.Filing s'.world rs ∧ ∀ r ∈ rs, ∃ a, P a (.record r)
  kept : ∀ v, s.failure.violation = some v → s'.failure.violation = some v
  refusal : s.failure.violation = none → ∀ v, s'.failure.violation = some v →
    ∃ a, P a (.refusal v)

namespace Accounted

variable {P Q : List Nat → Utterance → Prop} {s s' s'' : Shift τ σ (Filed ω)}

/-- Where nothing was observed and no failure noted, there is nothing to account for. -/
theorem of_silent (hworld : s'.world.observer = s.world.observer)
    (hfailure : s'.failure = s.failure) : Accounted P s s' where
  records := ⟨[], .nil hworld, fun _ h => absurd h List.not_mem_nil⟩
  kept _ h := hfailure ▸ h
  refusal h v hv := absurd (h.symm.trans (hfailure ▸ hv)) (Option.some_ne_none v).symm

theorem trans (h : Accounted P s s') (h' : Accounted P s' s'') : Accounted P s s'' where
  records := by
    obtain ⟨rs, hrs, hsaid⟩ := h.records
    obtain ⟨rs', hrs', hsaid'⟩ := h'.records
    exact ⟨rs ++ rs', hrs.trans hrs',
      fun r hr => (List.mem_append.mp hr).elim (hsaid r) (hsaid' r)⟩
  kept v hv := h'.kept v (h.kept v hv)
  refusal hnone v hv := by
    cases hmiddle : s'.failure.violation with
    | none => exact h'.refusal hmiddle v hv
    | some u =>
        cases (h'.kept u hmiddle).symm.trans hv
        exact h.refusal hnone v hmiddle

theorem mono (h : Accounted P s s') (hPQ : ∀ a x, P a x → Q a x) : Accounted Q s s' where
  records := by
    obtain ⟨rs, hrs, hsaid⟩ := h.records
    exact ⟨rs, hrs, fun r hr => (hsaid r hr).imp fun a => hPQ a _⟩
  kept := h.kept
  refusal hnone v hv := (h.refusal hnone v hv).imp fun a => hPQ a _

end Accounted

/-- A note of a failure, which does not replace an earlier one. -/
theorem accounted_of_outcome {P : List Nat → Utterance → Prop} {s s' : Shift τ σ (Filed ω)}
    {o : Outcome (Crew τ σ) (Filed ω)} (hfiled : ∃ rs, s.world.Filing o.world rs)
    (hsaid : ∀ x, o.Utters s.world x → ∃ a, P a x) (hworld : s'.world = o.world)
    (hfailure : s'.failure = match o.stop with
      | some stop => s.failure.note stop
      | none => s.failure) : Accounted P s s' := by
  refine ⟨?_, fun v hv => ?_, fun hnone v hv => ?_⟩
  · obtain ⟨rs, hrs⟩ := hfiled
    exact ⟨rs, hworld ▸ hrs, fun r hr => hsaid _ (.record hrs hr)⟩
  · rw [hfailure]
    split
    · rename_i stop _
      cases stop with
      | fault f => exact hv
      | violation u =>
          show (s.failure.violation <|> some u) = some v
          rw [hv]
          exact Eq.refl _
    · exact hv
  · rw [hfailure] at hv
    split at hv
    · rename_i stop hstop
      cases stop with
      | fault f => exact absurd (hnone.symm.trans hv) (Option.some_ne_none v).symm
      | violation u =>
          have hu : (s.failure.violation <|> some u) = some v := hv
          rw [hnone] at hu
          cases hu
          exact hsaid _ (.refusal hstop)
    · exact absurd (hnone.symm.trans hv) (Option.some_ne_none v).symm

variable [AtomicModel τ σ] [Observer ω]

/-- **A turn** is accounted for by the leaf that is called in it. -/
theorem accounted_turn (k : Nat) (s : Shift τ σ (Filed ω)) (script : List (Task τ)) :
    Accounted (fun a x => ∃ c i l, script.head? = some (.call c i) ∧
        s.crew.leaves[i]? = some l ∧ a = [i] ∧ (c.perform l s.world).Utters s.world x)
      s (s.turn k script).1 := by
  -- Whatever becomes of the script, the outcome is noted.
  have hsettle : ∀ {P : List Nat → Utterance → Prop} {o : Outcome (Crew τ σ) (Filed ω)}
      {rest : List (Task τ)}, (∃ rs, s.world.Filing o.world rs) →
      (∀ x, o.Utters s.world x → ∃ a, P a x) → Accounted P s (s.settle o rest).1 := by
    intro P o rest hfiled hsaid
    refine accounted_of_outcome hfiled hsaid ?_ ?_
    · unfold settle
      split <;> rfl
    · unfold settle
      split <;> simp_all
  have hsilent : ∀ {P : List Nat → Utterance → Prop} {o : Outcome (Crew τ σ) (Filed ω)}
      {rest : List (Task τ)}, o.world = s.world → (∀ v, o.stop ≠ some (.violation v)) →
      Accounted P s (s.settle o rest).1 := fun hworld hstop =>
    hsettle ⟨[], .nil (congrArg _ hworld)⟩ fun x hx =>
      absurd hx (Outcome.not_utters_of_silent (congrArg _ hworld) hstop)
  cases script with
  | nil => exact .of_silent rfl rfl
  | cons task rest =>
      cases task with
      | enter => exact .of_silent rfl rfl
      | fetch r => exact .of_silent rfl rfl
      | note places => exact .of_silent rfl rfl
      | deliver r copy =>
          rw [turn]
          split
          · exact hsilent rfl Stop.fault_ne_violation
          · exact hsilent rfl Stop.none_ne_violation
      | call c i =>
          rw [turn, Crew.onLeaf]
          split
          · exact hsilent rfl Stop.fault_ne_violation
          · rename_i l hl
            exact hsettle (c.signed_perform l s.world).exists_filing fun x hx =>
              ⟨[i], c, i, l, rfl, hl, rfl, Outcome.utters_map.mp hx⟩

/-- A turn adds no call of a leaf to a script. -/
theorem mem_of_mem_turn {k : Nat} {s : Shift τ σ ω} {script : List (Task τ)} {task : Task τ}
    (h : task ∈ (s.turn k script).2) (hcall : task.call?.isSome) : task ∈ script := by
  cases script with
  | nil => exact h
  | cons first rest =>
      refine List.mem_cons_of_mem _ ?_
      cases first with
      | enter =>
          rw [turn] at h
          split at h
          · exact absurd h List.not_mem_nil
          · exact h
      | call c i => exact mem_settle h
      | fetch r =>
          rcases List.mem_cons.mp h with rfl | h
          · cases hcall
          · exact h
      | deliver r copy =>
          rw [turn] at h
          split at h
          · exact mem_settle h
          · exact mem_settle h
      | note places => exact h

end Shift

namespace Floor

variable [AtomicModel τ σ] [Observer ω]

/-- **Turns** are accounted for by the leaves that are called in them. -/
theorem accounted_play (turns : List Nat) :
    ∀ f : Floor τ σ (Filed ω), Shift.Accounted (fun a x => ∃ i, a = [i] ∧ f.Says turns i x)
      f.shift (f.play turns).shift := by
  induction turns with
  | nil => exact fun f => .of_silent rfl rfl
  | cons k turns ih =>
      intro f
      have hrest := (ih (f.turn k)).mono (Q := fun a x => ∃ i, a = [i] ∧ f.Says (k :: turns) i x)
        fun a x ⟨i, ha, said⟩ => ⟨i, ha, .later said⟩
      refine Shift.Accounted.trans ?_ hrest
      cases hk : f.scripts[k]? with
      | none =>
          rw [turn, hk]
          exact .of_silent rfl rfl
      | some script =>
          rw [turn_eq hk]
          refine (f.shift.accounted_turn k script).mono ?_
          rintro a x ⟨c, i, l, htask, hl, rfl, said⟩
          refine ⟨i, rfl, .now ?_ hl said⟩
          rw [task?, hk]
          exact htask

theorem paths_turn (f : Floor τ σ (Filed ω)) (k : Nat) :
    (f.turn k).shift.crew.paths = f.shift.crew.paths := by
  unfold turn
  split
  · rfl
  · exact Crew.steady_paths.turn _ _ _

/-- **A leaf speaks under its own path.** -/
theorem Says.named {f : Floor τ σ (Filed ω)} {turns : List Nat} {i : Nat} {x : Utterance}
    (h : f.Says turns i x) : f.shift.crew.pathAt? [i] = some x.path := by
  induction h with
  | @now f k turns c i l x _ leaf said =>
      rw [Crew.pathAt?, leaf, Option.map_some, (c.signed_perform l _).path_eq said]
  | @later f k turns i x _ ih =>
      rw [← Crew.pathAt_congr (paths_turn f k)]
      exact ih

/-- Nobody speaks where no leaf is to be called. -/
theorem Says.exists_call {f : Floor τ σ (Filed ω)} {turns : List Nat} {i : Nat} {x : Utterance}
    (h : f.Says turns i x) : ∃ script ∈ f.scripts, ∃ task ∈ script, task.call?.isSome := by
  induction h with
  | @now f k _ c i _ _ task _ _ =>
      cases hk : f.scripts[k]? with
      | none =>
          rw [task?, hk] at task
          cases task
      | some script =>
          rw [task?, hk] at task
          exact ⟨script, List.mem_of_getElem? hk, _, List.mem_of_mem_head? task, rfl⟩
  | @later f k _ _ _ _ ih =>
      cases hk : f.scripts[k]? with
      | none =>
          rw [turn, hk] at ih
          exact ih
      | some script =>
          rw [turn_eq hk] at ih
          obtain ⟨script', hmem, task, htask, hcall⟩ := ih
          rcases List.mem_or_eq_of_mem_set hmem with hmem | rfl
          · exact ⟨script', hmem, task, htask, hcall⟩
          · exact ⟨script, List.mem_of_getElem? hk, task,
              Shift.mem_of_mem_turn htask hcall, hcall⟩

end Floor

namespace Shift

variable [AtomicModel τ σ] [Observer ω]

/-- **A leaf says something in a phase.** -/
def PhaseSays (script : Shift τ σ (Filed ω) → Nat → List (Task τ)) (turns : List Nat)
    (s : Shift τ σ (Filed ω)) (i : Nat) (x : Utterance) : Prop :=
  let f := Floor.mk s ((List.range s.crew.workers).map (script s))
  f.Says (turns ++ (f.play turns).rest) i x

theorem PhaseSays.named {script : Shift τ σ (Filed ω) → Nat → List (Task τ)} {turns : List Nat}
    {s : Shift τ σ (Filed ω)} {i : Nat} {x : Utterance} (h : s.PhaseSays script turns i x) :
    s.crew.pathAt? [i] = some x.path := Floor.Says.named h

theorem accounted_phase (script : Shift τ σ (Filed ω) → Nat → List (Task τ)) (turns : List Nat)
    (s : Shift τ σ (Filed ω)) :
    Accounted (fun a x => ∃ i, a = [i] ∧ s.PhaseSays script turns i x) s
      (s.phase script turns) := by
  have hplay := Floor.accounted_play
    (turns ++ ((Floor.mk s ((List.range s.crew.workers).map (script s))).play turns).rest)
    (Floor.mk s ((List.range s.crew.workers).map (script s)))
  rw [Floor.play_append] at hplay
  exact hplay

/-- The second phase is silent. -/
theorem accounted_route (P : List Nat → Utterance → Prop) (turns : List Nat)
    (s : Shift τ σ (Filed ω)) : Accounted P s (s.phase routeScript turns) := by
  refine (accounted_phase routeScript turns s).mono ?_
  rintro a x ⟨i, -, hspeech⟩
  obtain ⟨script, hscript, task, htask, hcall⟩ := hspeech.exists_call
  obtain ⟨k, -, rfl⟩ := List.mem_map.mp hscript
  rcases List.mem_cons.mp htask with rfl | htask
  · cases hcall
  · obtain ⟨r, -, rfl⟩ := List.mem_map.mp htask
    cases hcall

/-- **An engine says something in a step** at `t`: a leaf when it is called, or the root when the
step is closed. -/
inductive StepSays (table : Timetable) (t : Instant) (s : Shift τ σ (Filed ω)) :
    List Nat → Utterance → Prop
  | collect {i : Nat} {x : Utterance} (said : s.PhaseSays (collectScript t) table.collect i x) :
      StepSays table t s [i] x
  | advance {i : Nat} {x : Utterance}
      (said : (s.prepared table t).PhaseSays (advanceScript t) table.advance i x) :
      StepSays table t s [i] x
  | close {s' : Shift τ σ (Filed ω)} {x : Utterance} (worked : s.worked table t = s')
      (said : (s'.crew.close t (s'.minima.foldr min .max) s'.world).Utters s'.world x) :
      StepSays table t s [] x

theorem accounted_prepared (table : Timetable) (t : Instant) (s : Shift τ σ (Filed ω)) :
    Accounted (s.StepSays table t) s (s.prepared table t) := by
  have hcollect := (s.accounted_phase (collectScript t) table.collect).mono
    (Q := s.StepSays table t) fun a x ⟨i, ha, said⟩ => ha ▸ .collect said
  exact hcollect.trans (accounted_route _ table.route _)

theorem accounted_worked (table : Timetable) (t : Instant) (s : Shift τ σ (Filed ω)) :
    Accounted (s.StepSays table t) s (s.worked table t) := by
  have hadvance := ((s.prepared table t).accounted_phase (advanceScript t) table.advance).mono
    (Q := s.StepSays table t) fun a x ⟨i, ha, said⟩ => ha ▸ .advance said
  exact (s.accounted_prepared table t).trans hadvance

/-- **A step** is accounted for by those who speak in it. -/
theorem accounted_stepOn (table : Timetable) (t : Instant) (s : Shift τ σ (Filed ω)) :
    Accounted (s.StepSays table t) s (s.stepOn table t) := by
  rw [stepOn_eq]
  refine (s.accounted_worked table t).trans ?_
  obtain ⟨s', worked⟩ : ∃ s', s.worked table t = s' := ⟨_, rfl⟩
  rw [worked]
  have hclose := s'.crew.signed_close t (s'.minima.foldr min .max) s'.world
  exact accounted_of_outcome hclose.exists_filing (fun x said => ⟨[], .close worked said⟩) rfl rfl

/-- **Who speaks in a step** does so under its own path. -/
theorem StepSays.named {table : Timetable} {t : Instant} {s : Shift τ σ (Filed ω)}
    {a : List Nat} {x : Utterance} (h : s.StepSays table t a x) :
    s.crew.pathAt? a = some x.path := by
  cases h with
  | collect said => exact said.named
  | advance said =>
      rw [← Crew.pathAt_congr (steady_prepared Crew.steady_paths table t s)]
      exact said.named
  | close worked said =>
      subst worked
      rw [← Crew.pathAt_congr (steady_worked Crew.steady_paths table t s)]
      exact congrArg some ((Crew.signed_close _ _ _ _).path_eq said).symm

/-! ## Runs -/

/-- **An engine says something in a run**: in its first step, or in the run that goes on behind
it. -/
inductive RunSays [Supervisor π] : Nat → (Nat → Timetable) → Shift τ σ (Filed ω) → π →
    List Nat → Utterance → Prop
  | first {n : Nat} {plan : Nat → Timetable} {s : Shift τ σ (Filed ω)} {p : π} {a : List Nat}
      {x : Utterance} {d : Reply π Bool}
      (asked : Supervisor.proceed s.crew.next s.world.interrupted p = d) (sound : d.fault = none)
      (go : d.answer = true)
      (said : { s with world := s.world.heed d }.StepSays (plan 0) s.crew.next a x) :
      RunSays (n + 1) plan s p a x
  | later {n : Nat} {plan : Nat → Timetable} {s s' : Shift τ σ (Filed ω)} {p : π} {a : List Nat}
      {x : Utterance} {d : Reply π Bool} {d' : Reply π Unit}
      (asked : Supervisor.proceed s.crew.next s.world.interrupted p = d) (sound : d.fault = none)
      (go : d.answer = true)
      (step : { s with world := s.world.heed d }.stepOn (plan 0) s.crew.next = s')
      (done : s'.failure.isSet = false)
      (told : Supervisor.completed s.crew.next d.state = d') (sound' : d'.fault = none)
      (said : RunSays n (fun n => plan (n + 1)) { s' with world := s'.world.heed d' } d'.state
        a x) : RunSays (n + 1) plan s p a x

/-- **Who speaks in a run** does so under its own path. -/
theorem RunSays.named [Supervisor π] {n : Nat} {plan : Nat → Timetable}
    {s : Shift τ σ (Filed ω)} {p : π} {a : List Nat} {x : Utterance}
    (h : s.RunSays n plan p a x) : s.crew.pathAt? a = some x.path := by
  induction h with
  | first _ _ _ said =>
      have hnamed := said.named
      exact hnamed
  | @later n plan s s' p a x d d' _ _ _ step _ _ _ _ ih =>
      subst step
      have hstep := Crew.steady_paths.stepOn (plan 0) s.crew.next
        { s with world := s.world.heed d }
      exact (Crew.pathAt_congr hstep a).symm.trans ih

omit [AtomicModel τ σ] [Observer ω] in
/-- What a run ends with is accounted for, if all that led there is. -/
theorem Accounted.utters {P : List Nat → Utterance → Prop} {s s' : Shift τ σ (Filed ω)}
    (h : Accounted P s s') (hnone : s.failure.violation = none) {p : π} {stop : Option Stop}
    (hstop : ∀ v, stop = some (.violation v) → s'.failure.violation = some v) {x : Utterance}
    (hx : (s'.outcome p stop).Utters s.world x) : ∃ a, P a x := by
  obtain ⟨rs, hrs, hsaid⟩ := h.records
  cases hx with
  | record since hr => exact hsaid _ (since.eq hrs ▸ hr)
  | refusal hv => exact h.refusal hnone _ (hstop _ hv)

/-- **What a run brings out** is accounted for by those who speak in it. -/
theorem accounted_runOn [Supervisor π] {n : Nat} :
    ∀ {plan : Nat → Timetable} {s : Shift τ σ (Filed ω)} {p : π}
      {o : Outcome (Crew τ σ × π) (Filed ω)}, s.failure.violation = none →
      s.runOn n plan p = some o →
      (∃ rs, s.world.Filing o.world rs) ∧
        ∀ x, o.Utters s.world x → ∃ a, s.RunSays n plan p a x := by
  induction n with
  | zero =>
      intro plan s p o _ ho
      cases ho
  | succ n ih =>
      intro plan s p o hnone ho
      -- Wherever the run ends, all up to there is accounted for.
      have hend : ∀ {s' : Shift τ σ (Filed ω)} {q : π} {stop : Option Stop},
          Accounted (s.RunSays (n + 1) plan p) s s' →
          (∀ v, stop = some (.violation v) → s'.failure.violation = some v) →
          (∃ rs, s.world.Filing (s'.outcome q stop).world rs) ∧
            ∀ x, (s'.outcome q stop).Utters s.world x → ∃ a, s.RunSays (n + 1) plan p a x :=
        fun h hstop => ⟨h.records.imp fun _ h => h.1, fun x => h.utters hnone hstop⟩
      obtain ⟨d, asked⟩ : ∃ d, Supervisor.proceed s.crew.next s.world.interrupted p = d := ⟨_, rfl⟩
      have hbegin : Accounted (s.RunSays (n + 1) plan p) s { s with world := s.world.heed d } :=
        .of_silent (World.observer_heed _ _) rfl
      simp only [runOn, asked] at ho
      split at ho
      · cases ho
        exact hend hbegin fun v hv => absurd hv (Stop.fault_ne_violation v)
      · rename_i sound
        split at ho
        · rename_i go
          have hstep := hbegin.trans ((accounted_stepOn (plan 0) s.crew.next _).mono
            fun a x said => .first asked sound go said)
          obtain ⟨s', step⟩ : ∃ s', stepOn (plan 0) s.crew.next
            { s with world := s.world.heed d } = s' := ⟨_, rfl⟩
          rw [step] at hstep
          simp only [step] at ho
          split at ho
          · cases ho
            exact hend hstep fun v hv => Failure.violation_of_stop hv
          · rename_i hdone
            have done : s'.failure.isSet = false := Bool.eq_false_iff.mpr hdone
            obtain ⟨d', told⟩ : ∃ d', Supervisor.completed s.crew.next d.state = d' := ⟨_, rfl⟩
            have htold : Accounted (s.RunSays (n + 1) plan p) s
                { s' with world := s'.world.heed d' } :=
              hstep.trans (.of_silent (World.observer_heed _ _) rfl)
            simp only [told] at ho
            split at ho
            · cases ho
              exact hend htold fun v hv => absurd hv (Stop.fault_ne_violation v)
            · rename_i sound'
              obtain ⟨⟨rs', hrs'⟩, hsaid⟩ := ih
                (s := { s' with world := s'.world.heed d' })
                (congrArg Failure.violation (Failure.eq_of_isSet done)) ho
              obtain ⟨rs, hrs, -⟩ := htold.records
              refine ⟨⟨rs ++ rs', hrs.trans hrs'⟩, fun x hx => ?_⟩
              have hsplit := Outcome.utters_then (x := x)
                (o := outcome { s' with world := s'.world.heed d' } d'.state none) rfl hrs rfl hrs'
              rcases hsplit.mp hx with hx | hx
              · refine htold.utters hnone ?_ hx
                exact fun v hv => absurd hv (Stop.none_ne_violation v)
              · exact (hsaid x hx).imp fun a => .later asked sound go step done told sound'
        · cases ho
          exact hend hbegin fun v hv => absurd hv (Stop.none_ne_violation v)

end Shift

/-! ## Calls on a crew -/

namespace Crew

variable [AtomicModel τ σ] [Observer ω]

omit [AtomicModel τ σ] in
/-- What the root does itself when its leaves are initialized. -/
def settleInit (t : Instant) (c : Crew τ σ) (w : World ω) : Outcome (Crew τ σ) ω :=
  let next := Hub.earliest (c.leaves.map (·.toNode))
  { c with last := t, next := next, initialized := true }.report .init t t next [] w

theorem init_eq_settleInit (t : Instant) (c : Crew τ σ) (w : World ω) :
    c.init t w = (c.onLeaves (Leaf.init t) (List.range c.leaves.length) w).andThen
      (settleInit t) := rfl

/-- **An engine says something in an initialization**: a leaf when those in front of it are
initialized, or the root when all are. -/
inductive InitSays (t : Instant) (c : Crew τ σ) (w : World (Filed ω)) :
    List Nat → Utterance → Prop
  | leaf {before after : List Nat} {i : Nat} {c' : Crew τ σ} {w' : World (Filed ω)}
      {l : Leaf τ σ} {x : Utterance} (order : List.range c.leaves.length = before ++ i :: after)
      (called : c.onLeaves (Leaf.init t) before w = .done c' w') (leaf : c'.leaves[i]? = some l)
      (said : (l.init t w').Utters w' x) : InitSays t c w [i] x
  | root {c' : Crew τ σ} {w' : World (Filed ω)} {x : Utterance}
      (called : c.onLeaves (Leaf.init t) (List.range c.leaves.length) w = .done c' w')
      (said : (c'.settleInit t w').Utters w' x) : InitSays t c w [] x

/-- **An engine says something in a run.** A crew that is not initialized refuses to run. -/
inductive RunSays [Supervisor π] (n : Nat) (plan : Nat → Timetable) (c : Crew τ σ) (p : π)
    (w : World (Filed ω)) : List Nat → Utterance → Prop
  | refuse (h : c.initialized = false) :
      RunSays n plan c p w [] (.refusal (.uninitialized c.path))
  | work {a : List Nat} {x : Utterance} (h : c.initialized = true)
      (said : (Shift.begin c w).RunSays n plan p a x) : RunSays n plan c p w a x

section Leaves

variable {call : Leaf τ σ → World (Filed ω) → Outcome (Leaf τ σ) (Filed ω)} {x : Utterance}

omit [AtomicModel τ σ] [Observer ω] in
theorem exists_filing_onLeaf
    (hcall : ∀ (l : Leaf τ σ) (w : World (Filed ω)), ∃ rs, w.Filing (call l w).world rs)
    (c : Crew τ σ) (i : Nat) (w : World (Filed ω)) :
    ∃ rs, w.Filing (c.onLeaf i call w).world rs := by
  unfold onLeaf
  split
  · exact ⟨[], .nil rfl⟩
  · exact hcall _ w

omit [AtomicModel τ σ] [Observer ω] in
theorem exists_filing_onLeaves
    (hcall : ∀ (l : Leaf τ σ) (w : World (Filed ω)), ∃ rs, w.Filing (call l w).world rs)
    (places : List Nat) : ∀ (c : Crew τ σ) (w : World (Filed ω)),
      ∃ rs, w.Filing (c.onLeaves call places w).world rs := by
  induction places with
  | nil => exact fun _ _ => ⟨[], .nil rfl⟩
  | cons i places ih =>
      intro c w
      rw [onLeaves_cons, Outcome.andThen_eq_resume]
      exact Outcome.exists_filing_resume (exists_filing_onLeaf hcall c i w) (ih _ _)

omit [AtomicModel τ σ] [Observer ω] in
theorem utters_onLeaf {c : Crew τ σ} {i : Nat} {w : World (Filed ω)} :
    (c.onLeaf i call w).Utters w x ↔ ∃ l, c.leaves[i]? = some l ∧ (call l w).Utters w x := by
  unfold onLeaf
  split
  · rename_i hnone
    refine iff_of_false (Outcome.not_utters_of_silent rfl Stop.fault_ne_violation) ?_
    rintro ⟨l, hl, -⟩
    cases hnone.symm.trans hl
  · rename_i l hl
    rw [Outcome.utters_map]
    refine ⟨fun hx => ⟨l, hl, hx⟩, ?_⟩
    rintro ⟨l', hl', hx⟩
    cases hl.symm.trans hl'
    exact hx

omit [AtomicModel τ σ] [Observer ω] in
/-- **What is said in calls on leaves** is said by one of them, when those in front of it have been
called. -/
theorem utters_onLeaves
    (hcall : ∀ (l : Leaf τ σ) (w : World (Filed ω)), ∃ rs, w.Filing (call l w).world rs)
    {places : List Nat} : ∀ {c : Crew τ σ} {w : World (Filed ω)},
      (c.onLeaves call places w).Utters w x ↔
        ∃ before i after c' w' l, places = before ++ i :: after ∧
          c.onLeaves call before w = .done c' w' ∧ c'.leaves[i]? = some l ∧
          (call l w').Utters w' x := by
  induction places with
  | nil =>
      intro c w
      refine iff_of_false (Outcome.not_utters_of_silent rfl Stop.none_ne_violation) ?_
      rintro ⟨before, i, after, -, -, -, hplaces, -⟩
      cases before <;> cases hplaces
  | cons i places ih =>
      intro c w
      obtain ⟨rs, hrs⟩ := exists_filing_onLeaf hcall c i w
      obtain ⟨rs', hrs'⟩ := exists_filing_onLeaves hcall places (c.onLeaf i call w).state
        (c.onLeaf i call w).world
      rw [onLeaves_cons, Outcome.andThen_eq_resume, Outcome.utters_resume hrs hrs', ih,
        utters_onLeaf]
      constructor
      · rintro (⟨l, hl, hx⟩ | ⟨hs, before, j, after, c', w', l, rfl, hcalled, hl, hx⟩)
        · exact ⟨[], i, places, c, w, l, rfl, rfl, hl, hx⟩
        · refine ⟨i :: before, j, after, c', w', l, rfl, ?_, hl, hx⟩
          rw [onLeaves_cons, Outcome.andThen_of_done hs]
          exact hcalled
      · rintro ⟨before, j, after, c', w', l, hplaces, hcalled, hl, hx⟩
        cases before with
        | nil =>
            cases hplaces
            cases hcalled
            exact .inl ⟨l, hl, hx⟩
        | cons k before =>
            cases hplaces
            rw [onLeaves_cons, Outcome.andThen] at hcalled
            split at hcalled
            · rename_i hs
              exact .inr ⟨hs, before, j, after, c', w', l, rfl, hcalled, hl, hx⟩
            · rename_i hs
              exact absurd (hs.symm.trans (congrArg Outcome.stop hcalled)) (Option.some_ne_none _)

end Leaves

variable {c : Crew τ σ} {w : World (Filed ω)} {a : List Nat} {x : Utterance}

omit [AtomicModel τ σ] in
theorem signed_settleInit (t : Instant) (c : Crew τ σ) (w : World (Filed ω)) :
    (c.settleInit t w).Signed c.path w := by
  refine signed_report ?_ .init t t _ [] w
  rfl

/-- **What an initialization brings out** is what is said in it. -/
theorem utters_init (t : Instant) (c : Crew τ σ) (w : World (Filed ω)) :
    (c.init t w).Utters w x ↔ ∃ a, c.InitSays t w a x := by
  have hcall : ∀ (l : Leaf τ σ) (w : World (Filed ω)), ∃ rs, w.Filing (l.init t w).world rs :=
    fun l w => (Leaf.signed_init rfl t w).exists_filing
  obtain ⟨rs, hrs⟩ := exists_filing_onLeaves hcall (List.range c.leaves.length) c w
  obtain ⟨rs', hrs'⟩ := (signed_settleInit t
    (c.onLeaves (Leaf.init t) (List.range c.leaves.length) w).state
    (c.onLeaves (Leaf.init t) (List.range c.leaves.length) w).world).exists_filing
  rw [init_eq_settleInit, Outcome.andThen_eq_resume, Outcome.utters_resume hrs hrs',
    utters_onLeaves hcall]
  constructor
  · rintro (⟨before, i, after, c', w', l, order, called, hl, said⟩ | ⟨hs, said⟩)
    · exact ⟨[i], .leaf order called hl said⟩
    · exact ⟨[], .root (Outcome.eq_done hs) said⟩
  · rintro ⟨a, hspeech⟩
    cases hspeech with
    | leaf order called hl said => exact .inl ⟨_, _, _, _, _, _, order, called, hl, said⟩
    | root called said =>
        refine .inr ?_
        rw [called]
        exact ⟨rfl, said⟩

theorem InitSays.named {t : Instant} (h : c.InitSays t w a x) : c.pathAt? a = some x.path := by
  have hpaths : ∀ {places : List Nat} {c' : Crew τ σ} {w' : World (Filed ω)},
      c.onLeaves (Leaf.init t) places w = .done c' w' → c'.paths = c.paths := by
    intro places c' w' called
    have hkept := onLeaves_keeps (f := paths)
      (paths_onLeaf fun l w => l.path_init t w) places c w
    rw [called] at hkept
    exact hkept
  cases h with
  | leaf _ called hl said =>
      rw [← pathAt_congr (hpaths called), pathAt?, hl]
      exact congrArg some ((Leaf.signed_init rfl t _).path_eq said).symm
  | root called said =>
      rw [← pathAt_congr (hpaths called)]
      exact congrArg some ((signed_settleInit t _ _).path_eq said).symm

/-- **What a run brings out** is said in it. -/
theorem exists_runSays [Supervisor π] {n : Nat} {plan : Nat → Timetable} {p : π}
    {o : Outcome (Crew τ σ × π) (Filed ω)} (ho : c.runOn n plan p w = some o)
    (hx : o.Utters w x) : ∃ a, c.RunSays n plan p w a x := by
  rw [runOn] at ho
  split at ho
  · rename_i hi
    obtain ⟨a, said⟩ := (Shift.accounted_runOn (s := .begin c w) rfl ho).2 x hx
    exact ⟨a, .work hi said⟩
  · rename_i hi
    cases ho
    cases Outcome.utters_refused.mp hx
    exact ⟨[], .refuse (Bool.eq_false_iff.mpr hi)⟩

theorem RunSays.named [Supervisor π] {n : Nat} {plan : Nat → Timetable} {p : π}
    (h : c.RunSays n plan p w a x) : c.pathAt? a = some x.path := by
  cases h with
  | refuse => rfl
  | work _ said => exact said.named

omit [AtomicModel τ σ] [Observer ω] in
/-- An injection brings out nothing. -/
theorem not_utters_inject (port : Port τ) (values : List (MessageType.Value port.type))
    (c : Crew τ σ) (w : World (Filed ω)) : ¬(c.inject port values w).Utters w x := by
  unfold inject
  split
  · exact Outcome.not_utters_of_silent rfl Stop.fault_ne_violation
  · exact Outcome.not_utters_of_silent rfl Stop.none_ne_violation

end Crew

end DiscreteEvent
