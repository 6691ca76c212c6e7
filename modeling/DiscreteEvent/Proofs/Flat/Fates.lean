/-
What becomes of the shares of the workers when models may fault.

Nothing is assumed of the models here: any call of any leaf may stop. The first two phases
leave the times of all leaves alone (`phase_quiet`). In the third one the workers advance
their shares, and each of them has one of three fates (`Fate`): it finds a failure and does not
begin; it is stopped by one of its leaves, and leaves those behind it as they are; or it
comes to its end, and only then it notes the earliest next event of its leaves
(`phase_fates`).

The fates are an invariant of a single turn (`Sharing.turn`). A worker in the middle of its
share has advanced the leaves in front of it and left those behind it alone, and the turns of
the others do not touch its share (`Midway.congr`).
-/
import DiscreteEvent.Proofs.Engine.Refusal
import DiscreteEvent.Proofs.Flat.Workers

set_option autoImplicit false

namespace DiscreteEvent

variable {τ σ ω : Type} [MessageType τ]

/-! ## The next event of a leaf -/

namespace Leaf

variable [AtomicModel τ σ]

theorem le_next_reschedule {l : Leaf τ σ} {t : Instant} (h : t ≤ l.next) (w : World ω) :
    t ≤ (l.reschedule t w).state.next :=
  Outcome.andThen_holds (P := fun l : Leaf τ σ => t ≤ l.next) h fun _ _ _ => t.le_schedule _

variable [Observer ω]

/-- An advance to `t` does not move the next event before `t`, wherever it stops. -/
theorem le_next_advance {l : Leaf τ σ} {t : Instant} (h : t ≤ l.next) (w : World ω) :
    t ≤ (l.advance t w).state.next := by
  unfold advance
  split
  · exact h
  · dsimp only
    split
    · exact h
    · refine Outcome.andThen_holds (P := fun l : Leaf τ σ => t ≤ l.next) ?_ fun l w h => ?_
      · rw [(kept_fire _ t w).next]
        exact h
      refine Outcome.andThen_holds (P := fun l : Leaf τ σ => t ≤ l.next)
        (le_next_reschedule h w) fun l w h => ?_
      exact Outcome.andThen_holds (P := fun l : Leaf τ σ => t ≤ l.next) h fun _ _ h => h

end Leaf

/-! ## Phases that leave the times alone -/

/-- **What the first two phases of a step leave alone**: the times of the crew and of its
leaves, and what waits at the root. -/
def Crew.frame (c : Crew τ σ) : String × Instant × Instant × Bags τ × List Instant :=
  (c.path, c.last, c.next, c.inbox, c.leaves.map (·.next))

/-- A task that moves no time and makes no note. -/
def Task.isQuiet : Task τ → Bool
  | .enter | .call (.collect _) _ | .fetch _ | .deliver _ _ => true
  | .call (.init _) _ | .call (.advance _) _ | .note _ => false

/-- What a deposit leaves of the leaves: all but their inboxes. -/
theorem Crew.map_leaves_deposit {α : Type} {f : Leaf τ σ → α}
    (hf : ∀ (l : Leaf τ σ) (inbox : Bags τ), f { l with inbox := inbox } = f l) (c : Crew τ σ)
    (target : RouteTarget) (messages : List (Message τ)) :
    (c.deposit target messages).leaves.map f = c.leaves.map f := by
  cases target with
  | rootOutput p => rfl
  | leaf p =>
      refine List.ext_getElem? fun i => ?_
      rw [deposit, List.getElem?_map, List.getElem?_map, List.getElem?_modify]
      cases c.leaves[i]? with
      | none => rfl
      | some l =>
          simp only [Option.map_some]
          split
          · exact congrArg some (hf l _)
          · rfl

/-- What a call on a leaf leaves of the leaves. -/
theorem Crew.map_leaves_onLeaf {α : Type} {f : Leaf τ σ → α}
    {call : Leaf τ σ → World ω → Outcome (Leaf τ σ) ω} (hcall : ∀ l w, f (call l w).state = f l)
    (c : Crew τ σ) (i : Nat) (w : World ω) :
    (c.onLeaf i call w).state.leaves.map f = c.leaves.map f := by
  unfold onLeaf
  split
  · rfl
  · rename_i l hl
    show (c.leaves.set i (call l w).state).map f = c.leaves.map f
    rw [List.map_set, hcall, set_eq_self]
    rw [List.getElem?_map, hl, Option.map_some]

theorem Crew.frame_deposit (c : Crew τ σ) (target : RouteTarget) (messages : List (Message τ)) :
    (c.deposit target messages).frame = c.frame := by
  rw [frame, c.map_leaves_deposit (fun _ _ => rfl) target messages]
  cases target <;> rfl

/-- A call that leaves the next event of its leaf alone. -/
theorem Crew.frame_onLeaf {call : Leaf τ σ → World ω → Outcome (Leaf τ σ) ω}
    (hcall : ∀ l w, (call l w).state.next = l.next) (c : Crew τ σ) (i : Nat) (w : World ω) :
    (c.onLeaf i call w).state.frame = c.frame := by
  rw [frame, c.map_leaves_onLeaf hcall i w]
  unfold onLeaf
  split <;> rfl

namespace Shift

theorem minima_settle (s : Shift τ σ ω) (o : Outcome (Crew τ σ) ω) (rest : List (Task τ)) :
    (s.settle o rest).1.minima = s.minima := by
  unfold settle
  split <;> rfl

/-- What remains of a script after a call is a part of what was there. -/
theorem mem_settle {s : Shift τ σ ω} {o : Outcome (Crew τ σ) ω} {rest : List (Task τ)}
    {task : Task τ} (h : task ∈ (s.settle o rest).2) : task ∈ rest := by
  rcases s.settle_script o rest with hscript | hscript
  · rw [hscript] at h
    exact absurd h List.not_mem_nil
  · exact hscript ▸ h

variable [AtomicModel τ σ] [Observer ω]

/-- **A turn with a quiet script.** -/
theorem turn_quiet (k : Nat) (s : Shift τ σ ω) {script : List (Task τ)}
    (h : ∀ task ∈ script, task.isQuiet = true) :
    (s.turn k script).1.crew.frame = s.crew.frame ∧ (s.turn k script).1.minima = s.minima ∧
      ∀ task ∈ (s.turn k script).2, task.isQuiet = true := by
  cases script with
  | nil => exact ⟨rfl, rfl, h⟩
  | cons task rest =>
      obtain ⟨hfirst, hrest⟩ := List.forall_mem_cons.mp h
      -- Whatever becomes of a call, it is enough that it moves no time.
      have hsettle : ∀ o : Outcome (Crew τ σ) ω, o.state.frame = s.crew.frame →
          (s.settle o rest).1.crew.frame = s.crew.frame ∧
            (s.settle o rest).1.minima = s.minima ∧
            ∀ task ∈ (s.settle o rest).2, task.isQuiet = true := by
        intro o ho
        refine ⟨?_, s.minima_settle o rest, fun task htask => hrest task (mem_settle htask)⟩
        rw [crew_settle, ho]
      cases task with
      | enter =>
          refine ⟨rfl, rfl, ?_⟩
          rw [turn]
          split
          · exact fun _ h => absurd h List.not_mem_nil
          · exact hrest
      | call c i =>
          cases c with
          | collect t =>
              exact hsettle _ (Crew.frame_onLeaf (fun l w => (l.kept_collect t w).next) _ _ _)
          | init t => cases hfirst
          | advance t => cases hfirst
      | fetch r => exact ⟨rfl, rfl, List.forall_mem_cons.mpr ⟨rfl, hrest⟩⟩
      | deliver r copy =>
          rw [turn]
          split
          · exact hsettle _ rfl
          · exact hsettle _ (Crew.frame_deposit _ _ _)
      | note places => cases hfirst

/-- **A phase of quiet scripts** moves no time, and nobody makes a note. -/
theorem phase_quiet {script : Shift τ σ ω → Nat → List (Task τ)} {s : Shift τ σ ω}
    (h : ∀ k, ∀ task ∈ script s k, task.isQuiet = true) (turns : List Nat) :
    (s.phase script turns).crew.frame = s.crew.frame ∧
      (s.phase script turns).minima = s.minima := by
  -- The invariant of the turns: besides the two of them, all that is left to do is quiet.
  obtain ⟨f, ⟨hframe, hminima, -⟩, -, -, hphase⟩ := exists_phase_eq script turns (s := s)
    (P := fun f => f.shift.crew.frame = s.crew.frame ∧ f.shift.minima = s.minima ∧
      ∀ script ∈ f.scripts, ∀ task ∈ script, task.isQuiet = true)
    ⟨rfl, rfl, fun script hscript => by
      obtain ⟨k, -, rfl⟩ := List.mem_map.mp hscript
      exact h k⟩
    fun f k ⟨hframe, hminima, hquiet⟩ => by
      cases hk : f.scripts[k]? with
      | none =>
          rw [Floor.turn, hk]
          exact ⟨hframe, hminima, hquiet⟩
      | some script =>
          rw [Floor.turn_eq hk]
          obtain ⟨hframe', hminima', hquiet'⟩ :=
            f.shift.turn_quiet k (hquiet script (List.mem_of_getElem? hk))
          refine ⟨hframe'.trans hframe, hminima'.trans hminima, fun script' hmem => ?_⟩
          rcases List.mem_or_eq_of_mem_set hmem with hmem | rfl
          · exact hquiet _ hmem
          · exact hquiet'
  rw [hphase]
  exact ⟨hframe, hminima⟩

theorem phase_collect_quiet (t : Instant) (turns : List Nat) (s : Shift τ σ ω) :
    (s.phase (collectScript t) turns).crew.frame = s.crew.frame ∧
      (s.phase (collectScript t) turns).minima = s.minima := by
  refine phase_quiet (fun k task htask => ?_) turns
  rcases List.mem_cons.mp htask with rfl | htask
  · rfl
  · obtain ⟨i, -, rfl⟩ := List.mem_map.mp htask
    rfl

theorem phase_route_quiet (turns : List Nat) (s : Shift τ σ ω) :
    (s.phase routeScript turns).crew.frame = s.crew.frame ∧
      (s.phase routeScript turns).minima = s.minima := by
  refine phase_quiet (fun k task htask => ?_) turns
  rcases List.mem_cons.mp htask with rfl | htask
  · rfl
  · obtain ⟨r, -, rfl⟩ := List.mem_map.mp htask
    rfl

/-- **After a failure no phase is begun.** -/
theorem phase_of_failed {script : Shift τ σ ω → Nat → List (Task τ)} {s : Shift τ σ ω}
    (hscript : ∀ k, ∃ rest, script s k = .enter :: rest) (hf : s.failure.isSet = true)
    (turns : List Nat) : s.phase script turns = s := by
  -- Every worker is still at the gate, or was turned away there.
  obtain ⟨f, ⟨hshift, -⟩, -, -, hphase⟩ := exists_phase_eq script turns (s := s)
    (P := fun f => f.shift = s ∧
      ∀ script ∈ f.scripts, script = [] ∨ ∃ rest, script = .enter :: rest)
    ⟨rfl, fun script hmem => by
      obtain ⟨k, -, rfl⟩ := List.mem_map.mp hmem
      exact .inr (hscript k)⟩
    fun f k ⟨hshift, hscripts⟩ => by
      cases hk : f.scripts[k]? with
      | none =>
          rw [Floor.turn, hk]
          exact ⟨hshift, hscripts⟩
      | some script =>
          have hturn : f.shift.turn k script = (f.shift, []) := by
            rcases hscripts script (List.mem_of_getElem? hk) with rfl | ⟨rest, rfl⟩
            · rfl
            · rw [turn, hshift, if_pos hf]
          rw [Floor.turn_eq hk, hturn]
          refine ⟨hshift, fun script' hmem => ?_⟩
          rcases List.mem_or_eq_of_mem_set hmem with hmem | rfl
          · exact hscripts _ hmem
          · exact .inl rfl
  exact hphase.trans hshift

end Shift

/-! ## The fate of a share -/

section Fates

variable [AtomicModel τ σ] [Observer ω]

/-- **Leaf number `i` was advanced** to `t`, which came to its end or stopped. -/
def Crew.Advanced (ω : Type) [Observer ω] (t : Instant) (c c' : Crew τ σ) (i : Nat)
    (stop : Option Stop) : Prop :=
  ∃ (l l' : Leaf τ σ) (w w' : World ω), c.leaves[i]? = some l ∧ c'.leaves[i]? = some l' ∧
    l.advance t w = ⟨l', w', stop⟩

/-- **The fate of a share** when the leaves are to be advanced to `t`, and whether its worker
has come to its end. -/
inductive Fate (ω : Type) [Observer ω] (t : Instant) (c c' : Crew τ σ) (share : List Nat) :
    Bool → Prop
  /-- The worker has not begun. -/
  | idle (h : ∀ i ∈ share, c'.leaves[i]? = c.leaves[i]?) : Fate ω t c c' share false
  /-- A leaf has stopped the worker. -/
  | stopped {before after : List Nat} {i : Nat} {stop : Stop}
      (hshare : share = before ++ i :: after) (hbefore : ∀ j ∈ before, c.Advanced ω t c' j none)
      (hi : c.Advanced ω t c' i (some stop))
      (hafter : ∀ j ∈ after, c'.leaves[j]? = c.leaves[j]?) : Fate ω t c c' share false
  | finished (h : ∀ i ∈ share, c.Advanced ω t c' i none) : Fate ω t c c' share true

theorem Crew.Advanced.congr {t : Instant} {c c' c'' : Crew τ σ} {i : Nat} {stop : Option Stop}
    (h : c.Advanced ω t c' i stop) (hi : c''.leaves[i]? = c'.leaves[i]?) :
    c.Advanced ω t c'' i stop := by
  obtain ⟨l, l', w, w', hl, hl', hcall⟩ := h
  exact ⟨l, l', w, w', hl, hi.trans hl', hcall⟩

/-- The fate of a share is a matter of its own leaves. -/
theorem Fate.congr {t : Instant} {c c' c'' : Crew τ σ} {share : List Nat} {finished : Bool}
    (h : Fate ω t c c' share finished) (hshare : ∀ i ∈ share, c''.leaves[i]? = c'.leaves[i]?) :
    Fate ω t c c'' share finished := by
  cases h with
  | idle h => exact .idle fun i hi => (hshare i hi).trans (h i hi)
  | stopped hsplit hbefore hi hafter =>
      subst hsplit
      refine .stopped rfl (fun j hj => (hbefore j hj).congr (hshare j (by simp [hj])))
        (hi.congr (hshare _ (by simp))) fun j hj => ?_
      exact (hshare j (by simp [hj])).trans (hafter j hj)
  | finished h => exact .finished fun i hi => (h i hi).congr (hshare i hi)

/-- A leaf of a share is as it was, or it was advanced. -/
theorem Fate.leaf {t : Instant} {c c' : Crew τ σ} {share : List Nat} {finished : Bool}
    (h : Fate ω t c c' share finished) {i : Nat} (hi : i ∈ share) :
    c'.leaves[i]? = c.leaves[i]? ∨ ∃ stop, c.Advanced ω t c' i stop := by
  cases h with
  | idle h => exact .inl (h i hi)
  | stopped hsplit hbefore hat hafter =>
      subst hsplit
      rcases List.mem_append.mp hi with hi | hi
      · exact .inr ⟨_, hbefore i hi⟩
      · rcases List.mem_cons.mp hi with rfl | hi
        · exact .inr ⟨_, hat⟩
        · exact .inl (hafter i hi)
  | finished h => exact .inr ⟨_, h i hi⟩

/-- **In the middle of the third phase**: where worker `k` with the given share is, by what
remains of its script, and whether it has come to its end. -/
inductive Midway (t : Instant) (s s' : Shift τ σ ω) (k : Nat) (share : List Nat) :
    Bool → List (Task τ) → Prop
  | outside (h : ∀ i ∈ share, s'.crew.leaves[i]? = s.crew.leaves[i]?)
      (hnote : s'.minima[k]? = s.minima[k]?) :
      Midway t s s' k share false (.enter :: (share.map (.call (.advance t)) ++ [.note share]))
  | inside {before rest : List Nat} (hshare : share = before ++ rest)
      (hbefore : ∀ i ∈ before, s.crew.Advanced ω t s'.crew i none)
      (hrest : ∀ i ∈ rest, s'.crew.leaves[i]? = s.crew.leaves[i]?)
      (hnote : s'.minima[k]? = s.minima[k]?) :
      Midway t s s' k share false (rest.map (.call (.advance t)) ++ [.note share])
  | ended {finished : Bool} (h : Fate ω t s.crew s'.crew share finished)
      (hfailed : finished = false → s'.failure.isSet = true)
      (hnote : s'.minima[k]?
        = if finished then some (Shift.earliestOf s'.crew share) else s.minima[k]?) :
      Midway t s s' k share finished []

omit [AtomicModel τ σ] in
theorem earliestOf_congr {c c' : Crew τ σ} {places : List Nat}
    (h : ∀ i ∈ places, c'.leaves[i]? = c.leaves[i]?) :
    Shift.earliestOf c' places = Shift.earliestOf c places := by
  rw [Shift.earliestOf, Shift.earliestOf, List.filterMap_congr h]

/-- **The turns of others** do not matter to a worker, if they leave its share and its note
alone. -/
theorem Midway.congr {t : Instant} {s s' s'' : Shift τ σ ω} {k : Nat} {share : List Nat}
    {finished : Bool} {script : List (Task τ)} (h : Midway t s s' k share finished script)
    (hshare : ∀ i ∈ share, s''.crew.leaves[i]? = s'.crew.leaves[i]?)
    (hminima : s''.minima[k]? = s'.minima[k]?)
    (hfailure : s'.failure.isSet = true → s''.failure.isSet = true) :
    Midway t s s'' k share finished script := by
  cases h with
  | outside h hnote =>
      exact .outside (fun i hi => (hshare i hi).trans (h i hi)) (hminima.trans hnote)
  | inside hsplit hbefore hrest hnote =>
      subst hsplit
      exact .inside rfl (fun i hi => (hbefore i hi).congr (hshare i (by simp [hi])))
        (fun i hi => (hshare i (by simp [hi])).trans (hrest i hi)) (hminima.trans hnote)
  | ended h hfailed hnote =>
      refine .ended (h.congr hshare) (fun hf => hfailure (hfailed hf)) ?_
      rw [hminima, hnote, earliestOf_congr hshare]

end Fates

namespace Shift

variable [AtomicModel τ σ] [Observer ω]

/-- **In the middle of the third phase** that began in `s`. The workers for which `finished`
holds have come to their end. -/
structure Sharing (t : Instant) (s : Shift τ σ ω) (finished : Nat → Bool) (f : Floor τ σ ω) :
    Prop where
  crew : f.shift.crew = { s.crew with leaves := f.shift.crew.leaves }
  length_leaves : f.shift.crew.leaves.length = s.crew.leaves.length
  length_minima : f.shift.minima.length = s.minima.length
  length_scripts : f.scripts.length = s.crew.workers
  midway : ∀ (k : Nat) (script : List (Task τ)), f.scripts[k]? = some script →
    Midway t s f.shift k (s.leavesOf k) (finished k) script
  /-- There is no failure but by a worker who was stopped. -/
  failed : f.shift.failure.isSet = true → s.failure.isSet = true ∨
    ∃ k, f.scripts[k]? = some [] ∧ finished k = false

variable {t : Instant} {s : Shift τ σ ω} {finished : Nat → Bool} {f : Floor τ σ ω}

/-- **After a turn of worker `k`**, which had `script` in front of it and left `s'` with `rest`
to do. Only its own share and its own note were touched. -/
theorem Sharing.next (h : Sharing t s finished f) {k : Nat} {script rest : List (Task τ)}
    (hk : f.scripts[k]? = some script) (hopen : script ≠ []) {s' : Shift τ σ ω} {ended : Bool}
    (hcrew : s'.crew = { s.crew with leaves := s'.crew.leaves })
    (hleaves : s'.crew.leaves.length = s.crew.leaves.length)
    (hlength : s'.minima.length = s.minima.length)
    (hshare : ∀ i ∉ s.leavesOf k, s'.crew.leaves[i]? = f.shift.crew.leaves[i]?)
    (hminima : ∀ j, k ≠ j → s'.minima[j]? = f.shift.minima[j]?)
    (hfailure : f.shift.failure.isSet = true → s'.failure.isSet = true)
    (hset : s'.failure.isSet = true → f.shift.failure.isSet = true ∨ rest = [] ∧ ended = false)
    (hmid : Midway t s s' k (s.leavesOf k) ended rest) :
    Sharing t s (Function.update finished k ended) ⟨s', f.scripts.set k rest⟩ := by
  have hlt := (List.getElem?_eq_some_iff.mp hk).1
  refine ⟨hcrew, hleaves, hlength, List.length_set.trans h.length_scripts,
    fun j script' hj => ?_, fun hfailed => ?_⟩
  · by_cases hkj : k = j
    · subst hkj
      rw [List.getElem?_set_self hlt, Option.some_inj] at hj
      rw [Function.update_self]
      exact hj ▸ hmid
    · rw [List.getElem?_set_ne hkj] at hj
      rw [Function.update_of_ne (Ne.symm hkj)]
      exact (h.midway j script' hj).congr
        (fun i hi => hshare i (Share.not_mem_items (Ne.symm hkj) hi)) (hminima j hkj) hfailure
  · rcases hset hfailed with hbefore | ⟨hrest, hended⟩
    · -- Whoever has failed before has nothing left to do, so it is not this worker.
      refine (h.failed hbefore).imp_right fun ⟨j, hj, hfalse⟩ => ⟨j, ?_, ?_⟩
      all_goals
        have hkj : k ≠ j := by
          rintro rfl
          exact hopen (Option.some_inj.mp (hk.symm.trans hj))
      · exact (List.getElem?_set_ne hkj).trans hj
      · rw [Function.update_of_ne (Ne.symm hkj)]
        exact hfalse
    · refine .inr ⟨k, ?_, ?_⟩
      · rw [hrest]
        exact List.getElem?_set_self hlt
      · rw [Function.update_self]
        exact hended

/-- A worker calls the next leaf of its share. -/
theorem Sharing.call (h : Sharing t s finished f) {k i : Nat} {before rest : List Nat}
    (hk : f.scripts[k]? = some (.call (.advance t) i :: (rest.map (.call (.advance t)) ++
      [.note (s.leavesOf k)])))
    (hsplit : s.leavesOf k = before ++ i :: rest)
    (hbefore : ∀ j ∈ before, s.crew.Advanced ω t f.shift.crew j none)
    (hrest : ∀ j ∈ i :: rest, f.shift.crew.leaves[j]? = s.crew.leaves[j]?)
    (hnote : f.shift.minima[k]? = s.minima[k]?) (hw : 0 < s.crew.workers) :
    ∃ finished', Sharing t s finished' (f.turn k) := by
  have hkw : k < s.crew.workers := by
    rw [← h.length_scripts]
    exact (List.getElem?_eq_some_iff.mp hk).1
  have hmem : i ∈ s.leavesOf k := by
    rw [hsplit]
    simp
  -- No leaf is twice in a share.
  have hnot : i ∉ before ++ rest := by
    have hnodup : (before ++ i :: rest).Nodup := hsplit ▸ List.nodup_range'
    exact (List.nodup_cons.mp (List.nodup_middle.mp hnodup)).1
  have hi : i < s.crew.leaves.length := (Share.mem_items_iff hw).mp ⟨k, hkw, hmem⟩
  have hl' : f.shift.crew.leaves[i]? = s.crew.leaves[i]? := hrest i (by simp)
  have hl : s.crew.leaves[i]? = some s.crew.leaves[i] := List.getElem?_eq_getElem hi
  -- The leaf, what its call leads to and the leaves after it get names, so that the turn can be
  -- computed without them.
  generalize s.crew.leaves[i] = l at hl
  generalize hcall : l.advance t f.shift.world = o
  have hcrew := congrArg (fun c => { c with leaves := f.shift.crew.leaves.set i o.state }) h.crew
  generalize hleaves : f.shift.crew.leaves.set i o.state = leaves at hcrew
  have hat : leaves[i]? = some o.state := by
    rw [← hleaves, List.getElem?_set_self (by rw [h.length_leaves]; exact hi)]
  -- The call leaves all other leaves alone.
  have hother : ∀ j, i ≠ j → leaves[j]? = f.shift.crew.leaves[j]? := fun j hj => by
    rw [← hleaves, List.getElem?_set_ne hj]
  have hadvanced : s.crew.Advanced ω t { f.shift.crew with leaves := leaves } i o.stop :=
    ⟨l, o.state, f.shift.world, o.world, hl, hat, hcall⟩
  have hearlier : ∀ j ∈ before,
      s.crew.Advanced ω t { f.shift.crew with leaves := leaves } j none := fun j hj =>
    (hbefore j hj).congr
      (hother j fun hij => hnot (List.mem_append_left _ (hij ▸ hj)))
  have hlater : ∀ j ∈ rest, leaves[j]? = s.crew.leaves[j]? := fun j hj =>
    (hother j fun hij => hnot (List.mem_append_right _ (hij ▸ hj))).trans
      (hrest j (List.mem_cons_of_mem i hj))
  have houtside : ∀ j ∉ s.leavesOf k, leaves[j]? = f.shift.crew.leaves[j]? :=
    fun j hj => hother j fun hij => hj (hij ▸ hmem)
  have hlength : leaves.length = s.crew.leaves.length := by
    rw [← hleaves, List.length_set, h.length_leaves]
  rw [Floor.turn_eq hk]
  simp only [Shift.turn, LeafCall.perform, Crew.onLeaf, hl'.trans hl, hcall, settle, Outcome.map,
    hleaves]
  cases hstop : o.stop with
  | none =>
      rw [hstop] at hadvanced
      have hsplit' : s.leavesOf k = (before ++ [i]) ++ rest := by
        rw [hsplit, List.append_assoc]
        rfl
      refine ⟨_, h.next hk (List.cons_ne_nil _ _) hcrew hlength h.length_minima houtside
        (fun _ _ => rfl) id .inl (.inside hsplit' (fun j hj => ?_) hlater hnote)⟩
      rcases List.mem_append.mp hj with hj | hj
      · exact hearlier j hj
      · exact List.mem_singleton.mp hj ▸ hadvanced
  | some stop =>
      rw [hstop] at hadvanced
      exact ⟨_, h.next hk (List.cons_ne_nil _ _) hcrew hlength h.length_minima houtside
        (fun _ _ => rfl) (fun _ => Failure.isSet_note _ _) (fun _ => .inr ⟨rfl, rfl⟩)
        (.ended (.stopped hsplit hearlier hadvanced hlater) (fun _ => Failure.isSet_note _ _)
          hnote)⟩

/-- **A turn in the middle of the third phase.** -/
theorem Sharing.turn (h : Sharing t s finished f) (hw : 0 < s.crew.workers)
    (hminima : s.minima.length = s.crew.workers) (k : Nat) :
    ∃ finished', Sharing t s finished' (f.turn k) := by
  cases hk : f.scripts[k]? with
  | none =>
      rw [Floor.turn, hk]
      exact ⟨finished, h⟩
  | some script =>
      have hmid := h.midway k script hk
      generalize hended : finished k = ended at hmid
      cases hmid with
      | outside hleaves hnote =>
          rw [Floor.turn_eq hk, Shift.turn]
          cases hset : f.shift.failure.isSet with
          | true =>
              -- Somebody has failed, and the worker does not begin.
              exact ⟨_, h.next hk (List.cons_ne_nil _ _) h.crew h.length_leaves h.length_minima
                (fun _ _ => rfl) (fun _ _ => rfl) id .inl
                (.ended (.idle hleaves) (fun _ => hset) hnote)⟩
          | false =>
              exact ⟨_, h.next hk (List.cons_ne_nil _ _) h.crew h.length_leaves h.length_minima
                (fun _ _ => rfl) (fun _ _ => rfl) id .inl
                (.inside (List.nil_append _).symm (fun _ h => absurd h List.not_mem_nil) hleaves
                  hnote)⟩
      | @inside before rest hsplit hbefore hrest hnote =>
          cases rest with
          | cons i rest => exact h.call hk hsplit hbefore hrest hnote hw
          | nil =>
              -- The share is done, and the worker notes the earliest event in it.
              have hlt : k < f.shift.minima.length := by
                rw [h.length_minima, hminima, ← h.length_scripts]
                exact (List.getElem?_eq_some_iff.mp hk).1
              have hall : ∀ i ∈ s.leavesOf k, s.crew.Advanced ω t f.shift.crew i none := by
                rw [hsplit, List.append_nil]
                exact hbefore
              rw [Floor.turn_eq hk]
              exact ⟨_, h.next hk (List.cons_ne_nil _ _) h.crew h.length_leaves
                (List.length_set.trans h.length_minima) (fun _ _ => rfl)
                (fun j hj => List.getElem?_set_ne hj) id .inl
                (.ended (.finished hall) (fun h => absurd h.symm Bool.false_ne_true)
                  (List.getElem?_set_self hlt))⟩
      | ended _ _ _ =>
          rw [Floor.turn_eq hk, Shift.turn, set_eq_self hk]
          exact ⟨finished, h⟩

/-- Before the first turn nobody has begun. -/
theorem Sharing.begin (t : Instant) (s : Shift τ σ ω) :
    Sharing t s (fun _ => false) ⟨s, (List.range s.crew.workers).map (s.advanceScript t)⟩ where
  crew := rfl
  length_leaves := rfl
  length_minima := rfl
  length_scripts := by rw [List.length_map, List.length_range]
  midway k script hk := by
    rw [script_of_begin hk]
    exact .outside (fun _ _ => rfl) rfl
  failed := .inl

/-- **At the end of the phase**, when worker `k` has nothing left to do, its fate is known. -/
theorem Sharing.fate (h : Sharing t s finished f) {k : Nat} (hk : f.scripts[k]? = some []) :
    Fate ω t s.crew f.shift.crew (s.leavesOf k) (finished k) ∧
      (finished k = false → f.shift.failure.isSet = true) ∧ f.shift.minima[k]?
        = if finished k then some (earliestOf f.shift.crew (s.leavesOf k)) else s.minima[k]? := by
  have hmid := h.midway k [] hk
  generalize finished k = ended at hmid ⊢
  generalize hscript : ([] : List (Task τ)) = script at hmid
  cases hmid with
  | outside => cases hscript
  | inside => simp at hscript
  | ended hfate hfailed hnote => exact ⟨hfate, hfailed, hnote⟩

/-- **The third phase**, whatever the models do. Every share has a fate; the workers who have
come to their end have noted the earliest next event of their leaves, and the notes of the
others are as they were; and there is a failure just if some worker has not come to its end. -/
theorem phase_fates (hw : 0 < s.crew.workers) (hminima : s.minima.length = s.crew.workers)
    (turns : List Nat) :
    let s' := s.phase (advanceScript t) turns
    ∃ finished : Nat → Bool,
      s'.crew = { s.crew with leaves := s'.crew.leaves } ∧
      s'.crew.leaves.length = s.crew.leaves.length ∧ s'.minima.length = s.minima.length ∧
      (∀ k < s.crew.workers, Fate ω t s.crew s'.crew (s.leavesOf k) (finished k) ∧
        s'.minima[k]?
          = if finished k then some (earliestOf s'.crew (s.leavesOf k)) else s.minima[k]?) ∧
      (s'.failure.isSet = true ↔ ∃ k < s.crew.workers, finished k = false) ∧
      (s.failure.isSet = true → ∀ k < s.crew.workers, finished k = false) := by
  intro s'
  obtain ⟨f, ⟨finished, h⟩, hempty, hlength, hphase⟩ := exists_phase_eq (advanceScript t) turns
    (P := fun f => ∃ finished, Sharing t s finished f) ⟨_, .begin t s⟩
    fun f k ⟨_, h⟩ => h.turn hw hminima k
  -- Nobody has anything left to do, so everybody's fate is known.
  have hend : ∀ k < s.crew.workers, f.scripts[k]? = some [] := by
    intro k hk
    have hget := List.getElem?_eq_getElem (hlength ▸ hk : k < f.scripts.length)
    rw [hget, hempty _ (List.getElem_mem _)]
  have hs' : s' = f.shift := hphase
  cases hset : s.failure.isSet with
  | true =>
      -- Nobody begins.
      have hsame : s' = s := phase_of_failed (fun k => ⟨_, rfl⟩) hset turns
      rw [hsame]
      exact ⟨fun _ => false, rfl, rfl, rfl, fun k _ => ⟨.idle fun _ _ => rfl, rfl⟩,
        ⟨fun _ => ⟨0, hw, rfl⟩, fun _ => hset⟩, fun _ _ _ => rfl⟩
  | false =>
      rw [hs']
      refine ⟨finished, h.crew, h.length_leaves, h.length_minima,
        fun k hk => ⟨(h.fate (hend k hk)).1, (h.fate (hend k hk)).2.2⟩,
        ⟨fun hfailed => ?_, fun ⟨k, hk, hfalse⟩ => (h.fate (hend k hk)).2.1 hfalse⟩, nofun⟩
      rcases h.failed hfailed with hbefore | ⟨k, hk, hfalse⟩
      · rw [hset] at hbefore
        cases hbefore
      · refine ⟨k, ?_, hfalse⟩
        rw [← h.length_scripts]
        exact (List.getElem?_eq_some_iff.mp hk).1

end Shift

end DiscreteEvent
