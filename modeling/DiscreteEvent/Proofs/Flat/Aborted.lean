/-
Steps that are broken off.

When a model faults in the middle of a step, the workers do not begin another phase, but the
leader closes the step all the same: the root moves on to the time of the step, takes for
its next event the earliest of what the workers have noted, and reports that it has collected
and advanced. A worker who has not come to its end has noted nothing in this step. What it has
noted before is out of date: in the first step of a run it is the last instant, and later
it is what was true before the step.

`Underway` are the positions that a run goes through, and `Abandoned` is what a step leaves that
was broken off. `aborted_run` says that every run that stops has been broken off in such a
step, and when the next event of the root is the earliest of its leaves nevertheless.
-/
import DiscreteEvent.Components.Machine
import DiscreteEvent.Proofs.Engine.Unobserved
import DiscreteEvent.Proofs.Flat.Fates
import DiscreteEvent.Proofs.Model.Accepted

set_option autoImplicit false

namespace DiscreteEvent

variable {τ σ ω π : Type} [MessageType τ]

/-! ## The earliest of some instants -/

theorem le_foldr_min {ts : List Instant} {t : Instant} :
    t ≤ ts.foldr min .max ↔ ∀ x ∈ ts, t ≤ x := by
  induction ts with
  | nil => exact ⟨fun _ => nofun, fun _ => t.le_max⟩
  | cons x ts ih => rw [List.foldr_cons, le_min_iff, ih, List.forall_mem_cons]

namespace Crew

/-- **The earliest next event** among the leaves. -/
def earliest (c : Crew τ σ) : Instant := Hub.earliest (c.leaves.map (·.toNode))

theorem le_earliest {c : Crew τ σ} {t : Instant} :
    t ≤ c.earliest ↔ ∀ l ∈ c.leaves, t ≤ l.next := by
  constructor
  · exact fun h l hl => le_trans h (Hub.earliest_le (List.mem_map_of_mem hl))
  · intro h
    refine Hub.le_earliest fun n hn => ?_
    obtain ⟨l, hl, rfl⟩ := List.mem_map.mp hn
    exact h l hl

theorem earliest_le {c : Crew τ σ} {i : Nat} {l : Leaf τ σ} (hl : c.leaves[i]? = some l) :
    c.earliest ≤ l.next :=
  le_earliest.mp (le_refl _) l (List.mem_of_getElem? hl)

/-- The earliest next event is a matter of the times of the leaves. -/
theorem earliest_congr {c c' : Crew τ σ} (h : c'.leaves.map (·.next) = c.leaves.map (·.next)) :
    c'.earliest = c.earliest := by
  have hmap : ∀ c : Crew τ σ, (c.leaves.map (·.toNode)).map (·.next) = c.leaves.map (·.next) :=
    fun c => List.map_map
  rw [earliest, earliest, Hub.earliest, Hub.earliest, hmap, hmap, h]

end Crew

namespace Shift

theorem le_earliestOf {c : Crew τ σ} {places : List Nat} {t : Instant} :
    t ≤ earliestOf c places ↔ ∀ i ∈ places, ∀ l, c.leaves[i]? = some l → t ≤ l.next := by
  rw [earliestOf, Hub.earliest, le_foldr_min]
  simp only [List.mem_map, List.mem_filterMap]
  constructor
  · exact fun h i hi l hl => h _ ⟨_, ⟨l, ⟨i, hi, hl⟩, rfl⟩, rfl⟩
  · rintro h _ ⟨_, ⟨l, ⟨i, hi, hl⟩, rfl⟩, rfl⟩
    exact h i hi l hl

/-- **All shares together have the earliest event** of all leaves. -/
theorem le_earliest_iff {s : Shift τ σ ω} {c : Crew τ σ} (hc : c.shape = s.crew.shape)
    (hw : 0 < s.crew.workers) {t : Instant} :
    t ≤ c.earliest ↔ ∀ k < s.crew.workers, t ≤ earliestOf c (s.leavesOf k) := by
  have hlength : c.leaves.length = s.crew.leaves.length := congrArg Prod.fst hc
  rw [Crew.le_earliest]
  constructor
  · exact fun h k _ => le_earliestOf.mpr fun i _ l hl => h l (List.mem_of_getElem? hl)
  · intro h l hl
    obtain ⟨i, hi⟩ := List.getElem?_of_mem hl
    have hlt : i < s.crew.leaves.length := hlength ▸ (List.getElem?_eq_some_iff.mp hi).1
    -- Every leaf is in the share of some worker.
    obtain ⟨k, hk, hmem⟩ := (Share.mem_items_iff hw).mpr hlt
    exact le_earliestOf.mp (h k hk) i hmem l hi

end Shift

/-! ## A step, phase by phase -/

namespace Shift

variable [AtomicModel τ σ] [Observer ω]

/-- A step at `t` up to its third phase: outputs are collected and messages routed. -/
def prepared (table : Timetable) (t : Instant) (s : Shift τ σ ω) : Shift τ σ ω :=
  (s.phase (collectScript t) table.collect).phase routeScript table.route

/-- A step at `t` up to its closing. -/
def worked (table : Timetable) (t : Instant) (s : Shift τ σ ω) : Shift τ σ ω :=
  (s.prepared table t).phase (advanceScript t) table.advance

theorem stepOn_eq (table : Timetable) (t : Instant) (s : Shift τ σ ω) :
    s.stepOn table t = (s.worked table t).close t := rfl

theorem prepared_quiet (table : Timetable) (t : Instant) (s : Shift τ σ ω) :
    (s.prepared table t).crew.frame = s.crew.frame ∧
      (s.prepared table t).minima = s.minima := by
  obtain ⟨hframe, hminima⟩ := s.phase_collect_quiet t table.collect
  obtain ⟨hframe', hminima'⟩ :=
    (s.phase (collectScript t) table.collect).phase_route_quiet table.route
  exact ⟨hframe'.trans hframe, hminima'.trans hminima⟩

theorem steady_prepared {α : Type} {f : Crew τ σ → α} (hf : Crew.Steady ω f) (table : Timetable)
    (t : Instant) (s : Shift τ σ ω) : f (s.prepared table t).crew = f s.crew :=
  (hf.phase _ _ _).trans (hf.phase _ _ _)

theorem steady_worked {α : Type} {f : Crew τ σ → α} (hf : Crew.Steady ω f) (table : Timetable)
    (t : Instant) (s : Shift τ σ ω) : f (s.worked table t).crew = f s.crew :=
  (hf.phase _ _ _).trans (steady_prepared hf table t s)

variable {t : Instant} {s : Shift τ σ ω} {table : Timetable}

/-- **A step up to its closing**, whatever the models do. -/
theorem worked_fates (t : Instant) (table : Timetable) (hw : 0 < s.crew.workers)
    (hminima : s.minima.length = s.crew.workers) :
    ∃ finished : Nat → Bool,
      (∀ k < s.crew.workers,
        Fate ω t (s.prepared table t).crew (s.worked table t).crew (s.leavesOf k) (finished k) ∧
        (s.worked table t).minima[k]? = if finished k
          then some (earliestOf (s.worked table t).crew (s.leavesOf k)) else s.minima[k]?) ∧
      (s.worked table t).minima.length = s.crew.workers ∧
      (s.worked table t).crew
        = { (s.prepared table t).crew with leaves := (s.worked table t).crew.leaves } ∧
      ((s.worked table t).failure.isSet = true ↔ ∃ k < s.crew.workers, finished k = false) ∧
      ((s.prepared table t).failure.isSet = true → ∀ k < s.crew.workers, finished k = false) := by
  obtain ⟨-, hminima'⟩ := s.prepared_quiet table t
  have hshape := steady_prepared Crew.steady_shape table t s
  have hworkers : (s.prepared table t).crew.workers = s.crew.workers :=
    congrArg (·.2.2) hshape
  have hshare := leavesOf_congr hshape
  have hlength : (s.prepared table t).minima.length = (s.prepared table t).crew.workers := by
    rw [hminima', hworkers, hminima]
  obtain ⟨finished, hcrew, -, hlength', hfates, hfailure, hbefore⟩ :=
    phase_fates (t := t) (by rw [hworkers]; exact hw) hlength table.advance
  rw [hworkers, hshare, hminima'] at hfates
  rw [hworkers] at hfailure hbefore
  exact ⟨finished, hfates, hlength'.trans (hlength.trans hworkers), hcrew, hfailure, hbefore⟩

/-- **The leader closes a step**, broken off or not. -/
theorem close_eq (hq : Observer.Calm ω) (t : Instant) (s : Shift τ σ ω) :
    s.close t = { s with
      crew := { s.crew with
        last := t
        next := s.minima.foldr min .max
        inbox := s.crew.inbox.clear
        outbox := s.crew.outbox.clear }
      world := s.world.after
        (.ofRecord ⟨.collect, s.crew.path, t, s.crew.last, t, none,
            Record.bagsOf .output s.crew.outbox⟩ ++
          .ofRecord ⟨.advance, s.crew.path, t, t, s.minima.foldr min .max, none,
            Record.bagsOf .input s.crew.inbox⟩) } := by
  have ha : Attended ω fun (_ : Interface τ) _ (_ : σ) => False := ⟨hq, fun _ _ _ _ _ h => h.elim⟩
  rw [close, Crew.close_eq ha]
  rfl

/-! ## The positions of a run -/

/-- **The positions of a run** of `c` in front of its steps, with the number of steps that have
been done by then. -/
inductive Underway (c : Crew τ σ) (plan : Nat → Timetable) : Nat → Shift τ σ ω → Prop
  | begin (w : World ω) : Underway c plan 0 (.begin c w)
  /-- The signal to interrupt the run comes and goes. -/
  | signal {n : Nat} {s : Shift τ σ ω} {w : World ω} (h : Underway c plan n s)
      (hw : w.observer = s.world.observer) : Underway c plan n { s with world := w }
  | step {n : Nat} {s : Shift τ σ ω} (h : Underway c plan n s)
      (hdone : (s.stepOn (plan n) s.crew.next).failure.isSet = false) :
      Underway c plan (n + 1) (s.stepOn (plan n) s.crew.next)

/-- What a worker has noted in front of step number `n`. -/
def noted (n : Nat) (s : Shift τ σ ω) (k : Nat) : Instant :=
  if n = 0 then .max else earliestOf s.crew (s.leavesOf k)

/-- **What is known** in front of step number `n`. -/
structure Known (c : Crew τ σ) (n : Nat) (s : Shift τ σ ω) : Prop where
  failure : s.failure.isSet = false
  shape : s.crew.shape = c.shape
  length_minima : s.minima.length = s.crew.workers
  noted : ∀ k < s.crew.workers, s.minima[k]? = some (s.noted n k)
  first : n = 0 → s.crew = c
  later : 0 < n → s.crew.next = s.crew.earliest

variable {c : Crew τ σ} {plan : Nat → Timetable} {n : Nat}

/-- The leader finds what the workers have noted. -/
theorem le_foldr_minima {minima : List Instant} {workers : Nat} {note : Nat → Instant}
    (hlength : minima.length = workers) (hnoted : ∀ k < workers, minima[k]? = some (note k))
    {t : Instant} : t ≤ minima.foldr min .max ↔ ∀ k < workers, t ≤ note k := by
  rw [le_foldr_min]
  constructor
  · exact fun h k hk => h _ (List.mem_of_getElem? (hnoted k hk))
  · intro h x hx
    obtain ⟨k, hk⟩ := List.getElem?_of_mem hx
    have hlt : k < workers := hlength ▸ (List.getElem?_eq_some_iff.mp hk).1
    rw [hnoted k hlt, Option.some_inj] at hk
    exact hk ▸ h k hlt

/-- **Between the steps of a run everybody knows** its next event. -/
theorem Underway.known (hq : Observer.Calm ω) (hw : 0 < c.workers) (h : Underway c plan n s) :
    Known c n s := by
  induction h with
  | begin w =>
      refine ⟨rfl, rfl, List.length_replicate, fun k hk => ?_, fun _ => rfl, fun h => ?_⟩
      · exact (List.getElem?_replicate_of_lt hk).trans (congrArg some (if_pos rfl).symm)
      · exact absurd h (Nat.lt_irrefl 0)
  | signal h hobserver ih =>
      exact ⟨ih.failure, ih.shape, ih.length_minima, ih.noted, ih.first, ih.later⟩
  | @step n s h hdone ih =>
      have hworkers : 0 < s.crew.workers := by
        rw [show s.crew.workers = c.workers from congrArg (·.2.2) ih.shape]
        exact hw
      obtain ⟨finished, hfates, hlength, hcrew, hfailure, -⟩ :=
        worked_fates s.crew.next (plan n) hworkers ih.length_minima
      have hshape := steady_worked Crew.steady_shape (plan n) s.crew.next s
      rw [stepOn_eq, close_eq hq] at hdone ⊢
      -- Nobody has failed, so everybody has come to its end.
      have hall : ∀ k < s.crew.workers, finished k = true := by
        intro k hk
        by_contra hfalse
        rw [hfailure.mpr ⟨k, hk, Bool.eq_false_iff.mpr hfalse⟩] at hdone
        cases hdone
      have hnoted : ∀ k < s.crew.workers, (s.worked (plan n) s.crew.next).minima[k]?
          = some (earliestOf (s.worked (plan n) s.crew.next).crew (s.leavesOf k)) := by
        intro k hk
        rw [(hfates k hk).2, if_pos (hall k hk)]
      have hworkers' : (s.worked (plan n) s.crew.next).crew.workers = s.crew.workers :=
        congrArg (·.2.2) hshape
      refine ⟨hdone, hshape.trans ih.shape, ?_, fun k hk => ?_, nofun, fun _ => ?_⟩
      · exact hlength.trans hworkers'.symm
      · refine (hnoted k (hworkers' ▸ hk)).trans ?_
        rw [noted, if_neg (Nat.succ_ne_zero n), ← leavesOf_congr hshape]
        rfl
      · refine eq_of_forall_le_iff fun x => ?_
        exact (le_foldr_minima hlength hnoted).trans (le_earliest_iff (s := s) hshape hworkers).symm

/-! ## What a step leaves that was broken off -/

/-- What worker `k` has noted when step number `n`, which began in `s`, has left `c`. -/
def notedIn (n : Nat) (s : Shift τ σ ω) (c : Crew τ σ) (finished : Nat → Bool) (k : Nat) :
    Instant :=
  if finished k then earliestOf c (s.leavesOf k) else s.noted n k

/-- **What step number `n` leaves that was broken off**, when it began in `s`: the step is closed
as if it was done. -/
structure Abandoned (n : Nat) (table : Timetable) (s : Shift τ σ ω) (c : Crew τ σ)
    (w : World ω) (finished : Nat → Bool) : Prop where
  fate : ∀ k < s.crew.workers, Fate ω s.crew.next (s.prepared table s.crew.next).crew c
    (s.leavesOf k) (finished k)
  unfinished : ∃ k < s.crew.workers, finished k = false
  last : c.last = s.crew.next
  next : c.next = ((List.range s.crew.workers).map (s.notedIn n c finished)).foldr min .max
  /-- The root has reported that it has collected and advanced. -/
  world : w = (s.worked table s.crew.next).world.after
    (.ofRecord ⟨.collect, s.crew.path, s.crew.next, s.crew.last, s.crew.next, none,
        Record.bagsOf .output (s.worked table s.crew.next).crew.outbox⟩ ++
      .ofRecord ⟨.advance, s.crew.path, s.crew.next, s.crew.next, c.next, none,
        Record.bagsOf .input s.crew.inbox⟩)

/-- **A step that fails** has been broken off. -/
theorem Known.abandoned (hq : Observer.Calm ω) (hw : 0 < c.workers) (h : Known c n s)
    (hfailed : (s.stepOn table s.crew.next).failure.isSet = true) :
    (s.stepOn table s.crew.next).failure = (s.worked table s.crew.next).failure ∧
    ∃ finished, Abandoned n table s (s.stepOn table s.crew.next).crew
        (s.stepOn table s.crew.next).world finished ∧
      ((s.prepared table s.crew.next).failure.isSet = true →
        ∀ k < s.crew.workers, finished k = false) := by
  have hworkers : 0 < s.crew.workers := by
    rw [show s.crew.workers = c.workers from congrArg (·.2.2) h.shape]
    exact hw
  obtain ⟨finished, hfates, hlength, hcrew, hfailure, hbefore⟩ :=
    worked_fates s.crew.next table hworkers h.length_minima
  obtain ⟨hframe, -⟩ := s.prepared_quiet table s.crew.next
  have hpath : (s.worked table s.crew.next).crew.path = s.crew.path := by
    rw [hcrew]
    exact congrArg (·.1) hframe
  have hlast : (s.worked table s.crew.next).crew.last = s.crew.last := by
    rw [hcrew]
    exact congrArg (·.2.1) hframe
  have hinbox : (s.worked table s.crew.next).crew.inbox = s.crew.inbox := by
    rw [hcrew]
    exact congrArg (·.2.2.2.1) hframe
  rw [stepOn_eq, close_eq hq] at hfailed ⊢
  refine ⟨rfl, finished, ⟨fun k hk => (hfates k hk).1.congr fun _ _ => rfl, hfailure.mp hfailed,
    rfl, ?_, ?_⟩, hbefore⟩
  · -- The notes are those of this step, or those from before it.
    refine congrArg (List.foldr min Instant.max) (List.ext_getElem? fun k => ?_)
    by_cases hk : k < s.crew.workers
    · rw [(hfates k hk).2, h.noted k hk, List.getElem?_map, List.getElem?_range hk, Option.map_some,
        notedIn]
      cases finished k <;> rfl
    · rw [List.getElem?_eq_none (by omega), List.getElem?_eq_none (by simpa using hk)]
  · rw [hpath, hlast, hinbox]

/-! ## When the next event is right nevertheless -/

section Right

variable {w : World ω} {finished : Nat → Bool} {c' : Crew τ σ}

theorem Abandoned.le_next (h : Abandoned n table s c' w finished) {x : Instant} :
    x ≤ c'.next ↔ ∀ k < s.crew.workers, x ≤ s.notedIn n c' finished k := by
  rw [h.next]
  refine le_foldr_minima (by rw [List.length_map, List.length_range]) fun k hk => ?_
  rw [List.getElem?_map, List.getElem?_range hk, Option.map_some]

/-- **In the first step of a run** the root knows of the leaves of those workers only who have
come to their end. -/
theorem Abandoned.next_eq_iff (h : Abandoned 0 table s c' w finished)
    (hshape : c'.shape = s.crew.shape) (hw : 0 < s.crew.workers) :
    c'.next = c'.earliest ↔ ∀ k < s.crew.workers, finished k = false →
      c'.next ≤ earliestOf c' (s.leavesOf k) := by
  have hshares := le_earliest_iff (s := s) hshape hw (t := c'.next)
  -- The root leaves out some leaves and adds none, so it is not too early.
  have hle : c'.earliest ≤ c'.next := by
    refine h.le_next.mpr fun k hk => ?_
    cases hk' : finished k with
    | true =>
        rw [notedIn, hk', if_pos rfl]
        exact (le_earliest_iff hshape hw).mp (le_refl _) k hk
    | false =>
        rw [notedIn, hk', if_neg Bool.false_ne_true, noted, if_pos rfl]
        exact c'.earliest.le_max
  constructor
  · exact fun heq k hk _ => hshares.mp (le_of_eq heq) k hk
  · intro hopen
    refine le_antisymm (hshares.mpr fun k hk => ?_) hle
    cases hk' : finished k with
    | true =>
        have hnote := h.le_next.mp (le_refl _) k hk
        rw [notedIn, hk', if_pos rfl] at hnote
        exact hnote
    | false => exact hopen k hk hk'

/-- **No leaf goes back** behind the time of the step, whether or not it has been advanced. -/
theorem Abandoned.next_le_leaf (h : Abandoned n table s c' w finished)
    (hshape : c'.shape = s.crew.shape) (hw : 0 < s.crew.workers)
    (hlater : s.crew.next = s.crew.earliest) {j : Nat} {x : Leaf τ σ}
    (hx : c'.leaves[j]? = some x) : s.crew.next ≤ x.next := by
  have hlength : c'.leaves.length = s.crew.leaves.length := congrArg Prod.fst hshape
  have hlt : j < s.crew.leaves.length := hlength ▸ (List.getElem?_eq_some_iff.mp hx).1
  obtain ⟨k, hk, hmem⟩ := (Share.mem_items_iff hw).mpr hlt
  -- The first two phases have left the times alone.
  have hprepared : ∀ y, (s.prepared table s.crew.next).crew.leaves[j]? = some y →
      s.crew.next ≤ y.next := by
    intro y hy
    have htimes : (s.prepared table s.crew.next).crew.leaves.map (·.next)
        = s.crew.leaves.map (·.next) :=
      congrArg (·.2.2.2.2) (s.prepared_quiet table s.crew.next).1
    have hsame := congrArg (·[j]?) htimes
    rw [List.getElem?_map, List.getElem?_map, hy, List.getElem?_eq_getElem hlt, Option.map_some,
      Option.map_some, Option.some_inj] at hsame
    rw [hsame, hlater]
    exact Crew.earliest_le (List.getElem?_eq_getElem hlt)
  rcases (h.fate k hk).leaf hmem with hidle | ⟨stop, y, y', w, w', hy, hy', hcall⟩
  · exact hprepared x (hidle ▸ hx)
  · cases hx.symm.trans hy'
    have hle := Leaf.le_next_advance (hprepared y hy) w
    rw [hcall] at hle
    exact hle

/-- **In a later step** the root is right as long as some leaf is still due. -/
theorem Abandoned.next_eq_of_due (h : Abandoned n table s c' w finished) (hn : 0 < n)
    (hshape : c'.shape = s.crew.shape) (hw : 0 < s.crew.workers)
    (hlater : s.crew.next = s.crew.earliest) {i : Nat} {l l' : Leaf τ σ}
    (hl : s.crew.leaves[i]? = some l) (hl' : c'.leaves[i]? = some l')
    (hdue : l.next = s.crew.next) (hdue' : l'.next = s.crew.next) :
    c'.next = s.crew.next ∧ c'.earliest = s.crew.next := by
  have hafter : ∀ (j : Nat) (x : Leaf τ σ), c'.leaves[j]? = some x → s.crew.next ≤ x.next :=
    fun _ _ hx => h.next_le_leaf hshape hw hlater hx
  obtain ⟨k, hk, hmem⟩ :=
    (Share.mem_items_iff hw).mpr (List.getElem?_eq_some_iff.mp hl).1
  refine ⟨le_antisymm ?_ (h.le_next.mpr fun j hj => ?_), le_antisymm ?_ ?_⟩
  · -- The worker of the leaf has noted it, in this step or in the one before.
    have hnote := h.le_next.mp (le_refl _) k hk
    refine le_trans hnote ?_
    rw [notedIn, noted, if_neg (Nat.pos_iff_ne_zero.mp hn)]
    split
    · exact hdue' ▸ le_earliestOf.mp (le_refl _) i hmem l' hl'
    · exact hdue ▸ le_earliestOf.mp (le_refl _) i hmem l hl
  · rw [notedIn, noted, if_neg (Nat.pos_iff_ne_zero.mp hn)]
    split
    · exact le_earliestOf.mpr fun i _ l hl => hafter i l hl
    · exact le_earliestOf.mpr fun i _ l hl => hlater ▸ Crew.earliest_le hl
  · exact hdue' ▸ Crew.earliest_le hl'
  · refine Crew.le_earliest.mpr fun x hx => ?_
    obtain ⟨j, hj⟩ := List.getElem?_of_mem hx
    exact hafter j x hj

/-- **When the leaves have not begun to advance** their times are as before. In the first step
of a run the root has forgotten them, and in a later one it is right. -/
theorem Abandoned.next_of_prepared (hq : Observer.Calm ω) (hw : 0 < s.crew.workers)
    (h : Abandoned n table s (s.stepOn table s.crew.next).crew w finished)
    (hlater : 0 < n → s.crew.next = s.crew.earliest)
    (hunfinished : ∀ k < s.crew.workers, finished k = false)
    (hfailed : (s.prepared table s.crew.next).failure.isSet = true) :
    (s.stepOn table s.crew.next).crew.earliest = s.crew.earliest ∧
      (s.stepOn table s.crew.next).crew.next = if n = 0 then .max else s.crew.next := by
  have hworked : s.worked table s.crew.next = s.prepared table s.crew.next :=
    phase_of_failed (fun k => ⟨_, rfl⟩) hfailed table.advance
  refine ⟨Crew.earliest_congr ?_, eq_of_forall_le_iff fun x => ?_⟩
  · rw [stepOn_eq, hworked, close_eq hq]
    exact congrArg (·.2.2.2.2) (s.prepared_quiet table s.crew.next).1
  · have hnoted : ∀ k < s.crew.workers,
        s.notedIn n (s.stepOn table s.crew.next).crew finished k = s.noted n k := by
      intro k hk
      rw [notedIn, hunfinished k hk, if_neg Bool.false_ne_true]
    rw [h.le_next]
    by_cases hn : n = 0
    · rw [if_pos hn]
      refine iff_of_true (fun k hk => ?_) x.le_max
      rw [hnoted k hk, noted, if_pos hn]
      exact x.le_max
    · have hshares := le_earliest_iff (s := s) (c := s.crew) rfl hw (t := x)
      rw [← hlater (Nat.pos_of_ne_zero hn)] at hshares
      rw [if_neg hn, hshares]
      refine forall₂_congr fun k hk => ?_
      rw [hnoted k hk, noted, if_neg hn]

end Right

/-! ## Whole runs -/

/-- **A run that stops** has failed in a step. -/
theorem Underway.exists_failed [Supervisor π] (hp : Supervisor.Calm π) {stop : Stop}
    {limit : Nat} :
    ∀ {n : Nat} {s : Shift τ σ ω} {p : π} {o : Outcome (Crew τ σ × π) ω}, Underway c plan n s →
      s.runOn limit (fun i => plan (n + i)) p = some o → o.stop = some stop →
      ∃ n s, Underway c plan n s ∧
        (s.stepOn (plan n) s.crew.next).failure.isSet = true ∧
        o.state.1 = (s.stepOn (plan n) s.crew.next).crew ∧
        o.world = (s.stepOn (plan n) s.crew.next).world ∧
        o.stop = (s.stepOn (plan n) s.crew.next).failure.stop := by
  induction limit with
  | zero => exact fun _ ho => nomatch ho
  | succ limit ih =>
      intro n s p o h ho hstop
      simp only [runOn, hp.proceed, hp.completed] at ho
      split at ho
      · -- The supervisor has asked for a step, which is the last one just if it fails.
        have hasked := h.signal
          (s.world.observer_heed (Supervisor.proceed s.crew.next s.world.interrupted p))
        split at ho
        · rename_i hfailed
          cases ho
          exact ⟨n, _, hasked, hfailed, rfl, rfl, rfl⟩
        · rename_i hdone
          have hstep := hasked.step (Bool.eq_false_iff.mpr hdone)
          have hplan : (fun i => plan (n + (i + 1))) = fun i => plan (n + 1 + i) :=
            funext fun i => by rw [Nat.add_comm i 1, Nat.add_assoc]
          rw [hplan] at ho
          exact ih (hstep.signal (World.observer_heed _ _)) ho hstop
      · cases ho
        cases hstop

end Shift

namespace Crew

variable [AtomicModel τ σ] [Observer ω]

/-- **What stays in steps** stays in all calls. -/
theorem Driven.steady {α : Type} {f : Crew τ σ → α} (hf : Steady ω f) {m : Model τ σ}
    {wished : Nat} {c : Crew τ σ} (h : Driven ω m wished c) : f c = f (ofModel wished m) := by
  induction h with
  | create => rfl
  | @init c t w _ ih =>
      refine Eq.trans ?_ ih
      have hleaves := onLeaves_keeps (hf.onLeaf (.init t)) (List.range c.leaves.length) c w
      exact Outcome.andThen_holds (P := fun c' : Crew τ σ => f c' = f c) hleaves
        fun _ _ h => (hf.times _ _ _ _).trans h
  | inject _ _ ih =>
      refine Eq.trans ?_ ih
      unfold Crew.inject
      split
      · rfl
      · exact hf.bags _ _ _
  | runUntil _ ho ih =>
      obtain ⟨o', ho', rfl⟩ := Option.map_eq_some_iff.mp ho
      refine Eq.trans ?_ ih
      rw [Crew.runOn] at ho'
      split at ho'
      · exact hf.runOn ho'
      · cases ho'
        rfl

/-- No call changes the numbers of leaves and of workers. -/
theorem Driven.shape {m : Model τ σ} {wished : Nat} {c : Crew τ σ} (h : Driven ω m wished c) :
    c.shape = (ofModel wished m).shape := h.steady steady_shape

theorem Driven.workers_pos {m : Model τ σ} {wished : Nat} {c : Crew τ σ}
    (h : Driven ω m wished c) : 0 < c.workers := by
  rw [show c.workers = (ofModel wished m).workers from congrArg (·.2.2) h.shape]
  exact Share.workers_pos _ _

end Crew

variable [AtomicModel τ σ] [Observer ω] [Supervisor π]

/-- **A run that stops was broken off in a step**, say number `n` from zero on, which began in
`s` at the next event of its crew. All workers came to their end in the steps before, and at
least one did not in this step. The root has moved on and has reported that it has advanced; its
next event is the earliest of what the workers have noted by then.

If the leaves had not begun to advance, this is the last instant in the first step of a run, and
the earliest of the leaves in all others. If they had, it is that of the leaves in a first step
just if the leaves of the workers who have come to their end are not later than those of
the others, and in a later step at any rate if some leaf is still due. -/
theorem aborted_run {m : Model τ σ} {wished : Nat} {c : Crew τ σ} (h : c.Driven ω m wished)
    (hi : c.initialized = true) (hq : Observer.Calm ω) (hp : Supervisor.Calm π) {limit : Nat}
    {plan : Nat → Timetable} {p : π} {w : World ω} {o : Outcome (Crew τ σ × π) ω}
    (ho : c.runOn limit plan p w = some o) {stop : Stop} (hstop : o.stop = some stop) :
    ∃ (n : Nat) (s : Shift τ σ ω) (finished : Nat → Bool), Shift.Underway c plan n s ∧
      (s.worked (plan n) s.crew.next).failure.stop = some stop ∧
      s.Abandoned n (plan n) o.state.1 o.world finished ∧
      ((s.prepared (plan n) s.crew.next).failure.isSet = true →
        (∀ k < s.crew.workers, finished k = false) ∧ o.state.1.earliest = s.crew.earliest ∧
        o.state.1.next = if n = 0 then .max else s.crew.next) ∧
      (n = 0 → s.crew = c ∧ (o.state.1.next = o.state.1.earliest ↔
        ∀ k < s.crew.workers, finished k = false →
          o.state.1.next ≤ Shift.earliestOf o.state.1 (s.leavesOf k))) ∧
      (0 < n → s.crew.next = s.crew.earliest ∧
        ∀ (i : Nat) (l l' : Leaf τ σ), s.crew.leaves[i]? = some l →
          o.state.1.leaves[i]? = some l' → l.next = s.crew.next → l'.next = s.crew.next →
          o.state.1.next = s.crew.next ∧ o.state.1.earliest = s.crew.next) := by
  have hw := h.workers_pos
  rw [Crew.runOn, if_pos hi] at ho
  have hplan : (fun i => plan (0 + i)) = plan := funext fun i => by rw [Nat.zero_add]
  rw [← hplan] at ho
  obtain ⟨n, s, hunder, hfailed, hcrew, hworld, hreason⟩ :=
    (Shift.Underway.begin w).exists_failed hp ho hstop
  have hknown := hunder.known hq hw
  have hworkers : 0 < s.crew.workers := by
    rw [show s.crew.workers = c.workers from congrArg (·.2.2) hknown.shape]
    exact hw
  obtain ⟨hsame, finished, habandoned, hbefore⟩ := hknown.abandoned hq hw hfailed
  have hshape := Crew.steady_shape.stepOn (plan n) s.crew.next s
  rw [hsame, hstop] at hreason
  rw [hcrew, hworld]
  refine ⟨n, s, finished, hunder, hreason.symm, habandoned, fun hset => ?_, fun hn => ?_,
    fun hn => ⟨hknown.later hn, fun i l l' hl hl' hdue hdue' => ?_⟩⟩
  · exact ⟨hbefore hset,
      habandoned.next_of_prepared hq hworkers hknown.later (hbefore hset) hset⟩
  · subst hn
    exact ⟨hknown.first rfl, habandoned.next_eq_iff hshape hworkers⟩
  · exact habandoned.next_eq_of_due hn hshape hworkers (hknown.later hn) hl hl' hdue hdue'

/-! ## Machines that fault -/

namespace Machine

/-- A machine of one state, which lasts for some seconds. -/
def lasting (seconds : UInt64) (faults : MachineFaults) : Machine :=
  start ⟨[], []⟩ [{ timeAdvance := some ⟨seconds, 0, Span.zero.nanos_lt⟩, faults := faults }]
    .arrival 0

/-- Such a machine as a model. -/
def atom (id : String) (seconds : UInt64) (faults : MachineFaults) : Model Payload Machine :=
  .atomic ⟨id, ⟨[], []⟩, lasting seconds faults⟩

/-- **Two machines side by side**, of which the first one faults at its event. -/
def pair (faults : MachineFaults) : Model Payload Machine :=
  .coupled { id := "pair", interface := ⟨[], []⟩, eic := [], eoc := [], ic := [] }
    [atom "broken" 1 faults, atom "sound" 5 {}]

/-- The pair was made of its description. -/
theorem accepted_pair (faults : MachineFaults) : (pair faults).Accepted := by
  refine .coupled (b := {
    id := "pair"
    interface := ⟨[], []⟩
    children := [atom "broken" 1 faults, atom "sound" 5 {}]
    eic := []
    eoc := []
    ic := [] }) (fun m hm => ?_) rfl
  rcases List.mem_pair.mp hm with rfl | rfl
  · exact .atomic (show Model.ofState "broken" (lasting 1 faults) = .ok _ from rfl)
  · exact .atomic (show Model.ofState "sound" (lasting 5 {}) = .ok _ from rfl)

end Machine

/-- Two workers run a pair of machines, of which the first one faults in its transition. The
second worker was faster and has come to its end, so the root takes the event of the second
machine for the next one. -/
theorem aborted_run_pair :
    let w : World Unobserved := ⟨⟨⟩, false⟩
    let m := Machine.pair { internal := some "broken" }
    let c := ((Crew.ofModel 2 m).init .epoch w).state
    let limit : Until := ⟨.max⟩
    let plan : Nat → Timetable := fun _ => { advance := [1, 1, 1] }
    let o := (c.runOn 1 plan limit w).get (by decide +kernel)
    (c.Driven Unobserved m 2 ∧ c.initialized = true ∧
      o.stop = some (.fault (.raised "broken"))) ∧
    (o.state.1.next = ⟨5, 0, by decide⟩ ∧ o.state.1.earliest = ⟨1, 0, by decide⟩) ∧
    ∃ (n : Nat) (s : Shift Payload Machine Unobserved) (finished : Nat → Bool),
      Shift.Underway c plan n s ∧
      s.Abandoned n (plan n) o.state.1 o.world finished := by
  intro w m c limit plan o
  have hc : c.Driven Unobserved m 2 := .init .create
  have hi : c.initialized = true := by decide +kernel
  have ho : c.runOn 1 plan limit w = some o := (Option.some_get _).symm
  have hstop : o.stop = some (.fault (.raised "broken")) := by decide +kernel
  obtain ⟨n, s, finished, hunder, -, habandoned, -⟩ :=
    aborted_run hc hi (fun _ _ => rfl) calm_until ho hstop
  exact ⟨⟨hc, hi, hstop⟩, ⟨by decide +kernel, by decide +kernel⟩, n, s, finished, hunder,
    habandoned⟩

/-- **A step that was not done is reported as done.** One worker runs a pair of machines, of
which the first one faults in its output at one second. No machine has advanced, but the
root has reported that it has advanced to that time; and it says that there is no event to come,
although there is one at that time. -/
theorem aborted_step_closed :
    let w : World Recorder := ⟨{}, false⟩
    let t : Instant := ⟨1, 0, by decide⟩
    let m := Machine.pair { output := some "broken" }
    let started := (Crew.ofModel 1 m).init .epoch w
    let o := started.state.runUntil 1 .max started.world
    m.Accepted ∧ o.map (·.stop) = some (some (.fault (.raised "broken"))) ∧
    o.map (·.state.leaves.map (·.last)) = some [.epoch, .epoch] ∧
    o.map (fun o => (o.world.observer.records.toList.drop 3).map fun r =>
        (r.phase, r.path, r.time, r.last, r.next))
      = some [(.collect, "pair", t, .epoch, t), (.advance, "pair", t, t, .max)] ∧
    o.map (fun o => (o.state.next, o.state.earliest)) = some (.max, t) := by
  intro w t m started o
  exact ⟨Machine.accepted_pair _, by decide +kernel, by decide +kernel, by decide +kernel,
    by decide +kernel⟩

end DiscreteEvent
