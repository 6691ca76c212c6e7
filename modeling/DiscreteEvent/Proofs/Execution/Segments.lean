/-
How a simulation is cut into calls does not change it.

A client takes a simulation through its time by runs and by single steps. A run may end
early: because the client, a model or a progress report asks for it, or because the clock
lags behind. The calls of one `Session` go up to a common limit, and they may be any, in any
number. Whatever they are, the steps before the limit are the same ones, and they are
reported alike and leave the same engine (`sessions_agree`).

The proof goes over the history of the session (`Session.unfolds`). A call adds to it the
steps that it takes, which are before the limit: a run does not go beyond its own limit,
and a single step is taken at the next event. Since there is only one history up to the
limit, nothing of how it was cut is left.
-/
import DiscreteEvent.Execution.Setup
import DiscreteEvent.Proofs.Execution.Steps

set_option autoImplicit false

namespace DiscreteEvent

variable {τ σ ω κ ρ : Type} [MessageType τ]

/-! ## What an observer is told -/

/-- An observer is told of a record or of a line for the log. -/
inductive Telling
  | note (n : Note)
  | line (e : Event)

namespace Telling

/-- The observer takes what it is told. -/
def heard [Observer ω] (o : ω) : Telling → ω
  | note n => Observer.take o n.record
  | line e => Observer.announce e o

/-- The notes among all that was told. -/
def notes (tellings : List Telling) : List Note :=
  tellings.filterMap fun
    | note n => some n
    | line _ => none

end Telling

/-- **What the observer was told** between two worlds: the notes of the effect in their order,
and lines for the log. -/
def World.Told [Observer ω] (x : Effect) (w w' : World ω) : Prop :=
  ∃ tellings : List Telling, w'.observer = tellings.foldl Telling.heard w.observer ∧
    Telling.notes tellings = x.notes

namespace World

variable [Observer ω]

theorem Told.of_eq {w w' : World ω} (h : w'.observer = w.observer) : Told {} w w' :=
  ⟨[], h, rfl⟩

theorem Told.trans {w w₁ w₂ : World ω} {x y : Effect} (h : Told x w w₁) (h' : Told y w₁ w₂) :
    Told (x ++ y) w w₂ := by
  obtain ⟨ts, hts, hx⟩ := h
  obtain ⟨ts', hts', hy⟩ := h'
  refine ⟨ts ++ ts', ?_, ?_⟩
  · rw [List.foldl_append, ← hts, hts']
  · rw [Telling.notes, List.filterMap_append, ← Telling.notes, ← Telling.notes, hx, hy,
      Effect.notes_append]

/-- All notes of an effect, one after the other. -/
theorem Told.of_after {w w' : World ω} {x : Effect} (h : w'.observer = (w.after x).observer) :
    Told x w w' := by
  refine ⟨x.notes.map .note, ?_, ?_⟩
  · rw [h, after, List.foldl_map]
    rfl
  · rw [Telling.notes, List.filterMap_map]
    exact List.filterMap_some

theorem told_announce (w : World ω) (e : Event) : Told {} w (w.announce e) :=
  ⟨[.line e], rfl, rfl⟩

/-- A line more makes no difference to the notes. -/
theorem Told.announce {w w' : World ω} {x : Effect} (h : Told x w w') (e : Event) :
    Told x w (w'.announce e) :=
  Effect.append_nothing x ▸ h.trans (told_announce w' e)

end World

/-! ## What a pacer knows -/

/-- The steps that are in the minutes. -/
def Inquiry.stepsOf (minutes : List Inquiry) : List Instant :=
  minutes.filterMap fun
    | proceed _ => none
    | completed t => some t

theorem Inquiry.stepsOf_append (xs ys : List Inquiry) :
    stepsOf (xs ++ ys) = stepsOf xs ++ stepsOf ys := List.filterMap_append

namespace Pacer

theorem calm [Clock κ] [Progress ρ]
    (hclock : ∀ (t : Instant) (c : κ), (Clock.synchronize t c).fault = none)
    (hprogress : ∀ (t limit : Instant) (p : ρ), (Progress.stepped t limit p).fault = none) :
    Supervisor.Calm (Pacer κ ρ) where
  proceed t interrupted p := by
    show (p.proceed t interrupted).fault = none
    unfold proceed
    split
    · rfl
    · split
      · rfl
      · dsimp only
        split
        · exact hclock t p.clock
        · exact hclock t p.clock
  completed t p := by
    show (p.completed t).fault = none
    unfold completed
    split
    · rfl
    · exact hprogress t p.limit _

/-- **What a pacer knows** of the steps it has let happen: they were before its limit, they
were not too many, and nothing has ended the run so far. -/
structure Knows (limit : Instant) (steps : Option Nat) (ts : List Instant) (p : Pacer κ ρ) :
    Prop where
  limit_eq : p.limit = limit
  before : ∀ t ∈ ts, t < limit
  budget : p.stepsLeft = steps.map (· - ts.length)
  within : ∀ k ∈ steps, ts.length ≤ k
  lag : p.lag = none
  interrupted : p.interrupted = false

/-- **One more step**, which the pacer has wanted. -/
theorem Knows.proceed [Clock κ] {limit : Instant} {steps : Option Nat} {ts : List Instant}
    {p : Pacer κ ρ} (h : Knows limit steps ts p) {t : Instant} {interrupted : Bool}
    (hgo : (p.proceed t interrupted).answer = true) :
    Knows limit steps (ts ++ [t]) (p.proceed t interrupted).state := by
  unfold Pacer.proceed at hgo ⊢
  split at hgo
  · cases hgo
  · rename_i hrange
    rw [if_neg hrange]
    split at hgo
    · cases hgo
    · rename_i hwish
      rw [if_neg hwish]
      dsimp only at hgo ⊢
      split at hgo
      · cases hgo
      · simp only [outOfRange, Bool.or_eq_true, decide_eq_true_eq, beq_iff_eq, not_or] at hrange
        obtain ⟨⟨hbefore, -⟩, hleft⟩ := hrange
        rw [h.limit_eq, not_le] at hbefore
        rw [h.budget] at hleft
        refine ⟨h.limit_eq, fun u hu => ?_, ?_, fun k hk => ?_, h.lag, h.interrupted⟩
        · rcases List.mem_append.mp hu with hu | hu
          · exact h.before u hu
          · exact List.mem_singleton.mp hu ▸ hbefore
        · show p.stepsLeft.map (· - 1) = _
          rw [h.budget, Option.map_map, List.length_append, List.length_singleton]
          exact congrArg (Option.map · steps) (funext fun k => Nat.sub_sub k ts.length 1)
        · cases hk
          rw [Option.map_some, Option.some_inj] at hleft
          rw [List.length_append, List.length_singleton]
          omega

theorem Knows.completed [Progress ρ] {limit : Instant} {steps : Option Nat} {ts : List Instant}
    {p : Pacer κ ρ} (h : Knows limit steps ts p) (t : Instant) :
    Knows limit steps ts (p.completed t).state := by
  unfold Pacer.completed
  split
  · exact h
  · exact ⟨h.limit_eq, h.before, h.budget, h.within, h.lag, h.interrupted⟩

end Pacer

/-- **Why the next step is not wanted** when the number of steps is not limited. -/
theorem Pacer.Knows.refused [Clock κ] {limit : Instant} {ts : List Instant} {p : Pacer κ ρ}
    (h : p.Knows limit none ts) {t : Instant} {interrupted : Bool}
    (hno : (p.proceed t interrupted).answer = false) :
    limit ≤ t ∨ interrupted = true ∨ (p.proceed t interrupted).state.lag ≠ none := by
  unfold Pacer.proceed at hno ⊢
  split at hno
  · rename_i hrange
    simp only [outOfRange, h.limit_eq, h.budget, Option.map_none, Bool.or_eq_true,
      decide_eq_true_eq, Instant.isInfinite_iff, beq_iff_eq, reduceCtorEq, or_false] at hrange
    rcases hrange with hlimit | rfl
    · exact .inl hlimit
    · exact .inl limit.le_max
  · split at hno
    · rename_i hwish
      exact .inr (.inl (Bool.and_eq_true_iff.mp hwish).2)
    · rename_i hrange hwish
      rw [if_neg hrange, if_neg hwish]
      dsimp only at hno ⊢
      split at hno
      · exact .inr (.inr (Option.some_ne_none _))
      · cases hno

/-- **The supervisor of a call**: a pacer that takes minutes and may hear a signal. -/
abbrev Watch (κ ρ : Type) : Type := Minuted (Signalled (Pacer κ ρ))

namespace Watch

/-- The pacer of a call. -/
def pacer (p : Watch κ ρ) : Pacer κ ρ := p.self.self

variable [Clock κ] [Progress ρ]

/-- The steps in the minutes are those that the pacer knows of. -/
structure Knows (limit : Instant) (steps : Option Nat) (ts : List Instant) (p : Watch κ ρ) :
    Prop where
  minutes : Inquiry.stepsOf p.minutes = ts
  pacer : p.pacer.Knows limit steps ts

theorem keeps (limit : Instant) (steps : Option Nat) :
    Supervisor.Keeps (Knows limit steps : List Instant → Watch κ ρ → Prop) where
  step {ts t interrupted p} h hgo := by
    refine ⟨?_, (h.pacer.proceed hgo).completed t⟩
    rw [Minuted.completed_eq, Minuted.proceed_eq, Reply.state_mapState, Reply.state_mapState,
      Inquiry.stepsOf_append, Inquiry.stepsOf_append, h.minutes]
    exact congrArg (· ++ [t]) (List.append_nil ts)

end Watch

/-! ## Calls -/

/-- **What a call meets with**: the turns of the workers, and signals to stop. -/
structure Circumstances where
  plan : Nat → Timetable := fun _ => {}
  signals : List Bool := []

namespace Runner

/-- The runner after its engine has run under a pacer, and what this means. -/
def settled [Observer ω] (r : Runner τ σ ω κ ρ) (o : Outcome (Backend τ σ × Pacer κ ρ) ω) :
    Runner τ σ ω κ ρ × Except Halt Unit :=
  let pacer := o.state.2
  let r := { r with
    backend := o.state.1, clock := pacer.clock, progress := pacer.progress, world := o.world }
  r.conclude o.stop pacer.lag pacer.interrupted

/-- The beginning of a run. -/
def departed [Observer ω] (limit : Instant) (r : Runner τ σ ω κ ρ) : Runner τ σ ω κ ρ :=
  { r with world := { r.world with interrupted := false } }.announce .debug
    ("running until " ++ limit.display)

/-- The end of a run. -/
def arrived [Observer ω] :
    Runner τ σ ω κ ρ × Except Halt Unit → Runner τ σ ω κ ρ × Except Halt Instant
  | (r, .error halt) => (r, .error halt)
  | (r, .ok ()) =>
    let r := r.announce .debug ("run ended at " ++ r.lastTime.display ++ ", next event at "
      ++ r.nextTime.display)
    (r, .ok r.nextTime)

/-- The pacer of a call. -/
def pacer (limit : Instant) (steps : Option Nat) (interruptible : Bool)
    (r : Runner τ σ ω κ ρ) : Pacer κ ρ :=
  { limit := limit, stepsLeft := steps, clock := r.clock, tolerance := r.tolerance,
    interruptible := interruptible, progress := r.progress }

variable [AtomicModel τ σ] [Observer ω] [Clock κ] [Progress ρ]

/-- **Running the engine in given circumstances**, with the times of the steps. -/
def driveOn (c : Circumstances) (decisions : Nat) (limit : Instant) (steps : Option Nat)
    (interruptible : Bool) (r : Runner τ σ ω κ ρ) :
    Option ((Runner τ σ ω κ ρ × Except Halt Unit) × List Instant) :=
  let watch : Watch κ ρ := ⟨⟨r.pacer limit steps interruptible, c.signals⟩, []⟩
  (r.backend.runOn decisions c.plan watch r.world).map fun o =>
    (r.settled (o.mirror Watch.pacer), Inquiry.stepsOf o.state.2.minutes)

/-- **Running up to a time in given circumstances**, with the times of the steps. -/
def runUntilOn (c : Circumstances) (decisions : Nat) (limit : Instant) (r : Runner τ σ ω κ ρ) :
    Option ((Runner τ σ ω κ ρ × Except Halt Instant) × List Instant) :=
  ((r.departed limit).driveOn c decisions limit none true).map fun x => (arrived x.1, x.2)

/-- **A single step in given circumstances**, with the times of the steps. -/
def stepOn (c : Circumstances) (decisions : Nat) (r : Runner τ σ ω κ ρ) :
    Option ((Runner τ σ ω κ ρ × Except Halt (Option Instant)) × List Instant) :=
  if r.nextTime.isInfinite then
    some ((r, .ok none), [])
  else
    (r.driveOn c decisions .max (some 1) false).map fun x =>
      ((x.1.1, x.1.2.map fun () => some r.nextTime), x.2)

/-- **Nothing special meets the calls of a runner**: these are calls where the workers have one
order of turns, and nobody gives a signal. -/
theorem drive_eq_driveOn (decisions : Nat) (limit : Instant) (steps : Option Nat)
    (interruptible : Bool) (r : Runner τ σ ω κ ρ) :
    r.drive decisions limit steps interruptible
      = (r.driveOn {} decisions limit steps interruptible).map Prod.fst := by
  -- Both runs are seen from the one under a pacer that could be signalled, but is not.
  have hminuted := Backend.runOn_mirror Minuted.mirrors_self decisions (fun _ => {}) r.backend
    (⟨⟨r.pacer limit steps interruptible, []⟩, []⟩ : Watch κ ρ) r.world
  have hsignalled := Backend.runOn_mirror Signalled.mirrors_unsignalled decisions (fun _ => {})
    r.backend (r.pacer limit steps interruptible) r.world
  have hsame := congrArg (Option.map (Outcome.mirror Signalled.self))
    (hminuted.trans hsignalled.symm)
  rw [Option.map_map, Option.map_map] at hsame
  have hdrive : r.drive decisions limit steps interruptible
      = (r.backend.run decisions (r.pacer limit steps interruptible) r.world).map r.settled := rfl
  have hplain : r.backend.runOn decisions (fun _ => {}) (r.pacer limit steps interruptible) r.world
      = _ := (Option.map_id' (x := _)).symm.trans hsame.symm
  rw [hdrive, Backend.run_eq_runOn, hplain, Option.map_map, driveOn, Option.map_map]
  rfl

theorem runUntil_eq_runUntilOn (decisions : Nat) (limit : Instant) (r : Runner τ σ ω κ ρ) :
    r.runUntil decisions limit = (r.runUntilOn {} decisions limit).map Prod.fst := by
  have hrun : r.runUntil decisions limit
      = ((r.departed limit).drive decisions limit none true).map arrived := by
    rw [runUntil]
    refine congrArg (Option.map · _) (funext fun x => ?_)
    obtain ⟨r, result | ⟨⟨⟩⟩⟩ := x <;> rfl
  rw [hrun, drive_eq_driveOn, runUntilOn, Option.map_map, Option.map_map]
  rfl

theorem step_eq_stepOn (decisions : Nat) (r : Runner τ σ ω κ ρ) :
    r.step decisions = (r.stepOn {} decisions).map Prod.fst := by
  rw [step, stepOn]
  split
  · rfl
  · rw [drive_eq_driveOn, Option.map_map, Option.map_map]
    rfl

/-! ### What a call does -/

variable {good : Interface τ → Stage → σ → Prop} {m : Model τ σ}

/-- **The same runner**, but for its clock, its progress report and lines for the log. -/
structure SameBut (r r' : Runner τ σ ω κ ρ) : Prop where
  backend : r'.backend = r.backend
  told : World.Told {} r.world r'.world
  interrupted : r'.world.interrupted = r.world.interrupted

omit [AtomicModel τ σ] [Clock κ] [Progress ρ] in
/-- What the end of a run means is said to the log only. -/
theorem sameBut_conclude (r : Runner τ σ ω κ ρ) (stop : Option Stop) (lag : Option Span)
    (interrupted : Bool) : SameBut r (r.conclude stop lag interrupted).1 := by
  unfold conclude
  split
  · exact ⟨rfl, .of_eq rfl, rfl⟩
  · exact ⟨rfl, World.told_announce _ _, rfl⟩
  · split
    · exact ⟨rfl, World.told_announce _ _, rfl⟩
    · split
      · exact ⟨rfl, World.told_announce _ _, rfl⟩
      · exact ⟨rfl, .of_eq rfl, rfl⟩

omit [AtomicModel τ σ] [Clock κ] [Progress ρ] in
theorem sameBut_arrived (x : Runner τ σ ω κ ρ × Except Halt Unit) :
    SameBut x.1 (arrived x).1 := by
  obtain ⟨r, result | ⟨⟨⟩⟩⟩ := x
  · exact ⟨rfl, .of_eq rfl, rfl⟩
  · exact ⟨rfl, World.told_announce _ _, rfl⟩

omit [AtomicModel τ σ] [Clock κ] [Progress ρ] in
/-- After the run of an engine the runner is as this has left it. -/
theorem sameBut_settled (r : Runner τ σ ω κ ρ) (o : Outcome (Backend τ σ × Pacer κ ρ) ω) :
    SameBut { r with
      backend := o.state.1
      clock := o.state.2.clock
      progress := o.state.2.progress
      world := o.world } (r.settled o).1 :=
  sameBut_conclude _ _ _ _

/-- **What a call does**: it takes the steps at `ts`, and tells the observer of them. -/
def Did (m : Model τ σ) (ts : List Instant) (r r' : Runner τ σ ω κ ρ) : Prop :=
  ∃ x, Backend.Unfolds m r.backend (ts.map .step) x r'.backend ∧ World.Told x r.world r'.world

omit [Clock κ] [Progress ρ] in
/-- A call without steps leaves the engine as it is. -/
theorem Did.backend_eq {r r' : Runner τ σ ω κ ρ} (h : Did m [] r r') : r'.backend = r.backend := by
  obtain ⟨x, hx, -⟩ := h
  generalize r'.backend = b at hx
  cases hx
  rfl

omit [Clock κ] [Progress ρ] in
/-- What a call does comes after what has happened before it. -/
theorem Did.after {r r₁ r₂ : Runner τ σ ω κ ρ} {h : List (Occurrence τ)} {ts : List Instant}
    (hdid : Did m ts r₁ r₂)
    (before : ∃ x, Backend.Unfolds m r.backend h x r₁.backend ∧ World.Told x r.world r₁.world) :
    ∃ x, Backend.Unfolds m r.backend (h ++ ts.map .step) x r₂.backend ∧
      World.Told x r.world r₂.world := by
  obtain ⟨x, hx, htold⟩ := before
  obtain ⟨y, hy, htold'⟩ := hdid
  exact ⟨x ++ y, hx.append hy, htold.trans htold'⟩

/-- The run of a call. -/
theorem driveOn_ran (hc : Contract good) (ha : Attended ω good) (hm : m.Wired)
    (hp : Supervisor.Calm (Pacer κ ρ)) {c : Circumstances} {decisions : Nat} {limit : Instant}
    {steps : Option Nat} {interruptible : Bool} {r : Runner τ σ ω κ ρ}
    {o : Outcome (Backend τ σ × Watch κ ρ) ω} (hr : r.backend.Serves good m)
    (ho : r.backend.runOn decisions c.plan
      (⟨⟨r.pacer limit steps interruptible, c.signals⟩, []⟩ : Watch κ ρ) r.world = some o) :
    ∃ ts, Backend.Ran m (Watch.Knows limit steps) r.backend r.world [] ts o ∧
      Inquiry.stepsOf o.state.2.minutes = ts := by
  have hknows : Watch.Knows limit steps []
      (⟨⟨r.pacer limit steps interruptible, c.signals⟩, []⟩ : Watch κ ρ) :=
    ⟨rfl, rfl, List.forall_mem_nil _, (Option.map_id' (x := steps)).symm,
      fun k _ => Nat.zero_le k, rfl, rfl⟩
  have hrest := hr.live.rest decisions c.plan
    (⟨⟨r.pacer limit steps interruptible, c.signals⟩, []⟩ : Watch κ ρ) r.world
  rw [ho] at hrest
  obtain ⟨ts, hran⟩ := hr.live.ran hc ha hm (Minuted.calm (Signalled.calm hp))
    (Minuted.halting (Signalled.halting halting_pacer)) (Watch.keeps limit steps) hknows hrest
  obtain ⟨w, q, hq, -, hlast, -⟩ := hran.ended.refused
  refine ⟨ts, hran, ?_⟩
  -- The last decision adds no step to the minutes.
  rw [hlast, Minuted.proceed_eq, Reply.state_mapState, Inquiry.stepsOf_append, hq.minutes]
  exact List.append_nil ts

theorem driveOn_did (hc : Contract good) (ha : Attended ω good) (hm : m.Wired)
    (hp : Supervisor.Calm (Pacer κ ρ)) {c : Circumstances} {decisions : Nat} {limit : Instant}
    {steps : Option Nat} {interruptible : Bool} {r r' : Runner τ σ ω κ ρ}
    {result : Except Halt Unit} {ts : List Instant} (hr : r.backend.Serves good m)
    (hcall : r.driveOn c decisions limit steps interruptible = some ((r', result), ts)) :
    Did m ts r r' ∧ (∀ t ∈ ts, t < limit) ∧ ∀ k ∈ steps, ts.length ≤ k := by
  obtain ⟨o, ho, hresult⟩ := Option.map_eq_some_iff.mp hcall
  obtain ⟨hsettled, rfl⟩ := Prod.mk.inj hresult
  obtain ⟨ts, hran, hminutes⟩ := driveOn_ran hc ha hm hp hr ho
  obtain ⟨w, q, hq, -⟩ := hran.ended.refused
  obtain ⟨x, hx, hobserver⟩ := hran.unfolds
  have hsame := r.sameBut_settled (o.mirror Watch.pacer)
  rw [hsettled] at hsame
  rw [hminutes]
  refine ⟨⟨x, hsame.backend.symm ▸ hx, ?_⟩, hq.pacer.before, hq.pacer.within⟩
  exact Effect.append_nothing x ▸ (World.Told.of_after hobserver).trans hsame.told

/-- **A run** takes steps before its limit. -/
theorem runUntilOn_did (hc : Contract good) (ha : Attended ω good) (hm : m.Wired)
    (hp : Supervisor.Calm (Pacer κ ρ)) {c : Circumstances} {decisions : Nat} {limit : Instant}
    {r r' : Runner τ σ ω κ ρ} {result : Except Halt Instant} {ts : List Instant}
    (hr : r.backend.Serves good m)
    (hcall : r.runUntilOn c decisions limit = some ((r', result), ts)) :
    Did m ts r r' ∧ ∀ t ∈ ts, t < limit := by
  obtain ⟨⟨⟨r₁, result₁⟩, ts₁⟩, hdrive, hresult⟩ := Option.map_eq_some_iff.mp hcall
  obtain ⟨harrived, rfl⟩ := Prod.mk.inj hresult
  obtain ⟨⟨x, hx, htold⟩, hbefore, -⟩ :=
    driveOn_did (r := r.departed limit) hc ha hm hp hr hdrive
  have hsame := sameBut_arrived (r₁, result₁)
  rw [show arrived (r₁, result₁) = (r', result) from harrived] at hsame
  have hdeparted : World.Told {} r.world (r.departed limit).world := ⟨[.line _], rfl, rfl⟩
  refine ⟨⟨x, hsame.backend.symm ▸ hx, ?_⟩, hbefore⟩
  exact Effect.append_nothing x ▸ (hdeparted.trans htold).trans hsame.told

/-- **A single step** is at the next event, if there is one at all. -/
theorem stepOn_did (hc : Contract good) (ha : Attended ω good) (hm : m.Wired)
    (hp : Supervisor.Calm (Pacer κ ρ)) {c : Circumstances} {decisions : Nat}
    {r r' : Runner τ σ ω κ ρ} {result : Except Halt (Option Instant)} {ts : List Instant}
    (hr : r.backend.Serves good m)
    (hcall : r.stepOn c decisions = some ((r', result), ts)) :
    Did m ts r r' ∧ ∀ t ∈ ts, t = r.nextTime := by
  unfold stepOn at hcall
  split at hcall
  · cases hcall
    exact ⟨⟨{}, .nothing, .of_eq rfl⟩, List.forall_mem_nil _⟩
  · obtain ⟨⟨⟨r₁, result₁⟩, ts₁⟩, hdrive, hresult⟩ := Option.map_eq_some_iff.mp hcall
    cases hresult
    obtain ⟨⟨x, hx, htold⟩, -, hlength⟩ := driveOn_did hc ha hm hp hr hdrive
    refine ⟨⟨x, hx, htold⟩, fun t ht => ?_⟩
    match ts₁, hlength 1 rfl with
    | [_], _ =>
        cases hx
        exact List.mem_singleton.mp ht

omit [AtomicModel τ σ] [Clock κ] [Progress ρ] in
/-- An answer means that there was no fault, no refusal and no lag. -/
theorem lag_of_conclude_ok {r : Runner τ σ ω κ ρ} {stop : Option Stop} {lag : Option Span}
    {interrupted : Bool} (h : (r.conclude stop lag interrupted).2 = .ok ()) : lag = none := by
  unfold conclude at h
  split at h
  · cases h
  · cases h
  · split at h
    · cases h
    · rfl

/-- **A run that is neither asked to stop nor behind its clock completes**: it leaves no event
before its limit. -/
theorem runUntilOn_completes (hc : Contract good) (ha : Attended ω good) (hm : m.Wired)
    (hp : Supervisor.Calm (Pacer κ ρ)) {c : Circumstances} {decisions : Nat}
    {limit t : Instant} {r r' : Runner τ σ ω κ ρ} {ts : List Instant}
    (hr : r.backend.Serves good m)
    (hcall : r.runUntilOn c decisions limit = some ((r', .ok t), ts))
    (hfree : r'.world.interrupted = false) : limit ≤ r'.nextTime := by
  obtain ⟨⟨⟨r₁, result⟩, ts₁⟩, hdrive, hresult⟩ := Option.map_eq_some_iff.mp hcall
  obtain ⟨o, ho, hsettled⟩ := Option.map_eq_some_iff.mp hdrive
  obtain ⟨_, hran, -⟩ := driveOn_ran hc ha hm hp (r := r.departed limit) hr ho
  obtain ⟨w, q, hq, hno, hlast, hworld⟩ := hran.ended.refused
  cases result with
  | error halt => cases hresult
  | ok _ =>
      obtain ⟨harrived, -⟩ := Prod.mk.inj hresult
      obtain ⟨hsettled, -⟩ := Prod.mk.inj hsettled
      have hfirst := (r.departed limit).sameBut_settled (o.mirror Watch.pacer)
      rw [hsettled] at hfirst
      have hthen := sameBut_arrived (r₁, .ok ())
      rw [show arrived (r₁, .ok ()) = (r', .ok t) from harrived] at hthen
      rcases hq.pacer.refused hno with hlimit | hwish | hbehind
      · have hbackend : r'.backend = o.state.1 := hthen.backend.trans hfirst.backend
        rw [nextTime, hbackend]
        exact hlimit
      · -- Whoever gave the signal, the wish is still there at the end.
        have hwished : o.world.interrupted = true := by
          rw [hworld, World.interrupted_heed]
          rw [Bool.or_eq_true] at hwish ⊢
          exact hwish.imp_right fun hgiven => Bool.or_eq_true_iff.mpr (.inr hgiven)
        have hinterrupted : r'.world.interrupted = true :=
          (hthen.interrupted.trans hfirst.interrupted).trans hwished
        exact absurd (hinterrupted.symm.trans hfree) Bool.noConfusion
      · have hlag : o.state.2.pacer.lag = none := lag_of_conclude_ok (congrArg Prod.snd hsettled)
        rw [hlast] at hlag
        exact absurd hlag hbehind

end Runner

/-! ## Sessions -/

/-- **A session with a runner of `m`**, from one position to another: any runs up to at most the
limit, single steps at events before it, wishes to stop, and messages for the root. What has
happened to the engine in the meantime is a history. -/
inductive Session [AtomicModel τ σ] [Observer ω] [Clock κ] [Progress ρ] (m : Model τ σ)
    (limit : Instant) (r : Runner τ σ ω κ ρ) :
    List (Occurrence τ) → Runner τ σ ω κ ρ → Prop
  | start : Session m limit r [] r
  | runUntil {h : List (Occurrence τ)} {r₁ r₂ : Runner τ σ ω κ ρ} {c : Circumstances}
      {decisions : Nat} {upTo : Instant} {result : Except Halt Instant} {ts : List Instant}
      (before : Session m limit r h r₁) (within : upTo ≤ limit)
      (call : r₁.runUntilOn c decisions upTo = some ((r₂, result), ts)) :
      Session m limit r (h ++ ts.map .step) r₂
  | step {h : List (Occurrence τ)} {r₁ r₂ : Runner τ σ ω κ ρ} {c : Circumstances}
      {decisions : Nat} {result : Except Halt (Option Instant)} {ts : List Instant}
      (before : Session m limit r h r₁) (within : r₁.nextTime < limit)
      (call : r₁.stepOn c decisions = some ((r₂, result), ts)) :
      Session m limit r (h ++ ts.map .step) r₂
  | interrupt {h : List (Occurrence τ)} {r₁ : Runner τ σ ω κ ρ}
      (before : Session m limit r h r₁) : Session m limit r h r₁.interrupt
  | inject {h : List (Occurrence τ)} {r₁ : Runner τ σ ω κ ρ} {i : Injection τ} {x : Bags τ}
      (before : Session m limit r h r₁) (declared : i.port ∈ m.interface.inputs)
      (extended : r₁.backend.inbox.extend i.port i.values = .ok x) :
      Session m limit r (h ++ [.inject i]) { r₁ with backend := r₁.backend.withInbox x }

section

variable [AtomicModel τ σ] [Observer ω] [Clock κ] [Progress ρ]
  {good : Interface τ → Stage → σ → Prop} {m : Model τ σ} {limit : Instant}

omit [AtomicModel τ σ] [Observer ω] [Clock κ] [Progress ρ] in
/-- What holds of the steps of a history and of those that follow. -/
theorem step_mem_append {P : Instant → Prop} {h : List (Occurrence τ)} {ts : List Instant}
    (before : ∀ t, .step t ∈ h → P t) (after : ∀ t ∈ ts, P t) :
    ∀ t, Occurrence.step t ∈ h ++ ts.map .step → P t := by
  intro t ht
  rcases List.mem_append.mp ht with ht | ht
  · exact before t ht
  · obtain ⟨u, hu, ⟨⟩⟩ := List.mem_map.mp ht
    exact after t hu

/-- **A session is a history** with steps before the limit only, and the observer is told of
all of them. -/
theorem Session.unfolds (hc : Contract good) (ha : Attended ω good) (hm : m.Wired)
    (hp : Supervisor.Calm (Pacer κ ρ)) {r r' : Runner τ σ ω κ ρ} {h : List (Occurrence τ)}
    (hr : r.backend.Serves good m) (hs : Session m limit r h r') :
    (∃ x, Backend.Unfolds m r.backend h x r'.backend ∧ World.Told x r.world r'.world) ∧
      ∀ t, .step t ∈ h → t < limit := by
  -- Every call finds an engine in service, since this is what a history leaves.
  induction hs with
  | start => exact ⟨⟨{}, .nothing, .of_eq rfl⟩, fun t ht => nomatch ht⟩
  | runUntil _ within call ih =>
      obtain ⟨x, hx, -⟩ := ih.1
      obtain ⟨hdid, hbefore⟩ := Runner.runUntilOn_did hc ha hm hp (hx.serves hc hm hr) call
      exact ⟨hdid.after ih.1,
        step_mem_append ih.2 fun t ht => lt_of_lt_of_le (hbefore t ht) within⟩
  | step _ within call ih =>
      obtain ⟨x, hx, -⟩ := ih.1
      obtain ⟨hdid, hnext⟩ := Runner.stepOn_did hc ha hm hp (hx.serves hc hm hr) call
      exact ⟨hdid.after ih.1, step_mem_append ih.2 fun t ht => hnext t ht ▸ within⟩
  | interrupt _ ih =>
      obtain ⟨⟨x, hx, htold⟩, hbefore⟩ := ih
      exact ⟨⟨x, hx, Effect.append_nothing x ▸ htold.trans (.of_eq rfl)⟩, hbefore⟩
  | inject _ declared extended ih =>
      obtain ⟨⟨x, hx, htold⟩, hbefore⟩ := ih
      refine ⟨⟨x, ?_, htold⟩, fun t ht => ?_⟩
      · rw [← Effect.append_nothing x]
        exact hx.append (.inject declared extended .nothing)
      · rcases List.mem_append.mp ht with ht | ht
        · exact hbefore t ht
        · exact nomatch List.mem_singleton.mp ht

end

/-! ## The beginning of a session -/

/-- The engine after its initialization at `t`. -/
def Backend.started [AtomicModel τ σ] (t : Instant) : Backend τ σ → Backend τ σ
  | sequential e => sequential (e.started t)
  | parallel c => parallel (c.started t)

section

variable [AtomicModel τ σ] [Observer ω] {good : Interface τ → Stage → σ → Prop} {m : Model τ σ}

/-- **A new engine of `m`** is brought into service. -/
theorem Setup.init_backendFor (hc : Contract good) (ha : Attended ω good) (hm : m.Wired)
    (hg : m.AllGood good) (s : Setup τ σ ω κ ρ) (ho : 1 < s.workers → OrderFree good)
    (t : Instant) (w : World ω) :
    ∃ w', (s.backendFor m).init t w = .done ((s.backendFor m).started t) w' ∧
      ((s.backendFor m).started t).Serves good m := by
  unfold backendFor
  by_cases hworkers : 1 < s.workers
  · obtain ⟨hinit, -⟩ := (Crew.sound_ofModel hm hg s.workers).init hc ha t w
    rw [if_pos hworkers, Backend.init, hinit]
    exact ⟨_, rfl, ho hworkers, _, Twin.started hc hm hg s.workers t⟩
  · obtain ⟨hinit, hlive, -⟩ := (Engine.sound_ofModelBelow hg none).init hc ha t w
    rw [if_neg hworkers, Backend.init, Engine.ofModel, hinit]
    exact ⟨_, rfl, _, _, hlive, (Engine.quiet_ofModelBelow hg none).started t,
      hlive.sound.inbox, (Engine.withInbox_self _).symm⟩

variable [Clock κ]

/-- **A runner that has been started** has an engine in service. -/
theorem Setup.init_serves (hc : Contract good) (ha : Attended ω good) (hm : m.Wired)
    (hg : m.AllGood good) {s : Setup τ σ ω κ ρ} (hs : s.model = .ok m)
    (ho : 1 < s.workers → OrderFree good) {t : Instant} {r : Runner τ σ ω κ ρ}
    (hr : (s.init t).2 = .ok r) :
    r.backend = (s.backendFor m).started t ∧ r.backend.Serves good m := by
  obtain ⟨w, hinit, hserves⟩ := s.init_backendFor hc ha hm hg ho t s.world
  simp only [Setup.init, hs, hinit, Outcome.done] at hr
  split at hr
  · cases hr
  · cases hr
    exact ⟨rfl, hserves⟩

end

/-! ## Segmentation -/

section

variable {ω' κ' ρ' : Type} [AtomicModel τ σ] [Observer ω] [Observer ω'] [Clock κ] [Clock κ']
  [Progress ρ] [Progress ρ'] {good : Interface τ → Stage → σ → Prop} {m : Model τ σ}

/-- **How a simulation is cut into calls does not change it.** Take an accepted model of good
atomic models, which do not look at the order of messages if there are several workers, and
two runners that were started for it at the same time, with whatever clocks and progress
reports that do not fault. Take any session with the first one, in which the runs go at most
up to the limit and single steps are taken only before it.

What waits at the root stays there through calls that execute no step, and the next step
delivers it, once. A run up to the limit that is neither interrupted nor out of time leaves no
event before the limit. And when neither of two sessions leaves an event before the limit,
and in both the same messages were put in between the same steps, then both have the same
steps, they have made the same records, and the engines are the same, with all models, times
and inboxes. -/
theorem sessions_agree (hacc : m.Accepted) (hc : Contract good) (hg : m.AllGood good)
    (ha : Attended ω good) (ha' : Attended ω' good) (hp : Supervisor.Calm (Pacer κ ρ))
    (hp' : Supervisor.Calm (Pacer κ' ρ')) {s : Setup τ σ ω κ ρ} {s' : Setup τ σ ω' κ' ρ'}
    (hs : s.model = .ok m) (hs' : s'.model = .ok m) (hworkers : s'.workers = s.workers)
    (ho : 1 < s.workers → OrderFree good) {t : Instant} {r : Runner τ σ ω κ ρ}
    {r' : Runner τ σ ω' κ' ρ'} (hr : (s.init t).2 = .ok r) (hr' : (s'.init t).2 = .ok r')
    (limit : Instant) (h : List (Occurrence τ)) (r₁ : Runner τ σ ω κ ρ)
    (hsession : Session m limit r h r₁) :
    m.Tells (r.backend.cells m) r.backend.inbox h (r₁.backend.cells m) r₁.backend.inbox ∧
    (∀ c n upTo r₂ result, r₁.runUntilOn c n upTo = some ((r₂, result), []) →
      r₂.backend = r₁.backend) ∧
    (∀ c n r₂ result, r₁.stepOn c n = some ((r₂, result), []) → r₂.backend = r₁.backend) ∧
    (∀ c n r₂ u ts, r₁.runUntilOn c n limit = some ((r₂, .ok u), ts) →
      r₂.world.interrupted = false → limit ≤ r₂.nextTime) ∧
    ∀ (h' : List (Occurrence τ)) (r₁' : Runner τ σ ω' κ' ρ'), Session m limit r' h' r₁' →
      limit ≤ r₁.nextTime → limit ≤ r₁'.nextTime →
      (∀ n, injectedAfter h n = injectedAfter h' n) →
      h = h' ∧ r₁.backend = r₁'.backend ∧
        ∃ x x', World.Told x r.world r₁.world ∧ World.Told x' r'.world r₁'.world ∧
          r.backend.SameReports x x' := by
  have hm := hacc.wired
  obtain ⟨hstarted, hserves⟩ := Setup.init_serves hc ha hm hg hs ho hr
  obtain ⟨⟨x, hx, htold⟩, hbefore⟩ := hsession.unfolds hc ha hm hp hserves
  have hserves₁ := hx.serves hc hm hserves
  refine ⟨hx.tells hc hm hserves,
    fun c n upTo r₂ result hcall => (Runner.runUntilOn_did hc ha hm hp hserves₁ hcall).1.backend_eq,
    fun c n r₂ result hcall => (Runner.stepOn_did hc ha hm hp hserves₁ hcall).1.backend_eq,
    fun c n r₂ u ts hcall => Runner.runUntilOn_completes hc ha hm hp hserves₁ hcall,
    fun h' r₁' hsession' hend hend' hsame => ?_⟩
  obtain ⟨hstarted', hserves'⟩ := Setup.init_serves hc ha' hm hg hs' (hworkers ▸ ho) hr'
  have hbegin : r'.backend = r.backend := by
    rw [hstarted, hstarted', Setup.backendFor, Setup.backendFor, hworkers]
  obtain ⟨⟨x', hx', htold'⟩, hbefore'⟩ := hsession'.unfolds hc ha' hm hp' hserves'
  rw [hbegin] at hx'
  obtain ⟨hhistory, hbackend, hreports⟩ :=
    hx.unique hc hm hx' hserves hbefore hbefore' hend hend' hsame
  exact ⟨hhistory, hbackend, x, x', htold, htold', hreports⟩

end

/-- Nobody wants progress reports. -/
instance : Progress Empty where
  stepped _ _ p := nomatch p

/-- An answer that is known to be there. -/
theorem Except.eq_ok_of_toOption {ε α : Type} {x : Except ε α} {a : α}
    (h : x.toOption = some a) : x = .ok a := by
  cases x with
  | error e => cases h
  | ok b => exact congrArg Except.ok (Option.some.inj h)

/-- Two sessions with a crew of two workers for the tower of doublers, which get a message at
their beginning. In one it runs through all events before the fifth second; in the other one
it is asked to stop, takes a single step nevertheless, and then runs. -/
theorem sessions_agree_tower :
    let s : Setup Payload Doubler Recorder NoClock Empty :=
      { model := .ok Doubler.tower, workers := 2, clock := {}, world := ⟨{}, false⟩ }
    let i : Injection Payload := ⟨Doubler.add, [(5 : UInt64)]⟩
    let limit : Instant := ⟨5, 0, by decide⟩
    ∃ (r r₁ r₁' : Runner Payload Doubler Recorder NoClock Empty) (ts us vs : List Instant),
      ((s.init .epoch).2 = .ok r ∧
        Session Doubler.tower limit r (.inject i :: ts.map .step) r₁ ∧
        Session Doubler.tower limit r (.inject i :: us.map .step ++ vs.map .step) r₁' ∧
        limit ≤ r₁.nextTime ∧ limit ≤ r₁'.nextTime) ∧
      ts = us ++ vs ∧ r₁.backend = r₁'.backend := by
  intro s i limit
  have hrun : ((s.init .epoch).2.toOption.bind fun r =>
      (r.backend.inbox.extend i.port i.values).toOption.bind fun x =>
        let r₀ := { r with backend := r.backend.withInbox x }
        (r₀.runUntilOn {} 9 limit).bind fun y => (r₀.interrupt.stepOn {} 9).bind fun z =>
          (z.1.1.runUntilOn {} 9 limit).bind fun y' => some
            (decide (r₀.nextTime < limit) && decide (limit ≤ y.1.1.nextTime)
              && decide (limit ≤ y'.1.1.nextTime))) = some true := by decide +kernel
  simp only [Option.bind_eq_some_iff, Option.some_inj, Bool.and_eq_true, decide_eq_true_eq] at hrun
  obtain ⟨r, hr, x, hx, ⟨⟨r₁, result⟩, ts⟩, hall, ⟨⟨r₂, result'⟩, us⟩, hone,
    ⟨⟨r₁', result''⟩, vs⟩, hrest, ⟨hnext, hend⟩, hend'⟩ := hrun
  have hinit : (s.init .epoch).2 = .ok r := Except.eq_ok_of_toOption hr
  have hextended : r.backend.inbox.extend i.port i.values = .ok x := Except.eq_ok_of_toOption hx
  have hmodel : s.model = .ok Doubler.tower := rfl
  have hd : i.port ∈ Doubler.tower.interface.inputs := List.mem_singleton_self _
  have hsession : Session Doubler.tower limit r ([.inject i] ++ ts.map .step) r₁ :=
    .runUntil (.inject .start hd hextended) (le_refl _) hall
  have hsession' : Session Doubler.tower limit r
      ([.inject i] ++ us.map .step ++ vs.map .step) r₁' :=
    .runUntil (.step (.interrupt (.inject .start hd hextended)) hnext hone) (le_refl _) hrest
  obtain ⟨-, -, -, -, hagree⟩ := sessions_agree Doubler.accepted_tower Doubler.contract
    Doubler.allGood_tower Doubler.attended_recorder Doubler.attended_recorder
    (Pacer.calm (fun _ _ => rfl) nofun) (Pacer.calm (fun _ _ => rfl) nofun) hmodel hmodel
    rfl (fun _ => Doubler.orderFree) hinit hinit limit _ r₁ hsession
  obtain ⟨hhistory, hbackend, -⟩ := hagree _ r₁' hsession' hend hend' fun n => by
    rw [List.append_assoc, ← List.map_append, List.singleton_append, List.singleton_append,
      injectedAfter_inject, injectedAfter_inject]
  rw [List.append_assoc, ← List.map_append, List.append_cancel_left_eq] at hhistory
  have hsteps : ts = us ++ vs :=
    List.map_injective_iff.mpr (fun _ _ hstep => Occurrence.step.inj hstep) hhistory
  exact ⟨r, r₁, r₁', ts, us, vs, ⟨hinit, hsession, hsession', hend, hend'⟩, hsteps, hbackend⟩

end DiscreteEvent
