/-
The law of timed runs.

A run of a simulation is a sequence of steps, each at the time of the event that is next when
the step before is over. Between two steps stands a decision, for which there are four
questions, in this order: Is the next event beyond the range of the run? Does somebody want an
interruption? Is the clock, which is called now and with the time of the next event, ahead by
more than is tolerated? If the answer to all of them is no, the step is taken, and then the
progress report is called.

`Law` says this once, for runs and for single steps, as a relation between the `Standing`s of a
simulation. What a clock or a progress report remembers is part of a standing, so the law
says as well how often each of them is called and with what (`Law.account`): the clock once for
every step and once more if it ends the run, the progress report once for every step.

The run of a live engine of either kind obeys the law (`Backend.Live.law`). The proof goes
over its decisions, of which each is one case of the law.
-/
import DiscreteEvent.Proofs.Execution.Segments
import DiscreteEvent.Proofs.Execution.Steps

set_option autoImplicit false

namespace DiscreteEvent

variable {τ σ ω κ ρ : Type} [MessageType τ]

/-! ## Standings -/

/-- **Where a simulation stands** between two steps. -/
structure Standing (τ σ κ ρ : Type) [MessageType τ] where
  backend : Backend τ σ
  clock : κ
  progress : Option ρ
  /-- Whether somebody wants an interruption. -/
  interrupted : Bool

namespace Standing

/-- The next event. -/
def next (s : Standing τ σ κ ρ) : Instant := s.backend.next

/-- A signal is given, or none. -/
def signalled (given : Bool) (s : Standing τ σ κ ρ) : Standing τ σ κ ρ :=
  { s with interrupted := s.interrupted || given }

/-- The clock has been called with the time of the next event. -/
def synchronized [Clock κ] (s : Standing τ σ κ ρ) : Standing τ σ κ ρ :=
  let r := Clock.synchronize s.next s.clock
  { s with clock := r.state, interrupted := s.interrupted || r.interrupts }

/-- The step at the next event has been taken, and the progress report has been called. -/
def stepped [Progress ρ] (limit : Instant) (x : Effect) (b : Backend τ σ)
    (s : Standing τ σ κ ρ) : Standing τ σ κ ρ :=
  match s.progress with
  | none => { s with backend := b, interrupted := s.interrupted || x.interrupts }
  | some p =>
    let r := Progress.stepped s.next limit p
    { s with
      backend := b
      progress := some r.state
      interrupted := s.interrupted || x.interrupts || r.interrupts }

/-- Who wants an interruption when the clock has been called: somebody did before, or the clock
does, or the signal says so. -/
theorem interrupted_synchronized [Clock κ] (s : Standing τ σ κ ρ) (given : Bool) :
    (s.signalled given).synchronized.interrupted
      = (s.interrupted || ((Clock.synchronize s.next s.clock).interrupts || given)) := by
  show (s.interrupted || given || (Clock.synchronize s.next s.clock).interrupts) = _
  rw [Bool.or_right_comm, Bool.or_assoc]

section

variable [Progress ρ] (limit : Instant) (x : Effect) (b : Backend τ σ) (s : Standing τ σ κ ρ)

/-- A standing after a step, whether or not there is a progress report. -/
theorem stepped_eq : s.stepped limit x b
    = { s with
        backend := b
        progress := s.progress.map fun p => (Progress.stepped s.next limit p).state
        interrupted := s.interrupted || x.interrupts ||
          s.progress.any fun p => (Progress.stepped s.next limit p).interrupts } := by
  obtain ⟨backend, clock, progress, interrupted⟩ := s
  cases progress with
  | none => exact congrArg (Standing.mk b clock none) (Bool.or_false _).symm
  | some p => rfl

@[simp]
theorem backend_stepped : (s.stepped limit x b).backend = b := by
  rw [stepped_eq]

@[simp]
theorem clock_stepped : (s.stepped limit x b).clock = s.clock := by
  rw [stepped_eq]

@[simp]
theorem progress_stepped : (s.stepped limit x b).progress
    = s.progress.map fun p => (Progress.stepped s.next limit p).state := by
  rw [stepped_eq]

end

end Standing

/-! ## Terms and verdicts -/

/-- **What a run has been asked for.** -/
structure Terms where
  /-- Events from here on are out of range. -/
  limit : Instant
  /-- How many steps may be taken, if their number is limited. -/
  budget : Option Nat
  /-- Whether the wish for an interruption counts. -/
  heeds : Bool
  /-- The greatest lag that is accepted, if there is one. -/
  tolerance : Option Span

namespace Terms

/-- A step at `next` is out of range. -/
def Beyond (terms : Terms) (next : Instant) : Prop :=
  terms.limit ≤ next ∨ next = .max ∨ terms.budget = some 0

/-- The run is to be interrupted. -/
def Wished (terms : Terms) (interrupted : Bool) : Prop :=
  terms.heeds = true ∧ interrupted = true

/-- The clock is ahead by a lag that is not accepted. -/
def Exceeded (terms : Terms) (status : SyncStatus) (lag : Span) : Prop :=
  status = .outOfSync lag ∧ ∃ tolerance, terms.tolerance = some tolerance ∧ tolerance < lag

/-- The terms after a step. -/
def spent (terms : Terms) : Terms := { terms with budget := terms.budget.map (· - 1) }

/-- The pacer of a run. -/
def pacer (terms : Terms) (clock : κ) (progress : Option ρ) : Pacer κ ρ :=
  { limit := terms.limit, stepsLeft := terms.budget, clock := clock,
    tolerance := terms.tolerance, interruptible := terms.heeds, progress := progress }

end Terms

/-- **Why a run stops.** -/
inductive Verdict
  | outOfRange
  | interrupted
  | late (lag : Span)

namespace Verdict

/-- The lag that ended the run, if one did. -/
def lag? : Verdict → Option Span
  | late lag => some lag
  | _ => none

/-- **What the caller is told**: a lag is an error, and everything else a regular end. -/
def result {α : Type} (answer : α) (v : Verdict) : Except Halt α :=
  match v.lag? with
  | some lag => .error (.error (.outOfSync lag))
  | none => .ok answer

end Verdict

/-! ## The law -/

/-- **The law**: a run under these terms, with signals from outside before some of its decisions
and a limit on their number, takes the steps at `ts` and then stops for a reason; or it has not
come to its end within the limit. -/
inductive Law [AtomicModel τ σ] [Clock κ] [Progress ρ] : Terms → List Bool → Nat →
    Standing τ σ κ ρ → List Instant → Option Verdict → Standing τ σ κ ρ → Prop
  | unfinished {terms : Terms} {signals : List Bool} {s : Standing τ σ κ ρ} :
      Law terms signals 0 s [] none s
  /-- The clock is not called. -/
  | outOfRange {terms : Terms} {signals : List Bool} {n : Nat} {s : Standing τ σ κ ρ}
      (beyond : terms.Beyond s.next) :
      Law terms signals (n + 1) s [] (some .outOfRange) (s.signalled (signals.headD false))
  /-- The clock is not called. -/
  | interrupted {terms : Terms} {signals : List Bool} {n : Nat} {s : Standing τ σ κ ρ}
      (within : ¬ terms.Beyond s.next)
      (wished : terms.Wished (s.signalled (signals.headD false)).interrupted) :
      Law terms signals (n + 1) s [] (some .interrupted) (s.signalled (signals.headD false))
  /-- The engine is left as it is. -/
  | late {terms : Terms} {signals : List Bool} {n : Nat} {s : Standing τ σ κ ρ} {lag : Span}
      (within : ¬ terms.Beyond s.next)
      (free : ¬ terms.Wished (s.signalled (signals.headD false)).interrupted)
      (exceeded : terms.Exceeded (Clock.synchronize s.next s.clock).answer lag) :
      Law terms signals (n + 1) s [] (some (.late lag))
        (s.signalled (signals.headD false)).synchronized
  | step {terms : Terms} {signals : List Bool} {n : Nat} {s s' : Standing τ σ κ ρ}
      {ts : List Instant} {v : Option Verdict} {x : Effect} {b : Backend τ σ}
      (within : ¬ terms.Beyond s.next)
      (free : ¬ terms.Wished (s.signalled (signals.headD false)).interrupted)
      (inTime : ∀ lag, ¬ terms.Exceeded (Clock.synchronize s.next s.clock).answer lag)
      (taken : s.backend.Step x b)
      (rest : Law terms.spent signals.tail n
        ((s.signalled (signals.headD false)).synchronized.stepped terms.limit x b) ts v s') :
      Law terms signals (n + 1) s (s.next :: ts) v s'

/-! ## The decisions of a pacer -/

namespace Terms

theorem outOfRange_iff (terms : Terms) (clock : κ) (progress : Option ρ) (next : Instant) :
    (terms.pacer clock progress).outOfRange next = true ↔ terms.Beyond next := by
  rw [Pacer.outOfRange, Bool.or_eq_true, Bool.or_eq_true, decide_eq_true_iff,
    Instant.isInfinite_iff, beq_iff_eq, or_assoc]
  exact Iff.rfl

theorem excess_eq_some_iff (terms : Terms) (clock : κ) (progress : Option ρ)
    (status : SyncStatus) (lag : Span) :
    (terms.pacer clock progress).excess status = some lag ↔ terms.Exceeded status lag := by
  cases status with
  | synchronized => exact ⟨nofun, fun h => nomatch h.1⟩
  | outOfSync lag' =>
      show (if terms.tolerance.any (· < lag') = true then some lag' else none) = some lag ↔ _
      unfold Exceeded
      cases terms.tolerance with
      | none => exact ⟨nofun, fun ⟨_, _, h, _⟩ => nomatch h⟩
      | some tolerance =>
          rw [Option.any_some]
          by_cases hlt : tolerance < lag'
          · rw [if_pos (decide_eq_true hlt)]
            constructor
            · intro h
              cases h
              exact ⟨rfl, tolerance, rfl, hlt⟩
            · rintro ⟨h, -⟩
              cases h
              rfl
          · rw [if_neg (ne_true_of_eq_false (decide_eq_false hlt))]
            constructor
            · nofun
            · rintro ⟨h, _, ⟨⟩, hlt'⟩
              cases h
              exact absurd hlt' hlt

end Terms

section

variable [Clock κ]

/-- **What a pacer decides**, with the clock that it leaves. -/
inductive Ruling (terms : Terms) (clock : κ) (progress : Option ρ) (next : Instant)
    (interrupted : Bool) : Reply (Pacer κ ρ) Bool → Prop
  | outOfRange (beyond : terms.Beyond next) :
      Ruling terms clock progress next interrupted
        { state := terms.pacer clock progress, answer := false }
  | interrupted (within : ¬ terms.Beyond next) (wished : terms.Wished interrupted) :
      Ruling terms clock progress next interrupted
        { state := { terms.pacer clock progress with interrupted := true }, answer := false }
  | late {lag : Span} (within : ¬ terms.Beyond next) (free : ¬ terms.Wished interrupted)
      (exceeded : terms.Exceeded (Clock.synchronize next clock).answer lag) :
      Ruling terms clock progress next interrupted
        { state := { terms.pacer (Clock.synchronize next clock).state progress with
            lag := some lag }
          answer := false
          interrupts := (Clock.synchronize next clock).interrupts
          fault := (Clock.synchronize next clock).fault }
  | step (within : ¬ terms.Beyond next) (free : ¬ terms.Wished interrupted)
      (inTime : ∀ lag, ¬ terms.Exceeded (Clock.synchronize next clock).answer lag) :
      Ruling terms clock progress next interrupted
        { state := terms.spent.pacer (Clock.synchronize next clock).state progress
          answer := true
          interrupts := (Clock.synchronize next clock).interrupts
          fault := (Clock.synchronize next clock).fault }

/-- A pacer asks its questions in order. -/
theorem Terms.ruling (terms : Terms) (clock : κ) (progress : Option ρ) (next : Instant)
    (interrupted : Bool) :
    Ruling terms clock progress next interrupted
      ((terms.pacer clock progress).proceed next interrupted) := by
  unfold Pacer.proceed
  split
  · rename_i hrange
    exact .outOfRange ((terms.outOfRange_iff clock progress next).mp hrange)
  · rename_i hrange
    have hwithin : ¬ terms.Beyond next :=
      fun h => hrange ((terms.outOfRange_iff clock progress next).mpr h)
    split
    · rename_i hwish
      exact .interrupted hwithin (Bool.and_eq_true_iff.mp hwish)
    · rename_i hwish
      have hfree : ¬ terms.Wished interrupted :=
        fun h => hwish (Bool.and_eq_true_iff.mpr h)
      dsimp only
      split
      · rename_i lag hlag
        exact .late hwithin hfree ((terms.excess_eq_some_iff _ progress _ lag).mp hlag)
      · rename_i hnone
        refine .step hwithin hfree fun lag h => ?_
        have hlag := (terms.excess_eq_some_iff (Clock.synchronize next clock).state progress _
          lag).mpr h
        exact Option.some_ne_none _ (hlag.symm.trans hnone)

variable [Progress ρ]

namespace Watch

/-- A watch replies what its pacer does. It has used up one of its signals then. -/
def reply (signals : List Bool) (minutes : List Inquiry) (t : Instant)
    (r : Reply (Pacer κ ρ) Bool) : Reply (Watch κ ρ) Bool :=
  { state := ⟨⟨r.state, signals.tail⟩, minutes ++ [.proceed t]⟩
    answer := r.answer
    interrupts := r.interrupts || signals.headD false
    fault := r.fault }

variable (terms : Terms) (clock : κ) (progress : Option ρ) (signals : List Bool)
  (minutes : List Inquiry) (t : Instant)

/-- A watch decides as its pacer does, which hears the signal. -/
theorem proceed_eq (interrupted : Bool) :
    Supervisor.proceed t interrupted
        (⟨⟨terms.pacer clock progress, signals⟩, minutes⟩ : Watch κ ρ)
      = reply signals minutes t
          ((terms.pacer clock progress).proceed t (interrupted || signals.headD false)) := rfl

/-- A watch that is told of a step calls its progress report, if it has one. -/
theorem state_completed :
    (Supervisor.completed t
        (⟨⟨terms.pacer clock progress, signals⟩, minutes⟩ : Watch κ ρ)).state
      = ⟨⟨terms.pacer clock (progress.map fun p => (Progress.stepped t terms.limit p).state),
          signals⟩, minutes ++ [.completed t]⟩ := by
  cases progress <;> rfl

theorem interrupts_completed :
    (Supervisor.completed t
        (⟨⟨terms.pacer clock progress, signals⟩, minutes⟩ : Watch κ ρ)).interrupts
      = progress.any fun p => (Progress.stepped t terms.limit p).interrupts := by
  cases progress <;> rfl

end Watch

/-! ## Runs -/

/-- **The end of a run under the law**, whose supervisor has had these minutes before it. -/
inductive Concluded (minutes : List Inquiry) (ts : List Instant) :
    Option Verdict → Standing τ σ κ ρ → Option (Outcome (Backend τ σ × Watch κ ρ) ω) → Prop
  | unfinished {s : Standing τ σ κ ρ} : Concluded minutes ts none s none
  | finished {v : Verdict} {s : Standing τ σ κ ρ} {o : Outcome (Backend τ σ × Watch κ ρ) ω}
      (stop : o.stop = none)
      (standing : ⟨o.state.1, o.state.2.pacer.clock, o.state.2.pacer.progress,
        o.world.interrupted⟩ = s)
      (lag : o.state.2.pacer.lag = v.lag?)
      (steps : Inquiry.stepsOf o.state.2.minutes = Inquiry.stepsOf minutes ++ ts) :
      Concluded minutes ts (some v) s (some o)

omit [Clock κ] [Progress ρ] in
/-- A step that is in the minutes. -/
theorem Concluded.cons {minutes minutes' : List Inquiry} {t : Instant} {ts : List Instant}
    {v : Option Verdict} {s : Standing τ σ κ ρ}
    {result : Option (Outcome (Backend τ σ × Watch κ ρ) ω)}
    (hminutes : Inquiry.stepsOf minutes' = Inquiry.stepsOf minutes ++ [t])
    (h : Concluded minutes' ts v s result) : Concluded minutes (t :: ts) v s result := by
  cases h with
  | unfinished => exact .unfinished
  | finished stop standing lag steps =>
      refine .finished stop standing lag ?_
      rw [steps, hminutes, List.append_assoc, List.singleton_append]

variable [Observer ω]

omit [Clock κ] [Progress ρ] in
/-- Who wants an interruption after a step: somebody did before, or it was asked for by the
decision, by the step or by the note about it. -/
theorem World.interrupted_step {α β γ δ : Type} (w : World ω) (decision : Reply α β) (x : Effect)
    (note : Reply γ δ) :
    (((w.heed decision).after x).heed note).interrupted
      = (w.interrupted || decision.interrupts || x.interrupts || note.interrupts) := by
  rw [World.interrupted_heed, World.after, World.interrupted_heed]

variable [AtomicModel τ σ] {good : Interface τ → Stage → σ → Prop} {m : Model τ σ}

/-- **A run of a live engine obeys the law.** -/
theorem Backend.Live.law (hc : Contract good) (ha : Attended ω good) (hm : m.Wired)
    (hp : Supervisor.Calm (Pacer κ ρ)) {n : Nat} :
    ∀ {b : Backend τ σ} {plan : Nat → Timetable} {terms : Terms} {clock : κ}
      {progress : Option ρ} {signals : List Bool} {minutes : List Inquiry} {w : World ω}
      {result : Option (Outcome (Backend τ σ × Watch κ ρ) ω)}, b.Live good m →
      b.Rest n plan (⟨⟨terms.pacer clock progress, signals⟩, minutes⟩ : Watch κ ρ) w result →
      ∃ ts v s', Law terms signals n ⟨b, clock, progress, w.interrupted⟩ ts v s' ∧
        Concluded minutes ts v s' result := by
  induction n with
  | zero =>
      intro b plan terms clock progress signals minutes w result _ hr
      rw [hr.zero]
      exact ⟨[], none, _, .unfinished, .unfinished⟩
  | succ n ih =>
      intro b plan terms clock progress signals minutes w result h hr
      have hdecision := h.decision hc ha hm (Minuted.calm (Signalled.calm hp))
        (Minuted.halting (Signalled.halting halting_pacer)) hr
      have hruling := terms.ruling clock progress b.next (w.interrupted || signals.headD false)
      have hasked : Inquiry.stepsOf (minutes ++ [.proceed b.next])
          = Inquiry.stepsOf minutes ++ [] := Inquiry.stepsOf_append _ _
      rw [Watch.proceed_eq] at hdecision
      generalize (terms.pacer clock progress).proceed b.next
        (w.interrupted || signals.headD false) = ruling at hruling hdecision
      cases hruling with
      | outOfRange beyond =>
          obtain ⟨-, rfl⟩ := hdecision.resolve_right fun h => Bool.false_ne_true h.1
          refine ⟨[], _, _, .outOfRange beyond, .finished rfl ?_ rfl hasked⟩
          exact congrArg (Standing.mk b clock progress) (World.interrupted_heed _ _)
      | interrupted within wished =>
          obtain ⟨-, rfl⟩ := hdecision.resolve_right fun h => Bool.false_ne_true h.1
          refine ⟨[], _, _, .interrupted within wished, .finished rfl ?_ rfl hasked⟩
          exact congrArg (Standing.mk b clock progress) (World.interrupted_heed _ _)
      | late within free exceeded =>
          obtain ⟨-, rfl⟩ := hdecision.resolve_right fun h => Bool.false_ne_true h.1
          refine ⟨[], _, _, .late within free exceeded, .finished rfl ?_ rfl hasked⟩
          exact congrArg (Standing.mk b _ progress)
            ((World.interrupted_heed _ _).trans
              (Standing.interrupted_synchronized ⟨b, clock, progress, w.interrupted⟩ _).symm)
      | step within free inTime =>
          obtain ⟨-, x, b₁, hstep, hrest⟩ :=
            hdecision.resolve_left fun h => Bool.false_ne_true h.1.symm
          have hminutes : Inquiry.stepsOf (minutes ++ [.proceed b.next] ++ [.completed b.next])
              = Inquiry.stepsOf minutes ++ [b.next] := by
            rw [Inquiry.stepsOf_append, hasked, List.append_nil]
            rfl
          -- The watch goes into the rest of the run with a step, a signal and two minutes used up.
          dsimp only [Watch.reply] at hrest
          rw [Watch.state_completed] at hrest
          obtain ⟨ts, v, s', hlaw, hend⟩ := ih (hstep.live hc hm h) hrest
          refine ⟨_, v, s', .step within free inTime hstep ?_, hend.cons hminutes⟩
          rw [World.interrupted_step, Watch.interrupts_completed] at hlaw
          rw [Standing.stepped_eq, Standing.interrupted_synchronized]
          exact hlaw

end

/-! ## The account of a run -/

/-- The clock is called once more by a run that ends because of it. -/
def Verdict.calls (next : Instant) : Option Verdict → List Instant
  | some (late _) => [next]
  | _ => []

/-- **The account of a run** with the steps at `ts`: what the terms of the run say about them,
what the clock and the progress report were called with, and what became of the engine. -/
structure Account [AtomicModel τ σ] [Clock κ] [Progress ρ] (m : Model τ σ) (terms : Terms)
    (n : Nat) (s : Standing τ σ κ ρ) (ts : List Instant) (v : Option Verdict)
    (s' : Standing τ σ κ ρ) : Prop where
  before : ∀ t ∈ ts, t < terms.limit ∧ t ≠ .max
  ordered : (ts ++ [s'.next]).Pairwise (· ≤ ·)
  budget : ∀ k ∈ terms.budget, ts.length ≤ k
  /-- A run without an end has used up all of its decisions. -/
  decisions : v = none → ts.length = n
  clock : s'.clock
    = (ts ++ Verdict.calls s'.next v).foldl (fun c t => (Clock.synchronize t c).state) s.clock
  progress : s'.progress
    = s.progress.map (ts.foldl fun p t => (Progress.stepped t terms.limit p).state)
  /-- The engine has taken these steps, and nothing else has happened to it. -/
  engine : ∃ x, Backend.Unfolds m s.backend (ts.map .step) x s'.backend

section

variable [AtomicModel τ σ] [Clock κ] [Progress ρ] {good : Interface τ → Stage → σ → Prop}
  {m : Model τ σ}

omit [Clock κ] [Progress ρ] in
/-- The first step, or the end if there is none, is at the next event. -/
theorem Backend.Unfolds.next_le {b b' : Backend τ σ} {ts : List Instant} {x : Effect}
    (h : Backend.Unfolds m b (ts.map .step) x b') (hts : (ts ++ [b'.next]).Pairwise (· ≤ ·)) :
    ∀ t ∈ ts ++ [b'.next], b.next ≤ t := by
  cases ts with
  | nil =>
      cases h
      exact List.forall_mem_singleton.mpr (le_refl _)
  | cons t ts =>
      cases h
      exact List.forall_mem_cons.mpr ⟨le_refl _, (List.pairwise_cons.mp hts).1⟩

/-- A run that ends at its first decision. -/
theorem Account.nil {terms : Terms} {n : Nat} {s s' : Standing τ σ κ ρ} {v : Option Verdict}
    (hv : v = none → 0 = n) (hbackend : s'.backend = s.backend)
    (hclock : s'.clock
      = (Verdict.calls s.next v).foldl (fun c t => (Clock.synchronize t c).state) s.clock)
    (hprogress : s'.progress = s.progress) : Account m terms n s [] v s' where
  before := List.forall_mem_nil _
  ordered := List.pairwise_singleton _ _
  budget k _ := Nat.zero_le k
  decisions := hv
  clock := by
    rw [hclock, Standing.next, Standing.next, hbackend, List.nil_append]
  progress := hprogress.trans (Option.map_id' (x := s.progress)).symm
  engine := ⟨{}, hbackend.symm ▸ .nothing⟩

/-- **One step before the rest of a run.** -/
theorem Account.cons (hc : Contract good) (hm : m.Wired) {terms : Terms} {n : Nat}
    {given : Bool} {s s' : Standing τ σ κ ρ} {ts : List Instant} {v : Option Verdict} {x : Effect}
    {b : Backend τ σ} (hs : s.backend.Live good m) (within : ¬ terms.Beyond s.next)
    (taken : s.backend.Step x b)
    (rest : Account m terms.spent n ((s.signalled given).synchronized.stepped terms.limit x b)
      ts v s') : Account m terms (n + 1) s (s.next :: ts) v s' := by
  obtain ⟨hbefore, hmax, hbudget⟩ :
      ¬ terms.limit ≤ s.next ∧ s.next ≠ .max ∧ terms.budget ≠ some 0 :=
    ⟨fun h => within (.inl h), fun h => within (.inr (.inl h)), fun h => within (.inr (.inr h))⟩
  obtain ⟨y, hy⟩ := rest.engine
  rw [Standing.backend_stepped] at hy
  refine ⟨?_, ?_, fun k hk => ?_, fun hv => congrArg (· + 1) (rest.decisions hv), ?_, ?_, x ++ y,
    .step taken hy⟩
  · exact List.forall_mem_cons.mpr ⟨⟨not_le.mp hbefore, hmax⟩, rest.before⟩
  · exact List.pairwise_cons.mpr ⟨fun t ht =>
      le_trans (taken.next_le hc hm hs) (hy.next_le rest.ordered t ht), rest.ordered⟩
  · have hleft : ts.length ≤ k - 1 := rest.budget _ (Option.mem_map_of_mem (· - 1) hk)
    have hsome : k ≠ 0 := fun h => hbudget (h ▸ hk)
    rw [List.length_cons]
    omega
  · rw [rest.clock, Standing.clock_stepped]
    rfl
  · rw [rest.progress, Standing.progress_stepped, Option.map_map]
    rfl

/-- **The account of a run under the law.** -/
theorem Law.account (hc : Contract good) (hm : m.Wired) {terms : Terms} {signals : List Bool}
    {n : Nat} {s s' : Standing τ σ κ ρ} {ts : List Instant} {v : Option Verdict}
    (hs : s.backend.Live good m) (h : Law terms signals n s ts v s') :
    Account m terms n s ts v s' := by
  induction h with
  | unfinished => exact .nil (fun _ => rfl) rfl rfl rfl
  | outOfRange => exact .nil nofun rfl rfl rfl
  | interrupted => exact .nil nofun rfl rfl rfl
  | late => exact .nil nofun rfl rfl rfl
  | step within _ _ taken _ ih =>
      refine .cons hc hm hs within taken (ih ?_)
      rw [Standing.backend_stepped]
      exact taken.live hc hm hs

end

end DiscreteEvent
