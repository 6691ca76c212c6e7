/-
The calls of a runner obey the law of timed runs.

A run up to a time withdraws an earlier wish to stop, and then it is a run under the law with
that time as its limit. A single step is a run under the law whose budget is one step, which
has no limit but the last instant, and which does not heed the wish to stop.

This holds of every call, in whatever circumstances, and whatever was called before
(`runner_obeys`), since the engine that a session has left is in service again. In
particular it holds after a call that ended because the clock was ahead.
-/
import DiscreteEvent.Proofs.Components.Doubler
import DiscreteEvent.Proofs.Execution.Law

set_option autoImplicit false

namespace DiscreteEvent

variable {τ σ ω κ ρ : Type} [MessageType τ]

namespace Runner

/-- Where the simulation of a runner stands. -/
def standing (r : Runner τ σ ω κ ρ) : Standing τ σ κ ρ :=
  ⟨r.backend, r.clock, r.progress, r.world.interrupted⟩

/-- The runner without the wish to stop. -/
def resumed (r : Runner τ σ ω κ ρ) : Runner τ σ ω κ ρ :=
  { r with world := { r.world with interrupted := false } }

/-- **What a call gives back**: nothing as long as it has not come to its end, and then the
runner, a result that says why it has ended, and the times of the steps. -/
inductive Returns {α : Type} (r : Runner τ σ ω κ ρ) (answer : Runner τ σ ω κ ρ → α)
    (ts : List Instant) : Option Verdict → Standing τ σ κ ρ →
    Option ((Runner τ σ ω κ ρ × Except Halt α) × List Instant) → Prop
  | unfinished {s : Standing τ σ κ ρ} : Returns r answer ts none s none
  | finished {v : Verdict} {s : Standing τ σ κ ρ} {r' : Runner τ σ ω κ ρ} {result : Except Halt α}
      (standing : r'.standing = s) (tolerance : r'.tolerance = r.tolerance)
      (told : result = v.result (answer r')) :
      Returns r answer ts (some v) s (some ((r', result), ts))

/-- **A call obeys the law** under these terms, with an answer for the case that it does not
end with a lag. -/
def Obeys {α : Type} [AtomicModel τ σ] [Clock κ] [Progress ρ] (m : Model τ σ) (terms : Terms)
    (signals : List Bool) (n : Nat) (answer : Runner τ σ ω κ ρ → α) (r : Runner τ σ ω κ ρ)
    (result : Option ((Runner τ σ ω κ ρ × Except Halt α) × List Instant)) : Prop :=
  ∃ ts v s', Law terms signals n r.standing ts v s' ∧ Account m terms n r.standing ts v s' ∧
    r.Returns answer ts v s' result

/-! ## The end of a call -/

section

variable [Observer ω]

/-- **After the run of its engine** the runner stands where the run has ended, and what it is
told is what the verdict says. -/
theorem settled_eq (r : Runner τ σ ω κ ρ) {o : Outcome (Backend τ σ × Pacer κ ρ) ω}
    {v : Verdict} (hstop : o.stop = none) (hlag : o.state.2.lag = v.lag?) :
    (r.settled o).1.standing
        = ⟨o.state.1, o.state.2.clock, o.state.2.progress, o.world.interrupted⟩ ∧
      (r.settled o).1.tolerance = r.tolerance ∧ (r.settled o).2 = v.result () := by
  unfold settled Verdict.result
  dsimp only
  rw [hstop, hlag]
  cases v.lag? with
  | some lag => exact ⟨rfl, rfl, rfl⟩
  | none =>
      unfold conclude
      cases o.state.2.interrupted <;> exact ⟨rfl, rfl, rfl⟩

/-- The end of a run goes to the log only. -/
theorem arrived_eq (r : Runner τ σ ω κ ρ) (v : Verdict) :
    (arrived (r, v.result ())).1.standing = r.standing ∧
      (arrived (r, v.result ())).1.tolerance = r.tolerance ∧
      (arrived (r, v.result ())).2 = v.result (arrived (r, v.result ())).1.nextTime := by
  unfold Verdict.result
  cases v.lag? <;> exact ⟨rfl, rfl, rfl⟩

end

/-! ## Runs -/

variable [AtomicModel τ σ] [Observer ω] [Clock κ] [Progress ρ]
  {good : Interface τ → Stage → σ → Prop} {m : Model τ σ}

/-- **The run of a call obeys the law.** -/
theorem driveOn_obeys (hc : Contract good) (ha : Attended ω good) (hm : m.Wired)
    (hp : Supervisor.Calm (Pacer κ ρ)) {r : Runner τ σ ω κ ρ} (hr : r.backend.Live good m)
    (c : Circumstances) (n : Nat) (terms : Terms) (htolerance : terms.tolerance = r.tolerance) :
    r.Obeys m terms c.signals n (fun _ => ())
      (r.driveOn c n terms.limit terms.budget terms.heeds) := by
  have hpacer : r.pacer terms.limit terms.budget terms.heeds = terms.pacer r.clock r.progress := by
    rw [pacer, ← htolerance]
    rfl
  obtain ⟨ts, v, s', hlaw, hend⟩ := hr.law hc ha hm hp
    (hr.rest n c.plan (⟨⟨terms.pacer r.clock r.progress, c.signals⟩, []⟩ : Watch κ ρ) r.world)
  refine ⟨ts, v, s', hlaw, hlaw.account hc hm hr, ?_⟩
  rw [driveOn, hpacer]
  generalize r.backend.runOn n c.plan
    (⟨⟨terms.pacer r.clock r.progress, c.signals⟩, []⟩ : Watch κ ρ) r.world = result at hend
  cases hend with
  | unfinished => exact .unfinished
  | @finished v s' o stop standing lag steps =>
      obtain ⟨hstanding, htold⟩ := r.settled_eq (o := o.mirror Watch.pacer) stop lag
      have hsteps : Inquiry.stepsOf o.state.2.minutes = ts := steps
      rw [Option.map_some, hsteps]
      exact .finished (hstanding.trans standing) htold.1 htold.2

/-- **A run obeys the law**, from the standing without the wish to stop. -/
theorem runUntilOn_obeys (hc : Contract good) (ha : Attended ω good) (hm : m.Wired)
    (hp : Supervisor.Calm (Pacer κ ρ)) {r : Runner τ σ ω κ ρ} (hr : r.backend.Live good m)
    (c : Circumstances) (n : Nat) (limit : Instant) :
    r.resumed.Obeys m ⟨limit, none, true, r.tolerance⟩ c.signals n nextTime
      (r.runUntilOn c n limit) := by
  obtain ⟨ts, v, s', hlaw, haccount, hend⟩ := driveOn_obeys (r := r.departed limit) hc ha hm hp hr
    c n ⟨limit, none, true, r.tolerance⟩ rfl
  refine ⟨ts, v, s', hlaw, haccount, ?_⟩
  rw [runUntilOn]
  generalize (r.departed limit).driveOn c n limit none true = result at hend
  cases hend with
  | unfinished => exact .unfinished
  | @finished v s' r' result standing tolerance told =>
      obtain ⟨hstanding, htolerance, hanswer⟩ := r'.arrived_eq v
      rw [Option.map_some, told]
      exact .finished (hstanding.trans standing) (htolerance.trans tolerance) hanswer

/-- **A single step obeys the law**, if there is an event. -/
theorem stepOn_obeys (hc : Contract good) (ha : Attended ω good) (hm : m.Wired)
    (hp : Supervisor.Calm (Pacer κ ρ)) {r : Runner τ σ ω κ ρ} (hr : r.backend.Live good m)
    (hnext : r.nextTime ≠ .max) (c : Circumstances) (n : Nat) :
    r.Obeys m ⟨.max, some 1, false, r.tolerance⟩ c.signals n (fun _ => some r.nextTime)
      (r.stepOn c n) := by
  obtain ⟨ts, v, s', hlaw, haccount, hend⟩ := driveOn_obeys hc ha hm hp hr
    c n ⟨.max, some 1, false, r.tolerance⟩ rfl
  refine ⟨ts, v, s', hlaw, haccount, ?_⟩
  rw [stepOn, if_neg fun h => hnext ((Instant.isInfinite_iff _).mp h)]
  generalize r.driveOn c n .max (some 1) false = result at hend
  cases hend with
  | unfinished => exact .unfinished
  | @finished v s' r' result standing tolerance told =>
      rw [Option.map_some, told]
      refine .finished standing tolerance ?_
      unfold Verdict.result
      cases v.lag? <;> rfl

omit [Observer ω] in
/-- **A single step is one step or a lag**: two decisions are enough for it. -/
theorem Obeys.single {n : Nat} {tolerance : Option Span} {signals : List Bool} {α : Type}
    {answer : Runner τ σ ω κ ρ → α} {r : Runner τ σ ω κ ρ}
    {result : Option ((Runner τ σ ω κ ρ × Except Halt α) × List Instant)}
    (hnext : r.nextTime ≠ .max)
    (h : r.Obeys m ⟨.max, some 1, false, tolerance⟩ signals (n + 2) answer result) :
    (∃ lag r', Terms.Exceeded ⟨.max, some 1, false, tolerance⟩
        (Clock.synchronize r.nextTime r.clock).answer lag ∧
      result = some ((r', .error (.error (.outOfSync lag))), []) ∧ r'.backend = r.backend) ∨
    (∃ x r', (∀ lag, ¬ Terms.Exceeded ⟨.max, some 1, false, tolerance⟩
        (Clock.synchronize r.nextTime r.clock).answer lag) ∧
      result = some ((r', .ok (answer r')), [r.nextTime]) ∧ r.backend.Step x r'.backend) := by
  obtain ⟨ts, v, s', hlaw, -, hend⟩ := h
  cases hlaw with
  | outOfRange beyond =>
      obtain hmax | hmax | hbudget := beyond
      · exact absurd (le_antisymm (Instant.le_max _) hmax) hnext
      · exact absurd hmax hnext
      · cases hbudget
  | interrupted within wished => cases wished.1
  | @late _ _ _ _ lag within free exceeded =>
      cases hend with
      | finished standing _ told =>
          subst told
          exact .inl ⟨lag, _, exceeded, rfl, congrArg Standing.backend standing⟩
  | @step _ _ _ _ _ _ _ x b within free inTime taken rest =>
      -- The budget is spent, so the run ends here.
      have hspent : Terms.Beyond (Terms.spent ⟨.max, some 1, false, tolerance⟩)
          ((r.standing.signalled (signals.headD false)).synchronized.stepped .max x b).next :=
        .inr (.inr rfl)
      cases rest with
      | outOfRange =>
          cases hend with
          | @finished _ _ r' _ standing _ told =>
              subst told
              have hbackend : r'.backend = b :=
                (congrArg Standing.backend standing).trans (Standing.backend_stepped _ _ _ _)
              exact .inr ⟨x, r', inTime, rfl, hbackend ▸ taken⟩
      | interrupted within => exact absurd hspent within
      | late within => exact absurd hspent within
      | step within => exact absurd hspent within

omit [Observer ω] in
/-- What has obeyed the law leaves an engine in service. -/
theorem Obeys.live (hc : Contract good) (hm : m.Wired) {terms : Terms} {signals : List Bool}
    {n : Nat} {α : Type} {answer : Runner τ σ ω κ ρ → α} {r r' : Runner τ σ ω κ ρ}
    {result : Except Halt α} {ts : List Instant} (hr : r.backend.Live good m)
    (h : r.Obeys m terms signals n answer (some ((r', result), ts))) :
    r'.backend.Live good m := by
  obtain ⟨_, _, _, -, haccount, hend⟩ := h
  cases hend with
  | finished standing _ _ =>
      subst standing
      obtain ⟨x, hx⟩ := haccount.engine
      exact hx.live hc hm hr

end Runner

/-! ## Sessions -/

section

variable [AtomicModel τ σ] [Observer ω] [Clock κ] [Progress ρ]
  {good : Interface τ → Stage → σ → Prop} {m : Model τ σ}

omit [Progress ρ] in
/-- **A runner that has been started** has a live engine. -/
theorem Setup.live_init (hc : Contract good) (ha : Attended ω good) (hm : m.Wired)
    (hg : m.AllGood good) {s : Setup τ σ ω κ ρ} (hs : s.model = .ok m) {t : Instant}
    {r : Runner τ σ ω κ ρ} (hr : (s.init t).2 = .ok r) : r.backend.Live good m := by
  have hinit : ∃ w, (s.backendFor m).init t s.world = .done ((s.backendFor m).started t) w ∧
      ((s.backendFor m).started t).Live good m := by
    unfold backendFor
    split
    · obtain ⟨hinit, hlive⟩ := (Crew.sound_ofModel hm hg s.workers).init hc ha t s.world
      rw [Backend.init, hinit]
      exact ⟨_, rfl, hlive⟩
    · obtain ⟨hinit, hlive, -⟩ := (Engine.sound_ofModelBelow hg none).init hc ha t s.world
      rw [Backend.init, Engine.ofModel, hinit]
      exact ⟨_, rfl, hlive⟩
  obtain ⟨w, hinit, hlive⟩ := hinit
  simp only [Setup.init, hs, hinit, Outcome.done] at hr
  split at hr
  · cases hr
  · cases hr
    exact hlive

/-- **A session leaves a live engine**, whatever the order of messages means to the models. -/
theorem Session.live (hc : Contract good) (ha : Attended ω good) (hm : m.Wired)
    (hp : Supervisor.Calm (Pacer κ ρ)) {limit : Instant} {r r' : Runner τ σ ω κ ρ}
    {h : List (Occurrence τ)} (hr : r.backend.Live good m) (hs : Session m limit r h r') :
    r'.backend.Live good m := by
  induction hs with
  | start => exact hr
  | @runUntil _ r₁ _ c n upTo _ _ _ _ call ih =>
      exact Runner.Obeys.live (r := r₁.resumed) hc hm ih
        (call ▸ Runner.runUntilOn_obeys hc ha hm hp ih c n upTo)
  | @step _ r₁ _ c n _ _ _ within call ih =>
      have hnext : r₁.nextTime ≠ .max := (lt_of_lt_of_le within limit.le_max).ne
      exact (call ▸ Runner.stepOn_obeys hc ha hm hp ih hnext c n).live hc hm ih
  | interrupt _ ih => exact ih
  | inject _ declared extended ih => exact ih.extend hm declared extended

end

/-! ## Every call -/

/-- **The law of timed runs.** Take an accepted model whose models, clock, progress report and
observer do not fault, with a tolerance or without, and a runner that was started for it and
has been through any session, with one worker or several.

A run up to a limit, whatever turns the workers take and whenever somebody asks for an
interruption, is a run under the law from the standing without the wish to stop, with its
account: every step is before the limit and none before the one it follows, and the clock is
called with the time of every step, and once more if it ends the run, and the progress report
with the time of every step and the limit. It gives back the time of the next event, or the
lag that ended it. The run of the program is this one, without signals from outside.

A single step does nothing if there is no event. Otherwise it is a run under the law with a
budget of one step, without a limit and without heed to the wish to stop: either the clock is
ahead by more than is tolerated, and the engine is as it was, or the step at the next event is
taken and its time given back. -/
theorem runner_obeys [AtomicModel τ σ] [Observer ω] [Clock κ] [Progress ρ]
    {good : Interface τ → Stage → σ → Prop} {m : Model τ σ} (hacc : m.Accepted)
    (hc : Contract good) (hg : m.AllGood good) (ha : Attended ω good)
    (hclock : ∀ (t : Instant) (c : κ), (Clock.synchronize t c).fault = none)
    (hprogress : ∀ (t limit : Instant) (p : ρ), (Progress.stepped t limit p).fault = none)
    {s : Setup τ σ ω κ ρ} (hs : s.model = .ok m) {t : Instant} {r₀ : Runner τ σ ω κ ρ}
    (hr : (s.init t).2 = .ok r₀) (h : List (Occurrence τ)) (r : Runner τ σ ω κ ρ)
    (hsession : Session m .max r₀ h r) :
    (∀ c n limit, r.resumed.Obeys m ⟨limit, none, true, r.tolerance⟩ c.signals n Runner.nextTime
      (r.runUntilOn c n limit)) ∧
    (∀ n limit, r.runUntil n limit = (r.runUntilOn {} n limit).map Prod.fst) ∧
    (∀ n, r.step n = (r.stepOn {} n).map Prod.fst) ∧
    (∀ c n, r.nextTime = .max → r.stepOn c n = some ((r, .ok none), [])) ∧
    ∀ c n, r.nextTime ≠ .max →
      r.Obeys m ⟨.max, some 1, false, r.tolerance⟩ c.signals n (fun _ => some r.nextTime)
        (r.stepOn c n) ∧
      ((∃ lag r', Terms.Exceeded ⟨.max, some 1, false, r.tolerance⟩
          (Clock.synchronize r.nextTime r.clock).answer lag ∧
        r.stepOn c (n + 2) = some ((r', .error (.error (.outOfSync lag))), []) ∧
        r'.backend = r.backend) ∨
      (∃ x r', (∀ lag, ¬ Terms.Exceeded ⟨.max, some 1, false, r.tolerance⟩
          (Clock.synchronize r.nextTime r.clock).answer lag) ∧
        r.stepOn c (n + 2) = some ((r', .ok (some r.nextTime)), [r.nextTime]) ∧
        r.backend.Step x r'.backend)) := by
  have hm := hacc.wired
  have hp : Supervisor.Calm (Pacer κ ρ) := Pacer.calm hclock hprogress
  have hlive := hsession.live hc ha hm hp (Setup.live_init hc ha hm hg hs hr)
  refine ⟨Runner.runUntilOn_obeys hc ha hm hp hlive, fun n limit => r.runUntil_eq_runUntilOn n limit,
    fun n => r.step_eq_stepOn n, fun c n hnext => ?_, fun c n hnext => ⟨?_, ?_⟩⟩
  · rw [Runner.stepOn, if_pos ((Instant.isInfinite_iff _).mpr hnext)]
  · exact Runner.stepOn_obeys hc ha hm hp hlive hnext c n
  · exact (Runner.stepOn_obeys hc ha hm hp hlive hnext c (n + 2)).single hnext

/-- A clock that writes down its deadlines, and is ahead by two seconds from some call on. -/
structure Tardy where
  punctual : Nat
  deadlines : List Instant := []

instance : Clock Tardy where
  synchronize deadline c :=
    { state := { c with deadlines := c.deadlines ++ [deadline] }
      answer := if c.deadlines.length < c.punctual then .synchronized
        else .outOfSync ⟨2, 0, Span.zero.nanos_lt⟩ }

/-- A progress report that writes down what it is told. -/
structure Tally where
  steps : List (Instant × Instant) := []

instance : Progress Tally where
  stepped t limit p := { state := ⟨p.steps ++ [(t, limit)]⟩, answer := () }

/-- A crew of two workers runs the tower of doublers. The clock is in time for the start and for
two steps, and then it is ahead by two seconds, where one is tolerated. -/
theorem runner_obeys_tower :
    let s : Setup Payload Doubler Recorder Tardy Tally :=
      { model := .ok Doubler.tower, workers := 2, tolerance := some ⟨1, 0, by decide⟩,
        clock := ⟨3, []⟩, progress := some {}, world := ⟨{}, true⟩ }
    let seconds (n : Int64) : Instant := ⟨n, 0, by decide⟩
    ∃ r, (s.init .epoch).2 = .ok r ∧
      r.resumed.Obeys Doubler.tower ⟨seconds 9, none, true, r.tolerance⟩ [] 9 Runner.nextTime
        (r.runUntilOn {} 9 (seconds 9)) ∧
      ((r.runUntilOn {} 9 (seconds 9)).map fun x =>
          (x.2, x.1.1.clock.deadlines, x.1.1.progress.map Tally.steps))
        = some ([seconds 2, seconds 4], [seconds 0, seconds 2, seconds 4, seconds 6],
          some [(seconds 2, seconds 9), (seconds 4, seconds 9)]) := by
  intro s seconds
  have hrun : ((s.init .epoch).2.toOption.bind fun r =>
      (r.runUntilOn {} 9 (seconds 9)).map fun x =>
        (x.2, x.1.1.clock.deadlines, x.1.1.progress.map Tally.steps))
      = some ([seconds 2, seconds 4], [seconds 0, seconds 2, seconds 4, seconds 6],
          some [(seconds 2, seconds 9), (seconds 4, seconds 9)]) := by decide +kernel
  obtain ⟨r, hr, hresult⟩ := Option.bind_eq_some_iff.mp hrun
  have hinit : (s.init .epoch).2 = .ok r := Except.eq_ok_of_toOption hr
  obtain ⟨hobeys, -⟩ := runner_obeys Doubler.accepted_tower Doubler.contract
    Doubler.allGood_tower Doubler.attended_recorder (fun _ _ => rfl) (fun _ _ _ => rfl)
    (show s.model = .ok Doubler.tower from rfl) hinit [] r .start
  exact ⟨r, hinit, hobeys {} 9 (seconds 9), hresult⟩

end DiscreteEvent
