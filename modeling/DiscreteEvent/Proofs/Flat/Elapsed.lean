/-
The times that a model is told add up.

An atomic model never sees a time. It is told how much of it has elapsed when input comes, and
when its own event comes it knows how long it has asked to wait for it. `Agenda` is what a
reader of a journal can know about events: how long those that have come were waited for, all
together, and how far away the one that stands was put by the last time advance. With the
elapsed times of the external transitions this makes up the time from the initialization to
the last transition, to the nanosecond (`Diary.AddsUp`).

`Agenda.Reckons` says so of a journal up to some time, and there is one lemma for each call of
the model. What makes the internal transition exact is that an event never comes when its time
was cut off at infinity (`Instant.ticks_of_due`), and what makes the external one exact is that
nothing but a transition moves the last time of a leaf: whether a leaf was polled in vain,
whether it was collected from twice or not at all, or whether its network moved on without
it, does not show in its journal, and not in its last time either.

`elapsed_times_add_up` is about the engines of a model and its crews, after any calls and runs.
-/
import DiscreteEvent.Proofs.Flat.Protocol

set_option autoImplicit false

namespace DiscreteEvent

variable {τ σ ω π : Type}

/-- An event that comes was not cut off: it comes when the time has gone by that was asked for. -/
theorem Instant.ticks_of_due {last t : Instant} {ta : Option Span} (hmax : t ≠ .max)
    (h : t = last.schedule ta) : ∃ d, ta = some d ∧ t.ticks = last.ticks + d.ticks := by
  cases ta with
  | none => exact absurd h hmax
  | some d =>
      have hne : t.ticks ≠ maxTicks := fun heq => hmax (ticks_injective (heq.trans ticks_max.symm))
      have hticks := ticks_schedule last d
      rw [← h] at hticks
      exact ⟨d, rfl, by omega⟩

variable [MessageType τ]

/-! ## The account of a journal -/

/-- The elapsed time that a call tells the model. -/
def ModelCall.elapsed : ModelCall τ → Nat
  | .external elapsed _ => elapsed.ticks
  | _ => 0

/-- All elapsed times of a journal together. -/
def ModelCall.elapsedSum (calls : List (ModelCall τ)) : Nat := (calls.map elapsed).sum

/-- **What a journal says about events**: how long those that have come were waited for, all
together, and how far away the one is that stands. -/
structure Agenda where
  waited : Nat
  standing : Option Span

namespace Agenda

/-- **One entry.** The event that the last time advance has announced is the one that stands.
An internal transition is this event; without one that stands there is no such transition.
After a transition no event stands until the model is asked again. -/
def note (a : Agenda) : ModelCall τ → Option Agenda
  | .timeAdvance ta => some ⟨a.waited, ta⟩
  | .output _ => some a
  | .internal => a.standing.map fun d => ⟨a.waited + d.ticks, none⟩
  | .external _ _ => some ⟨a.waited, none⟩

/-- The agenda at the end of a journal. -/
def ofCalls (calls : List (ModelCall τ)) : Option Agenda := calls.foldlM note ⟨0, none⟩

theorem ofCalls_concat (calls : List (ModelCall τ)) (c : ModelCall τ) :
    ofCalls (calls ++ [c]) = (ofCalls calls).bind (note · c) := by
  rw [ofCalls, List.foldlM_append, ofCalls]
  cases calls.foldlM note ⟨0, none⟩ with
  | none => rfl
  | some a => exact bind_pure (a.note c)

/-- Nobody has waited for the events of a model that never announces one. -/
theorem waited_eq_of_passive {calls : List (ModelCall τ)} :
    ∀ {a a' : Agenda}, a.standing = none → (∀ ta, .timeAdvance ta ∈ calls → ta = none) →
      calls.foldlM note a = some a' → a'.waited = a.waited := by
  induction calls with
  | nil =>
      intro a a' _ _ ha
      cases ha
      rfl
  | cons c calls ih =>
      intro a a' hstanding hpassive ha
      have hrest : ∀ ta, .timeAdvance ta ∈ calls → ta = none :=
        fun ta hta => hpassive ta (List.mem_cons_of_mem _ hta)
      cases c with
      | timeAdvance ta =>
          cases hpassive ta List.mem_cons_self
          exact ih (a := ⟨a.waited, none⟩) rfl hrest ha
      | output => exact ih hstanding hrest ha
      | internal =>
          rw [List.foldlM_cons, note, hstanding] at ha
          cases ha
      | external => exact ih (a := ⟨a.waited, none⟩) rfl hrest ha

/-- **A journal reckons up to `t`**: what was told since `t₀` makes up the time, and this is
the event that stands. -/
def Reckons (t₀ : Instant) (calls : List (ModelCall τ)) (standing : Option Span) (t : Instant) :
    Prop :=
  ∃ waited, ofCalls calls = some ⟨waited, standing⟩ ∧
    t₀.ticks + (ModelCall.elapsedSum calls + waited : Nat) = t.ticks

namespace Reckons

variable {t₀ t t' : Instant} {calls : List (ModelCall τ)} {standing : Option Span}

theorem elapsedSum_concat (calls : List (ModelCall τ)) (c : ModelCall τ) :
    ModelCall.elapsedSum (calls ++ [c]) = ModelCall.elapsedSum calls + c.elapsed := by
  rw [ModelCall.elapsedSum, ModelCall.elapsedSum, List.map_append, List.sum_append,
    List.map_singleton, List.sum_singleton]

theorem nil (t₀ : Instant) : Reckons t₀ ([] : List (ModelCall τ)) none t₀ :=
  ⟨0, rfl, Int.add_zero _⟩

theorem timeAdvance (h : Reckons t₀ calls standing t) (ta : Option Span) :
    Reckons t₀ (calls ++ [.timeAdvance ta]) ta t := by
  obtain ⟨waited, hagenda, hsum⟩ := h
  refine ⟨waited, by rw [ofCalls_concat, hagenda]; rfl, ?_⟩
  rw [elapsedSum_concat]
  exact hsum

theorem output (h : Reckons t₀ calls standing t) (es : List (Emission τ)) :
    Reckons t₀ (calls ++ [.output es]) standing t := by
  obtain ⟨waited, hagenda, hsum⟩ := h
  refine ⟨waited, by rw [ofCalls_concat, hagenda]; rfl, ?_⟩
  rw [elapsedSum_concat]
  exact hsum

/-- The event comes after the time for which it was waited. -/
theorem internal {d : Span} (h : Reckons t₀ calls (some d) t) (ht : t'.ticks = t.ticks + d.ticks) :
    Reckons t₀ (calls ++ [.internal]) none t' := by
  obtain ⟨waited, hagenda, hsum⟩ := h
  have helapsed : (ModelCall.internal : ModelCall τ).elapsed = 0 := rfl
  refine ⟨waited + d.ticks, by rw [ofCalls_concat, hagenda]; rfl, ?_⟩
  rw [elapsedSum_concat, helapsed]
  omega

/-- Input comes after the time that is told. -/
theorem external (h : Reckons t₀ calls standing t) {elapsed : Span}
    (ht : t'.ticks = t.ticks + elapsed.ticks) (x : Bags τ) :
    Reckons t₀ (calls ++ [.external elapsed x]) none t' := by
  obtain ⟨waited, hagenda, hsum⟩ := h
  refine ⟨waited, by rw [ofCalls_concat, hagenda]; rfl, ?_⟩
  rw [elapsedSum_concat, ModelCall.elapsed]
  omega

end Reckons

end Agenda

namespace Diary

/-- **The times add up** since the initialization at `t₀`: the elapsed times, and what was waited
for each event that has come, make up the time to the last transition exactly. For a model that
never announces an event the elapsed times alone do. -/
structure AddsUp (t₀ : Instant) (d : Diary τ) : Prop where
  total : ∃ a, Agenda.ofCalls d.calls = some a ∧
    t₀.ticks + (ModelCall.elapsedSum d.calls + a.waited : Nat) = d.last.ticks
  passive : (∀ ta, .timeAdvance ta ∈ d.calls → ta = none) →
    t₀.ticks + ModelCall.elapsedSum d.calls = d.last.ticks

/-- **The diary is kept up**: it reckons up to the last transition, and the next event is the one
that stands in it. -/
def Kept (t₀ : Instant) (d : Diary τ) : Prop :=
  ∃ ta, Agenda.Reckons t₀ d.calls ta d.last ∧ d.next = d.last.schedule ta

/-- A life that has only begun. -/
theorem Conforms.kept {t₀ : Instant} {d : Diary τ} (h : d.Conforms t₀ []) : d.Kept t₀ := by
  generalize htimes : [] = times at h
  cases h with
  | init ta => exact ⟨ta, (Agenda.Reckons.nil t₀).timeAdvance ta, rfl⟩
  | step => exact absurd htimes (by simp)

theorem Kept.addsUp {t₀ : Instant} {d : Diary τ} (h : d.Kept t₀) : d.AddsUp t₀ := by
  obtain ⟨ta, ⟨waited, hagenda, hsum⟩, -⟩ := h
  refine ⟨⟨_, hagenda, hsum⟩, fun hpassive => ?_⟩
  have hzero : waited = 0 := Agenda.waited_eq_of_passive (a := ⟨0, none⟩) rfl hpassive hagenda
  rw [hzero, Nat.add_zero] at hsum
  exact hsum

end Diary

/-! ## Leaves -/

namespace Leaf

variable [AtomicModel τ σ] {l : Leaf τ (Journaled τ σ)} {t₀ t : Instant}

/-- Whoever settles is told nothing, and announces the event that stands from now on. -/
theorem kept_settle {s : Journaled τ σ} {standing : Option Span}
    (h : Agenda.Reckons t₀ s.journal standing t) : (l.settle t s).diary.Kept t₀ :=
  ⟨_, h.timeAdvance _, rfl⟩

/-- Showing the output tells a model nothing about time. -/
theorem kept_shown (h : l.diary.Kept t₀) (t : Instant) : (l.shown t).diary.Kept t₀ := by
  unfold shown
  split
  · obtain ⟨ta, hreckons, hnext⟩ := h
    exact ⟨ta, hreckons.output _, hnext⟩
  · exact h

/-- **A transition** brings the reckoning up to its time. -/
theorem reckons_transition (h : l.diary.Kept t₀) (hl : l.last ≤ t) :
    Agenda.Reckons t₀ (l.transition t).state.journal none t := by
  obtain ⟨ta, hreckons, hnext⟩ := h
  unfold transition
  by_cases hdue : l.isImminent t = true
  · have hnow : t = l.last.schedule ta ∧ t ≠ .max := by
      rw [Node.isImminent, Bool.and_eq_true, beq_iff_eq, Bool.not_eq_true', Bool.eq_false_iff,
        ne_eq, Instant.isInfinite_iff] at hdue
      exact ⟨hdue.1.trans hnext, hdue.2⟩
    obtain ⟨d, rfl, hticks⟩ := Instant.ticks_of_due hnow.2 hnow.1
    have hinternal := hreckons.internal hticks
    simp only [if_pos hdue]
    split
    · exact hinternal
    · exact hinternal.external (Int.add_zero _).symm l.inbox
  · have helapsed := Instant.ticks_elapsed hl
    rw [if_neg hdue]
    refine hreckons.external ?_ l.inbox
    show t.ticks = l.last.ticks + _
    omega

/-- **Advancing**, whatever is found in the inbox. -/
theorem kept_moved (h : l.diary.Kept t₀) (hl : l.last ≤ t) : (l.moved t).diary.Kept t₀ := by
  unfold moved
  split
  · exact h
  · exact kept_settle (l := l) (reckons_transition h hl)

end Leaf

/-! ## Trees -/

variable [AtomicModel τ σ] [Observer ω] {good : Interface τ → Stage → σ → Prop} {m : Model τ σ}

namespace Engine

/-- What two calls that make a step keep, a step keeps. -/
theorem step_keeps {P : Engine τ σ → Prop}
    (hcollect : ∀ (e : Engine τ σ) (t : Instant) (w : World ω), P e → P (e.collect t w).state)
    (hadvance : ∀ (e : Engine τ σ) (t : Instant) (w : World ω), P e → P (e.advance t w).state)
    {e : Engine τ σ} (he : P e) (w : World ω) : P (e.step w).state := by
  have hcollected := hcollect e e.next w he
  rw [step]
  cases hstop : (e.collect e.next w).stop with
  | none =>
      rw [Outcome.andThen, hstop]
      exact hadvance _ _ _ hcollected
  | some stop =>
      rw [Outcome.andThen_of_stop hstop]
      exact hcollected

/-- **What every step keeps, every run keeps**, whatever the supervisor does and however the
run ends. -/
theorem run_keeps [Supervisor π] {P : Engine τ σ → Prop}
    (hstep : ∀ (e : Engine τ σ) (w : World ω), P e → P (e.step w).state) {n : Nat} :
    ∀ {e : Engine τ σ} {p : π} {w : World ω} {o : Outcome (Engine τ σ × π) ω},
      P e → e.run n p w = some o → P o.state.1 := by
  induction n with
  | zero => exact fun _ ho => nomatch ho
  | succ n ih =>
      intro e p w o he ho
      have hnext := hstep e (w.heed (Supervisor.proceed e.next w.interrupted p)) he
      simp only [run] at ho
      -- The supervisor may fault before the step, or not take it, or fault after it.
      split at ho
      · cases ho
        exact he
      · split at ho
        · split at ho
          · cases ho
            exact hnext
          · split at ho
            · cases ho
              exact hnext
            · exact ih hnext ho
        · cases ho
          exact he

/-- **The states of an engine of `m` since its only initialization**, at `t₀` and with anything
in the inbox of the root. The client has made any calls on it and let it run under any
supervisors, and it has gone on when a call was refused or a run was broken off. -/
inductive Begun (ω : Type) [Observer ω] (m : Model τ σ) (t₀ : Instant) : Engine τ σ → Prop
  | init {x : Bags τ} (hx : x.Fits m.interface.inputs) (w : World ω) :
      Begun ω m t₀ (((ofModel m).withInbox x).init t₀ w).state
  | call {e : Engine τ σ} {c : Call τ} (w : World ω) (h : Begun ω m t₀ e) (hd : c.Declared m)
      (hinit : ∀ t, c ≠ .init t) : Begun ω m t₀ (e.perform w c).state
  | run {π : Type} [Supervisor π] {e : Engine τ σ} {n : Nat} {p : π} {w : World ω}
      {o : Outcome (Engine τ σ × π) ω} (h : Begun ω m t₀ e) (ho : e.run n p w = some o) :
      Begun ω m t₀ o.state.1

/-- A session is a course of this kind. -/
theorem InSession.begun {t₀ : Instant} {e : Engine τ σ} (h : e.InSession ω m t₀) :
    e.Begun ω m t₀ := by
  induction h with
  | init hx w => exact .init hx w
  | inject values w _ hd ih => exact .call w ih hd (fun _ => nofun)
  | runUntil _ ho ih =>
      obtain ⟨o', ho', rfl⟩ := Option.map_eq_some_iff.mp ho
      exact .run ih ho'

/-- Whatever the client does to the engine it can do to the one with journals. -/
theorem Begun.exists_journaled {t₀ : Instant} {e : Engine τ σ} (h : e.Begun ω m t₀) :
    ∃ e' : Engine τ (Journaled τ σ), e'.Begun ω m.journaled t₀ ∧
      e'.mapState Journaled.self = e := by
  induction h with
  | init hx w =>
      obtain ⟨e', h', hself⟩ := (InSession.init hx w).exists_journaled
      exact ⟨e', h'.begun, hself⟩
  | @call _ c w _ hd hinit ih =>
      obtain ⟨e', h', rfl⟩ := ih
      have hd' : c.Declared m.journaled := by
        cases c with
        | inject port values =>
            rw [Call.Declared, Model.interface_journaled]
            exact hd
        | init | collect | advance => trivial
      refine ⟨_, h'.call w hd' hinit, ?_⟩
      rw [perform_mapState faithful_self]
      rfl
  | run _ ho ih =>
      obtain ⟨e', h', rfl⟩ := ih
      rw [run_mapState faithful_self] at ho
      obtain ⟨o', ho', rfl⟩ := Option.map_eq_some_iff.mp ho
      exact ⟨_, h'.run ho', rfl⟩

/-- **The diaries of a live engine are kept up.** -/
structure Diarized (good : Interface τ → Stage → σ → Prop) (m : Model τ σ) (t₀ : Instant)
    (e : Engine τ (Journaled τ σ)) : Prop where
  live : Live (Journaled.Good good) m.journaled e
  kept : ∀ (a : List Nat) (atom : Atomic τ σ), m.atomAt? a = some atom →
    ∃ l, e.leafAt? a = some l ∧ l.diary.Kept t₀

/-- The initialization begins the diaries. -/
theorem diarized_init (hc : Contract good) (ha : Attended ω good) (hm : m.Wired)
    (hg : m.AllGood good) (t₀ : Instant) {x : Bags τ} (hx : x.Fits m.journaled.interface.inputs)
    (w : World ω) : Diarized good m t₀ (((ofModel m.journaled).withInbox x).init t₀ w).state := by
  have hunder : Underway ω m.journaled t₀ [] _ := .init hx w
  refine ⟨hunder.live (Journaled.contract hc) (Journaled.attended ha) hm.journaled hg.journaled,
    fun a atom hatom => ?_⟩
  obtain ⟨d, hd, hconforms⟩ := hunder.conforms hc ha hm hg hatom
  obtain ⟨l, hl, rfl⟩ := Option.map_eq_some_iff.mp hd
  exact ⟨l, hl, hconforms.kept⟩

/-- **Every call keeps the diaries up**, a refused one as well. -/
theorem Diarized.perform (hc : Contract good) (ha : Attended ω good) (hm : m.Wired)
    {t₀ : Instant} {e : Engine τ (Journaled τ σ)} (h : Diarized good m t₀ e) {c : Call τ}
    (hd : c.Declared m.journaled) (hinit : ∀ t, c ≠ .init t) (w : World ω) :
    Diarized good m t₀ (e.perform w c).state := by
  have hperformed := h.live.ready.performed (Journaled.contract hc) (Journaled.attended ha)
    hm.journaled hd w
  generalize e.perform w c = o at hperformed ⊢
  cases hperformed with
  | init => exact absurd rfl (hinit _)
  | inject _ fits =>
      refine ⟨h.live.withInbox fits, fun a atom hatom => ?_⟩
      obtain ⟨l, hl, hkept⟩ := h.kept a atom hatom
      obtain ⟨y, hy⟩ := exists_leafAt_withInbox _ hl
      exact ⟨_, hy, hkept⟩
  | @collect t _ before inside live =>
      refine ⟨live, fun a atom hatom => ?_⟩
      obtain ⟨l, hl, hkept⟩ := h.kept a atom hatom
      refine ⟨l.shown t, ?_, Leaf.kept_shown hkept t⟩
      show (e.shown t).leafAt? a = _
      rw [shown_leafAt before.windowed inside, hl, Option.map_some]
  | @advance t _ before inside live =>
      refine ⟨live, fun a atom hatom => ?_⟩
      obtain ⟨l, hl, hkept⟩ := h.kept a atom hatom
      obtain ⟨x, hturn⟩ : ∃ x, turnAt [] a e = some { l with inbox := x } :=
        exists_turnAt_of_leafAt hl
      have hlast : l.last ≤ t := le_trans (before.windowed.leafAt hl).1 inside.1
      refine ⟨_, ?_, Leaf.kept_moved (l := { l with inbox := x }) hkept hlast⟩
      show (e.moved t []).leafAt? a = _
      rw [moved_leafAt, hturn, Option.map_some]
  | refused => exact h

/-- **The diaries are kept up** as long as the client goes on. -/
theorem Begun.diarized (hc : Contract good) (ha : Attended ω good) (hm : m.Wired)
    (hg : m.AllGood good) {t₀ : Instant} {e : Engine τ (Journaled τ σ)}
    (h : e.Begun ω m.journaled t₀) : Diarized good m t₀ e := by
  induction h with
  | init hx w => exact diarized_init hc ha hm hg t₀ hx w
  | call w _ hd hinit ih => exact ih.perform hc ha hm hd hinit w
  | run _ ho ih =>
      refine run_keeps (fun e w he => step_keeps (fun e t w he => ?_) (fun e t w he => ?_) he w)
        ih ho
      · exact he.perform hc ha hm (c := .collect t) trivial (fun _ => nofun) w
      · exact he.perform hc ha hm (c := .advance t) trivial (fun _ => nofun) w

end Engine

/-! ## Crews -/

namespace Crew

/-- **What every step of a live crew keeps, every run keeps**, in whatever turns the workers
take, whatever the supervisor does and however the run ends. -/
theorem runOn_keeps [Supervisor π] (hc : Contract good) (ha : Attended ω good) (hm : m.Wired)
    {P : Crew τ σ → Prop} (hlive : ∀ c, P c → Live good m c)
    (hstep : ∀ c (routes : List Route), P c → routes.Perm c.routes → P (c.stepped c.next routes))
    {n : Nat} :
    ∀ {plan : Nat → Timetable} {s : Shift τ σ ω} {p : π} {o : Outcome (Crew τ σ × π) ω},
      P s.crew → s.failure = {} → s.minima.length = s.crew.workers →
      s.runOn n plan p = some o → P o.state.1 := by
  induction n with
  | zero => exact fun _ _ _ ho => nomatch ho
  | succ n ih =>
      intro plan s p o h hf hminima ho
      simp only [Shift.runOn] at ho
      -- The supervisor may fault before the step, or not take it, or fault after it.
      split at ho
      · cases ho
        exact h
      · split at ho
        · obtain ⟨x, minima, hx, hlength, heq⟩ := Live.stepOn hc ha hm
            (s := { s with
              world := s.world.heed (Supervisor.proceed s.crew.next s.world.interrupted p) })
            (hlive _ h) hf hminima (hlive _ h).window (le_refl _) (plan 0)
          have hnext := hstep s.crew x.routed h hx.routed
          have hworkers : (s.crew.stepped s.crew.next x.routed).workers = s.crew.workers := by
            rw [Crew.stepped, Crew.routed, deposited_eq]
            rfl
          rw [heq] at ho
          split at ho
          · cases ho
            exact hnext
          · split at ho
            · cases ho
              exact hnext
            · exact ih hnext rfl (hlength.trans hworkers.symm) ho
        · cases ho
          exact h

/-- **The states of a crew of `m` since its only initialization**, at `t₀` and with anything in
the inbox of the root. The client has given it messages and let it run under any supervisors,
the workers have taken turns as they like, and it has gone on when a run was broken off. -/
inductive Begun (ω : Type) [Observer ω] (m : Model τ σ) (wished : Nat) (t₀ : Instant) :
    Crew τ σ → Prop
  | init {x : Bags τ} (hx : x.Fits m.interface.inputs) (w : World ω) :
      Begun ω m wished t₀ (Crew.init t₀ { ofModel wished m with inbox := x } w).state
  | inject {c : Crew τ σ} {port : Port τ} (values : List (MessageType.Value port.type))
      (w : World ω) (h : Begun ω m wished t₀ c) (hd : port ∈ m.interface.inputs) :
      Begun ω m wished t₀ (c.inject port values w).state
  | run {π : Type} [Supervisor π] {c : Crew τ σ} {n : Nat} {plan : Nat → Timetable} {p : π}
      {w : World ω} {o : Outcome (Crew τ σ × π) ω} (h : Begun ω m wished t₀ c)
      (ho : c.runOn n plan p w = some o) : Begun ω m wished t₀ o.state.1

/-- A session is a course of this kind. -/
theorem InSession.begun {wished : Nat} {t₀ : Instant} {c : Crew τ σ}
    (h : c.InSession ω m wished t₀) : c.Begun ω m wished t₀ := by
  induction h with
  | init hx w => exact .init hx w
  | inject values w _ hd ih => exact .inject values w ih hd
  | runUntil _ ho ih =>
      obtain ⟨o', ho', rfl⟩ := Option.map_eq_some_iff.mp ho
      exact .run ih ho'

/-- Whatever the client does to the crew it can do to the one with journals. -/
theorem Begun.exists_journaled {wished : Nat} {t₀ : Instant} {c : Crew τ σ}
    (h : c.Begun ω m wished t₀) :
    ∃ c' : Crew τ (Journaled τ σ), c'.Begun ω m.journaled wished t₀ ∧
      c'.mapState Journaled.self = c := by
  induction h with
  | init hx w =>
      obtain ⟨c', h', hself⟩ := (InSession.init hx w).exists_journaled
      exact ⟨c', h'.begun, hself⟩
  | inject values w _ hd ih =>
      obtain ⟨c', h', rfl⟩ := ih
      refine ⟨_, h'.inject values w (by rw [Model.interface_journaled]; exact hd), ?_⟩
      rw [inject_mapState]
      rfl
  | run _ ho ih =>
      obtain ⟨c', h', rfl⟩ := ih
      rw [runOn_mapState faithful_self] at ho
      obtain ⟨o', ho', rfl⟩ := Option.map_eq_some_iff.mp ho
      exact ⟨_, h'.run ho', rfl⟩

/-- **The diaries of a live crew are kept up.** -/
structure Diarized (good : Interface τ → Stage → σ → Prop) (m : Model τ σ) (t₀ : Instant)
    (c : Crew τ (Journaled τ σ)) : Prop where
  live : Live (Journaled.Good good) m.journaled c
  kept : ∀ (i : Nat) (atom : Atomic τ σ), m.atoms[i]? = some atom →
    ∃ l, c.leaves[i]? = some l ∧ l.diary.Kept t₀

/-- The initialization begins the diaries. -/
theorem diarized_init (hc : Contract good) (ha : Attended ω good) (hm : m.Wired)
    (hg : m.AllGood good) (wished : Nat) (t₀ : Instant) {x : Bags τ}
    (hx : x.Fits m.journaled.interface.inputs) (w : World ω) :
    Diarized good m t₀ (Crew.init t₀ { ofModel wished m.journaled with inbox := x } w).state := by
  have hunder : Underway ω m.journaled wished t₀ [] _ := .init hx w
  refine ⟨hunder.live (Journaled.contract hc) (Journaled.attended ha) hm.journaled hg.journaled,
    fun i atom hatom => ?_⟩
  obtain ⟨d, hd, hconforms⟩ := hunder.conforms hc ha hm hg hatom
  obtain ⟨l, hl, rfl⟩ := Option.map_eq_some_iff.mp hd
  exact ⟨l, hl, hconforms.kept⟩

omit [Observer ω] in
/-- **A step keeps the diaries up**, whatever is routed to the leaves. -/
theorem Diarized.stepped (hc : Contract good) (hm : m.Wired) {t₀ : Instant}
    {c : Crew τ (Journaled τ σ)} (h : Diarized good m t₀ c) {routes : List Route}
    (hr : routes.Perm c.routes) : Diarized good m t₀ (c.stepped c.next routes) := by
  refine ⟨h.live.stepped (Journaled.contract hc) hm.journaled h.live.window (le_refl _) hr,
    fun i atom hatom => ?_⟩
  obtain ⟨l, hl, hkept⟩ := h.kept i atom hatom
  have hlast : (l.shown c.next).last ≤ c.next := by
    rw [l.toNode_shown]
    exact le_trans (h.live.last_le l (List.mem_of_getElem? hl)) h.live.window
  have hrouted : (c.routed c.next routes).leaves[i]?
      = some ((l.shown c.next).receive ((c.shown c.next).mailFor routes i)) := by
    rw [leaves_routed, List.getElem?_mapIdx, List.getElem?_map, hl, Option.map_some,
      Option.map_some]
  refine ⟨_, ?_, Leaf.kept_moved
    (l := (l.shown c.next).receive ((c.shown c.next).mailFor routes i))
    (Leaf.kept_shown hkept c.next) hlast⟩
  rw [Crew.stepped, List.getElem?_map, hrouted, Option.map_some]

/-- **The diaries are kept up** as long as the client goes on. -/
theorem Begun.diarized (hc : Contract good) (ha : Attended ω good) (hm : m.Wired)
    (hg : m.AllGood good) {wished : Nat} {t₀ : Instant} {c : Crew τ (Journaled τ σ)}
    (h : c.Begun ω m.journaled wished t₀) : Diarized good m t₀ c := by
  induction h with
  | init hx w => exact diarized_init hc ha hm hg wished t₀ hx w
  | @inject c port values w _ hd ih =>
      obtain ⟨i, hx, hfits⟩ := ih.live.sound.inbox.extend hm.journaled.distinct.inputs hd values
      simp only [Crew.inject, hx]
      exact ⟨ih.live.withInbox hfits, ih.kept⟩
  | run _ ho ih =>
      rw [Crew.runOn, if_pos ih.live.initialized] at ho
      exact runOn_keeps (Journaled.contract hc) (Journaled.attended ha) hm.journaled
        (fun _ h => h.live) (fun _ _ h hr => h.stepped hc hm hr) (s := .begin _ _) ih rfl
        List.length_replicate ho

end Crew

/-! ## Both engines of a model -/

/-- **The times that a model is told add up.** Take an accepted model of good atomic models, its
engine or its crew with any number of workers, initialized once at `t₀`. Let a client make any
calls after that, at any times, and let it run under any supervisors, with the workers taking
turns as they like. There is the same course with journals. At any point of it, and for every
atomic model, the elapsed times that its external transitions were told, together with the time
advances for which its internal transitions were waited, make up the time from `t₀` to the last
transition of its leaf, exactly. If the model has never announced an event, the elapsed times
do. -/
theorem elapsed_times_add_up (hacc : m.Accepted) (hc : Contract good) (ha : Attended ω good)
    (hg : m.AllGood good) (t₀ : Instant) :
    ((∀ e : Engine τ σ, e.Begun ω m t₀ → ∃ e' : Engine τ (Journaled τ σ),
        e'.Begun ω m.journaled t₀ ∧ e'.mapState Journaled.self = e) ∧
      ∀ e : Engine τ (Journaled τ σ), e.Begun ω m.journaled t₀ →
        ∀ (a : List Nat) (atom : Atomic τ σ), m.atomAt? a = some atom →
          ∃ l, e.leafAt? a = some l ∧ l.diary.AddsUp t₀) ∧
    ∀ wished : Nat,
      (∀ c : Crew τ σ, c.Begun ω m wished t₀ → ∃ c' : Crew τ (Journaled τ σ),
        c'.Begun ω m.journaled wished t₀ ∧ c'.mapState Journaled.self = c) ∧
      ∀ c : Crew τ (Journaled τ σ), c.Begun ω m.journaled wished t₀ →
        ∀ (i : Nat) (atom : Atomic τ σ), m.atoms[i]? = some atom →
          ∃ l, c.leaves[i]? = some l ∧ l.diary.AddsUp t₀ := by
  have hm := hacc.wired
  refine ⟨⟨fun e he => he.exists_journaled, fun e he a atom hatom => ?_⟩, fun wished =>
    ⟨fun c h => h.exists_journaled, fun c h i atom hatom => ?_⟩⟩
  · obtain ⟨l, hl, hkept⟩ := (he.diarized hc ha hm hg).kept a atom hatom
    exact ⟨l, hl, hkept.addsUp⟩
  · obtain ⟨l, hl, hkept⟩ := (h.diarized hc ha hm hg).kept i atom hatom
    exact ⟨l, hl, hkept.addsUp⟩

/-- An engine for the tower of doublers, with journals and with a message at the root, is
advanced before its first event, polled in vain and then run up to the fifth second; a crew of
two workers is only run. -/
theorem elapsed_times_add_up_tower :
    let w : World Unobserved := ⟨⟨⟩, false⟩
    let x := Bags.ofPorts Doubler.tower.interface.inputs
    let e := (((((Engine.ofModel Doubler.tower.journaled).withInbox x).init .epoch w).state.perform w
      (.inject Doubler.add [(5 : UInt64)])).state.perform w (.advance ⟨1, 0, by decide⟩)).state
    let polled := (e.perform w (.collect ⟨1, 5, by decide⟩)).state
    let c := ((Crew.init .epoch { Crew.ofModel 2 Doubler.tower.journaled with inbox := x }
      w).state.inject Doubler.add [(5 : UInt64)] w).state
    let limit : Until := ⟨⟨5, 0, by decide⟩⟩
    (Doubler.tower.Accepted ∧ Doubler.tower.AllGood Doubler.Good ∧
      polled.Begun Unobserved Doubler.tower.journaled .epoch ∧
      c.Begun Unobserved Doubler.tower.journaled 2 .epoch ∧
      (polled.run 9 limit w).isSome = true ∧ (c.runOn 9 (fun _ => {}) limit w).isSome = true) ∧
    (∀ o, polled.run 9 limit w = some o →
      ∀ (a : List Nat) (atom : Atomic Payload Doubler), Doubler.tower.atomAt? a = some atom →
        ∃ l, o.state.1.leafAt? a = some l ∧ l.diary.AddsUp .epoch) ∧
    ∀ (plan : Nat → Timetable) o, c.runOn 9 plan limit w = some o →
      ∀ (i : Nat) (atom : Atomic Payload Doubler), Doubler.tower.atoms[i]? = some atom →
        ∃ l, o.state.1.leaves[i]? = some l ∧ l.diary.AddsUp .epoch := by
  intro w x e polled c limit
  have hx : x.Fits Doubler.tower.journaled.interface.inputs := Bags.fits_ofPorts _
  have hinput : Doubler.add ∈ Doubler.tower.journaled.interface.inputs := List.mem_singleton_self _
  have he : polled.Begun Unobserved Doubler.tower.journaled .epoch :=
    .call w (.call w (.call w (.init hx w) hinput (fun _ => nofun)) trivial (fun _ => nofun))
      trivial (fun _ => nofun)
  have hcrew : c.Begun Unobserved Doubler.tower.journaled 2 .epoch := .inject _ w (.init hx w) hinput
  obtain ⟨⟨-, hengine⟩, hcrews⟩ := elapsed_times_add_up (ω := Unobserved)
    Doubler.accepted_tower Doubler.contract (attended_unobserved _) Doubler.allGood_tower .epoch
  exact ⟨⟨Doubler.accepted_tower, Doubler.allGood_tower, he, hcrew, by decide +kernel,
    by decide +kernel⟩, fun o ho => hengine _ (.run he ho),
    fun plan o ho => (hcrews 2).2 _ (.run hcrew ho)⟩

end DiscreteEvent
