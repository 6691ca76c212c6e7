/-
The calls that an atomic model sees, whichever engine it is in.

In a crew the workers call the leaves in an order that nobody knows, but each leaf makes
its block all the same: the outputs are shown in the first phase of a step, the messages
are routed in the second one, and what a leaf then finds in its inbox decides about its
turn in the third one. So a step of a crew is a round, as that of a tree is, and half of
it is over when the first phase is (`Live.round`).

`sessions_keep_protocol` is the result for both engines of a model.
-/
import DiscreteEvent.Proofs.Engine.Protocol
import DiscreteEvent.Proofs.Flat.Natural

set_option autoImplicit false

namespace DiscreteEvent

variable {τ σ ω : Type} [MessageType τ] [AtomicModel τ σ]

namespace Crew

omit [AtomicModel τ σ] in
/-- The diaries of a crew, by the numbers of the leaves. -/
def diaries (c : Crew τ (Journaled τ σ)) (i : Nat) : Option (Diary τ) :=
  c.leaves[i]?.map Leaf.diary

variable [Observer ω] {good : Interface τ → Stage → σ → Prop} {m : Model τ σ}

/-- **A step of a live crew is a round**, whatever turns the workers take. -/
theorem Live.round {good : Interface τ → Stage → Journaled τ σ → Prop}
    {m : Model τ (Journaled τ σ)} {s : Shift τ (Journaled τ σ) ω} (hc : Contract good)
    (ha : Attended ω good) (hm : m.Wired) (h : Live good m s.crew) (hf : s.failure = {})
    (hminima : s.minima.length = s.crew.workers) (hmax : s.crew.next ≠ .max)
    (table : Timetable) :
    Round s.crew.next s.crew.diaries
      (s.phase (Shift.collectScript s.crew.next) table.collect).crew.diaries
      (s.stepOn table s.crew.next).crew.diaries := by
  obtain ⟨_, _, -, hphase, -⟩ := h.phase_collect hc ha hm hf (le_refl _) table.collect
  obtain ⟨x, _, -, -, hstep⟩ := h.stepOn hc ha hm hf hminima h.window (le_refl _) table
  rw [hphase, hstep]
  intro i d hd
  obtain ⟨l, hl, rfl⟩ := Option.map_eq_some_iff.mp hd
  have hmem := List.mem_of_getElem? hl
  -- The leaf shows its output in the first phase, and moves on what is then routed to it.
  have hshown : (s.crew.shown s.crew.next).leaves[i]? = some (l.shown s.crew.next) := by
    rw [shown, List.getElem?_map, hl, Option.map_some]
  refine ⟨(l.shown s.crew.next).diary, _, ?_, ?_,
    Leaf.block (le_trans (h.last_le l hmem) h.window) (h.next_le hmem) hmax
      ((l.shown s.crew.next).receive
        ((s.crew.shown s.crew.next).mailFor x.routed i)).inbox⟩
  · exact congrArg (Option.map Leaf.diary) hshown
  · have hrouted : (s.crew.routed s.crew.next x.routed).leaves[i]?
        = some ((l.shown s.crew.next).receive
            ((s.crew.shown s.crew.next).mailFor x.routed i)) := by
      rw [leaves_routed, List.getElem?_mapIdx, List.getElem?_map, hl, Option.map_some,
        Option.map_some]
    rw [diaries, Crew.stepped, List.getElem?_map, hrouted, Option.map_some, Option.map_some]
    rfl

/-! ## Sessions of a crew -/

/-- **The states of a crew of `m` in a session that began at `t₀`**, between its runs. It has
been initialized once, with anything in the inbox of the root; since then messages have been
put there, and the crew has run up to one limit after another, in any order and in any
turns. -/
inductive InSession (ω : Type) [Observer ω] (m : Model τ σ) (wished : Nat) (t₀ : Instant) :
    Crew τ σ → Prop
  | init {x : Bags τ} (hx : x.Fits m.interface.inputs) (w : World ω) :
      InSession ω m wished t₀ (Crew.init t₀ { ofModel wished m with inbox := x } w).state
  | inject {c : Crew τ σ} {port : Port τ} (values : List (MessageType.Value port.type))
      (w : World ω) (h : InSession ω m wished t₀ c) (hd : port ∈ m.interface.inputs) :
      InSession ω m wished t₀ (c.inject port values w).state
  | runUntil {c : Crew τ σ} {n : Nat} {plan : Nat → Timetable} {limit : Instant} {w : World ω}
      {o : Outcome (Crew τ σ) ω} (h : InSession ω m wished t₀ c)
      (ho : c.runUntilOn n plan limit w = some o) : InSession ω m wished t₀ o.state

/-- **The states of a crew of `m` in a session, also in the middle of its runs**, with the
times of the steps that have been taken. -/
inductive Underway (ω : Type) [Observer ω] (m : Model τ σ) (wished : Nat) (t₀ : Instant) :
    List Instant → Crew τ σ → Prop
  | init {x : Bags τ} (hx : x.Fits m.interface.inputs) (w : World ω) :
      Underway ω m wished t₀ [] (Crew.init t₀ { ofModel wished m with inbox := x } w).state
  | inject {times : List Instant} {c : Crew τ σ} {port : Port τ}
      (values : List (MessageType.Value port.type)) (w : World ω)
      (h : Underway ω m wished t₀ times c) (hd : port ∈ m.interface.inputs) :
      Underway ω m wished t₀ times (c.inject port values w).state
  | step {times : List Instant} {s : Shift τ σ ω} (table : Timetable)
      (h : Underway ω m wished t₀ times s.crew) (hf : s.failure = {})
      (hminima : s.minima.length = s.crew.workers) (hmax : s.crew.next ≠ .max) :
      Underway ω m wished t₀ (times ++ [s.crew.next]) (s.stepOn table s.crew.next).crew

/-- A crew in a session is live. -/
theorem Underway.live (hc : Contract good) (ha : Attended ω good) (hm : m.Wired)
    (hg : m.AllGood good) {wished : Nat} {t₀ : Instant} {times : List Instant} {c : Crew τ σ}
    (h : c.Underway ω m wished t₀ times) : Live good m c := by
  induction h with
  | init hx w =>
      obtain ⟨heq, hlive⟩ := ((sound_ofModel hm hg wished).withInbox hx).init hc ha t₀ w
      rw [heq]
      exact hlive
  | @inject _ c port values w _ hd ih =>
      obtain ⟨i, hx, hfits⟩ := ih.sound.inbox.extend hm.distinct.inputs hd values
      simp only [Crew.inject, hx]
      exact ih.withInbox hfits
  | step table _ hf hminima _ ih =>
      obtain ⟨x, _, hx, -, hstep⟩ := ih.stepOn hc ha hm hf hminima ih.window (le_refl _) table
      rw [hstep]
      exact ih.stepped hc hm ih.window (le_refl _) hx.routed

/-- A run up to a limit is made of steps. -/
theorem Underway.run (hc : Contract good) (ha : Attended ω good) (hm : m.Wired)
    (hg : m.AllGood good) {wished : Nat} {t₀ : Instant} {n : Nat} :
    ∀ {plan : Nat → Timetable} {times : List Instant} {s : Shift τ σ ω} {p : Until}
      {o : Outcome (Crew τ σ × Until) ω}, s.crew.Underway ω m wished t₀ times →
      s.failure = {} → s.minima.length = s.crew.workers → s.runOn n plan p = some o →
      ∃ times, o.state.1.Underway ω m wished t₀ times := by
  -- By induction on the steps; between them no worker has failed, and each has a minimum.
  induction n with
  | zero => exact fun _ _ _ ho => nomatch ho
  | succ n ih =>
      intro plan times s p o h hf hminima ho
      simp only [Shift.runOn, calm_until.proceed, calm_until.completed] at ho
      split at ho
      · rename_i hgo
        have hlive := h.live hc ha hm hg
        -- The supervisor was asked before the step.
        let s' : Shift τ σ ω := { s with
          world := s.world.heed (Supervisor.proceed s.crew.next s.world.interrupted p) }
        have hnext := Underway.step (s := s') (plan 0) h hf hminima (Until.ne_max hgo)
        obtain ⟨x, minima, -, hlength, hstep⟩ := Live.stepOn (s := s') hc ha hm hlive hf hminima
          hlive.window (le_refl _) (plan 0)
        rw [hstep] at ho hnext
        have hworkers : (s.crew.stepped s.crew.next x.routed).workers = s.crew.workers := by
          rw [Crew.stepped, Crew.routed, deposited_eq]
          rfl
        exact ih hnext rfl (hlength.trans hworkers.symm) ho
      · cases ho
        exact ⟨times, h⟩

theorem InSession.underway (hc : Contract good) (ha : Attended ω good) (hm : m.Wired)
    (hg : m.AllGood good) {wished : Nat} {t₀ : Instant} {c : Crew τ σ}
    (h : c.InSession ω m wished t₀) : ∃ times, c.Underway ω m wished t₀ times := by
  induction h with
  | init hx w => exact ⟨[], .init hx w⟩
  | inject values w _ hd ih =>
      obtain ⟨times, h⟩ := ih
      exact ⟨times, h.inject values w hd⟩
  | @runUntil c n plan limit w _ _ ho ih =>
      obtain ⟨times, h⟩ := ih
      obtain ⟨o', ho', rfl⟩ := Option.map_eq_some_iff.mp ho
      rw [Crew.runOn, if_pos (h.live hc ha hm hg).initialized] at ho'
      exact Underway.run (s := .begin c w) hc ha hm hg h rfl List.length_replicate ho'

/-- **A session with journals.** Whatever session there is of a crew, there is one with
journals that takes the same course. -/
theorem InSession.exists_journaled {wished : Nat} {t₀ : Instant} {c : Crew τ σ}
    (h : c.InSession ω m wished t₀) :
    ∃ c' : Crew τ (Journaled τ σ), c'.InSession ω m.journaled wished t₀ ∧
      c'.mapState Journaled.self = c := by
  induction h with
  | @init x hx w =>
      have hplain : mapState Journaled.self { ofModel wished m.journaled with inbox := x }
          = { ofModel wished m with inbox := x } :=
        congrArg (fun c : Crew τ σ => { c with inbox := x }) (plain_ofModel wished m)
      refine ⟨_, .init (by rw [Model.interface_journaled]; exact hx) w, ?_⟩
      rw [← hplain, init_mapState faithful_self]
      rfl
  | inject values w _ hd ih =>
      obtain ⟨c', h', rfl⟩ := ih
      refine ⟨_, h'.inject values w (by rw [Model.interface_journaled]; exact hd), ?_⟩
      rw [inject_mapState]
      rfl
  | runUntil _ ho ih =>
      obtain ⟨c', h', rfl⟩ := ih
      obtain ⟨o₁, ho₁, rfl⟩ := Option.map_eq_some_iff.mp ho
      rw [runOn_mapState faithful_self] at ho₁
      obtain ⟨o', ho', rfl⟩ := Option.map_eq_some_iff.mp ho₁
      exact ⟨_, h'.runUntil (Option.map_eq_some_iff.mpr ⟨o', ho', rfl⟩), rfl⟩

/-- **Every step in a session is a round.** -/
theorem Underway.round (hc : Contract good) (ha : Attended ω good) (hm : m.Wired)
    (hg : m.AllGood good) {wished : Nat} {t₀ : Instant} {times : List Instant}
    {s : Shift τ (Journaled τ σ) ω} (h : s.crew.Underway ω m.journaled wished t₀ times)
    (hf : s.failure = {}) (hminima : s.minima.length = s.crew.workers)
    (hmax : s.crew.next ≠ .max) (table : Timetable) :
    Round s.crew.next s.crew.diaries
      (s.phase (Shift.collectScript s.crew.next) table.collect).crew.diaries
      (s.stepOn table s.crew.next).crew.diaries :=
  (h.live (Journaled.contract hc) (Journaled.attended ha) hm.journaled hg.journaled).round
    (Journaled.contract hc) (Journaled.attended ha) hm.journaled hf hminima hmax table

/-- **Every diary is one of a life by the protocol.** -/
theorem Underway.conforms (hc : Contract good) (ha : Attended ω good) (hm : m.Wired)
    (hg : m.AllGood good) {wished : Nat} {t₀ : Instant} {times : List Instant}
    {c : Crew τ (Journaled τ σ)} (h : c.Underway ω m.journaled wished t₀ times) {i : Nat}
    {atom : Atomic τ σ} (hatom : m.atoms[i]? = some atom) :
    ∃ d, c.diaries i = some d ∧ d.Conforms t₀ times := by
  induction h with
  | @init x hx w =>
      have hat : m.journaled.atoms[i]? = some (atom.mapState fun s => ⟨s, []⟩) := by
        rw [Model.journaled, Model.atoms_mapState, List.getElem?_map, hatom, Option.map_some]
      obtain ⟨l, hl, hsound⟩ :=
        (sound_ofModel hm.journaled (Model.blank_journaled m) wished).exists_leaf hat
      obtain ⟨-, hblank⟩ := hsound.exists_good
      obtain ⟨heq, -⟩ := ((sound_ofModel hm.journaled hg.journaled wished).withInbox hx).init
        (Journaled.contract hc) (Journaled.attended ha) t₀ w
      -- The inbox of the root is not one of the leaves, so these start as they were made.
      refine ⟨_, ?_, Leaf.conforms_started hblank t₀⟩
      rw [heq, Outcome.done, diaries, started, List.getElem?_map]
      show (((ofModel wished m.journaled).leaves[i]?).map _).map _ = _
      rw [hl]
      rfl
  | @inject _ c port values w _ _ ih =>
      rw [Crew.inject]
      split
      · exact ih
      · exact ih
  | step table h hf hminima hmax ih =>
      exact (h.round hc ha hm hg hf hminima hmax table).conforms ih

end Crew

/-! ## Both engines of a model -/

variable [Observer ω] {good : Interface τ → Stage → σ → Prop} {m : Model τ σ}

/-- **The engines keep to the protocol of atomic models.** Take an accepted model of good
atomic models, and any session of its engine, or of its crew with any number of workers
and in whatever turns these work. There is the same session with journals. Between two
runs of it, every atomic model has the journal of a life by the protocol: after the question
for the time advance at the beginning there is nothing but one block after another, at
the times of the steps. And every step of it is a round: halfway, when the outputs have been
collected, no model has made its transition yet. -/
theorem sessions_keep_protocol (hacc : m.Accepted) (hc : Contract good) (ha : Attended ω good)
    (hg : m.AllGood good) (t₀ : Instant) :
    ((∀ e : Engine τ σ, e.InSession ω m t₀ → ∃ e' : Engine τ (Journaled τ σ),
        e'.InSession ω m.journaled t₀ ∧ e'.mapState Journaled.self = e) ∧
      (∀ e : Engine τ (Journaled τ σ), e.InSession ω m.journaled t₀ →
        ∃ times, e.Underway ω m.journaled t₀ times ∧
          ∀ (a : List Nat) (atom : Atomic τ σ), m.atomAt? a = some atom →
            ∃ d, e.diaries a = some d ∧ d.Conforms t₀ times) ∧
      ∀ (e : Engine τ (Journaled τ σ)) (times : List Instant),
        e.Underway ω m.journaled t₀ times → e.next ≠ .max → ∀ w : World ω,
          Round e.next e.diaries (e.collect e.next w).state.diaries (e.step w).state.diaries) ∧
    ∀ wished : Nat,
      (∀ c : Crew τ σ, c.InSession ω m wished t₀ → ∃ c' : Crew τ (Journaled τ σ),
        c'.InSession ω m.journaled wished t₀ ∧ c'.mapState Journaled.self = c) ∧
      (∀ c : Crew τ (Journaled τ σ), c.InSession ω m.journaled wished t₀ →
        ∃ times, c.Underway ω m.journaled wished t₀ times ∧
          ∀ (i : Nat) (atom : Atomic τ σ), m.atoms[i]? = some atom →
            ∃ d, c.diaries i = some d ∧ d.Conforms t₀ times) ∧
      ∀ (s : Shift τ (Journaled τ σ) ω) (times : List Instant),
        s.crew.Underway ω m.journaled wished t₀ times → s.failure = {} →
        s.minima.length = s.crew.workers → s.crew.next ≠ .max → ∀ table : Timetable,
          Round s.crew.next s.crew.diaries
            (s.phase (Shift.collectScript s.crew.next) table.collect).crew.diaries
            (s.stepOn table s.crew.next).crew.diaries := by
  have hm := hacc.wired
  refine ⟨⟨fun e he => he.exists_journaled, fun e he => ?_,
    fun e times he hmax w => he.round hc ha hm hg hmax w⟩, fun wished =>
    ⟨fun c h => h.exists_journaled, fun c h => ?_,
      fun s times h hf hminima hmax table => h.round hc ha hm hg hf hminima hmax table⟩⟩
  · obtain ⟨times, hunder⟩ := he.underway
    exact ⟨times, hunder, fun a atom hatom => hunder.conforms hc ha hm hg hatom⟩
  · obtain ⟨times, hunder⟩ := h.underway (Journaled.contract hc) (Journaled.attended ha)
      hm.journaled hg.journaled
    exact ⟨times, hunder, fun i atom hatom => hunder.conforms hc ha hm hg hatom⟩

/-- An engine and a crew of two workers for the tower of doublers, with journals and with a
message at the root, run through all events before the fifth second. -/
theorem sessions_keep_protocol_tower :
    let w : World Unobserved := ⟨⟨⟩, false⟩
    let x := Bags.ofPorts Doubler.tower.interface.inputs
    let e := ((((Engine.ofModel Doubler.tower.journaled).withInbox x).init .epoch w).state.perform w
      (.inject Doubler.add [(5 : UInt64)])).state
    let c := ((Crew.init .epoch { Crew.ofModel 2 Doubler.tower.journaled with inbox := x }
      w).state.inject Doubler.add [(5 : UInt64)] w).state
    let limit : Instant := ⟨5, 0, by decide⟩
    (Doubler.tower.Accepted ∧ Doubler.tower.AllGood Doubler.Good ∧
      e.InSession Unobserved Doubler.tower.journaled .epoch ∧
      c.InSession Unobserved Doubler.tower.journaled 2 .epoch ∧
      (e.runUntil 9 limit w).isSome = true ∧ (c.runUntilOn 9 (fun _ => {}) limit w).isSome = true) ∧
    (∀ o, e.runUntil 9 limit w = some o →
      ∃ times, o.state.Underway Unobserved Doubler.tower.journaled .epoch times ∧
        ∀ (a : List Nat) (atom : Atomic Payload Doubler), Doubler.tower.atomAt? a = some atom →
          ∃ d, o.state.diaries a = some d ∧ d.Conforms .epoch times) ∧
    ∀ (plan : Nat → Timetable) o, c.runUntilOn 9 plan limit w = some o →
      ∃ times, o.state.Underway Unobserved Doubler.tower.journaled 2 .epoch times ∧
        ∀ (i : Nat) (atom : Atomic Payload Doubler), Doubler.tower.atoms[i]? = some atom →
          ∃ d, o.state.diaries i = some d ∧ d.Conforms .epoch times := by
  intro w x e c limit
  have hx : x.Fits Doubler.tower.journaled.interface.inputs := Bags.fits_ofPorts _
  have he : e.InSession Unobserved Doubler.tower.journaled .epoch :=
    .inject _ w (.init hx w) (List.mem_singleton_self _)
  have hcrew : c.InSession Unobserved Doubler.tower.journaled 2 .epoch :=
    .inject _ w (.init hx w) (List.mem_singleton_self _)
  obtain ⟨⟨-, hengine, -⟩, hcrews⟩ := sessions_keep_protocol (ω := Unobserved)
    Doubler.accepted_tower Doubler.contract (attended_unobserved _) Doubler.allGood_tower .epoch
  exact ⟨⟨Doubler.accepted_tower, Doubler.allGood_tower, he, hcrew, by decide +kernel,
    by decide +kernel⟩, fun o ho => hengine _ (.runUntil he ho),
    fun plan o ho => (hcrews 2).2.1 _ (.runUntil hcrew ho)⟩

end DiscreteEvent
