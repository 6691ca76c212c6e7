/-
Runs of both engines, side by side.

An engine tree and a crew of the same model are initialized at the same time, get the
same messages between their runs, and run under the same supervisors: they are kept
`Abreast`. Then each run of the one comes to its end when that of the other does, after
the same calls of the supervisor, and leaves the same times and the same leaves; and what
is reported is alike. The workers of the crew may take turns as they like, in every step
anew.

A run is an induction over its decisions (`Twin.runOn`). At each of them the two are
twins, so the supervisor is asked about the same time; a step leads from twins to twins
(`Twin.stepped`) and is reported alike (`Twin.step_alike`). At the last instant there is
no step, because no supervisor takes one there.
-/
import DiscreteEvent.Execution.Pacer
import DiscreteEvent.Proofs.Flat.Reports

set_option autoImplicit false

namespace DiscreteEvent

variable {τ σ ω π : Type} [MessageType τ]

/-! ## Supervisors -/

/-- A supervisor that takes no step at the last instant. -/
structure Supervisor.Halting (π : Type) [Supervisor π] : Prop where
  halt : ∀ (interrupted : Bool) (p : π),
    (Supervisor.proceed Instant.max interrupted p).answer = false

theorem halting_until : Supervisor.Halting Until where
  halt _ p := decide_eq_false (not_lt.mpr p.limit.le_max)

theorem halting_pacer {κ ρ : Type} [Clock κ] [Progress ρ] : Supervisor.Halting (Pacer κ ρ) where
  halt interrupted p := by
    have hrange : p.outOfRange .max = true := by
      rw [Pacer.outOfRange, (Instant.isInfinite_iff _).mpr rfl, Bool.or_true, Bool.true_or]
    show (Pacer.proceed .max interrupted p).answer = false
    rw [Pacer.proceed, if_pos hrange]

/-- What a supervisor is told. -/
inductive Inquiry
  | proceed (next : Instant)
  | completed (t : Instant)
deriving DecidableEq

/-- **A supervisor that takes minutes** of all it is told. -/
structure Minuted (π : Type) where
  self : π
  minutes : List Inquiry := []

namespace Minuted

instance [Supervisor π] : Supervisor (Minuted π) where
  proceed next interrupted p :=
    (Supervisor.proceed next interrupted p.self).mapState
      fun q => ⟨q, p.minutes ++ [.proceed next]⟩
  completed t p :=
    (Supervisor.completed t p.self).mapState fun q => ⟨q, p.minutes ++ [.completed t]⟩

variable [Supervisor π]

@[simp] theorem proceed_eq (next : Instant) (interrupted : Bool) (p : Minuted π) :
    Supervisor.proceed next interrupted p
      = (Supervisor.proceed next interrupted p.self).mapState
          fun q => ⟨q, p.minutes ++ [.proceed next]⟩ := rfl

@[simp] theorem completed_eq (t : Instant) (p : Minuted π) :
    Supervisor.completed t p
      = (Supervisor.completed t p.self).mapState fun q => ⟨q, p.minutes ++ [.completed t]⟩ := rfl

theorem calm (h : Supervisor.Calm π) : Supervisor.Calm (Minuted π) where
  proceed t interrupted p := h.proceed t interrupted p.self
  completed t p := h.completed t p.self

theorem halting (h : Supervisor.Halting π) : Supervisor.Halting (Minuted π) where
  halt interrupted p := h.halt interrupted p.self

end Minuted

namespace Reply

variable {σ σ' α : Type} (f : σ → σ') (r : Reply σ α)

@[simp] theorem state_mapState : (r.mapState f).state = f r.state := rfl

@[simp] theorem answer_mapState : (r.mapState f).answer = r.answer := rfl

@[simp] theorem fault_mapState : (r.mapState f).fault = r.fault := rfl

@[simp] theorem interrupts_mapState : (r.mapState f).interrupts = r.interrupts := rfl

end Reply

@[simp] theorem World.heed_mapState {σ σ' α : Type} (w : World ω) (f : σ → σ') (r : Reply σ α) :
    w.heed (r.mapState f) = w.heed r := rfl

/-- **One supervisor, seen as another one**: it is asked the same, and answers the same. -/
structure Supervisor.Mirrors {π' : Type} [Supervisor π] [Supervisor π'] (f : π → π') : Prop where
  proceed : ∀ (t : Instant) (interrupted : Bool) (p : π),
    Supervisor.proceed t interrupted (f p) = (Supervisor.proceed t interrupted p).mapState f
  completed : ∀ (t : Instant) (p : π),
    Supervisor.completed t (f p) = (Supervisor.completed t p).mapState f

theorem Minuted.mirrors_self [Supervisor π] : Supervisor.Mirrors (self : Minuted π → π) where
  proceed _ _ _ := rfl
  completed _ _ := rfl

/-- An outcome, with the supervisor seen as another one. -/
def Outcome.mirror {ε π' : Type} (f : π → π') (o : Outcome (ε × π) ω) : Outcome (ε × π') ω :=
  o.map fun x => (x.1, f x.2)

/-- An outcome under a supervisor that takes minutes, without the minutes. -/
def Outcome.plain {ε : Type} (o : Outcome (ε × Minuted π) ω) : Outcome (ε × π) ω :=
  o.map fun x => (x.1, x.2.self)

section Mirrors

variable {π' : Type} [AtomicModel τ σ] [Observer ω] [Supervisor π] [Supervisor π'] {f : π → π'}

/-- **Seeing the supervisor as another one changes nothing** of a run of a tree. -/
theorem Engine.run_mirror (hf : Supervisor.Mirrors f) {n : Nat} :
    ∀ {e : Engine τ σ} {p : π} {w : World ω},
      (e.run n p w).map (Outcome.mirror f) = e.run n (f p) w := by
  induction n with
  | zero => exact rfl
  | succ n ih =>
      intro e p w
      -- Both supervisors answer the same, and so the runs take the same branches.
      simp only [Engine.run, hf.proceed, hf.completed, Reply.state_mapState,
        Reply.answer_mapState, Reply.fault_mapState, World.heed_mapState]
      split
      · rfl
      · by_cases ha : (Supervisor.proceed e.next w.interrupted p).answer = true
        · simp only [ha, if_true]
          split
          · rfl
          · split
            · rfl
            · exact ih
        · simp only [ha, Bool.false_eq_true, if_false]
          rfl

/-- **Seeing the supervisor as another one changes nothing** of a run of a crew. -/
theorem Shift.runOn_mirror (hf : Supervisor.Mirrors f) {n : Nat} :
    ∀ {plan : Nat → Timetable} {s : Shift τ σ ω} {p : π},
      (s.runOn n plan p).map (Outcome.mirror f) = s.runOn n plan (f p) := by
  induction n with
  | zero => exact rfl
  | succ n ih =>
      intro plan s p
      simp only [Shift.runOn, hf.proceed, hf.completed, Reply.state_mapState,
        Reply.answer_mapState, Reply.fault_mapState, World.heed_mapState]
      split
      · rfl
      · by_cases ha : (Supervisor.proceed s.crew.next s.world.interrupted p).answer = true
        · simp only [ha, if_true]
          by_cases hs : (Shift.stepOn (plan 0) s.crew.next { s with
              world := s.world.heed
                (Supervisor.proceed s.crew.next s.world.interrupted p) }).failure.isSet = true
          · simp only [hs, if_true]
            rfl
          · simp only [hs, Bool.false_eq_true, if_false]
            split
            · rfl
            · exact ih
        · simp only [ha, Bool.false_eq_true, if_false]
          rfl

theorem Crew.runOn_mirror (hf : Supervisor.Mirrors f) {n : Nat} {plan : Nat → Timetable}
    {c : Crew τ σ} {p : π} {w : World ω} :
    (c.runOn n plan p w).map (Outcome.mirror f) = c.runOn n plan (f p) w := by
  rw [Crew.runOn, Crew.runOn]
  split
  · exact Shift.runOn_mirror hf
  · rfl

/-- **Taking minutes changes nothing** of a run of a tree. -/
theorem Engine.run_minuted {n : Nat} {e : Engine τ σ} {p : Minuted π} {w : World ω} :
    (e.run n p w).map Outcome.plain = e.run n p.self w :=
  run_mirror Minuted.mirrors_self

/-- **Taking minutes changes nothing** of a run of a crew. -/
theorem Crew.runOn_minuted {n : Nat} {plan : Nat → Timetable} {c : Crew τ σ} {p : Minuted π}
    {w : World ω} : (c.runOn n plan p w).map Outcome.plain = c.runOn n plan p.self w :=
  runOn_mirror Minuted.mirrors_self

end Mirrors

/-- Whatever one relation implies of two results. -/
theorem option_rel_imp {α β : Type} {R S : α → β → Prop} {x : Option α} {y : Option β}
    (h : Option.Rel R x y) (hRS : ∀ a b, R a b → S a b) : Option.Rel S x y := by
  cases h with
  | some hab => exact .some (hRS _ _ hab)
  | none => exact .none

namespace Twin

variable {good : Interface τ → Stage → σ → Prop} {m : Model τ σ} {e : Engine τ σ} {c : Crew τ σ}

/-- What waits at the root does not matter to twins. -/
theorem withInbox (h : Twin good m e c) {inbox : Bags τ} (hin : inbox.Fits m.interface.inputs) :
    Twin good m e { c with inbox := inbox } :=
  ⟨h.engine, h.quiet, h.crew.withInbox hin, h.outbox, h.last_eq, h.path_eq, h.leaves_eq⟩

/-- When nothing waits at the root, the tree is as it is. -/
theorem withInbox_of_isEmpty (h : Twin good m e c) (hin : c.inbox.isEmpty = true) :
    e.withInbox c.inbox = e := by
  have hnone : e.node.inbox = c.inbox :=
    (h.engine.sound.inbox.eq_ofPorts h.quiet.inbox).trans
      (h.crew.sound.inbox.eq_ofPorts hin).symm
  rw [← hnone, Engine.withInbox_self]

variable [AtomicModel τ σ]

/-- After a step nothing waits at the root. -/
theorem isEmpty_stepped (hc : Contract good) (hm : m.Wired) (h : Twin good m e c)
    {routes : List Route} (hr : routes.Perm c.routes) :
    (c.stepped c.next routes).inbox.isEmpty = true := by
  have hclear : (c.stepped c.next routes).inbox = (c.routed c.next routes).inbox.clear := rfl
  rw [hclear, (h.crew.sound_routed hc hm (le_refl _) hr).inbox.clear, Bags.isEmpty_ofPorts]

variable [Observer ω]

/-- **A step of the tree** of twins, with what waits at the root in its inbox. -/
theorem engine_step (hc : Contract good) (ha : Attended ω good) (hm : m.Wired)
    (h : Twin good m e c) (w : World ω) :
    (e.withInbox c.inbox).step w
      = .done ((e.shown c.next).moved c.next c.inbox.asMail)
          (w.after ((e.withInbox c.inbox).showEffect c.next ++
            ((e.shown c.next).withInbox c.inbox).moveEffect c.next [])) := by
  have hnext : (e.withInbox c.inbox).next = c.next := by
    rw [Engine.next_withInbox, h.next_eq]
  have hl : e.last ≤ c.next := h.last_eq ▸ h.crew.window
  obtain ⟨hcollect, hadvance, -⟩ := h.engine.collect_advance hc ha hm h.quiet h.crew.sound.inbox
    hl (le_of_eq h.next_eq) w (w.after ((e.withInbox c.inbox).showEffect c.next))
  rw [Engine.step, hnext, hcollect, Outcome.andThen_done, hadvance, World.after_append]

end Twin

/-! ## Runs -/

/-- **The same position of a tree and of a crew** of `m`: both have the same times, and so
has every leaf, in the same state. -/
structure Agree (m : Model τ σ) (e : Engine τ σ) (c : Crew τ σ) : Prop where
  last_eq : e.last = c.last
  next_eq : e.next = c.next
  leaf : ∀ {a : List Nat} {atom : Atomic τ σ}, m.atomAt? a = some atom →
    ∃ cell, e.cells a = some cell ∧ c.leaves[m.number a]?.map Leaf.cell = some cell

/-- **The same end of two runs**, of a tree and of a crew. Both have come to their end, in
the same position and with their supervisors in the same state, and what they have
reported is alike. -/
structure SameEnd [Observer ω] (m : Model τ σ) (e : Engine τ σ) (c : Crew τ σ) (w w' : World ω)
    (o : Outcome (Engine τ σ × π) ω) (o' : Outcome (Crew τ σ × π) ω) : Prop where
  stop : o.stop = none
  stop' : o'.stop = none
  agree : Agree m o.state.1 o'.state.1
  supervisor : o.state.2 = o'.state.2
  reports : ∃ x y : Effect, o.world = w.after x ∧ o'.world = w'.after y ∧
    x.Alike m (fun a => e.pathAt? a) c.pathAt? y

namespace Twin

variable {good : Interface τ → Stage → σ → Prop} {m : Model τ σ} {e : Engine τ σ} {c : Crew τ σ}
variable [AtomicModel τ σ] [Observer ω] [Supervisor π]

omit [AtomicModel τ σ] [Supervisor π] in
/-- Twins are in the same position. -/
theorem agree (h : Twin good m e c) : Agree m (e.withInbox c.inbox) c := by
  refine ⟨?_, ?_, fun {a atom} ha => ?_⟩
  · rw [Engine.last_withInbox, h.last_eq]
  · rw [Engine.next_withInbox, h.next_eq]
  · obtain ⟨l, hl, hcl, -⟩ := h.exists_leaf ha
    refine ⟨l.cell, ?_, by rw [hcl]; rfl⟩
    rw [Engine.cells_withInbox, Engine.cells, hl]
    rfl

/-- The ends of two runs that leave twins. -/
def Ends (good : Interface τ → Stage → σ → Prop) (m : Model τ σ) (e : Engine τ σ)
    (c : Crew τ σ) (w w' : World ω) (o : Outcome (Engine τ σ × π) ω)
    (o' : Outcome (Crew τ σ × π) ω) : Prop :=
  SameEnd m e c w w' o o' ∧
    ∃ e', Twin good m e' o'.state.1 ∧ o.state.1 = e'.withInbox o'.state.1.inbox

omit [AtomicModel τ σ] [Supervisor π] in
/-- What has happened before a run that leaves twins. -/
theorem Ends.after {e₁ : Engine τ σ} {c₁ : Crew τ σ} {w w' : World ω} {x y : Effect}
    {o : Outcome (Engine τ σ × π) ω} {o' : Outcome (Crew τ σ × π) ω}
    (h : Ends good m e₁ c₁ (w.after x) (w'.after y) o o')
    (hxy : x.Alike m (fun a => e.pathAt? a) c.pathAt? y)
    (he : ∀ a, e₁.pathAt? a = e.pathAt? a) (hc : ∀ b, c₁.pathAt? b = c.pathAt? b) :
    Ends good m e c w w' o o' := by
  obtain ⟨⟨hstop, hstop', hagree, hsup, x', y', hx, hy, halike⟩, htwin⟩ := h
  rw [funext he, funext hc] at halike
  rw [← World.after_append] at hx hy
  exact ⟨⟨hstop, hstop', hagree, hsup, _, _, hx, hy, hxy.append halike⟩, htwin⟩

omit [AtomicModel τ σ] [Supervisor π] in
/-- The reports do not depend on what waits at the root. -/
theorem Ends.withInbox {w w' : World ω} {o : Outcome (Engine τ σ × π) ω}
    {o' : Outcome (Crew τ σ × π) ω} (h : Ends good m e c w w' o o') (x : Bags τ) :
    Ends good m (e.withInbox x) c w w' o o' := by
  obtain ⟨⟨hstop, hstop', hagree, hsup, y, y', hy, hy', halike⟩, htwin⟩ := h
  rw [← funext (Engine.pathAt_withInbox x e)] at halike
  exact ⟨⟨hstop, hstop', hagree, hsup, y, y', hy, hy', halike⟩, htwin⟩

/-- **A run of twins.** Both come to an end within the same number of decisions, or
neither does. -/
theorem runOn (hc : Contract good) (ho : OrderFree good) (ha : Attended ω good) (hm : m.Wired)
    (hp : Supervisor.Calm π) (hh : Supervisor.Halting π) {n : Nat} :
    ∀ {plan : Nat → Timetable} {e : Engine τ σ} {s : Shift τ σ ω} {p : π} {w : World ω},
      Twin good m e s.crew → s.failure = {} → s.minima.length = s.crew.workers →
      w.interrupted = s.world.interrupted →
      Option.Rel (Ends good m e s.crew w s.world) ((e.withInbox s.crew.inbox).run n p w)
        (s.runOn n plan p) := by
  induction n with
  | zero => exact fun _ _ _ _ => .none
  | succ n ih =>
      intro plan e s p w h hf hminima hw
      have hnext : (e.withInbox s.crew.inbox).next = s.crew.next := by
        rw [Engine.next_withInbox, h.next_eq]
      simp only [Engine.run, Shift.runOn, hp.proceed, hp.completed, hnext, hw,
        World.heed_eq_after]
      generalize hd : Supervisor.proceed s.crew.next s.world.interrupted p = decision
      by_cases hgo : decision.answer = true
      · -- The step is taken, so there is time left for it.
        have hmax : s.crew.next ≠ .max := by
          intro hmax
          have hhalt := hh.halt s.world.interrupted p
          rw [← hmax, hd, hgo] at hhalt
          cases hhalt
        obtain ⟨x, minima, hx, hlength, hstep⟩ := Crew.Live.stepOn hc ha hm
          (s := { s with world := s.world.after (.ofReply decision) })
          h.crew hf hminima h.crew.window (le_refl _) (plan 0)
        have hengine := h.engine_step hc ha hm (w.after (.ofReply decision))
        have htwin := h.stepped hc ho hm hmax hx.routed
        have hset : ({} : Failure).isSet = false := rfl
        simp only [hgo, if_true, hstep, hengine, Outcome.done, hset, Bool.false_eq_true, if_false]
        generalize Supervisor.completed s.crew.next decision.state = note
        -- What was said and done up to the next decision.
        have hsofar := ((Effect.alike_ofReply decision).append
          (h.step_alike hc ho hm hmax hx)).append (Effect.alike_ofReply note)
        have hworkers : (s.crew.stepped s.crew.next x.routed).workers = s.crew.workers := by
          rw [Crew.stepped, Crew.routed, Crew.deposited_eq]
          rfl
        have hrest := @ih (fun n => plan (n + 1)) _
          ⟨s.crew.stepped s.crew.next x.routed, s.world.after _, minima, {}⟩ note.state (w.after _)
          htwin rfl (hlength.trans hworkers.symm) (congrArg₂ or hw hsofar.interrupts)
        rw [htwin.withInbox_of_isEmpty (h.isEmpty_stepped hc hm hx.routed)] at hrest
        simp only [← World.after_append]
        exact option_rel_imp hrest fun _ _ hends => hends.after hsofar
          (fun a => by rw [Engine.pathAt_moved, Engine.pathAt_shown]) (Crew.pathAt_stepped _ _ _)
      · simp only [hgo, Bool.false_eq_true, if_false]
        exact .some ⟨⟨rfl, rfl, h.agree, rfl, _, _, rfl, rfl, Effect.alike_ofReply decision⟩, e, h, rfl⟩

/-- **A run of an engine and of a crew** that are twins. -/
theorem run_ends (hc : Contract good) (ho : OrderFree good) (ha : Attended ω good)
    (hm : m.Wired) (hp : Supervisor.Calm π) (hh : Supervisor.Halting π) (h : Twin good m e c)
    {w w' : World ω} (hw : w.interrupted = w'.interrupted) (n : Nat) (plan : Nat → Timetable)
    (p : π) :
    Option.Rel (Ends good m (e.withInbox c.inbox) c w w') ((e.withInbox c.inbox).run n p w)
      (c.runOn n plan p w') := by
  rw [Crew.runOn, if_pos h.crew.initialized]
  exact option_rel_imp
    (runOn hc ho ha hm hp hh (s := .begin c w') h rfl List.length_replicate hw)
    fun _ _ hends => hends.withInbox c.inbox

end Twin

/-- **The supervisor stops a run of a tree** within so many decisions: it does not want the next
step, or it stops the run within the decisions after it. -/
inductive Engine.StoppedWithin [AtomicModel τ σ] [Observer ω] [Supervisor π] :
    Nat → Engine τ σ → π → World ω → Prop
  | now {n : Nat} {e : Engine τ σ} {p : π} {w : World ω}
      (refused : (Supervisor.proceed e.next w.interrupted p).answer = false) :
      StoppedWithin (n + 1) e p w
  | later {n : Nat} {e : Engine τ σ} {p : π} {w : World ω}
      (rest : let decision := Supervisor.proceed e.next w.interrupted p
        let o := e.step (w.heed decision)
        let note := Supervisor.completed e.next decision.state
        StoppedWithin n o.state note.state (o.world.heed note)) :
      StoppedWithin (n + 1) e p w

/-- **A run that the supervisor stops** returns. -/
theorem Engine.StoppedWithin.exists_run [AtomicModel τ σ] [Observer ω] [Supervisor π] {n : Nat}
    {e : Engine τ σ} {p : π} {w : World ω} (h : e.StoppedWithin n p w) :
    ∃ o, e.run n p w = some o := by
  induction h with
  | now hrefused =>
      simp only [run, hrefused, Bool.false_eq_true, if_false]
      split <;> exact ⟨_, rfl⟩
  | later _ ih =>
      simp only [run]
      split
      · exact ⟨_, rfl⟩
      · split
        · split
          · exact ⟨_, rfl⟩
          · split
            · exact ⟨_, rfl⟩
            · exact ih
        · exact ⟨_, rfl⟩

/-- Of two related results the second is there if the first one is. -/
theorem exists_of_option_rel {α β : Type} {R : α → β → Prop} {a : α} {y : Option β}
    (h : Option.Rel R (some a) y) : ∃ b, y = some b ∧ R a b := by
  cases h with
  | some hab => exact ⟨_, rfl, hab⟩

/-! ## Whole simulations -/

section

variable [AtomicModel τ σ] [Observer ω]

/-- **A tree and a crew of `m`, abreast.** They have been initialized at the same time,
have got the same messages between their runs, and have run under the same supervisors,
in worlds that agree on whether the run is to be interrupted. In every run the workers
of the crew follow a plan of their own. -/
inductive Abreast (ω : Type) [Observer ω] (m : Model τ σ) (wished : Nat) :
    Engine τ σ → Crew τ σ → Prop
  | init (t : Instant) (w w' : World ω) : Abreast ω m wished ((Engine.ofModel m).init t w).state
      ((Crew.ofModel wished m).init t w').state
  | inject {e : Engine τ σ} {c : Crew τ σ} {port : Port τ}
      (values : List (MessageType.Value port.type)) (w w' : World ω) (h : Abreast ω m wished e c)
      (hd : port ∈ m.interface.inputs) :
      Abreast ω m wished (e.perform w (.inject port values)).state (c.inject port values w').state
  | run {π : Type} [Supervisor π] {e : Engine τ σ} {c : Crew τ σ} {n : Nat}
      {plan : Nat → Timetable} {p : π} {w w' : World ω} {o : Outcome (Engine τ σ × π) ω}
      {o' : Outcome (Crew τ σ × π) ω} (h : Abreast ω m wished e c) (hp : Supervisor.Calm π)
      (hh : Supervisor.Halting π) (hw : w.interrupted = w'.interrupted)
      (ho : e.run n p w = some o) (ho' : c.runOn n plan p w' = some o') :
      Abreast ω m wished o.state.1 o'.state.1

variable {good : Interface τ → Stage → σ → Prop} {m : Model τ σ} {e : Engine τ σ} {c : Crew τ σ}

/-- **A tree and a crew abreast** are twins, what waits at the root being in both inboxes. -/
theorem Abreast.twin {wished : Nat} (hc : Contract good) (ho : OrderFree good)
    (ha : Attended ω good) (hm : m.Wired) (hg : m.AllGood good) (h : Abreast ω m wished e c) :
    ∃ e', Twin good m e' c ∧ e = e'.withInbox c.inbox := by
  induction h with
  | init t w w' =>
      obtain ⟨hengine, -⟩ := (Engine.sound_ofModelBelow hg none).init hc ha t w
      obtain ⟨hcrew, -⟩ := (Crew.sound_ofModel hm hg wished).init hc ha t w'
      have htwin := Twin.started hc hm hg wished t
      rw [Engine.ofModel, hengine, hcrew]
      exact ⟨_, htwin, (htwin.withInbox_of_isEmpty (Bags.isEmpty_ofPorts _)).symm⟩
  | @inject _ c port values w w' _ hd ih =>
      obtain ⟨e, htwin, rfl⟩ := ih
      obtain ⟨i, hx, hfits⟩ := htwin.crew.sound.inbox.extend hm.distinct.inputs hd values
      refine ⟨e, ?_, ?_⟩
      · simp only [Crew.inject, hx]
        exact htwin.withInbox hfits
      · simp only [Crew.inject, Engine.perform, Engine.node_withInbox, hx]
        exact Engine.withInbox_withInbox _ _ _
  | @run π _ _ c n plan p w w' o o' _ hp hh hw hrun hrun' ih =>
      obtain ⟨e, htwin, rfl⟩ := ih
      have hends := htwin.run_ends hc ho ha hm hp hh hw n plan p
      rw [hrun, hrun'] at hends
      cases hends with
      | some hends => exact hends.2

variable [Supervisor π]

/-- **A crew simulates what the engine tree does.** Take an accepted model of good atomic
models that do not look at the order of messages, and any number of workers. Both engines
are initialized without a fault, and this is reported alike. Whenever they are abreast,
they are in the same position, and messages for the root are accepted by both. Then any
run, under whatever supervisor that does not fault and takes no step at the last instant,
and with whatever plan for the turns of the workers, comes to an end within the same
number of decisions in both or in neither; in both cases it comes to the same end, and
the supervisor was told the same, as the minutes show. Where the supervisor stops the run
within that number of decisions, both return. -/
theorem abreast_runs_alike (hacc : m.Accepted) (hc : Contract good) (ho : OrderFree good)
    (ha : Attended ω good) (hg : m.AllGood good) (hp : Supervisor.Calm π)
    (hh : Supervisor.Halting π) (wished : Nat) :
    (∀ (t : Instant) (w w' : World ω), ∃ e c x y,
      (Engine.ofModel m).init t w = .done e (w.after x) ∧
      (Crew.ofModel wished m).init t w' = .done c (w'.after y) ∧
      x.Alike m (fun a => (Engine.ofModel m).pathAt? a) (Crew.ofModel wished m).pathAt? y) ∧
    ∀ (e : Engine τ σ) (c : Crew τ σ), Abreast ω m wished e c → Agree m e c ∧
      (∀ port ∈ m.interface.inputs, ∀ (values : List (MessageType.Value port.type))
        (w w' : World ω), (e.perform w (.inject port values)).stop = none ∧
          (c.inject port values w').stop = none) ∧
      ∀ (p : π) (n : Nat) (plan : Nat → Timetable) (w w' : World ω),
        w.interrupted = w'.interrupted →
        Option.Rel (SameEnd m e c w w') (e.run n p w) (c.runOn n plan p w') ∧
        Option.Rel (SameEnd m e c w w') (e.run n (Minuted.mk p []) w)
          (c.runOn n plan (Minuted.mk p []) w') ∧
        (e.StoppedWithin n p w → ∃ o o', e.run n p w = some o ∧ c.runOn n plan p w' = some o' ∧
          SameEnd m e c w w' o o') := by
  have hm := hacc.wired
  refine ⟨fun t w w' => ?_, fun e c h => ?_⟩
  · obtain ⟨hengine, -⟩ := (Engine.sound_ofModelBelow hg none).init hc ha t w
    obtain ⟨hcrew, -⟩ := (Crew.sound_ofModel hm hg wished).init hc ha t w'
    exact ⟨_, _, _, _, hengine, hcrew, start_alike hc hm hg wished t⟩
  · obtain ⟨e, htwin, rfl⟩ := h.twin hc ho ha hm hg
    refine ⟨htwin.agree, fun port hd values w w' => ?_,
      fun p n plan w w' hw => ⟨?_, ?_, fun hstop => ?_⟩⟩
    · obtain ⟨i, hx, -⟩ := htwin.crew.sound.inbox.extend hm.distinct.inputs hd values
      simp only [Crew.inject, Engine.perform, Engine.node_withInbox, hx]
      exact ⟨rfl, rfl⟩
    · exact option_rel_imp (htwin.run_ends hc ho ha hm hp hh hw n plan p)
        fun _ _ hends => hends.1
    · exact option_rel_imp
        (htwin.run_ends hc ho ha hm (Minuted.calm hp) (Minuted.halting hh) hw n plan _)
        fun _ _ hends => hends.1
    · obtain ⟨o, hrun⟩ := hstop.exists_run
      obtain ⟨o', hrun', hends⟩ :=
        exists_of_option_rel (hrun ▸ htwin.run_ends hc ho ha hm hp hh hw n plan p)
      exact ⟨o, o', hrun, hrun', hends.1⟩

end

/-- Doublers can always be observed. -/
theorem Doubler.attended_recorder : Attended Recorder Doubler.Good where
  calm _ _ := rfl
  legible _ _ _ _ _ _ := ⟨_, rfl⟩

/-- An engine and a crew of two workers for the tower of doublers, with a message at the
root, run through all events before the fifth second. -/
theorem abreast_runs_alike_tower :
    let w : World Recorder := ⟨{}, false⟩
    let e := (((Engine.ofModel Doubler.tower).init .epoch w).state.perform w
      (.inject Doubler.add [(5 : UInt64)])).state
    let c := (((Crew.ofModel 2 Doubler.tower).init .epoch w).state.inject Doubler.add
      [(5 : UInt64)] w).state
    let p := Minuted.mk (Until.mk ⟨5, 0, by decide⟩) []
    (Doubler.tower.Accepted ∧ Doubler.tower.AllGood Doubler.Good ∧ Supervisor.Calm Until ∧
      Supervisor.Halting Until ∧ Abreast Recorder Doubler.tower 2 e c ∧
      e.StoppedWithin 9 p.self w) ∧
    Agree Doubler.tower e c ∧ (e.run 9 p w).isSome = true ∧
      ∀ plan : Nat → Timetable,
        Option.Rel (SameEnd Doubler.tower e c w w) (e.run 9 p w) (c.runOn 9 plan p w) ∧
        ∃ o o', e.run 9 p.self w = some o ∧ c.runOn 9 plan p.self w = some o' ∧
          SameEnd Doubler.tower e c w w o o' := by
  intro w e c p
  have habreast : Abreast Recorder Doubler.tower 2 e c :=
    .inject _ w w (.init .epoch w w) (List.mem_singleton_self _)
  obtain ⟨-, hruns⟩ := abreast_runs_alike (π := Until) Doubler.accepted_tower Doubler.contract
    Doubler.orderFree Doubler.attended_recorder Doubler.allGood_tower calm_until halting_until 2
  obtain ⟨hagree, -, hrun⟩ := hruns e c habreast
  -- There are two steps before the fifth second.
  have hstopped : e.StoppedWithin 9 p.self w := .later (.later (.now (by decide +kernel)))
  refine ⟨⟨Doubler.accepted_tower, Doubler.allGood_tower, calm_until, halting_until, habreast,
    hstopped⟩, hagree, by decide +kernel, fun plan => ?_⟩
  obtain ⟨-, hminuted, hboth⟩ := hrun p.self 9 plan w w rfl
  exact ⟨hminuted, hboth hstopped⟩

end DiscreteEvent
