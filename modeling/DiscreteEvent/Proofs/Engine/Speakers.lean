/-
Who says what in a call on an engine tree.

A record or a refusal that comes out of a call has been made somewhere in the tree, whatever
path is in it. Here a call on the root is followed on its way down. `Engine.Reaches` says which
engine is called with which errand, in which state and in which world, and `Engine.Speaks` what
an engine says by itself when it is called. A call from the client, or a step of a run, is an
errand of the root.

Whatever a call brings out was said by an engine that it has reached (`Errand.utters_iff`),
and who speaks does so under the path that its address has (`Errand.Says.named`). Nothing is
assumed of the models, the engine or the observer: any of them may fault anywhere. A tree that
an earlier fault has left half done may refuse a call in the middle, after others have
spoken, and it is not always the root that refuses.
-/
import DiscreteEvent.Proofs.Engine.Utterances

set_option autoImplicit false

namespace DiscreteEvent

variable {τ σ ω π : Type}

/-! ## Errands -/

/-- **What an engine is called for**, by the network around it or by the client. -/
inductive Errand (τ : Type) [MessageType τ]
  | init (t : Instant)
  | collect (t : Instant)
  | advance (t : Instant) (mail : List (Delivery τ))

namespace Errand

variable [MessageType τ]

/-- Why a network refuses an errand, if it does. -/
def refusal? : Errand τ → Hub τ → Option Violation
  | init _, _ => none
  | collect t, h => h.refuseCollect t
  | advance t mail, h => (h.receive mail).refuseAdvance t

/-- **How a network passes an errand on**: what it is in the meantime, and the errands of its
children. It does not pass it on if it has no event to collect for, or cannot follow its
couplings. -/
def passedOn? : Errand τ → Hub τ → List (Engine τ σ) → Option (Hub τ × (Nat → Errand τ))
  | init t, h, _ => some (h, fun _ => init t)
  | collect t, h, _ =>
    if h.isImminent t then some ({ h with outbox := h.outbox.clear }, fun _ => collect t) else none
  | advance t mail, h, es =>
    match (h.receive mail).deliveries (es.map Engine.node) with
    | .error _ => none
    | .ok ds => some (h.receive mail, fun i => advance t (Hub.mailFor ds i))

theorem path_passedOn {k : Errand τ} {h h' : Hub τ} {es : List (Engine τ σ)}
    {ks : Nat → Errand τ} (hk : k.passedOn? h es = some (h', ks)) : h'.path = h.path := by
  cases k with
  | init t =>
      cases hk
      rfl
  | collect t =>
      simp only [passedOn?] at hk
      split at hk <;> cases hk
      rfl
  | advance t mail =>
      simp only [passedOn?] at hk
      split at hk <;> cases hk
      rfl

theorem model_refusal {k : Errand τ} {h : Hub τ} {v : Violation} (hk : k.refusal? h = some v) :
    v.model = h.path := by
  cases k with
  | init t => cases hk
  | collect t => exact Node.model_refuseCollect hk
  | advance t mail => exact Node.model_refuseAdvance hk

variable [AtomicModel τ σ] [Observer ω]

/-- An errand is done. -/
def perform : Errand τ → Engine τ σ → World ω → Outcome (Engine τ σ) ω
  | init t => Engine.init t
  | collect t => Engine.collect t
  | advance t mail => Engine.advanceWith t mail

/-- What a network does itself when its children are done. -/
def settle : Errand τ → Hub τ → List (Engine τ σ) → World ω → Outcome (Engine τ σ) ω
  | init t => Engine.settleInit t
  | collect t => Engine.settleCollect t
  | advance t _ => Engine.settleAdvance t

/-- Children do their errands in a row. -/
def walk (ks : Nat → Errand τ) (es : List (Engine τ σ)) (w : World ω) :
    Outcome (List (Engine τ σ)) ω :=
  Outcome.each (fun i => (ks i).perform) (fun _ => id) 0 es w

/-- **An errand of a network** is refused, or it goes no further, or the children do theirs and
the network settles it. -/
theorem perform_hub (k : Errand τ) (h : Hub τ) (es : List (Engine τ σ)) (w : World ω) :
    (∃ v h', k.refusal? h = some v ∧
      k.perform (.hub h es) w = .refused (.hub h' es) w v) ∨
    (k.refusal? h = none ∧ k.passedOn? h es = none ∧ (k.perform (.hub h es) w).world = w ∧
      ∀ v, (k.perform (.hub h es) w).stop ≠ some (.violation v)) ∨
    ∃ h' ks rest, k.refusal? h = none ∧ k.passedOn? h es = some (h', ks) ∧
      k.perform (.hub h es) w
        = (Outcome.each (fun i => (ks i).perform) rest 0 es w).resume (.hub h')
            (k.settle h') := by
  cases k with
  | init t => exact .inr (.inr ⟨h, fun _ => init t, _, rfl, rfl, Engine.init_hub t h es w⟩)
  | collect t =>
      cases hr : h.refuseCollect t with
      | some v => exact .inl ⟨v, h, hr, by simp only [perform, Engine.collect, hr]⟩
      | none =>
          cases hdue : h.isImminent t with
          | false =>
              refine .inr (.inl ⟨hr, if_neg (Bool.eq_false_iff.mp hdue), ?_⟩)
              rw [perform, Engine.collect_hub_early hr hdue]
              exact ⟨rfl, Stop.none_ne_violation⟩
          | true =>
              exact .inr (.inr ⟨{ h with outbox := h.outbox.clear }, fun _ => collect t, _, hr,
                if_pos hdue, Engine.collect_hub hr hdue es w⟩)
  | advance t mail =>
      cases hr : (h.receive mail).refuseAdvance t with
      | some v =>
          exact .inl ⟨v, h.receive mail, hr, by simp only [perform, Engine.advanceWith, hr]⟩
      | none =>
          cases hd : (h.receive mail).deliveries (es.map Engine.node) with
          | error fault =>
              refine .inr (.inl ⟨hr, by simp only [passedOn?, hd], ?_⟩)
              simp only [perform, Engine.advanceWith, hr, hd]
              exact ⟨rfl, Stop.fault_ne_violation⟩
          | ok ds =>
              exact .inr (.inr ⟨h.receive mail, fun i => advance t (Hub.mailFor ds i), _, hr,
                by simp only [passedOn?, hd], Engine.advanceWith_hub hr hd w⟩)

omit [AtomicModel τ σ] in
theorem signed_settle (k : Errand τ) (h : Hub τ) (es : List (Engine τ σ)) (w : World (Filed ω)) :
    (k.settle h es w).Signed h.path w := by
  cases k with
  | init t => exact Outcome.signed_report _ w .init h.path t _ _ none []
  | collect t =>
      simp only [settle, Engine.settleCollect]
      split
      · exact Outcome.signed_of_silent rfl Stop.fault_ne_violation
      · exact Outcome.signed_report _ w .collect h.path t _ _ none _
  | advance t mail =>
      refine Outcome.Signed.map (Outcome.Signed.andThen ?_ ?_) (Engine.hub · es)
      · exact Outcome.signed_report _ w .advance h.path t _ _ none _
      · exact Outcome.signed_done _ _

end Errand

/-! ## Who is called, and what is said -/

namespace Engine

variable [MessageType τ] [AtomicModel τ σ] [Observer ω]

/-- **An errand comes down to an engine**: it is that of the root, or the network around the
engine passes it on and the engine's elder siblings have done theirs. The indices are the errand
of the root, the tree and the world in which it is begun, the address of the engine, its own
errand, the engine as it is then, and the world in which it is called. -/
inductive Reaches : Errand τ → Engine τ σ → World ω → List Nat → Errand τ → Engine τ σ →
    World ω → Prop
  | here {k : Errand τ} {e : Engine τ σ} {w : World ω} : Reaches k e w [] k e w
  | child {k k' : Errand τ} {h h' : Hub τ} {es es' : List (Engine τ σ)} {w w' w'' : World ω}
      {ks : Nat → Errand τ} {i : Nat} {a : List Nat} {e e' : Engine τ σ}
      (accepted : k.refusal? h = none) (passed : k.passedOn? h es = some (h', ks))
      (elders : Errand.walk ks (es.take i) w = .done es' w') (child : es[i]? = some e)
      (further : Reaches (ks i) e w' a k' e' w'') : Reaches k (.hub h es) w (i :: a) k' e' w''

/-- **What an engine says by itself** in an errand: a leaf all there is to say; a network that it
refuses, or what it says when its children have done theirs. -/
inductive Speaks : Errand τ → Engine τ σ → World (Filed ω) → Utterance → Prop
  | leaf {k : Errand τ} {l : Leaf τ σ} {w : World (Filed ω)} {x : Utterance}
      (said : (k.perform (.leaf l) w).Utters w x) : Speaks k (.leaf l) w x
  | refuse {k : Errand τ} {h : Hub τ} {es : List (Engine τ σ)} {w : World (Filed ω)}
      {v : Violation} (refused : k.refusal? h = some v) : Speaks k (.hub h es) w (.refusal v)
  | settle {k : Errand τ} {h h' : Hub τ} {es es' : List (Engine τ σ)} {w w' : World (Filed ω)}
      {ks : Nat → Errand τ} {x : Utterance} (accepted : k.refusal? h = none)
      (passed : k.passedOn? h es = some (h', ks)) (children : Errand.walk ks es w = .done es' w')
      (said : (k.settle h' es' w').Utters w' x) : Speaks k (.hub h es) w x

end Engine

namespace Errand

variable [MessageType τ] [AtomicModel τ σ] [Observer ω] {k : Errand τ} {e : Engine τ σ}
  {w : World (Filed ω)} {a : List Nat} {x : Utterance}

/-- **The engine at an address says something** in the course of an errand. -/
def Says (k : Errand τ) (e : Engine τ σ) (w : World (Filed ω)) (a : List Nat) (x : Utterance) :
    Prop :=
  ∃ k' e' w', Engine.Reaches k e w a k' e' w' ∧ Engine.Speaks k' e' w' x

theorem signed_leaf (k : Errand τ) (l : Leaf τ σ) (w : World (Filed ω)) :
    (k.perform (.leaf l) w).Signed l.path w := by
  cases k with
  | init t => exact (Leaf.signed_init rfl t w).map _
  | collect t => exact (Leaf.signed_collect rfl t w).map _
  | advance t mail => exact (Leaf.signed_advance (l := l.receive mail) rfl t w).map _

/-- Nothing is taken off the file. -/
theorem exists_filing (k : Errand τ) (e : Engine τ σ) :
    ∀ w : World (Filed ω), ∃ rs, w.Filing (k.perform e w).world rs := by
  induction e using Engine.induction generalizing k with
  | leaf l =>
      exact fun w => (k.signed_leaf l w).exists_filing
  | hub h es ih =>
      intro w
      rcases k.perform_hub h es w with ⟨v, h', -, hrefused⟩ | ⟨-, -, hworld, -⟩ |
        ⟨h', ks, rest, -, -, hdone⟩
      · exact ⟨[], .nil (by rw [hrefused]; rfl)⟩
      · exact ⟨[], .nil (by rw [hworld])⟩
      · rw [hdone]
        refine Outcome.exists_filing_resume ?_ ?_
        · exact Outcome.exists_filing_each rest (fun i e he => ih e he (ks i)) 0 w
        · exact (k.signed_settle h' _ _).exists_filing

section Hub

variable {h h' : Hub τ} {es : List (Engine τ σ)} {ks : Nat → Errand τ}

/-- A network that refuses says so, and nothing else is said. -/
theorem said_of_refusal {v : Violation} (hr : k.refusal? h = some v) :
    (∃ a, k.Says (.hub h es) w a x) ↔ x = .refusal v := by
  constructor
  · rintro ⟨a, k', e', w', hreaches, hspeaks⟩
    cases hreaches with
    | here =>
        cases hspeaks with
        | refuse hv =>
            cases hr.symm.trans hv
            rfl
        | settle haccepted => cases hr.symm.trans haccepted
    | child haccepted => cases hr.symm.trans haccepted
  · rintro rfl
    exact ⟨[], k, _, w, .here, .refuse hr⟩

/-- Where an errand goes no further, nothing is said. -/
theorem not_said_of_idle (hr : k.refusal? h = none) (hp : k.passedOn? h es = none) :
    ¬∃ a, k.Says (.hub h es) w a x := by
  rintro ⟨a, k', e', w', hreaches, hspeaks⟩
  cases hreaches with
  | here =>
      cases hspeaks with
      | refuse hv => cases hr.symm.trans hv
      | settle _ hpassed => cases hp.symm.trans hpassed
  | child _ hpassed => cases hp.symm.trans hpassed

/-- **Where an errand is passed on**, something is said below a child, or by the network itself
in the end. -/
theorem said_of_passedOn (hr : k.refusal? h = none) (hp : k.passedOn? h es = some (h', ks)) :
    (∃ a, k.Says (.hub h es) w a x) ↔
      (∃ i e es' w', es[i]? = some e ∧ walk ks (es.take i) w = .done es' w' ∧
        ∃ a, (ks i).Says e w' a x) ∨
      ∃ es' w', walk ks es w = .done es' w' ∧ (k.settle h' es' w').Utters w' x := by
  constructor
  · rintro ⟨a, k', e', w', hreaches, hspeaks⟩
    cases hreaches with
    | here =>
        cases hspeaks with
        | refuse hv => cases hr.symm.trans hv
        | settle _ hpassed hwalk said =>
            cases hp.symm.trans hpassed
            exact .inr ⟨_, _, hwalk, said⟩
    | child _ hpassed hwalk he hfurther =>
        cases hp.symm.trans hpassed
        exact .inl ⟨_, _, _, _, he, hwalk, _, _, _, _, hfurther, hspeaks⟩
  · rintro (⟨i, e, es', w', he, hwalk, a, k', e', w'', hfurther, hspeaks⟩ | ⟨es', w', hwalk, said⟩)
    · exact ⟨i :: a, k', e', w'', .child hr hp hwalk he hfurther, hspeaks⟩
    · exact ⟨[], k, _, w, .here, .settle hr hp hwalk said⟩

end Hub

/-- **Everything has a speaker.** What an errand brings out is what is said by the engines that
it comes down to. -/
theorem utters_iff (k : Errand τ) (e : Engine τ σ) :
    ∀ {w : World (Filed ω)}, (k.perform e w).Utters w x ↔ ∃ a, k.Says e w a x := by
  induction e using Engine.induction generalizing k with
  | leaf l =>
      intro w
      constructor
      · exact fun h => ⟨[], k, _, w, .here, .leaf h⟩
      · rintro ⟨a, k', e', w', hreaches, hspeaks⟩
        cases hreaches
        cases hspeaks with
        | leaf said => exact said
  | hub h es ih =>
      intro w
      rcases k.perform_hub h es w with ⟨v, h', hr, hrefused⟩ | ⟨hr, hp, hworld, hnever⟩ |
        ⟨h', ks, rest, hr, hp, hdone⟩
      · rw [said_of_refusal hr, hrefused]
        exact Outcome.utters_refused
      · refine iff_of_false (fun hx => ?_) (not_said_of_idle hr hp)
        exact Outcome.not_utters_of_silent (congrArg World.observer hworld) hnever hx
      · have hcall : ∀ i, ∀ e ∈ es, ∀ w : World (Filed ω), ∃ rs,
            w.Filing ((ks i).perform e w).world rs := fun i e _ => (ks i).exists_filing e
        obtain ⟨rs, hrs⟩ := Outcome.exists_filing_each rest hcall 0 w
        obtain ⟨rs', hrs'⟩ := (k.signed_settle (ω := ω) h' _ _).exists_filing
        rw [said_of_passedOn hr hp, hdone, Outcome.utters_resume hrs hrs',
          Outcome.each_utters hcall]
        refine or_congr ?_ ?_
        · -- The children speak below the network, each in the world that its elders have left.
          refine exists_congr fun i => exists_congr fun e => exists_congr fun es' =>
            exists_congr fun w' => and_congr_right fun he => and_congr_right fun _ => ?_
          rw [Nat.zero_add]
          exact ih e (List.mem_of_getElem? he) (ks i)
        · constructor
          · rintro ⟨hs, said⟩
            refine ⟨_, _, ?_, said⟩
            rw [walk, Outcome.each_of_done (fun _ => id) hs]
            exact Outcome.eq_done hs
          · rintro ⟨es', w', hwalk, said⟩
            have heach := (Outcome.each_of_done rest (congrArg Outcome.stop hwalk)).trans hwalk
            rw [heach]
            exact ⟨rfl, said⟩

/-- **Who speaks does so under its own path.** -/
theorem Says.named (h : k.Says e w a x) : e.pathAt? a = some x.path := by
  obtain ⟨k', e', w', hreaches, hspeaks⟩ := h
  induction hreaches with
  | here =>
      cases hspeaks with
      | leaf h => exact congrArg some ((signed_leaf _ _ _).path_eq h).symm
      | refuse hv => exact congrArg some (model_refusal hv).symm
      | settle _ hp _ h =>
          exact congrArg some (((signed_settle _ _ _ _).path_eq h).trans (path_passedOn hp)).symm
  | child _ _ _ he _ ih =>
      rw [Engine.pathAt?, he]
      exact ih hspeaks

end Errand

/-! ## Calls and runs -/

/-- The errand of the root in a call. An injection is none. -/
def Call.errand? [MessageType τ] : Call τ → Option (Errand τ)
  | init t => some (.init t)
  | inject _ _ => none
  | collect t => some (.collect t)
  | advance t => some (.advance t [])

namespace Engine

variable [MessageType τ] [AtomicModel τ σ] [Observer ω] {e : Engine τ σ} {w : World (Filed ω)}
  {a : List Nat} {x : Utterance}

/-- **The engine at an address says something** in a call on the root. -/
def Says (e : Engine τ σ) (w : World (Filed ω)) (c : Call τ) (a : List Nat) (x : Utterance) :
    Prop :=
  ∃ k, c.errand? = some k ∧ k.Says e w a x

/-- In a step of a run, which is two errands. -/
def StepSays (e : Engine τ σ) (w : World (Filed ω)) (a : List Nat) (x : Utterance) : Prop :=
  (Errand.collect e.next).Says e w a x ∨
  (e.collect e.next w).stop = none ∧
    (Errand.advance e.next []).Says (e.collect e.next w).state (e.collect e.next w).world a x

/-- **In a run**: in its first step, or in the run that goes on behind it. -/
inductive RunSays [Supervisor π] : Nat → Engine τ σ → π → World (Filed ω) → List Nat →
    Utterance → Prop
  | first {n : Nat} {e : Engine τ σ} {p : π} {w : World (Filed ω)} {a : List Nat} {x : Utterance}
      {d : Reply π Bool} (asked : Supervisor.proceed e.next w.interrupted p = d)
      (sound : d.fault = none) (go : d.answer = true) (said : e.StepSays (w.heed d) a x) :
      RunSays (n + 1) e p w a x
  | later {n : Nat} {e : Engine τ σ} {p : π} {w : World (Filed ω)} {a : List Nat} {x : Utterance}
      {d : Reply π Bool} {o : Outcome (Engine τ σ) (Filed ω)} {d' : Reply π Unit}
      (asked : Supervisor.proceed e.next w.interrupted p = d) (sound : d.fault = none)
      (go : d.answer = true) (step : e.step (w.heed d) = o) (done : o.stop = none)
      (told : Supervisor.completed e.next d.state = d') (sound' : d'.fault = none)
      (said : RunSays n o.state d'.state (o.world.heed d') a x) : RunSays (n + 1) e p w a x

theorem exists_filing_step (e : Engine τ σ) (w : World (Filed ω)) :
    ∃ rs, w.Filing (e.step w).world rs := by
  rw [step, Outcome.andThen_eq_resume]
  exact Outcome.exists_filing_resume ((Errand.collect e.next).exists_filing e w)
    ((Errand.advance e.next []).exists_filing _ _)

theorem utters_perform (e : Engine τ σ) (w : World (Filed ω)) (c : Call τ) :
    (e.perform w c).Utters w x ↔ ∃ a, e.Says w c a x := by
  have herrand : ∀ {k : Errand τ}, c.errand? = some k → e.perform w c = k.perform e w →
      ((e.perform w c).Utters w x ↔ ∃ a, e.Says w c a x) := by
    intro k hk heq
    rw [heq, k.utters_iff e]
    refine exists_congr fun a => ⟨fun h => ⟨k, hk, h⟩, ?_⟩
    rintro ⟨k', hk', h⟩
    cases hk.symm.trans hk'
    exact h
  cases c with
  | init t => exact herrand rfl rfl
  | collect t => exact herrand rfl rfl
  | advance t => exact herrand rfl rfl
  | inject port values =>
      refine iff_of_false ?_ ?_
      · simp only [perform]
        split
        · exact Outcome.not_utters_of_silent rfl Stop.fault_ne_violation
        · exact Outcome.not_utters_of_silent rfl Stop.none_ne_violation
      · rintro ⟨a, k, hk, -⟩
        cases hk

theorem utters_step (e : Engine τ σ) (w : World (Filed ω)) :
    (e.step w).Utters w x ↔ ∃ a, e.StepSays w a x := by
  obtain ⟨rs, hrs⟩ := (Errand.collect e.next).exists_filing e w
  obtain ⟨rs', hrs'⟩ := (Errand.advance e.next []).exists_filing (e.collect e.next w).state
    (e.collect e.next w).world
  simp only [StepSays, exists_or, exists_and_left, ← Errand.utters_iff]
  rw [step, Outcome.andThen_eq_resume]
  exact Outcome.utters_resume hrs hrs'

section Runs

variable [Supervisor π] {n : Nat} {p : π} {d : Reply π Bool}

/-- A run in which no step is taken. -/
theorem not_runSays (asked : Supervisor.proceed e.next w.interrupted p = d)
    (h : d.fault = none → d.answer = true → False) : ¬∃ a, RunSays (n + 1) e p w a x := by
  subst asked
  rintro ⟨a, hspeech⟩
  cases hspeech with
  | first asked sound go said =>
      subst asked
      exact h sound go
  | later asked sound go =>
      subst asked
      exact h sound go

/-- A run that takes a step. -/
theorem runSays_of_go {o : Outcome (Engine τ σ) (Filed ω)} {d' : Reply π Unit}
    (asked : Supervisor.proceed e.next w.interrupted p = d) (sound : d.fault = none)
    (go : d.answer = true) (hstep : e.step (w.heed d) = o)
    (told : Supervisor.completed e.next d.state = d') :
    (∃ a, RunSays (n + 1) e p w a x) ↔ o.Utters (w.heed d) x ∨
      o.stop = none ∧ d'.fault = none ∧ ∃ a, RunSays n o.state d'.state (o.world.heed d') a x := by
  subst asked hstep told
  rw [utters_step]
  constructor
  · rintro ⟨a, hspeech⟩
    cases hspeech with
    | first asked sound go said =>
        subst asked
        exact .inl ⟨a, said⟩
    | later asked sound go step done told sound' said =>
        subst asked step told
        exact .inr ⟨done, sound', a, said⟩
  · rintro (⟨a, said⟩ | ⟨done, sound', a, said⟩)
    · exact ⟨a, .first rfl sound go said⟩
    · exact ⟨a, .later rfl sound go rfl done rfl sound' said⟩

end Runs

/-- **What is said in a run** has a speaker, and nothing is taken off the file. -/
theorem utters_run [Supervisor π] {n : Nat} :
    ∀ {e : Engine τ σ} {p : π} {w : World (Filed ω)} {o : Outcome (Engine τ σ × π) (Filed ω)},
      run n e p w = some o →
      (∃ rs, w.Filing o.world rs) ∧ (o.Utters w x ↔ ∃ a, RunSays n e p w a x) := by
  induction n with
  | zero =>
      intro e p w o ho
      cases ho
  | succ n ih =>
      intro e p w o ho
      obtain ⟨d, asked⟩ : ∃ d, Supervisor.proceed e.next w.interrupted p = d := ⟨_, rfl⟩
      obtain ⟨o₁, hstep⟩ : ∃ o₁, e.step (w.heed d) = o₁ := ⟨_, rfl⟩
      obtain ⟨d', told⟩ : ∃ d', Supervisor.completed e.next d.state = d' := ⟨_, rfl⟩
      have hheed : (w.heed d).observer = w.observer := World.observer_heed w d
      have hheed' : (o₁.world.heed d').observer = o₁.world.observer := World.observer_heed _ d'
      simp only [run, asked, hstep, told] at ho
      split at ho
      · rename_i hfault
        cases ho
        refine ⟨⟨[], .nil hheed⟩,
          iff_of_false (Outcome.not_utters_of_silent hheed Stop.fault_ne_violation)
          (not_runSays asked ?_)⟩
        exact fun sound => absurd (sound.symm.trans hfault) (Option.some_ne_none _).symm
      · rename_i sound
        split at ho
        · rename_i go
          obtain ⟨rs, hrs⟩ := e.exists_filing_step (w.heed d)
          rw [hstep] at hrs
          have hfiled : w.Filing o₁.world rs := hrs.congr hheed
          rw [runSays_of_go asked sound go hstep told, Outcome.utters_congr hheed]
          split at ho
          · rename_i hstop
            cases ho
            refine ⟨⟨rs, hfiled⟩, ?_⟩
            rw [Outcome.utters_map]
            exact (or_iff_left fun h => Option.some_ne_none _ (hstop.symm.trans h.1)).symm
          · rename_i hstop
            rw [and_iff_right hstop]
            split at ho
            · rename_i hfault
              cases ho
              refine ⟨⟨rs, ?_⟩, ?_⟩
              · show (o₁.world.heed d').observer.records = _
                rw [hheed']
                exact hfiled
              · rw [Outcome.utters_then hstop hfiled hheed' (.nil rfl)]
                refine or_congr_right (iff_of_false ?_ fun h => ?_)
                · exact Outcome.not_utters_of_silent rfl Stop.fault_ne_violation
                · exact Option.some_ne_none _ (hfault.symm.trans h.1)
            · rename_i sound'
              obtain ⟨⟨rs', hrs'⟩, hrest⟩ := ih ho
              rw [and_iff_right sound', ← hrest]
              refine ⟨⟨rs ++ rs', hfiled.trans (hrs'.congr hheed')⟩, ?_⟩
              exact Outcome.utters_then hstop hfiled hheed' hrs'
        · rename_i go
          cases ho
          refine ⟨⟨[], .nil hheed⟩,
            iff_of_false (Outcome.not_utters_of_silent hheed Stop.none_ne_violation)
            (not_runSays asked fun _ h => go h)⟩

theorem Says.named {c : Call τ} (h : e.Says w c a x) : e.pathAt? a = some x.path := by
  obtain ⟨k, -, hspeech⟩ := h
  exact hspeech.named

theorem StepSays.named (h : e.StepSays w a x) : e.pathAt? a = some x.path := by
  rcases h with hspeech | ⟨-, hspeech⟩
  · exact hspeech.named
  · rw [← samePaths_collect e.next e w a]
    exact hspeech.named

/-- **Who speaks in a run** does so under its own path. -/
theorem RunSays.named [Supervisor π] {n : Nat} {p : π} (h : RunSays n e p w a x) :
    e.pathAt? a = some x.path := by
  induction h with
  | first _ _ _ said => exact said.named
  | later _ _ _ step _ _ _ _ ih =>
      subst step
      exact Eq.trans (samePaths_step _ _ _).symm ih

end Engine

end DiscreteEvent
