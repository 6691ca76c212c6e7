/-
Observation changes nothing of an engine tree.

Records are made in the middle of the calls: after the times of an engine have moved on,
and before its bags are emptied. Whether one is made is up to the observer, who may want
records now and none later. Here every function of the engine is compared with itself in
the same world without an observer (`World.unobserved`): it leaves the same state, the same
wish to stop, and it stops for the same reason. The comparison (`Outcome.Unseen`) goes
function by function from the leaves to the whole tree, to steps and to runs.

Two things are needed. The observer takes every record (`Observer.Calm`), and a state can be
rendered whenever somebody may look at it. The states of which this must be known are those
that the models can come to, so it is required of an invariant of the author's choice
(`Legible`). Nothing else is asked of the models: they may fault, and be refused.
-/
import DiscreteEvent.Proofs.Engine.Natural

set_option autoImplicit false

namespace DiscreteEvent

variable {τ σ ω π : Type} [MessageType τ]

/-! ## Worlds without an observer -/

/-- **Every record is taken.** -/
def Observer.Calm (ω : Type) [Observer ω] : Prop :=
  ∀ (r : Record) (o : ω), (Observer.observe r o).2 = none

/-- **States that can be rendered**, and that no function of a model leads out of. -/
structure Legible [AtomicModel τ σ] (P : σ → Prop) : Prop where
  render : ∀ {s}, P s → ∃ text, AtomicModel.render s = .ok text
  timeAdvance : ∀ {s}, P s → P (AtomicModel.timeAdvance s).state
  output : ∀ {s}, P s → P (AtomicModel.output s).state
  internal : ∀ {s}, P s → P (AtomicModel.internal s).state
  external : ∀ {s} (elapsed : Span) (x : Bags τ), P s →
    P (AtomicModel.external s elapsed x).state

namespace World

/-- **The world without its observer.** -/
def unobserved (w : World ω) : World Unobserved := ⟨⟨⟩, w.interrupted⟩

@[simp] theorem interrupted_unobserved (w : World ω) :
    w.unobserved.interrupted = w.interrupted := rfl

/-- What client code asks for is heeded all the same. -/
@[simp] theorem unobserved_heed {α : Type} (w : World ω) (r : Reply σ α) :
    (w.heed r).unobserved = w.unobserved.heed r := by
  unfold heed
  split <;> rfl

/-- **A report leaves no trace** but with the observer. -/
theorem report_unseen [Observer ω] (hcalm : Observer.Calm ω) (w : World ω) (phase : Phase)
    (path : String) (time last next : Instant) (state : Option (Except Fault String))
    (hstate : ∀ s ∈ state, ∃ text, s = .ok text) (bags : List BagRecord) :
    (w.report phase path time last next state bags).1.unobserved = w.unobserved ∧
      (w.report phase path time last next state bags).2 = none := by
  unfold report
  split
  · exact ⟨rfl, rfl⟩
  · cases state with
    | none => exact ⟨rfl, hcalm _ _⟩
    | some s =>
        obtain ⟨text, rfl⟩ := hstate s rfl
        exact ⟨rfl, hcalm _ _⟩

end World

/-! ## Outcomes -/

namespace Outcome

variable {ε δ : Type} {P : ε → Prop} {Q : δ → Prop} {o : Outcome ε ω} {o' : Outcome ε Unobserved}

/-- **The same outcome without the observer**, with a state in `P`. -/
structure Unseen (P : ε → Prop) (o : Outcome ε ω) (o' : Outcome ε Unobserved) : Prop where
  state : o'.state = o.state
  world : o'.world = o.world.unobserved
  stop : o'.stop = o.stop
  within : P o.state

theorem Unseen.map {f : ε → δ} (h : Unseen P o o') (hf : ∀ s, P s → Q (f s)) :
    Unseen Q (o.map f) (o'.map f) :=
  ⟨congrArg f h.state, h.world, h.stop, hf _ h.within⟩

/-- One call after another. -/
theorem Unseen.andThen {next : ε → World ω → Outcome ε ω}
    {next' : ε → World Unobserved → Outcome ε Unobserved} (h : Unseen P o o')
    (hnext : ∀ s w, P s → Unseen P (next s w) (next' s w.unobserved)) :
    Unseen P (o.andThen next) (o'.andThen next') := by
  simp only [Outcome.andThen, h.stop, h.state, h.world]
  cases o.stop with
  | none => exact hnext o.state o.world h.within
  | some _ => exact h

/-- What follows a call on the children. -/
theorem Unseen.resume {wrap : ε → δ} {next : ε → World ω → Outcome δ ω}
    {next' : ε → World Unobserved → Outcome δ Unobserved} (h : Unseen P o o')
    (hwrap : ∀ s, P s → Q (wrap s))
    (hnext : ∀ s w, P s → Unseen Q (next s w) (next' s w.unobserved)) :
    Unseen Q (o.resume wrap next) (o'.resume wrap next') := by
  simp only [Outcome.resume, h.stop, h.state, h.world]
  cases o.stop with
  | none => exact hnext o.state o.world h.within
  | some _ => exact h.map hwrap

/-- **A walk over the children.** The world in which the walk goes on is that of the first
call, without the observer on one side. -/
theorem Unseen.each {call : Nat → ε → World ω → Outcome ε ω}
    {call' : Nat → ε → World Unobserved → Outcome ε Unobserved}
    {rest : Nat → List ε → List ε} {es : List ε} :
    ∀ {i : Nat} {w : World ω}, (∀ e ∈ es, P e) →
      (∀ j, ∀ e ∈ es, ∀ w, Unseen P (call j e w) (call' j e w.unobserved)) →
      (∀ j, ∀ es : List ε, (∀ e ∈ es, P e) → ∀ e ∈ rest j es, P e) →
      Unseen (fun es => ∀ e ∈ es, P e) (Outcome.each call rest i es w)
        (Outcome.each call' rest i es w.unobserved) := by
  induction es with
  | nil => exact fun hes _ _ => ⟨rfl, rfl, rfl, hes⟩
  | cons e es ih =>
      intro i w hes hcall hrest
      have htail : ∀ e ∈ es, P e := fun e he => hes e (by simp [he])
      obtain ⟨hstate, hworld, hstop, hwithin⟩ := hcall i e (by simp) w
      have hcons : ∀ es : List ε, (∀ e ∈ es, P e) → ∀ e' ∈ (call i e w).state :: es, P e' :=
        fun es hes => List.forall_mem_cons.mpr ⟨hwithin, hes⟩
      rw [Outcome.each, Outcome.each]
      simp only [hstop, hstate, hworld]
      cases hs : (call i e w).stop with
      | some s => exact ⟨congrArg (· :: _) hstate, hworld, hstop, hcons _ (hrest _ _ htail)⟩
      | none => exact (ih htail (fun j e he => hcall j e (by simp [he])) hrest).map hcons

end Outcome

variable [AtomicModel τ σ] [Observer ω] {P : σ → Prop}

/-! ## Leaves -/

namespace Leaf

/-- The state of the leaf is in `P`. -/
def Within (P : σ → Prop) (l : Leaf τ σ) : Prop := P l.state

omit [AtomicModel τ σ] [Observer ω] in
theorem absorb_unseen {α : Type} (l : Leaf τ σ) {r : Reply σ α} (hr : P r.state) (w : World ω) :
    Outcome.Unseen (Within P) (l.absorb r w) (l.absorb r w.unobserved) :=
  ⟨rfl, (w.unobserved_heed r).symm, rfl, hr⟩

omit [Observer ω] in
theorem reschedule_unseen (hP : Legible P) {l : Leaf τ σ} (hl : l.Within P) (t : Instant)
    (w : World ω) :
    Outcome.Unseen (Within P) (l.reschedule t w) (l.reschedule t w.unobserved) := by
  unfold reschedule
  exact (absorb_unseen _ (hP.timeAdvance hl) w).andThen fun l w hl => ⟨rfl, rfl, rfl, hl⟩

omit [Observer ω] in
theorem emit_unseen (hP : Legible P) {l : Leaf τ σ} (hl : l.Within P) (t : Instant)
    (w : World ω) : Outcome.Unseen (Within P) (l.emit t w) (l.emit t w.unobserved) := by
  unfold emit
  split
  · -- The leaf absorbs the reply with another fault, and the same state.
    exact ⟨rfl, (w.unobserved_heed _).symm, rfl, hP.output hl⟩
  · exact ⟨rfl, rfl, rfl, hl⟩

omit [Observer ω] in
theorem fireInternal_unseen (hP : Legible P) {l : Leaf τ σ} (hl : l.Within P) (w : World ω) :
    Outcome.Unseen (Within P) (l.fireInternal w) (l.fireInternal w.unobserved) :=
  absorb_unseen l (hP.internal hl) w

omit [Observer ω] in
theorem fireExternal_unseen (hP : Legible P) {l : Leaf τ σ} (hl : l.Within P) (t since : Instant)
    (w : World ω) :
    Outcome.Unseen (Within P) (l.fireExternal t since w)
      (l.fireExternal t since w.unobserved) := by
  unfold fireExternal
  split
  · exact ⟨rfl, rfl, rfl, hl⟩
  · split
    · exact ⟨rfl, rfl, rfl, hl⟩
    · exact absorb_unseen l (hP.external _ _ hl) w

omit [Observer ω] in
theorem fire_unseen (hP : Legible P) {l : Leaf τ σ} (hl : l.Within P) (t : Instant)
    (w : World ω) : Outcome.Unseen (Within P) (l.fire t w) (l.fire t w.unobserved) := by
  unfold fire
  split
  · split
    · exact fireInternal_unseen hP hl w
    · exact (fireInternal_unseen hP hl w).andThen fun l w hl => fireExternal_unseen hP hl t t w
  · exact fireExternal_unseen hP hl t l.last w

/-- **A leaf reports** while nobody notices. -/
theorem report_unseen (hcalm : Observer.Calm ω) (hP : Legible P) {l : Leaf τ σ}
    (hl : l.Within P) (phase : Phase) (t : Instant) (bags : List BagRecord) (w : World ω) :
    Outcome.Unseen (Within P) (l.report phase t bags w) (l.report phase t bags w.unobserved) := by
  obtain ⟨hworld, hfault⟩ := w.report_unseen hcalm phase l.path t l.last l.next
    (some (AtomicModel.render l.state))
    (fun s hs => Option.mem_some_iff.mp hs ▸ hP.render hl) bags
  exact ⟨rfl, hworld.symm, (congrArg (Option.map Stop.fault) hfault).symm, hl⟩

theorem init_unseen (hcalm : Observer.Calm ω) (hP : Legible P) {l : Leaf τ σ} (hl : l.Within P)
    (t : Instant) (w : World ω) :
    Outcome.Unseen (Within P) (l.init t w) (l.init t w.unobserved) :=
  (reschedule_unseen hP hl t w).andThen fun l w hl =>
    report_unseen hcalm hP (l := { l with initialized := true }) hl .init t [] w

theorem collect_unseen (hcalm : Observer.Calm ω) (hP : Legible P) {l : Leaf τ σ}
    (hl : l.Within P) (t : Instant) (w : World ω) :
    Outcome.Unseen (Within P) (l.collect t w) (l.collect t w.unobserved) := by
  unfold collect
  split
  · exact ⟨rfl, rfl, rfl, hl⟩
  · split
    · exact (emit_unseen hP hl t w).andThen fun l w hl => report_unseen hcalm hP hl .collect t _ w
    · exact ⟨rfl, rfl, rfl, hl⟩

/-- A leaf reports its turn after the transition and before its input is dropped. -/
theorem turn_unseen (hcalm : Observer.Calm ω) (hP : Legible P) {l : Leaf τ σ} (hl : l.Within P)
    (t : Instant) (w : World ω) :
    Outcome.Unseen (Within P) (l.turn t w) (l.turn t w.unobserved) := by
  unfold turn
  split
  · exact ⟨rfl, rfl, rfl, hl⟩
  · refine (fire_unseen hP hl t w).andThen fun l w hl => ?_
    refine (reschedule_unseen hP hl t w).andThen fun l w hl => ?_
    refine (report_unseen hcalm hP hl .advance t _ w).andThen fun l w hl => ?_
    exact ⟨rfl, rfl, rfl, hl⟩

theorem advance_unseen (hcalm : Observer.Calm ω) (hP : Legible P) {l : Leaf τ σ}
    (hl : l.Within P) (t : Instant) (w : World ω) :
    Outcome.Unseen (Within P) (l.advance t w) (l.advance t w.unobserved) := by
  cases hr : l.refuseAdvance t with
  | none =>
      rw [advance_eq_turn hr, advance_eq_turn hr]
      exact turn_unseen hcalm hP (l := { l with outbox := l.outbox.clear }) hl t w
  | some v =>
      simp only [advance, hr]
      exact ⟨rfl, rfl, rfl, hl⟩

end Leaf

/-! ## Trees -/

/-- **A hub reports** while nobody notices. -/
theorem Hub.report_unseen (hcalm : Observer.Calm ω) (h : Hub τ) (phase : Phase) (t : Instant)
    (bags : List BagRecord) (w : World ω) :
    Outcome.Unseen (fun _ => True) (h.report phase t bags w)
      (h.report phase t bags w.unobserved) := by
  obtain ⟨hworld, hfault⟩ := w.report_unseen hcalm phase h.path t h.last h.next none nofun
    bags
  exact ⟨rfl, hworld.symm, (congrArg (Option.map Stop.fault) hfault).symm, trivial⟩

namespace Engine

/-- All states of the tree are in `P`. -/
inductive Within (P : σ → Prop) : Engine τ σ → Prop
  | leaf {l : Leaf τ σ} (self : l.Within P) : Within P (.leaf l)
  | hub {h : Hub τ} {es : List (Engine τ σ)} (each : ∀ e ∈ es, Within P e) :
      Within P (.hub h es)

omit [AtomicModel τ σ] in
theorem Within.of_hub {h : Hub τ} {es : List (Engine τ σ)} (he : Within P (.hub h es)) :
    ∀ e ∈ es, Within P e := by
  cases he with
  | hub each => exact each

omit [AtomicModel τ σ] in
theorem Within.receive {e : Engine τ σ} (he : e.Within P) (mail : List (Delivery τ)) :
    (e.receive mail).Within P := by
  cases he with
  | leaf self => exact .leaf self
  | hub each => exact .hub each

omit [AtomicModel τ σ] in
theorem Within.withInbox {e : Engine τ σ} (he : e.Within P) (x : Bags τ) :
    (e.withInbox x).Within P := by
  cases he with
  | leaf self => exact .leaf self
  | hub each => exact .hub each

omit [AtomicModel τ σ] in
theorem within_receiveAll {ds : List (Delivery τ)} {es : List (Engine τ σ)} {i : Nat}
    (hes : ∀ e ∈ es, Within P e) : ∀ e ∈ receiveAll ds i es, Within P e := by
  induction es generalizing i with
  | nil => exact fun e he => nomatch he
  | cons e es ih =>
      obtain ⟨hfirst, hrest⟩ := List.forall_mem_cons.mp hes
      rw [receiveAll]
      exact List.forall_mem_cons.mpr ⟨hfirst.receive _, ih hrest⟩

omit [AtomicModel τ σ] [Observer ω] in
/-- A new engine has the states of the model. -/
theorem within_ofModelBelow {m : Model τ σ} (hm : m.AllGood fun _ _ => P) :
    ∀ parent : Option String, (ofModelBelow parent m).Within P := by
  induction m using Model.induction with
  | atomic a =>
      cases hm with
      | atomic self => exact fun _ => .leaf self
  | coupled c children ih =>
      cases hm with
      | coupled each =>
          intro parent
          rw [ofModelBelow, ofModelsBelow_eq]
          refine .hub fun e he => ?_
          obtain ⟨m, hmem, rfl⟩ := List.mem_map.mp he
          exact ih m hmem (each m hmem) _

theorem init_unseen (hcalm : Observer.Calm ω) (hP : Legible P) (t : Instant) {e : Engine τ σ} :
    e.Within P → ∀ w : World ω,
      Outcome.Unseen (Within P) (e.init t w) (e.init t w.unobserved) := by
  induction e using Engine.induction with
  | leaf l =>
      rintro ⟨hl⟩ w
      rw [init, init]
      exact (Leaf.init_unseen hcalm hP hl t w).map fun _ => .leaf
  | hub h es ih =>
      rintro he w
      have hes := he.of_hub
      rw [init_hub, init_hub]
      refine (Outcome.Unseen.each hes (fun _ e he w => ih e he (hes e he) w)
        fun _ _ hes => hes).resume (fun _ => .hub) fun es w hes => ?_
      unfold settleInit
      exact (Hub.report_unseen hcalm _ .init t [] w).map fun _ _ => .hub hes

theorem collect_unseen (hcalm : Observer.Calm ω) (hP : Legible P) (t : Instant)
    {e : Engine τ σ} : e.Within P → ∀ w : World ω,
      Outcome.Unseen (Within P) (e.collect t w) (e.collect t w.unobserved) := by
  induction e using Engine.induction with
  | leaf l =>
      rintro ⟨hl⟩ w
      rw [collect, collect]
      exact (Leaf.collect_unseen hcalm hP hl t w).map fun _ => .leaf
  | hub h es ih =>
      intro he w
      have hes := he.of_hub
      cases hr : h.refuseCollect t with
      | some v =>
          simp only [collect, hr]
          exact ⟨rfl, rfl, rfl, he⟩
      | none =>
          cases hdue : h.isImminent t with
          | false =>
              rw [collect_hub_early hr hdue, collect_hub_early hr hdue]
              exact ⟨rfl, rfl, rfl, he⟩
          | true =>
              rw [collect_hub hr hdue, collect_hub hr hdue]
              refine (Outcome.Unseen.each hes (fun _ e he w => ih e he (hes e he) w)
                fun _ _ hes => hes).resume (fun _ => .hub) fun es w hes => ?_
              -- What leaves the network is gathered before the report, or there is a fault.
              unfold settleCollect
              split
              · exact ⟨rfl, rfl, rfl, .hub hes⟩
              · exact (Hub.report_unseen hcalm _ .collect t _ w).map fun _ _ => .hub hes

theorem advanceWith_unseen (hcalm : Observer.Calm ω) (hP : Legible P) (t : Instant)
    {e : Engine τ σ} : e.Within P → ∀ (mail : List (Delivery τ)) (w : World ω),
      Outcome.Unseen (Within P) (advanceWith t mail e w) (advanceWith t mail e w.unobserved) := by
  induction e using Engine.induction with
  | leaf l =>
      rintro ⟨hl⟩ mail w
      rw [advanceWith, advanceWith]
      exact (Leaf.advance_unseen hcalm hP (l := l.receive mail) hl t w).map fun _ => .leaf
  | hub h es ih =>
      intro he mail w
      have hes := he.of_hub
      cases hr : (h.receive mail).refuseAdvance t with
      | some v =>
          simp only [advanceWith, hr]
          exact ⟨rfl, rfl, rfl, .hub hes⟩
      | none =>
          cases hd : (h.receive mail).deliveries (es.map node) with
          | error fault =>
              simp only [advanceWith, hr, hd]
              exact ⟨rfl, rfl, rfl, .hub hes⟩
          | ok ds =>
              rw [advanceWith_hub hr hd, advanceWith_hub hr hd]
              have hwalk : Outcome.Unseen (fun es => ∀ e ∈ es, Within P e)
                  (Outcome.each (fun i => advanceWith t (Hub.mailFor ds i)) (receiveAll ds) 0 es w)
                  (Outcome.each (fun i => advanceWith t (Hub.mailFor ds i)) (receiveAll ds) 0 es
                    w.unobserved) :=
                .each hes (fun _ e he w => ih e he (hes e he) _ w) fun _ _ => within_receiveAll
              refine hwalk.resume (fun _ => .hub) fun es w hes => ?_
              -- The bags of the hub are emptied after the report.
              unfold settleAdvance
              exact ((Hub.report_unseen hcalm _ .advance t _ w).andThen
                fun h w _ => ⟨rfl, rfl, rfl, trivial⟩).map fun _ _ => .hub hes

/-- **A call on the root** does the same without the observer. -/
theorem perform_unseen (hcalm : Observer.Calm ω) (hP : Legible P) {e : Engine τ σ}
    (he : e.Within P) (w : World ω) (c : Call τ) :
    Outcome.Unseen (Within P) (e.perform w c) (e.perform w.unobserved c) := by
  cases c with
  | init t => exact init_unseen hcalm hP t he w
  | collect t => exact collect_unseen hcalm hP t he w
  | advance t => exact advanceWith_unseen hcalm hP t he [] w
  | inject port values =>
      simp only [perform]
      split
      · exact ⟨rfl, rfl, rfl, he⟩
      · exact ⟨rfl, rfl, rfl, he.withInbox _⟩

theorem step_unseen (hcalm : Observer.Calm ω) (hP : Legible P) {e : Engine τ σ}
    (he : e.Within P) (w : World ω) :
    Outcome.Unseen (Within P) (e.step w) (e.step w.unobserved) :=
  (collect_unseen hcalm hP e.next he w).andThen fun _ w he =>
    advanceWith_unseen hcalm hP _ he [] w

/-- **A run** takes the same course without the observer: the supervisor is asked the same
questions, since it sees times and the wish to stop. -/
theorem run_unseen [Supervisor π] (hcalm : Observer.Calm ω) (hP : Legible P) {n : Nat} :
    ∀ {e : Engine τ σ} {p : π} {w : World ω}, e.Within P →
      Option.Rel (Outcome.Unseen fun x => x.1.Within P) (e.run n p w)
        (e.run n p w.unobserved) := by
  induction n with
  | zero => exact fun _ => .none
  | succ n ih =>
      intro e p w he
      simp only [run, World.interrupted_unobserved, ← World.unobserved_heed]
      split
      · exact .some ⟨rfl, rfl, rfl, he⟩
      · split
        · obtain ⟨hstate, hworld, hstop, hwithin⟩ := step_unseen hcalm hP he
            (w.heed (Supervisor.proceed e.next w.interrupted p))
          simp only [hstate, hworld, hstop, ← World.unobserved_heed]
          split
          · exact .some ⟨congrArg (·, _) hstate, hworld, hstop, hwithin⟩
          · split
            · exact .some ⟨rfl, rfl, rfl, hwithin⟩
            · exact ih hwithin
        · exact .some ⟨rfl, rfl, rfl, he⟩

end Engine

end DiscreteEvent
