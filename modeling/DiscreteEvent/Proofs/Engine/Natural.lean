/-
Engines do not look into states.

An engine touches the state of a model only by the functions of the model. So when the
states of one type stand for those of another one, and all functions say the same on
both, the engines over the two types do the same, state by state: initialization, both
halves of a step, whole steps and whole runs. Here this is for models with journals
(`Journaled`), from which the journals are struck out: an engine of models with journals
is the engine of these models, and its journals are true.
-/
import DiscreteEvent.Engine.Run
import DiscreteEvent.Proofs.Engine.Call
import DiscreteEvent.Proofs.Model.Journal

set_option autoImplicit false

namespace DiscreteEvent

variable {τ σ σ' ω π : Type} [MessageType τ]

/-! ## Outcomes -/

namespace Outcome

variable {ε δ : Type}

/-- One call after another, seen in another state. -/
theorem andThen_map {f : ε → δ} {o : Outcome ε ω} {next : ε → World ω → Outcome ε ω}
    {next' : δ → World ω → Outcome δ ω} (h : ∀ s w, next' (f s) w = (next s w).map f) :
    (o.map f).andThen next' = (o.andThen next).map f := by
  cases hs : o.stop with
  | none => simp only [andThen, stop_map, hs, state_map, world_map, h]
  | some s => simp only [andThen, stop_map, hs]

/-- A walk over elements that are seen in another state. -/
theorem each_map {g : ε → δ} {call : Nat → ε → World ω → Outcome ε ω}
    {call' : Nat → δ → World ω → Outcome δ ω} {rest : Nat → List ε → List ε}
    {rest' : Nat → List δ → List δ} {es : List ε} :
    ∀ {i : Nat} {w : World ω},
      (∀ j, ∀ e ∈ es, ∀ w, call' j (g e) w = (call j e w).map g) →
      (∀ j (es : List ε), rest' j (es.map g) = (rest j es).map g) →
      each call' rest' i (es.map g) w = (each call rest i es w).map (List.map g) := by
  induction es with
  | nil => exact fun _ _ => rfl
  | cons e es ih =>
      intro i w hcall hrest
      have hfirst := hcall i e (by simp) w
      rw [List.map_cons, each, each, hfirst]
      cases hs : (call i e w).stop with
      | some s =>
          simp only [stop_map, hs, hrest]
          rfl
      | none =>
          -- The walk goes on in the world that the first call has left.
          simp only [stop_map, hs, world_map, state_map]
          rw [ih (fun j e he => hcall j e (by simp [he])) hrest]
          rfl

theorem resume_map {ε' δ' : Type} {g : ε → δ} {g' : ε' → δ'} {o : Outcome ε ω} {wrap : ε → ε'}
    {wrap' : δ → δ'} {next : ε → World ω → Outcome ε' ω} {next' : δ → World ω → Outcome δ' ω}
    (hwrap : ∀ s, wrap' (g s) = g' (wrap s)) (hnext : ∀ s w, next' (g s) w = (next s w).map g') :
    (o.map g).resume wrap' next' = (o.resume wrap next).map g' := by
  cases hs : o.stop with
  | none => simp only [resume, stop_map, hs, state_map, world_map, hnext]
  | some s => simp only [resume, hs, map, hwrap]

end Outcome

/-! ## Faithful changes of states -/

/-- **All functions say the same** before and after a change of states. -/
structure Faithful [AtomicModel τ σ] [AtomicModel τ σ'] (f : σ → σ') : Prop where
  timeAdvance : ∀ s : σ,
    AtomicModel.timeAdvance (f s) = (AtomicModel.timeAdvance s).mapState f
  output : ∀ s : σ, AtomicModel.output (f s) = (AtomicModel.output s).mapState f
  internal : ∀ s : σ, AtomicModel.internal (f s) = (AtomicModel.internal s).mapState f
  external : ∀ (s : σ) (elapsed : Span) (x : Bags τ),
    AtomicModel.external (f s) elapsed x = (AtomicModel.external s elapsed x).mapState f
  render : ∀ s : σ, AtomicModel.render (f s) = AtomicModel.render s

/-- **Striking out the journal** changes nothing that a model says. -/
theorem faithful_self [AtomicModel τ σ] :
    Faithful (Journaled.self : Journaled τ σ → σ) where
  timeAdvance _ := rfl
  output _ := rfl
  internal _ := rfl
  external _ _ _ := rfl
  render _ := rfl

/-! ## Leaves -/

namespace Leaf

/-- The leaf in a changed state. -/
def mapState (f : σ → σ') (l : Leaf τ σ) : Leaf τ σ' := ⟨l.toNode, f l.state⟩

variable [AtomicModel τ σ] [AtomicModel τ σ'] {f : σ → σ'}

theorem reschedule_mapState (hf : Faithful f) (l : Leaf τ σ) (t : Instant) (w : World ω) :
    (l.mapState f).reschedule t w = (l.reschedule t w).map (mapState f) := by
  have hcall : AtomicModel.timeAdvance (l.mapState f).state
      = (AtomicModel.timeAdvance l.state).mapState f := hf.timeAdvance l.state
  simp only [reschedule, hcall]
  exact Outcome.andThen_map (f := mapState f)
    (o := absorb { l with last := t } (AtomicModel.timeAdvance l.state) w) fun _ _ => rfl

theorem emit_mapState (hf : Faithful f) (l : Leaf τ σ) (t : Instant) (w : World ω) :
    (l.mapState f).emit t w = (l.emit t w).map (mapState f) := by
  have hcall : AtomicModel.output (l.mapState f).state
      = (AtomicModel.output l.state).mapState f := hf.output l.state
  have hdue : (l.mapState f).isImminent t = l.isImminent t := rfl
  simp only [emit, hcall, hdue]
  split <;> rfl

theorem fireInternal_mapState (hf : Faithful f) (l : Leaf τ σ) (w : World ω) :
    (l.mapState f).fireInternal w = (l.fireInternal w).map (mapState f) := by
  have hcall : AtomicModel.internal (l.mapState f).state
      = (AtomicModel.internal l.state).mapState f := hf.internal l.state
  rw [fireInternal, fireInternal, hcall]
  rfl

theorem fireExternal_mapState (hf : Faithful f) (l : Leaf τ σ) (t since : Instant)
    (w : World ω) :
    (l.mapState f).fireExternal t since w = (l.fireExternal t since w).map (mapState f) := by
  have hcall : ∀ elapsed : Span, AtomicModel.external (l.mapState f).state elapsed l.inbox
      = (AtomicModel.external l.state elapsed l.inbox).mapState f :=
    fun elapsed => hf.external l.state elapsed l.inbox
  have hinbox : (l.mapState f).inbox = l.inbox := rfl
  simp only [fireExternal, hcall, hinbox]
  split
  · rfl
  · split <;> rfl

theorem fire_mapState (hf : Faithful f) (l : Leaf τ σ) (t : Instant) (w : World ω) :
    (l.mapState f).fire t w = (l.fire t w).map (mapState f) := by
  have hdue : (l.mapState f).isImminent t = l.isImminent t := rfl
  have hinbox : (l.mapState f).inbox = l.inbox := rfl
  have hlast : (l.mapState f).last = l.last := rfl
  simp only [fire, hdue, hinbox, hlast, fireInternal_mapState hf, fireExternal_mapState hf]
  split
  · split
    · rfl
    · exact Outcome.andThen_map fun _ _ => fireExternal_mapState hf _ _ _ _
  · rfl

variable [Observer ω]

theorem report_mapState (hf : Faithful f) (l : Leaf τ σ) (phase : Phase) (t : Instant)
    (bags : List BagRecord) (w : World ω) :
    (l.mapState f).report phase t bags w = (l.report phase t bags w).map (mapState f) := by
  have hrender : AtomicModel.render (l.mapState f).state = AtomicModel.render l.state :=
    hf.render l.state
  simp only [report, hrender]
  rfl

theorem init_mapState (hf : Faithful f) (l : Leaf τ σ) (t : Instant) (w : World ω) :
    (l.mapState f).init t w = (l.init t w).map (mapState f) := by
  rw [init, init, reschedule_mapState hf]
  exact Outcome.andThen_map fun l w => report_mapState hf { l with initialized := true } _ _ _ _

theorem collect_mapState (hf : Faithful f) (l : Leaf τ σ) (t : Instant) (w : World ω) :
    (l.mapState f).collect t w = (l.collect t w).map (mapState f) := by
  have hdue : (l.mapState f).isImminent t = l.isImminent t := rfl
  have hrefuse : (l.mapState f).refuseCollect t = l.refuseCollect t := rfl
  simp only [collect, hdue, hrefuse, emit_mapState hf]
  split
  · rfl
  · split
    · exact Outcome.andThen_map fun l w => report_mapState hf l _ _ _ _
    · rfl

/-- What an advance comes to that is not refused, once the outbox is empty. -/
def turn (t : Instant) (l : Leaf τ σ) (w : World ω) : Outcome (Leaf τ σ) ω :=
  if l.inbox.isEmpty && !l.isImminent t then .done l w
  else
    (l.fire t w).andThen fun l w =>
      (l.reschedule t w).andThen fun l w =>
        (l.report .advance t (Record.bagsOf .input l.inbox) w).andThen fun l w =>
          .done { l with inbox := l.inbox.clear } w

theorem advance_eq_turn {l : Leaf τ σ} {t : Instant} (hr : l.refuseAdvance t = none)
    (w : World ω) : l.advance t w = turn t { l with outbox := l.outbox.clear } w := by
  rw [advance, hr]
  rfl

theorem turn_mapState (hf : Faithful f) (l : Leaf τ σ) (t : Instant) (w : World ω) :
    (l.mapState f).turn t w = (l.turn t w).map (mapState f) := by
  have hinbox : (l.mapState f).inbox = l.inbox := rfl
  have hdue : (l.mapState f).isImminent t = l.isImminent t := rfl
  simp only [turn, hinbox, hdue]
  split
  · rfl
  · rw [fire_mapState hf]
    refine Outcome.andThen_map fun l w => ?_
    rw [reschedule_mapState hf]
    refine Outcome.andThen_map fun l w => ?_
    have hinbox : (l.mapState f).inbox = l.inbox := rfl
    rw [report_mapState hf, hinbox]
    exact Outcome.andThen_map fun _ _ => rfl

theorem advance_mapState (hf : Faithful f) (l : Leaf τ σ) (t : Instant) (w : World ω) :
    (l.mapState f).advance t w = (l.advance t w).map (mapState f) := by
  have hrefuse : (l.mapState f).refuseAdvance t = l.refuseAdvance t := rfl
  cases hr : l.refuseAdvance t with
  | none =>
      -- Clearing the outbox is a change of the node, and commutes with that of the state.
      rw [advance_eq_turn hr, advance_eq_turn (hrefuse.trans hr)]
      exact turn_mapState hf { l with outbox := l.outbox.clear } t w
  | some v =>
      simp only [advance, hrefuse, hr]
      rfl

end Leaf

/-! ## Trees -/

namespace Engine

mutual

/-- **The tree with changed states.** -/
def mapState (f : σ → σ') : Engine τ σ → Engine τ σ'
  | leaf l => leaf (l.mapState f)
  | hub h es => hub h (mapStates f es)

def mapStates (f : σ → σ') : List (Engine τ σ) → List (Engine τ σ')
  | [] => []
  | e :: rest => mapState f e :: mapStates f rest

end

theorem mapStates_eq (f : σ → σ') (es : List (Engine τ σ)) :
    mapStates f es = es.map (mapState f) := by
  induction es with
  | nil => rfl
  | cons e es ih => rw [mapStates, ih, List.map_cons]

theorem mapState_hub (f : σ → σ') (h : Hub τ) (es : List (Engine τ σ)) :
    mapState f (.hub h es) = .hub h (es.map (mapState f)) := by
  rw [mapState, mapStates_eq]

@[simp] theorem node_mapState (f : σ → σ') (e : Engine τ σ) : (e.mapState f).node = e.node := by
  cases e <;> rfl

@[simp] theorem next_mapState (f : σ → σ') (e : Engine τ σ) : (e.mapState f).next = e.next := by
  rw [next, node_mapState, next]

theorem nodes_mapState (f : σ → σ') (es : List (Engine τ σ)) :
    (es.map (mapState f)).map node = es.map node := by
  rw [List.map_map]
  exact List.map_congr_left fun e _ => node_mapState f e

theorem withInbox_mapState (f : σ → σ') (e : Engine τ σ) (inbox : Bags τ) :
    (e.mapState f).withInbox inbox = (e.withInbox inbox).mapState f := by
  cases e <;> rfl

theorem receive_mapState (f : σ → σ') (e : Engine τ σ) (mail : List (Delivery τ)) :
    (e.mapState f).receive mail = (e.receive mail).mapState f := by
  cases e <;> rfl

theorem receiveAll_mapState (f : σ → σ') (ds : List (Delivery τ)) (es : List (Engine τ σ))
    (i : Nat) : receiveAll ds i (es.map (mapState f)) = (receiveAll ds i es).map (mapState f) := by
  induction es generalizing i with
  | nil => rfl
  | cons e es ih => rw [List.map_cons, receiveAll, receiveAll, ih, receive_mapState, List.map_cons]

variable [AtomicModel τ σ] [AtomicModel τ σ'] [Observer ω] {f : σ → σ'}

theorem init_mapState (hf : Faithful f) (t : Instant) (e : Engine τ σ) :
    ∀ w : World ω, (e.mapState f).init t w = (e.init t w).map (mapState f) := by
  induction e using Engine.induction with
  | leaf l =>
      intro w
      rw [mapState, init, init, Leaf.init_mapState hf]
      rfl
  | hub h es ih =>
      intro w
      rw [mapState_hub, init_hub, init_hub,
        Outcome.each_map (fun _ e he => ih e he) fun _ _ => rfl]
      refine Outcome.resume_map (fun es => (mapState_hub f h es).symm) fun es w => ?_
      simp only [settleInit, nodes_mapState, ← mapState_hub]
      rfl

theorem collect_mapState (hf : Faithful f) (t : Instant) (e : Engine τ σ) :
    ∀ w : World ω, (e.mapState f).collect t w = (e.collect t w).map (mapState f) := by
  induction e using Engine.induction with
  | leaf l =>
      intro w
      rw [mapState, collect, collect, Leaf.collect_mapState hf]
      rfl
  | hub h es ih =>
      intro w
      rw [mapState_hub]
      cases hr : h.refuseCollect t with
      | some v =>
          simp only [collect, hr, ← mapState_hub]
          rfl
      | none =>
          cases hdue : h.isImminent t with
          | false =>
              rw [collect_hub_early hr hdue, collect_hub_early hr hdue, ← mapState_hub]
              rfl
          | true =>
              rw [collect_hub hr hdue, collect_hub hr hdue,
                Outcome.each_map (fun _ e he => ih e he) fun _ _ => rfl]
              refine Outcome.resume_map (fun es => (mapState_hub f _ es).symm) fun es w => ?_
              simp only [settleCollect, nodes_mapState]
              split
              · rw [← mapState_hub]
                rfl
              · simp only [← mapState_hub]
                rfl

theorem advanceWith_mapState (hf : Faithful f) (t : Instant) (e : Engine τ σ) :
    ∀ (mail : List (Delivery τ)) (w : World ω),
      advanceWith t mail (e.mapState f) w = (advanceWith t mail e w).map (mapState f) := by
  induction e using Engine.induction with
  | leaf l =>
      intro mail w
      rw [mapState, advanceWith, advanceWith,
        show (l.mapState f).receive mail = (l.receive mail).mapState f from rfl,
        Leaf.advance_mapState hf]
      rfl
  | hub h es ih =>
      intro mail w
      rw [mapState_hub]
      cases hr : (h.receive mail).refuseAdvance t with
      | some v =>
          simp only [advanceWith, hr, ← mapState_hub]
          rfl
      | none =>
          cases hd : (h.receive mail).deliveries (es.map node) with
          | error fault =>
              simp only [advanceWith, hr, hd, nodes_mapState, ← mapState_hub]
              rfl
          | ok ds =>
              -- The mail is made up from the nodes alone, so it is the same on both sides.
              rw [advanceWith_hub hr hd, advanceWith_hub hr ((nodes_mapState f es).symm ▸ hd),
                Outcome.each_map (fun _ e he => ih e he _) fun j es => receiveAll_mapState f ds es j]
              refine Outcome.resume_map (fun es => (mapState_hub f _ es).symm) fun es w => ?_
              simp only [settleAdvance, nodes_mapState, ← mapState_hub]
              rfl

/-- **A call on the root** does the same in changed states. -/
theorem perform_mapState (hf : Faithful f) (e : Engine τ σ) (w : World ω) (c : Call τ) :
    (e.mapState f).perform w c = (e.perform w c).map (mapState f) := by
  cases c with
  | init t => exact init_mapState hf t e w
  | collect t => exact collect_mapState hf t e w
  | advance t => exact advanceWith_mapState hf t e [] w
  | inject port values =>
      simp only [perform, node_mapState]
      split
      · rfl
      · rw [withInbox_mapState]
        rfl

theorem step_mapState (hf : Faithful f) (e : Engine τ σ) (w : World ω) :
    (e.mapState f).step w = (e.step w).map (mapState f) := by
  rw [step, step, next_mapState, collect_mapState hf]
  exact Outcome.andThen_map fun e w => advanceWith_mapState hf _ e [] w

/-- **A run** takes the same course in changed states. -/
theorem run_mapState [Supervisor π] (hf : Faithful f) {n : Nat} :
    ∀ {e : Engine τ σ} {p : π} {w : World ω}, (e.mapState f).run n p w
      = (e.run n p w).map fun o => o.map fun x => (x.1.mapState f, x.2) := by
  induction n with
  | zero => exact rfl
  | succ n ih =>
      intro e p w
      -- The supervisor sees times and the world, and these are the same on both sides.
      simp only [run, next_mapState, step_mapState hf, Outcome.stop_map, Outcome.state_map,
        Outcome.world_map]
      split
      · rfl
      · split
        · split
          · rfl
          · split
            · rfl
            · exact ih
        · rfl

end Engine

/-! ## Trees with journals -/

namespace Engine

theorem ofModelsBelow_eq (parent : String) (models : List (Model τ σ)) :
    ofModelsBelow parent models = models.map (ofModelBelow (some parent)) := by
  induction models with
  | nil => rfl
  | cons m models ih => rw [ofModelsBelow, ih, List.map_cons]

/-- **The engine of models with journals** is the engine of the models, once the journals
are struck out. -/
theorem plain_ofModelBelow (m : Model τ σ) :
    ∀ parent : Option String,
      (ofModelBelow parent m.journaled).mapState Journaled.self = ofModelBelow parent m := by
  induction m using Model.induction with
  | atomic a => exact fun _ => rfl
  | coupled c children ih =>
      intro parent
      rw [Model.journaled, Model.mapState, Model.mapStates_eq, ofModelBelow, ofModelBelow,
        mapState_hub, ofModelsBelow_eq, ofModelsBelow_eq, List.map_map, List.map_map,
        List.length_map]
      exact congrArg _ (List.map_congr_left fun m hm => ih m hm _)

end Engine

end DiscreteEvent
