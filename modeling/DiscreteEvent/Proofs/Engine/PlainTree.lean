/-
What the calls of an engine tree do when nothing goes wrong.

On the engine of a wired tree whose models keep their contract, no place is
missing and no call is refused further down. What a hub does then is to route
and to pass the call on: `started`, `shown` and `moved` are the states that the
three calls lead to, and `startEffect`, `showEffect` and `moveEffect` what they
do to the world.

`Engine.Sound` is the invariant, and `init_eq`, `collect_eq` and `advance_eq` are
the equations. Each is an induction over the tree with the same three steps: the
routes of the hub can be followed, no child stops, and the report is taken.
-/
import DiscreteEvent.Proofs.Engine.PlainLeaf
import DiscreteEvent.Proofs.Engine.Routing

set_option autoImplicit false

namespace DiscreteEvent

variable {τ σ ω : Type} [MessageType τ] [AtomicModel τ σ]

/-! ## Trees -/

namespace Engine

mutual

/-- The tree after its initialization at `t`. -/
def started (t : Instant) : Engine τ σ → Engine τ σ
  | leaf l => leaf (l.started t)
  | hub h es =>
    hub { h with
      last := t, next := Hub.earliest ((startedAll t es).map node), initialized := true }
      (startedAll t es)

def startedAll (t : Instant) : List (Engine τ σ) → List (Engine τ σ)
  | [] => []
  | e :: es => started t e :: startedAll t es

end

mutual

/-- The tree after the outputs at `t`. -/
def shown (t : Instant) : Engine τ σ → Engine τ σ
  | leaf l => leaf (l.shown t)
  | hub h es =>
    if h.isImminent t then
      hub { h with
        outbox := Hub.gathered { h with outbox := h.outbox.clear } ((shownAll t es).map node) }
        (shownAll t es)
    else hub h es

def shownAll (t : Instant) : List (Engine τ σ) → List (Engine τ σ)
  | [] => []
  | e :: es => shown t e :: shownAll t es

end

mutual

/-- The tree after it advanced to `t` with the given mail. -/
def moved (t : Instant) (mail : List (Delivery τ)) : Engine τ σ → Engine τ σ
  | leaf l => leaf ((l.receive mail).moved t)
  | hub h es =>
    let es' := movedAll t ((h.receive mail).posted (es.map node)) 0 es
    hub { h with
      last := t, next := Hub.earliest (es'.map node),
      inbox := (h.receive mail).inbox.clear, outbox := h.outbox.clear } es'

def movedAll (t : Instant) (ds : List (Delivery τ)) :
    Nat → List (Engine τ σ) → List (Engine τ σ)
  | _, [] => []
  | i, e :: es => moved t (Hub.mailFor ds i) e :: movedAll t ds (i + 1) es

end

mutual

def startEffect (t : Instant) : Engine τ σ → Effect
  | leaf l => l.startEffect t
  | hub h es => startEffects t 0 es ++ (started t (hub h es)).node.noted none .init t []

def startEffects (t : Instant) : Nat → List (Engine τ σ) → Effect
  | _, [] => {}
  | i, e :: es => (startEffect t e).below i ++ startEffects t (i + 1) es

end

mutual

def showEffect (t : Instant) : Engine τ σ → Effect
  | leaf l => l.showEffect t
  | hub h es =>
    if h.isImminent t then
      showEffects t 0 es ++ (shown t (hub h es)).node.noted none .collect t
        (Record.bagsOf .output (shown t (hub h es)).node.outbox)
    else {}

def showEffects (t : Instant) : Nat → List (Engine τ σ) → Effect
  | _, [] => {}
  | i, e :: es => (showEffect t e).below i ++ showEffects t (i + 1) es

end

mutual

def moveEffect (t : Instant) (mail : List (Delivery τ)) : Engine τ σ → Effect
  | leaf l => (l.receive mail).moveEffect t
  | hub h es =>
    moveEffects t ((h.receive mail).posted (es.map node)) 0 es ++
      (moved t mail (hub h es)).node.noted none .advance t
        (Record.bagsOf .input (h.receive mail).inbox)

def moveEffects (t : Instant) (ds : List (Delivery τ)) : Nat → List (Engine τ σ) → Effect
  | _, [] => {}
  | i, e :: es => (moveEffect t (Hub.mailFor ds i) e).below i ++ moveEffects t ds (i + 1) es

end

/-! The recursions over children, as maps. -/

theorem startedAll_eq (t : Instant) (es : List (Engine τ σ)) :
    startedAll t es = es.mapIdx fun _ => started t := by
  induction es with
  | nil => rfl
  | cons e es ih => rw [startedAll, ih, List.mapIdx_cons]

theorem shownAll_eq (t : Instant) (es : List (Engine τ σ)) :
    shownAll t es = es.mapIdx fun _ => shown t := by
  induction es with
  | nil => rfl
  | cons e es ih => rw [shownAll, ih, List.mapIdx_cons]

theorem movedAll_eq (t : Instant) (ds : List (Delivery τ)) (es : List (Engine τ σ)) (i : Nat) :
    movedAll t ds i es = es.mapIdx fun j => moved t (Hub.mailFor ds (i + j)) := by
  induction es generalizing i with
  | nil => rfl
  | cons e es ih =>
      rw [movedAll, ih, List.mapIdx_cons]
      simp only [Nat.add_zero, Nat.add_assoc, Nat.add_comm 1]

theorem startEffects_eq (t : Instant) (es : List (Engine τ σ)) (i : Nat) :
    startEffects t i es = Effect.each (fun _ => startEffect t) i es := by
  induction es generalizing i with
  | nil => rfl
  | cons e es ih => rw [startEffects, ih, Effect.each]

theorem showEffects_eq (t : Instant) (es : List (Engine τ σ)) (i : Nat) :
    showEffects t i es = Effect.each (fun _ => showEffect t) i es := by
  induction es generalizing i with
  | nil => rfl
  | cons e es ih => rw [showEffects, ih, Effect.each]

theorem moveEffects_eq (t : Instant) (ds : List (Delivery τ)) (es : List (Engine τ σ))
    (i : Nat) :
    moveEffects t ds i es = Effect.each (fun i => moveEffect t (Hub.mailFor ds i)) i es := by
  induction es generalizing i with
  | nil => rfl
  | cons e es ih => rw [moveEffects, ih, Effect.each]

/-! ## The invariant -/

/-- **The sound engines of a model**: leaves and hubs are, and the shapes agree. -/
inductive Sound (good : Interface τ → Stage → σ → Prop) : Model τ σ → Engine τ σ → Prop
  | leaf {a : Atomic τ σ} {l : Leaf τ σ} (self : l.Sound good a.interface) :
      Sound good (.atomic a) (.leaf l)
  | hub {c : Coupled τ} {models : List (Model τ σ)} {h : Hub τ} {es : List (Engine τ σ)}
      (self : h.Sound c models.length) (length_eq : models.length = es.length)
      (each : ∀ (i : Nat) (m : Model τ σ) (e : Engine τ σ), models[i]? = some m →
        es[i]? = some e → Sound good m e) : Sound good (.coupled c models) (.hub h es)

variable {good : Interface τ → Stage → σ → Prop}

omit [AtomicModel τ σ] in
theorem Sound.inbox {m : Model τ σ} {e : Engine τ σ} (h : Sound good m e) :
    e.node.inbox.Fits m.interface.inputs := by
  cases h with
  | leaf self => exact self.inbox
  | hub self => exact self.inbox

omit [AtomicModel τ σ] in
theorem Sound.outbox {m : Model τ σ} {e : Engine τ σ} (h : Sound good m e) :
    e.node.outbox.Fits m.interface.outputs := by
  cases h with
  | leaf self => exact self.outbox
  | hub self => exact self.outbox

omit [AtomicModel τ σ] in
/-- The children of a sound hub have bags that fit. -/
theorem Sound.furnished {c : Coupled τ} {models : List (Model τ σ)} {h : Hub τ}
    {es : List (Engine τ σ)} (hs : Sound good (.coupled c models) (.hub h es)) :
    Hub.Furnished models (es.map node) := by
  cases hs with
  | hub self length_eq each =>
      refine ⟨by rw [List.length_map, length_eq], fun i m n hm hn => ?_⟩
      rw [List.getElem?_map, Option.map_eq_some_iff] at hn
      obtain ⟨e, he, rfl⟩ := hn
      exact ⟨(each i m e hm he).inbox, (each i m e hm he).outbox⟩

omit [AtomicModel τ σ] in
/-- A hub is the engine of a coupled model. -/
theorem Sound.of_hub {m : Model τ σ} {h : Hub τ} {es : List (Engine τ σ)}
    (hs : Sound good m (.hub h es)) :
    ∃ c models, m = .coupled c models ∧ h.Sound c models.length := by
  cases hs with
  | hub self => exact ⟨_, _, rfl, self⟩

omit [AtomicModel τ σ] in
/-- Every child of a sound hub is a sound engine of a child of the model. -/
theorem Sound.child {c : Coupled τ} {models : List (Model τ σ)} {h : Hub τ}
    {es : List (Engine τ σ)} (hs : Sound good (.coupled c models) (.hub h es)) {i : Nat}
    {e : Engine τ σ} (he : es[i]? = some e) :
    ∃ m, models[i]? = some m ∧ m ∈ models ∧ Sound good m e := by
  cases hs with
  | hub self length_eq each =>
      have hlt : i < models.length := by
        rw [length_eq]
        exact (List.getElem?_eq_some_iff.mp he).1
      have hm := List.getElem?_eq_getElem hlt
      exact ⟨_, hm, List.getElem_mem hlt, each i _ e hm he⟩

/-! ## The equations -/

variable [Observer ω]

/-- A hub makes its report. -/
theorem report_eq (ha : Attended ω good) (h : Hub τ) (phase : Phase) (t : Instant)
    (bags : List BagRecord) (w : World ω) :
    h.report phase t bags w = .done h (w.after (h.toNode.noted none phase t bags)) := by
  rw [Hub.report, World.report_none ha]
  rfl

omit [AtomicModel τ σ] in
/-- **A walk over the children of a sound hub**, by calls whose result is known
and sound. Whatever becomes of the hub itself, the new tree is sound with it. -/
theorem Sound.walk {c : Coupled τ} {models : List (Model τ σ)} {h : Hub τ}
    {es : List (Engine τ σ)} {call : Nat → Engine τ σ → World ω → Outcome (Engine τ σ) ω}
    (rest : Nat → List (Engine τ σ) → List (Engine τ σ)) {f : Nat → Engine τ σ → Engine τ σ}
    {x : Nat → Engine τ σ → Effect} (hs : Sound good (.coupled c models) (.hub h es))
    (hcall : ∀ (i : Nat) (m : Model τ σ) (e : Engine τ σ), models[i]? = some m →
      m ∈ models → e ∈ es → Sound good m e → ∀ w,
        call i e w = .done (f i e) (w.after (x i e)) ∧ Sound good m (f i e)) (w : World ω) :
    Outcome.each call rest 0 es w = .done (es.mapIdx f) (w.after (Effect.each x 0 es)) ∧
      ∀ {h' : Hub τ}, h'.Sound c models.length →
        Sound good (.coupled c models) (.hub h' (es.mapIdx f)) := by
  have hchild : ∀ i e, es[i]? = some e → ∃ m, models[i]? = some m ∧ ∀ w : World ω,
      call i e w = .done (f i e) (w.after (x i e)) ∧ Sound good m (f i e) := by
    intro i e he
    obtain ⟨m, hm, hmem, hsound⟩ := hs.child he
    exact ⟨m, hm, hcall i m e hm hmem (List.mem_of_getElem? he) hsound⟩
  constructor
  · have hwalk : Outcome.each call rest 0 es w
        = .done (es.mapIdx fun j => f (0 + j)) (w.after (Effect.each x 0 es)) := by
      refine Outcome.each_eq_done fun j e he w => ?_
      obtain ⟨m, -, heq⟩ := hchild j e he
      rw [Nat.zero_add]
      exact (heq w).1
    simp only [Nat.zero_add] at hwalk
    exact hwalk
  · intro h' hself
    cases hs with
    | hub _ length_eq _ =>
        refine .hub hself (by rw [List.length_mapIdx, length_eq]) fun i m e' hm he' => ?_
        rw [List.getElem?_mapIdx, Option.map_eq_some_iff] at he'
        obtain ⟨e, he, rfl⟩ := he'
        obtain ⟨m', hm', heq⟩ := hchild i e he
        cases hm.symm.trans hm'
        exact (heq w).2

/-- **Initializing a sound tree.** -/
theorem init_eq (hc : Contract good) (ha : Attended ω good) (t : Instant) (e : Engine τ σ) :
    ∀ {m : Model τ σ}, Sound good m e → ∀ w : World ω,
      e.init t w = .done (e.started t) (w.after (e.startEffect t)) ∧
        Sound good m (e.started t) := by
  induction e using Engine.induction with
  | leaf l =>
      intro m hs w
      cases hs with
      | leaf self =>
          obtain ⟨heq, hsound⟩ := Leaf.init_eq hc ha self t w
          rw [init, heq]
          exact ⟨rfl, .leaf hsound⟩
  | hub h es ih =>
      intro m hs w
      obtain ⟨c, models, rfl, hself⟩ := hs.of_hub
      obtain ⟨hwalk, hsound⟩ := hs.walk (fun _ => id)
        (fun _ m e _ _ he hm w => ih e he hm w) w
      rw [init_hub, hwalk, Outcome.resume_done, settleInit, report_eq ha, startEffect,
        startEffects_eq, World.after_append, started, startedAll_eq]
      exact ⟨rfl, hsound ⟨hself.eic, hself.eoc, hself.ic, hself.inbox, hself.outbox⟩⟩

/-- **Collecting from a sound tree** up to its next event. -/
theorem collect_eq (hc : Contract good) (ha : Attended ω good) (t : Instant) (e : Engine τ σ) :
    ∀ {m : Model τ σ}, m.Wired → Sound good m e → e.Windowed → e.Initialized → t ≤ e.next →
      ∀ w : World ω, e.collect t w = .done (e.shown t) (w.after (e.showEffect t)) ∧
        Sound good m (e.shown t) := by
  induction e using Engine.induction with
  | leaf l =>
      intro m hm hs _ hi ht w
      cases hs with
      | leaf self =>
          obtain ⟨heq, hsound⟩ := Leaf.collect_eq hc ha hm.distinct self hi.node ht w
          rw [collect, heq]
          exact ⟨rfl, .leaf hsound⟩
  | hub h es ih =>
      intro m hm hs hw hi ht w
      obtain ⟨c, models, rfl, hself⟩ := hs.of_hub
      have hr : h.refuseCollect t = none := Node.refuseCollect_eq_none hi.node ht
      by_cases hdue : h.isImminent t = true
      · obtain ⟨hwalk, hsound⟩ := hs.walk (fun _ => id)
          (fun _ m e _ hmem he hme w => ih e he (hm.child hmem) hme (hw.child he) (hi.child he)
            (le_trans ht (hw.next_le he)) w) w
        -- The hub gathers the outputs into an empty outbox.
        have hclear : Hub.Sound c models.length { h with outbox := h.outbox.clear } :=
          ⟨hself.eic, hself.eoc, hself.ic, hself.inbox,
            hself.outbox.clear ▸ Bags.fits_ofPorts _⟩
        obtain ⟨hgather, hfits⟩ := Hub.gather_eq hm.self hclear (hsound hclear).furnished
        rw [collect_hub hr hdue, hwalk, Outcome.resume_done, settleCollect]
        simp only [hgather]
        rw [report_eq ha, showEffect, if_pos hdue, showEffects_eq, World.after_append, shown,
          if_pos hdue, shownAll_eq]
        exact ⟨rfl, hsound ⟨hself.eic, hself.eoc, hself.ic, hself.inbox, hfits⟩⟩
      · rw [collect_hub_early hr (Bool.eq_false_iff.mpr hdue), shown, showEffect, if_neg hdue,
          if_neg hdue, World.after_nothing]
        exact ⟨rfl, hs⟩

/-- **Advancing a sound tree** inside of its window, with mail for its ports. -/
theorem advance_eq (hc : Contract good) (ha : Attended ω good) (t : Instant) (e : Engine τ σ) :
    ∀ {m : Model τ σ} {mail : List (Delivery τ)}, m.Wired → Sound good m e → e.Windowed →
      e.Initialized → e.last ≤ t → t ≤ e.next → Hub.Addressed m.interface.inputs mail →
      ∀ w : World ω,
        advanceWith t mail e w = .done (e.moved t mail) (w.after (e.moveEffect t mail)) ∧
          Sound good m (e.moved t mail) := by
  induction e using Engine.induction with
  | leaf l =>
      intro m mail hm hs _ hi hl ht hmail w
      cases hs with
      | leaf self =>
          have hs' : Leaf.Sound good _ (l.receive mail) :=
            ⟨hmail.receive self.inbox, self.outbox, self.fresh, self.running⟩
          obtain ⟨heq, hsound⟩ := Leaf.advance_eq hc ha hs' hi.node hl ht w
          rw [advanceWith, heq]
          exact ⟨rfl, .leaf hsound⟩
  | hub h es ih =>
      intro m mail hm hs hw hi hl ht hmail w
      obtain ⟨c, models, rfl, hself⟩ := hs.of_hub
      have hr : (h.receive mail).refuseAdvance t = none :=
        Node.refuseAdvance_eq_none hi.node hl ht
      have hself' : Hub.Sound c models.length (h.receive mail) :=
        ⟨hself.eic, hself.eoc, hself.ic, hmail.receive hself.inbox, hself.outbox⟩
      have hposted := Hub.deliveries_eq hm.self hself' hs.furnished
      obtain ⟨hwalk, hsound⟩ := hs.walk
        (receiveAll ((h.receive mail).posted (es.map node)))
        (fun _ m e hmi hmem he hme w => ih e he (hm.child hmem) hme (hw.child he) (hi.child he)
          (le_trans (hw.last_le he) hl) (le_trans ht (hw.next_le he))
          (Hub.addressed_posted hm.self hself' hs.furnished hmi) w) w
      rw [advanceWith_hub hr hposted, hwalk, Outcome.resume_done, settleAdvance, report_eq ha,
        Outcome.andThen_done, moveEffect, moveEffects_eq, World.after_append, moved, movedAll_eq]
      simp only [Nat.zero_add]
      exact ⟨rfl, hsound ⟨hself.eic, hself.eoc, hself.ic,
        hself'.inbox.clear ▸ Bags.fits_ofPorts _, hself.outbox.clear ▸ Bags.fits_ofPorts _⟩⟩

end Engine

end DiscreteEvent
