/-
Collecting again, and messages in between.

Collecting asks the due models for their outputs and moves none of them. If the output
functions are pure, the engine that has collected at some time is one that collecting at this
time leaves alone (`shown_shown`): every outbox is cleared before it is filled, and what it
is filled with depends on the states only. And since collecting does not look into the inbox
of the root, it does not matter whether messages are put there before or after it.

`collected` is what a call to collect makes of an engine, whether it is answered or refused.
`performAll` is any number of calls in a row, each in a world of its own, and a client that
`Awaits` a time calls nothing but collect at this time and inject. However it mixes the two,
what it leads to is one call to collect and then the injections
(`collected_performAll`), so the advance that follows finds the same engine.
-/
import DiscreteEvent.Proofs.Components.Doubler
import DiscreteEvent.Proofs.Engine.Live
import DiscreteEvent.Proofs.Engine.Refinement
import DiscreteEvent.Proofs.Ports.TypedMap

set_option autoImplicit false

namespace DiscreteEvent

variable {τ σ ω : Type} [MessageType τ]

/-! ## Bags that are filled again -/

namespace Bags

theorem clear_clear (b : Bags τ) : b.clear.clear = b.clear := by
  rw [clear, clear, List.map_map]
  rfl

/-- What was added does not show after clearing. -/
theorem clear_append (b : Bags τ) (i : Nat) (ms : List (Message τ)) :
    (b.append i ms).clear = b.clear := by
  refine congrArg Bags.mk (List.ext_getElem? fun j => ?_)
  rw [append, List.getElem?_map, List.getElem?_map, List.getElem?_modify]
  cases b.list[j]? with
  | none => rfl
  | some bag => by_cases hij : i = j <;> simp [hij]

theorem clear_write (es : List (Emission τ)) :
    ∀ b : Bags τ, (b.write es).1.clear = b.clear := by
  induction es with
  | nil => exact fun _ => rfl
  | cons e es ih =>
      intro b
      rw [write, extend]
      cases b.find e.port with
      | error => rfl
      | ok found => exact (ih _).trans (clear_append b _ _)

theorem clear_foldl_append {α : Type} (place : α → Nat) (load : α → List (Message τ))
    (as : List α) : ∀ b : Bags τ,
      (as.foldl (fun b a => b.append (place a) (load a)) b).clear = b.clear := by
  induction as with
  | nil => exact fun _ => rfl
  | cons a as ih => exact fun b => (ih _).trans (clear_append b _ _)

/-- Values that were accepted keep the bags fitting. -/
theorem Fits.of_extend {b x : Bags τ} {ports : List (Port τ)} {p : Port τ}
    {values : List (MessageType.Value p.type)} (h : b.Fits ports)
    (hx : b.extend p values = .ok x) : x.Fits ports := by
  rw [Bags.extend] at hx
  cases hp : Port.refusal? ports p with
  | some fault =>
      rw [find_refused h.ports_eq hp] at hx
      cases hx
  | none =>
      obtain ⟨i, hi, hport⟩ := Port.exists_place hp
      obtain ⟨bag, hfind, -⟩ := find_usable h.ports_eq hi hport
      rw [hfind] at hx
      cases hx
      refine h.append fun q hq msg hmsg => ?_
      cases hport.symm.trans hq
      obtain ⟨v, -, rfl⟩ := List.mem_map.mp hmsg
      rfl

end Bags

/-! ## Pure outputs -/

/-- **Output functions are pure**: a model that is asked for its output, when an event is due,
stays as it was. -/
def PureOutput [AtomicModel τ σ] (good : Interface τ → Stage → σ → Prop) : Prop :=
  ∀ {i : Interface τ} {d : Span} {s : σ}, good i (.settled (some d)) s →
    (AtomicModel.output (τ := τ) s).state = s

theorem Doubler.pureOutput : PureOutput Good := fun _ => rfl

variable [AtomicModel τ σ] {good : Interface τ → Stage → σ → Prop}

namespace Leaf

theorem isImminent_shown (l : Leaf τ σ) (t t' : Instant) :
    (l.shown t).isImminent t' = l.isImminent t' := by
  rw [toNode_shown]
  rfl

theorem clear_outbox_shown (l : Leaf τ σ) (t : Instant) :
    (l.shown t).outbox.clear = l.outbox.clear := by
  unfold shown
  split
  · rw [Bags.clear_write, Bags.clear_clear]
  · rfl

/-- **A leaf that shows its output again** is as after the first time. -/
theorem Sound.shown_shown (hp : PureOutput good) {i : Interface τ} {l : Leaf τ σ}
    (h : l.Sound good i) (hi : l.initialized = true) (t : Instant) :
    (l.shown t).shown t = l.shown t := by
  by_cases hdue : l.isImminent t = true
  · obtain ⟨d, hg, -⟩ := h.of_imminent hi hdue
    have hstate : (l.shown t).state = l.state := by
      rw [shown, if_pos hdue]
      exact hp hg
    conv_lhs => rw [shown, isImminent_shown, if_pos hdue, hstate, clear_outbox_shown]
    rw [shown, if_pos hdue]
  · have hshown : l.shown t = l := by rw [shown, if_neg hdue]
    rw [hshown, hshown]

end Leaf

namespace Engine

/-- Showing outputs changes nothing of the root but its outbox. -/
theorem node_shown (e : Engine τ σ) (t : Instant) :
    (e.shown t).node = { e.node with outbox := (e.shown t).node.outbox } := by
  cases e with
  | leaf l => exact l.toNode_shown t
  | hub h es =>
      rw [shown]
      split <;> rfl

theorem shown_hub {h : Hub τ} {t : Instant} (hdue : h.isImminent t = true)
    (es : List (Engine τ σ)) :
    shown t (hub h es) = hub { h with
      outbox := Hub.gathered { h with outbox := h.outbox.clear } ((shownAll t es).map node) }
      (shownAll t es) := by
  rw [shown, if_pos hdue]

/-- **A tree that shows its outputs again** is as after the first time. -/
theorem shown_shown (hp : PureOutput good) (t : Instant) (e : Engine τ σ) :
    ∀ {m : Model τ σ}, Sound good m e → e.Initialized → (e.shown t).shown t = e.shown t := by
  induction e using Engine.induction with
  | leaf l =>
      intro m hs hi
      cases hs with
      | leaf self => exact congrArg leaf (self.shown_shown hp hi.node t)
  | hub h es ih =>
      intro m hs hi
      obtain ⟨c, models, rfl, -⟩ := hs.of_hub
      by_cases hdue : h.isImminent t = true
      · have hagain : shownAll t (shownAll t es) = shownAll t es := by
          rw [shownAll_eq, shownAll_eq, List.mapIdx_mapIdx]
          refine List.ext_getElem? fun i => ?_
          rw [List.getElem?_mapIdx, List.getElem?_mapIdx]
          cases he : es[i]? with
          | none => rfl
          | some e =>
              obtain ⟨m, -, -, hsound⟩ := hs.child he
              have hmem := List.mem_of_getElem? he
              exact congrArg some (ih e hmem hsound (hi.child hmem))
        -- The outbox is gathered from the same children, and into the same empty bags.
        rw [shown_hub hdue]
        generalize hx : Hub.gathered { h with outbox := h.outbox.clear }
          ((shownAll t es).map node) = x
        have hclear : x.clear = h.outbox.clear := by
          rw [← hx, Hub.gathered, Bags.clear_foldl_append, Bags.clear_clear]
        rw [shown_hub (h := { h with outbox := x }) hdue, hagain]
        simp only [hclear, hx]
      · have hshown : shown t (hub h es) = hub h es := by rw [shown, if_neg hdue]
        rw [hshown, hshown]

/-! ## A call to collect -/

/-- What a call to collect makes of an engine, whether it is answered or refused. -/
def collected (t : Instant) (e : Engine τ σ) : Engine τ σ :=
  match e.node.refuseCollect t with
  | some _ => e
  | none => e.shown t

theorem refuseCollect_collected (e : Engine τ σ) (t t' : Instant) :
    (e.collected t).node.refuseCollect t' = e.node.refuseCollect t' := by
  unfold collected
  split
  · rfl
  · rw [node_shown]
    rfl

theorem inbox_collected (e : Engine τ σ) (t : Instant) :
    (e.collected t).node.inbox = e.node.inbox := by
  unfold collected
  split
  · rfl
  · rw [node_shown]

/-- Collecting does not look into the inbox of the root. -/
theorem collected_withInbox (t : Instant) (x : Bags τ) (e : Engine τ σ) :
    (e.withInbox x).collected t = (e.collected t).withInbox x := by
  have hrefuse : (e.withInbox x).node.refuseCollect t = e.node.refuseCollect t := by
    rw [node_withInbox]
    rfl
  rw [collected, collected, hrefuse]
  cases e.node.refuseCollect t with
  | some _ => rfl
  | none => exact shown_withInbox t x e

variable {m : Model τ σ} {e : Engine τ σ}

/-- **Collecting a second time** leaves an engine that is ready as it is. -/
theorem Ready.collected_collected (hp : PureOutput good) (h : Ready good m e) (t : Instant) :
    (e.collected t).collected t = e.collected t := by
  conv_lhs => rw [collected, refuseCollect_collected]
  cases hr : e.node.refuseCollect t with
  | some _ => rfl
  | none =>
      have hi : e.node.initialized = true := by
        by_contra hi
        rw [Node.refuseCollect_of_uninitialized (Bool.eq_false_iff.mpr hi)] at hr
        cases hr
      have hshown : e.collected t = e.shown t := by rw [collected, hr]
      rw [hshown]
      exact shown_shown hp t e h.sound (h.initialized hi)

variable [Observer ω]

/-- **Collecting** from an engine that is ready, at any time and in any world. -/
theorem Ready.collect (hc : Contract good) (ha : Attended ω good) (hm : m.Wired)
    (h : Ready good m e) (t : Instant) (w : World ω) :
    (e.collect t w).state = e.collected t ∧
      (e.collect t w).stop = (e.node.refuseCollect t).map .violation ∧
      Ready good m (e.collected t) := by
  unfold collected
  cases hi : e.node.initialized with
  | false =>
      rw [collect_uninitialized hi, Node.refuseCollect_of_uninitialized hi]
      exact ⟨rfl, rfl, h⟩
  | true =>
      by_cases ht : e.next < t
      · rw [collect_refused (h.initialized hi) ht, Node.refuseCollect_of_lt hi ht]
        exact ⟨rfl, rfl, h⟩
      · obtain ⟨heq, hlive, -⟩ := (h.live hi).collect hc ha hm (not_lt.mp ht) w
        rw [heq, Node.refuseCollect_eq_none hi (not_lt.mp ht)]
        exact ⟨rfl, rfl, hlive.ready⟩

/-! ## Calls in a row -/

/-- **Calls in a row**, each in a world of its own: the engine that they lead to, and the
reason for which each call stopped. The client goes on in any case. -/
def performAll : Engine τ σ → List (Call τ × World ω) → Engine τ σ × List (Option Stop)
  | e, [] => (e, [])
  | e, (c, w) :: calls =>
    let o := e.perform w c
    let rest := performAll o.state calls
    (rest.1, o.stop :: rest.2)

end Engine

namespace Call

/-- **The calls of a client that awaits `t`**: it collects at this time, and puts messages into
the inbox of the root. -/
inductive Awaits (t : Instant) : Call τ → Prop
  | collect : Awaits t (.collect t)
  | inject (port : Port τ) (values : List (MessageType.Value port.type)) :
      Awaits t (.inject port values)

def isInject : Call τ → Bool
  | inject _ _ => true
  | _ => false

end Call

namespace Engine

variable {m : Model τ σ} {e : Engine τ σ} [Observer ω] {t : Instant}

/-- **An injection** in any world: at most the inbox of the root is another one then, and
whether the engine has collected before makes no difference to it. -/
theorem Ready.inject (h : Ready good m e) (port : Port τ)
    (values : List (MessageType.Value port.type)) :
    ∃ (x : Bags τ) (stop : Option Stop), x.Fits m.interface.inputs ∧
      (∀ w : World ω, e.perform w (.inject port values) = ⟨e.withInbox x, w, stop⟩) ∧
      ∀ (t : Instant) (w : World ω), (e.collected t).perform w (.inject port values)
        = ⟨(e.collected t).withInbox x, w, stop⟩ := by
  cases hx : e.node.inbox.extend port values with
  | error fault =>
      refine ⟨e.node.inbox, some (.fault fault), h.sound.inbox, fun w => ?_, fun t w => ?_⟩
      · simp only [Engine.perform, hx, withInbox_self]
        rfl
      · rw [← inbox_collected e t, withInbox_self]
        simp only [Engine.perform, inbox_collected, hx]
        rfl
  | ok x =>
      refine ⟨x, none, h.sound.inbox.of_extend hx, fun w => ?_, fun t w => ?_⟩
      · simp only [Engine.perform, hx]
        rfl
      · simp only [Engine.perform, inbox_collected, hx]
        rfl

/-- **Collecting last** is as collecting first, and then only the injections are left. -/
theorem Ready.collected_performAll (hc : Contract good) (ha : Attended ω good) (hm : m.Wired)
    (hp : PureOutput good) {calls : List (Call τ × World ω)} :
    ∀ {e : Engine τ σ}, Ready good m e → (∀ c ∈ calls, c.1.Awaits t) →
      (e.performAll calls).1.collected t
        = ((e.collected t).performAll (calls.filter (·.1.isInject))).1 := by
  induction calls with
  | nil => exact fun _ _ => rfl
  | cons c calls ih =>
      obtain ⟨c, w⟩ := c
      intro e h hcalls
      have hrest : ∀ c ∈ calls, c.1.Awaits t := fun c hc => hcalls c (List.mem_cons_of_mem _ hc)
      have hfirst : c.Awaits t := hcalls _ List.mem_cons_self
      cases hfirst with
      | collect =>
          obtain ⟨hstate, -, hready⟩ := h.collect hc ha hm t w
          rw [performAll, Engine.perform, hstate, ih hready hrest, h.collected_collected hp t]
          rfl
      | inject port values =>
          obtain ⟨x, stop, hfits, hnow, hlater⟩ := h.inject (ω := ω) port values
          rw [performAll, hnow, ih (h.withInbox hfits) hrest, collected_withInbox,
            List.filter_cons_of_pos rfl, performAll, hlater]

/-- **Once there has been a call to collect**, collecting leaves the engine as it is. -/
theorem Ready.performAll_collected (hc : Contract good) (ha : Attended ω good) (hm : m.Wired)
    (hp : PureOutput good) {calls : List (Call τ × World ω)} :
    ∀ {e : Engine τ σ}, Ready good m e → (∀ c ∈ calls, c.1.Awaits t) →
      e.collected t = e ∨ (∃ c ∈ calls, c.1 = .collect t) →
      (e.performAll calls).1.collected t = (e.performAll calls).1 := by
  induction calls with
  | nil =>
      intro e _ _ hcollect
      rcases hcollect with hcollect | ⟨_, hmem, -⟩
      · exact hcollect
      · cases hmem
  | cons c calls ih =>
      obtain ⟨c, w⟩ := c
      intro e h hcalls hcollect
      have hrest : ∀ c ∈ calls, c.1.Awaits t := fun c hc => hcalls c (List.mem_cons_of_mem _ hc)
      have hfirst : c.Awaits t := hcalls _ List.mem_cons_self
      cases hfirst with
      | collect =>
          obtain ⟨hstate, -, hready⟩ := h.collect hc ha hm t w
          rw [performAll, Engine.perform, hstate]
          exact ih hready hrest (.inl (h.collected_collected hp t))
      | inject port values =>
          obtain ⟨x, stop, hfits, hnow, -⟩ := h.inject (ω := ω) port values
          rw [performAll, hnow]
          refine ih (h.withInbox hfits) hrest ?_
          -- What has been collected stays so, and a call that is to come is in the rest.
          rcases hcollect with hcollect | ⟨c, hmem, hc⟩
          · exact .inl (by rw [collected_withInbox, hcollect])
          · rcases List.mem_cons.mp hmem with rfl | hmem
            · cases hc
            · exact .inr ⟨c, hmem, hc⟩

/-- Collecting any number of times from an engine that has collected. -/
theorem Ready.performAll_collect (hc : Contract good) (ha : Attended ω good) (hm : m.Wired)
    (h : Ready good m e) (hcollected : e.collected t = e) (ws : List (World ω)) :
    e.performAll (ws.map fun w => (.collect t, w))
      = (e, List.replicate ws.length ((e.node.refuseCollect t).map .violation)) := by
  induction ws with
  | nil => rfl
  | cons w ws ih =>
      obtain ⟨hstate, hstop, -⟩ := h.collect hc ha hm t w
      rw [List.map_cons, performAll, Engine.perform, hstate, hstop, hcollected, ih]
      rfl

/-- **Collecting is idempotent and commutes with injections**, at any time `t`, in whatever
state a client has brought the engine, if the output functions are pure. Any number of calls to
collect give the result of the first one each, and leave the engine that the first one leaves,
with all its states, times, inboxes and outboxes. Messages that are put into the inbox before
or after collecting lead to the same engine. Hence a client that waits for an advance may
collect as often as it likes, and between any injections: what it has in the end is what one
call to collect and then the injections lead to. -/
theorem collects_idempotent (hacc : m.Accepted) (hc : Contract good) (ha : Attended ω good)
    (hg : m.AllGood good) (hp : PureOutput good) (he : e.Driven ω m) (t : Instant) :
    (∀ (w : World ω) (ws : List (World ω)),
      e.performAll ((w :: ws).map fun w => (.collect t, w))
        = ((e.collect t w).state, List.replicate (ws.length + 1) (e.collect t w).stop)) ∧
    (∀ (port : Port τ) (values : List (MessageType.Value port.type)) (w w' : World ω),
      let before := e.performAll [(.inject port values, w), (.collect t, w')]
      let after := e.performAll [(.collect t, w'), (.inject port values, w)]
      before.1 = after.1 ∧ before.2 = after.2.reverse) ∧
    ∀ calls : List (Call τ × World ω), (∀ c ∈ calls, c.1.Awaits t) →
      (∃ c ∈ calls, c.1 = .collect t) → ∀ w : World ω, (e.performAll calls).1
        = (e.performAll ((.collect t, w) :: calls.filter (·.1.isInject))).1 := by
  have hm := hacc.wired
  have h := he.ready hc ha hm hg
  refine ⟨fun w ws => ?_, fun port values w w' => ?_, fun calls hcalls hcollect w => ?_⟩
  · obtain ⟨hstate, hstop, hready⟩ := h.collect hc ha hm t w
    rw [List.map_cons, performAll, perform, hstate, hstop,
      hready.performAll_collect hc ha hm (h.collected_collected hp t), refuseCollect_collected]
    rfl
  · obtain ⟨x, stop, hfits, hnow, hlater⟩ := h.inject (ω := ω) port values
    obtain ⟨hstate, hstop, -⟩ := h.collect hc ha hm t w'
    obtain ⟨hstate', hstop', -⟩ := (h.withInbox hfits).collect hc ha hm t w'
    have hrefuse : (e.withInbox x).node.refuseCollect t = e.node.refuseCollect t := by
      rw [node_withInbox]
      rfl
    have hbefore : e.performAll [(.inject port values, w), (.collect t, w')]
        = ((e.withInbox x).collected t, [stop, (e.node.refuseCollect t).map .violation]) := by
      rw [performAll, hnow, performAll, perform, hstate', hstop', hrefuse, performAll]
    have hafter : e.performAll [(.collect t, w'), (.inject port values, w)]
        = ((e.collected t).withInbox x, [(e.node.refuseCollect t).map .violation, stop]) := by
      rw [performAll, show e.perform w' (.collect t) = e.collect t w' from rfl, hstate, hstop,
        performAll, hlater, performAll]
    rw [hbefore, hafter, collected_withInbox]
    exact ⟨rfl, rfl⟩
  · obtain ⟨hstate, -, -⟩ := h.collect hc ha hm t w
    rw [performAll, perform, hstate, ← h.collected_performAll hc ha hm hp hcalls,
      h.performAll_collected hc ha hm hp hcalls (.inr hcollect)]

/-- The tower of doublers shows its output at two seconds. It is asked for it twice, between
two messages that are put into its inbox. -/
theorem collects_idempotent_tower :
    let w : World Unobserved := ⟨⟨⟩, false⟩
    let t : Instant := ⟨2, 0, by decide⟩
    let e := ((ofModel Doubler.tower).perform w (.init .epoch)).state
    let calls : List (Call Payload × World Unobserved) :=
      [(.inject Doubler.add [(5 : UInt64)], w), (.collect t, w),
        (.inject Doubler.add [(6 : UInt64)], w), (.collect t, w)]
    (Doubler.tower.Accepted ∧ Contract Doubler.Good ∧ Attended Unobserved Doubler.Good ∧
      Doubler.tower.AllGood Doubler.Good ∧ PureOutput Doubler.Good ∧
      e.Driven Unobserved Doubler.tower) ∧
    (e.performAll [(.collect t, w), (.collect t, w)]).2 = [none, none] ∧
    (e.performAll calls).1 = (e.performAll [(.collect t, w),
      (.inject Doubler.add [(5 : UInt64)], w), (.inject Doubler.add [(6 : UInt64)], w)]).1 ∧
    (e.performAll calls).1.node.outbox.size = 1 ∧ (e.performAll calls).1.node.inbox.size = 2 := by
  intro w t e calls
  have ha : Attended Unobserved Doubler.Good := attended_unobserved _
  have he : e.Driven Unobserved Doubler.tower := .call .create trivial
  have hcalls : ∀ c ∈ calls, c.1.Awaits t := by
    simp only [calls, List.forall_mem_cons, List.not_mem_nil, false_imp_iff, implies_true, and_true]
    exact ⟨.inject _ _, .collect, .inject _ _, .collect⟩
  obtain ⟨hagain, -, hmixed⟩ := collects_idempotent Doubler.accepted_tower Doubler.contract ha
    Doubler.allGood_tower Doubler.pureOutput he t
  have hdone : (e.collect t w).stop = none := by decide +kernel
  refine ⟨⟨Doubler.accepted_tower, Doubler.contract, ha, Doubler.allGood_tower,
    Doubler.pureOutput, he⟩, ?_, ?_, by decide +kernel, by decide +kernel⟩
  · have htwice := congrArg Prod.snd (hagain w [w])
    rw [hdone] at htwice
    exact htwice
  · exact hmixed calls hcalls ⟨(.collect t, w), by simp [calls], rfl⟩ w

end Engine

end DiscreteEvent
