/-
What becomes of messages.

A client may put messages into the root, collect and initialize in any order and as often
as it likes, and advance whenever it likes. `Ledger` is the list of all its calls, each
with how it ended, and `Booked` are the states of an engine together with the calls that
have led to them. `Ledger.since` are the calls that were completed after the last
completed advance.

They are all that the messages in the tree go back to. `Balanced` is the invariant: in
the root there waits what was injected since, no message waits further down, every hub
holds what the leaves behind it send, and if nothing was collected since, nobody sends
anything. An advance delivers what waits and what is sent, once for each chain, and after
it the books are closed: `booked_delivers` says both, for every state and every completed
advance.
-/
import DiscreteEvent.Proofs.Engine.Refinement

set_option autoImplicit false

namespace DiscreteEvent

variable {τ σ ω : Type} [MessageType τ]

/-! ## Ledgers -/

/-- What a call puts on an input of the root. -/
def Call.messagesAt (ports : List (Port τ)) (p : Nat) : Call τ → List (Message τ)
  | .inject port values =>
    if ports[p]? = some port then values.map (Message.mk port.type) else []
  | _ => []

/-- **The calls of a client**, the latest one first, each with how it ended. -/
abbrev Ledger (τ : Type) [MessageType τ] := List (Call τ × Option Stop)

namespace Ledger

/-- **The calls since the last advance**, in the order in which they were made. Calls and
advances that were not completed do not count. -/
def since : Ledger τ → List (Call τ)
  | [] => []
  | (_, some _) :: past => since past
  | (.advance _, none) :: _ => []
  | (c, none) :: past => since past ++ [c]

/-- What has been put on an input of the root since the last advance. -/
def injected (past : Ledger τ) (ports : List (Port τ)) (p : Nat) : List (Message τ) :=
  past.since.flatMap (Call.messagesAt ports p)

/-- Nothing was collected since the last advance. -/
def Uncollected (past : Ledger τ) : Prop := ∀ t, .collect t ∉ past.since

@[simp] theorem since_stopped (c : Call τ) (s : Stop) (past : Ledger τ) :
    since ((c, some s) :: past) = past.since := rfl

@[simp] theorem since_advance (t : Instant) (past : Ledger τ) :
    since ((.advance t, none) :: past) = [] := rfl

@[simp] theorem since_init (t : Instant) (past : Ledger τ) :
    since ((.init t, none) :: past) = past.since ++ [.init t] := rfl

@[simp] theorem since_collect (t : Instant) (past : Ledger τ) :
    since ((.collect t, none) :: past) = past.since ++ [.collect t] := rfl

@[simp] theorem since_inject (port : Port τ) (values : List (MessageType.Value port.type))
    (past : Ledger τ) :
    since ((.inject port values, none) :: past) = past.since ++ [.inject port values] := rfl

end Ledger

/-- Values for a declared port come after what is there, and nothing else changes. -/
theorem Bags.Fits.extend_messagesAt {b : Bags τ} {ports : List (Port τ)} (h : b.Fits ports)
    (hn : (ports.map (·.name)).Nodup) {port : Port τ} (hp : port ∈ ports)
    (values : List (MessageType.Value port.type)) :
    ∃ x, b.extend port values = .ok x ∧ x.Fits ports ∧
      ∀ p, x.messagesAt p = b.messagesAt p ++ (Call.inject port values).messagesAt ports p := by
  obtain ⟨i, hi⟩ := List.getElem?_of_mem hp
  obtain ⟨bag, hfind, hbag⟩ := h.find hn hi
  have hextend : b.extend port values = .ok (b.append i (values.map (Message.mk port.type))) := by
    rw [Bags.extend, hfind]
  obtain ⟨j, hj, hfits⟩ := h.extend hn hp values
  rw [hextend, Except.ok.injEq] at hj
  rw [← hj] at hfits
  refine ⟨_, hextend, hfits, fun p => ?_⟩
  -- Ports have different names, so the values go to one place only.
  have hplace : i = p ↔ ports[p]? = some port := by
    constructor
    · rintro rfl
      exact hi
    · intro hp'
      have hlt := (List.getElem?_eq_some_iff.mp hi).1
      exact (List.getElem?_inj hlt (List.Nodup.of_map _ hn)).mp (hi.trans hp'.symm)
  rw [messagesAt_append b i p _ (List.getElem?_eq_some_iff.mp hbag).1, Call.messagesAt]
  simp only [hplace]

namespace Engine

/-- **The states of an engine of `m`**, each with the calls that have led to it. -/
inductive Booked (ω : Type) [Observer ω] [AtomicModel τ σ] (m : Model τ σ) :
    Ledger τ → Engine τ σ → Prop
  | create : Booked ω m [] (ofModel m)
  | call {past : Ledger τ} {e : Engine τ σ} {c : Call τ} {w : World ω} (h : Booked ω m past e)
      (hd : c.Declared m) : Booked ω m ((c, (e.perform w c).stop) :: past) (e.perform w c).state

/-! ## Trees without what waits at the root -/

theorem sent_withInbox (x : Bags τ) (e : Engine τ σ) (o : Terminal) :
    (e.withInbox x).sent o = e.sent o := by
  obtain ⟨a, p⟩ := o
  cases e with
  | leaf l => cases a <;> rfl
  | hub h es => cases a <;> rfl

/-- A quiet tree has nothing at its root. -/
theorem Quiet.withInbox_eq {good : Interface τ → Stage → σ → Prop} {m : Model τ σ}
    {e : Engine τ σ} (hs : Sound good m e) (hq : e.Quiet) :
    e.withInbox (.ofPorts m.interface.inputs) = e := by
  rw [← hs.inbox.eq_ofPorts hq.inbox, withInbox_self]

/-! ## The invariant -/

/-- **The books balance.** -/
structure Balanced (good : Interface τ → Stage → σ → Prop) (m : Model τ σ) (past : Ledger τ)
    (e : Engine τ σ) : Prop where
  ready : Ready good m e
  /-- In the root there waits what was injected since the last advance. -/
  waiting : ∀ p, e.node.inbox.messagesAt p = past.injected m.interface.inputs p
  /-- Nothing waits further down, and hubs hold what the leaves behind them send. -/
  gathered : Gathered m (e.withInbox (.ofPorts m.interface.inputs))
  silent : past.Uncollected → (e.withInbox (.ofPorts m.interface.inputs)).Quiet

variable {good : Interface τ → Stage → σ → Prop} {m : Model τ σ} {e : Engine τ σ}
  {past : Ledger τ}

/-- A state without messages balances with books that hold none. -/
theorem Quiet.balanced (hr : Ready good m e) (hq : e.Quiet) (hs : past.since = []) :
    Balanced good m past e where
  ready := hr
  waiting p := by
    rw [Ledger.injected, hs]
    exact Bags.isEmpty_iff.mp hq.inbox p
  gathered := by
    rw [hq.withInbox_eq hr.sound]
    exact hq.gathered e hr.sound
  silent _ := by
    rw [hq.withInbox_eq hr.sound]
    exact hq

theorem Balanced.injected (h : Balanced good m past e) {port : Port τ}
    {values : List (MessageType.Value port.type)} {x : Bags τ} (hx : x.Fits m.interface.inputs)
    (hadd : ∀ p, x.messagesAt p
      = e.node.inbox.messagesAt p ++ (Call.inject port values).messagesAt m.interface.inputs p) :
    Balanced good m ((.inject port values, none) :: past) (e.withInbox x) where
  ready := h.ready.withInbox hx
  waiting p := by
    rw [node_withInbox, hadd, h.waiting p, Ledger.injected, Ledger.injected, Ledger.since_inject,
      List.flatMap_append, List.flatMap_singleton]
  gathered := by
    rw [withInbox_withInbox]
    exact h.gathered
  silent hun := by
    rw [withInbox_withInbox]
    refine h.silent fun t ht => hun t ?_
    rw [Ledger.since_inject]
    exact List.mem_append_left _ ht

/-! ## Calls -/

variable [AtomicModel τ σ]

theorem started_withInbox (t : Instant) (x : Bags τ) (e : Engine τ σ) :
    (e.withInbox x).started t = (e.started t).withInbox x := by
  cases e <;> rfl

theorem inbox_started (t : Instant) (e : Engine τ σ) : (e.started t).node.inbox = e.node.inbox := by
  cases e <;> rfl

theorem inbox_shown (t : Instant) (e : Engine τ σ) : (e.shown t).node.inbox = e.node.inbox := by
  cases e with
  | leaf l =>
      show (l.shown t).toNode.inbox = l.inbox
      rw [l.toNode_shown t]
  | hub h es =>
      rw [shown]
      split <;> rfl

theorem sent_started (t : Instant) (e : Engine τ σ) (o : Terminal) :
    (e.started t).sent o = e.sent o := by
  rw [sent, sent, started_leafAt]
  cases e.leafAt? o.address <;> rfl

/-- Initialization does not touch what was collected. -/
theorem Gathered.started (t : Instant) {m : Model τ σ} {e : Engine τ σ} (h : Gathered m e) :
    Gathered m (e.started t) := by
  induction h with
  | leaf inbox => exact .leaf inbox
  | @hub c models h es inbox outbox _ ih =>
      have hsent := sent_started t (.hub h es)
      rw [Engine.started] at hsent ⊢
      refine .hub inbox (fun p hp => ?_) fun i m e hm he => ?_
      · exact (outbox p hp).trans (Multiset.bind_congr fun o _ => (hsent o).symm)
      · rw [startedAll_eq, List.getElem?_mapIdx, Option.map_eq_some_iff] at he
        obtain ⟨e, he, rfl⟩ := he
        exact ih i m e hm he

theorem Balanced.started (h : Balanced good m past e) {t : Instant}
    (hr : Ready good m (e.started t)) : Balanced good m ((.init t, none) :: past) (e.started t) where
  ready := hr
  waiting p := by
    rw [inbox_started, h.waiting p, Ledger.injected, Ledger.injected, Ledger.since_init,
      List.flatMap_append]
    exact (List.append_nil _).symm
  gathered := by
    rw [← started_withInbox]
    exact h.gathered.started t
  silent hun := by
    rw [← started_withInbox]
    refine (h.silent fun t' ht' => hun t' ?_).started t
    rw [Ledger.since_init]
    exact List.mem_append_left _ ht'

theorem Balanced.shown (hm : m.Wired) (h : Balanced good m past e) {t : Instant}
    (hr : Ready good m (e.shown t)) : Balanced good m ((.collect t, none) :: past) (e.shown t) where
  ready := hr
  waiting p := by
    rw [inbox_shown, h.waiting p, Ledger.injected, Ledger.injected, Ledger.since_collect,
      List.flatMap_append]
    exact (List.append_nil _).symm
  gathered := by
    rw [← shown_withInbox]
    exact h.gathered.shown t _ hm (h.ready.sound.withInbox (Bags.fits_ofPorts _))
  silent hun := by
    refine absurd ?_ (hun t)
    rw [Ledger.since_collect]
    exact List.mem_append_right _ (List.mem_singleton_self _)

variable [Observer ω]

/-- **One call keeps the books balanced.** -/
theorem Balanced.perform (hc : Contract good) (ha : Attended ω good) (hm : m.Wired)
    (h : Balanced good m past e) {c : Call τ} (hd : c.Declared m) (w : World ω) :
    Balanced good m ((c, (e.perform w c).stop) :: past) (e.perform w c).state := by
  have hperformed := h.ready.performed hc ha hm hd w
  generalize e.perform w c = o at hperformed ⊢
  cases hperformed with
  | init live => exact h.started live.ready
  | @inject port values x _ extended fits =>
      obtain ⟨x', hx', -, hadd⟩ :=
        h.ready.sound.inbox.extend_messagesAt hm.distinct.inputs hd values
      cases extended.symm.trans hx'
      exact h.injected fits hadd
  | collect _ _ live => exact h.shown hm live.ready
  | @advance t _ _ _ live => exact (quiet_moved t e).balanced live.ready rfl
  | refused => exact ⟨h.ready, h.waiting, h.gathered, h.silent⟩

theorem Booked.completed {c : Call τ} {w : World ω} (h : Booked ω m past e) (hd : c.Declared m)
    (hs : (e.perform w c).stop = none) : Booked ω m ((c, none) :: past) (e.perform w c).state :=
  hs ▸ h.call hd

theorem Booked.balanced (hc : Contract good) (ha : Attended ω good) (hm : m.Wired)
    (hg : m.AllGood good) (h : Booked ω m past e) : Balanced good m past e := by
  induction h with
  | create => exact (quiet_ofModelBelow hg none).balanced (ready_ofModel hg) rfl
  | call _ hd ih => exact ih.perform hc ha hm hd _

/-- **An advance is completed** on a live engine only, inside of its window. -/
theorem Ready.inside_of_advance (hc : Contract good) (ha : Attended ω good) (hm : m.Wired)
    (h : Ready good m e) {t : Instant} {w : World ω}
    (hs : (e.perform w (.advance t)).stop = none) : Live good m e ∧ e.last ≤ t ∧ t ≤ e.next := by
  have hperformed := h.performed hc ha hm (c := .advance t) trivial w
  generalize e.perform w (.advance t) = o at hperformed hs
  cases hperformed with
  | advance before inside => exact ⟨before, inside⟩
  | refused => cases hs

/-! ## What an advance delivers -/

/-- The input of a leaf when the tree is advanced: what is sent inside of the tree and what
was injected at the root, once for each chain. -/
structure Delivered (m : Model τ σ) (past : Ledger τ) (e : Engine τ σ) (a : List Nat)
    (i : Interface τ) (x : Bags τ) : Prop where
  fits : x.Fits i.inputs
  content : ∀ q < i.inputs.length, (x.messagesAt q : Multiset (Message τ))
    = m.inflow e.sent (fun p => (past.injected m.interface.inputs p : Multiset (Message τ))) ⟨a, q⟩

omit [Observer ω] in
/-- **Every leaf moves on what is delivered to it.** -/
theorem Balanced.exists_delivered (hm : m.Wired) (h : Balanced good m past e) (t : Instant)
    {a : List Nat} {atom : Atomic τ σ} {l : Leaf τ σ} (hatom : m.atomAt? a = some atom)
    (hl : e.leafAt? a = some l) :
    ∃ x, Delivered m past e a atom.interface x ∧
      (e.moved t []).leafAt? a = some (Leaf.moved t { l with inbox := x }) := by
  have hin : (e.withInbox (.ofPorts m.interface.inputs)).node.inbox
      = .ofPorts m.interface.inputs := by rw [node_withInbox]
  have hfits := h.ready.sound.inbox
  have hself : (e.withInbox (.ofPorts m.interface.inputs)).withInbox e.node.inbox = e := by
    rw [withInbox_withInbox, withInbox_self]
  -- The messages at the root are mail for the tree that is otherwise the same.
  have hmoved := moved_withInbox (t := t) hin hfits
  rw [hself] at hmoved
  obtain ⟨z, hz⟩ := exists_leafAt_withInbox (.ofPorts m.interface.inputs) hl
  obtain ⟨x, hturn, hx, hcontent⟩ := exists_turnAt _ hm
    (h.ready.sound.withInbox (Bags.fits_ofPorts _)) h.gathered hfits.addressed_asMail hatom hz
  refine ⟨x, ⟨hx, fun q hq => ?_⟩, ?_⟩
  · rw [hcontent q hq, reaching_asMail hfits, funext (sent_withInbox _ e)]
    simp only [h.waiting]
  · rw [hmoved, moved_leafAt, hturn, Option.map_some]

/-- **No message survives its step.** Take any state that calls have led to, in any order
and at any times. In the root there waits what was injected since the last advance, and if
nothing has been collected since, there is no other message in the tree. Every further
advance that is completed leaves the tree without any message; and in it every leaf
advances on what is delivered to it: what is sent at the time, and what was injected
since, once for each chain. -/
theorem booked_delivers (hacc : m.Accepted) (hc : Contract good) (ha : Attended ω good)
    (hg : m.AllGood good) (h : Booked ω m past e) :
    (∀ p, e.node.inbox.messagesAt p = past.injected m.interface.inputs p) ∧
    (past.Uncollected → (e.withInbox (.ofPorts m.interface.inputs)).Quiet) ∧
    ∀ (t : Instant) (w : World ω), (e.perform w (.advance t)).stop = none →
      (e.perform w (.advance t)).state.Quiet ∧
      ∀ {a : List Nat} {atom : Atomic τ σ} {l : Leaf τ σ}, m.atomAt? a = some atom →
        e.leafAt? a = some l → ∃ x, Delivered m past e a atom.interface x ∧ ∀ w' : World ω,
          (Leaf.advance t { l with inbox := x } w').stop = none ∧
          (e.perform w (.advance t)).state.leafAt? a
            = some (Leaf.advance t { l with inbox := x } w').state := by
  have hm := hacc.wired
  have hb := h.balanced hc ha hm hg
  refine ⟨hb.waiting, hb.silent, fun t w hs => ?_⟩
  obtain ⟨hlive, hl, ht⟩ := hb.ready.inside_of_advance hc ha hm hs
  obtain ⟨heq, -⟩ := hlive.advance hc ha hm hl ht w
  rw [perform, heq]
  refine ⟨quiet_moved t e, fun {a atom l} hatom hleaf => ?_⟩
  obtain ⟨x, hx, hmoved⟩ := hb.exists_delivered hm t hatom hleaf
  -- A leaf that has its mail is sound as before, and its window holds that of the root.
  refine ⟨x, hx, fun w' => ?_⟩
  obtain ⟨_, hleaf', hsound⟩ := hlive.sound.exists_leaf.1 hatom
  cases hleaf.symm.trans hleaf'
  obtain ⟨hlast, hnext⟩ := hlive.windowed.leafAt hleaf
  have hsound' : Leaf.Sound good atom.interface { l with inbox := x } :=
    ⟨hx.fits, hsound.outbox, hsound.fresh, hsound.running⟩
  have hinit : l.initialized = true := hlive.initialized.leafAt hleaf
  obtain ⟨hadvance, -⟩ := Leaf.advance_eq hc ha hsound' hinit (le_trans hlast hl)
    (le_trans ht hnext) w'
  rw [hadvance]
  exact ⟨rfl, hmoved⟩

/-- A tower of doublers is given one message before it is initialized and another one after
its outputs were collected. It is advanced to its first event then. -/
theorem booked_delivers_tower :
    let w : World Unobserved := ⟨⟨⟩, false⟩
    let t : Instant := ⟨2, 0, by decide⟩
    let fed := ((ofModel Doubler.tower).perform w (.inject Doubler.add [(5 : UInt64)])).state
    let started := (fed.perform w (.init .epoch)).state
    let shown := (started.perform w (.collect t)).state
    let e := (shown.perform w (.inject Doubler.add [(7 : UInt64)])).state
    let past : Ledger Payload := [(.inject Doubler.add [(7 : UInt64)], none), (.collect t, none),
      (.init .epoch, none), (.inject Doubler.add [(5 : UInt64)], none)]
    (Doubler.tower.Accepted ∧ Contract Doubler.Good ∧ Attended Unobserved Doubler.Good ∧
      Doubler.tower.AllGood Doubler.Good ∧ Booked Unobserved Doubler.tower past e) ∧
    (e.perform w (.advance t)).stop = none ∧ (e.perform w (.advance t)).state.Quiet ∧
      e.node.inbox.messagesAt 0 = past.injected [Doubler.add] 0 := by
  intro w t fed started shown e past
  have ha : Attended Unobserved Doubler.Good := attended_unobserved _
  have hfed : Booked Unobserved Doubler.tower _ fed :=
    Booked.create.completed (c := .inject Doubler.add [(5 : UInt64)])
      (List.mem_singleton_self _) (by decide +kernel)
  have hstarted : Booked Unobserved Doubler.tower _ started :=
    hfed.completed (c := .init .epoch) trivial (by decide +kernel)
  have hshown : Booked Unobserved Doubler.tower _ shown :=
    hstarted.completed (c := .collect t) trivial (by decide +kernel)
  have he : Booked Unobserved Doubler.tower past e :=
    hshown.completed (c := .inject Doubler.add [(7 : UInt64)]) (List.mem_singleton_self _)
      (by decide +kernel)
  have hs : (e.perform w (.advance t)).stop = none := by decide +kernel
  obtain ⟨hwaiting, -, hadvance⟩ := booked_delivers Doubler.accepted_tower Doubler.contract ha
    Doubler.allGood_tower he
  exact ⟨⟨Doubler.accepted_tower, Doubler.contract, ha, Doubler.allGood_tower, he⟩, hs,
    (hadvance t w hs).1, hwaiting 0⟩

end Engine

end DiscreteEvent
