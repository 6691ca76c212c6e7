/-
Messages and the instants that they belong to.

What is collected is always the output for the next event of the tree, since no other time
makes a leaf show anything. A message carries no time with it, though. An advance is free to
go to any time inside of the window, and it delivers what lies in the outboxes, for
whatever time that was meant.

For a tree that is initialized once, `sent_for_next` says for which time that is, and
`timely_iff` when it is the right one: if the tree is advanced to its next event, or if
there is nothing in the outboxes. `early_delivery` is the other case. A tree whose outputs
are collected and which is then advanced to an earlier time delivers them there, before
their time, and delivers them a second time when the event comes.
-/
import DiscreteEvent.Proofs.Engine.Ledger

set_option autoImplicit false

namespace DiscreteEvent

variable {τ σ ω : Type} [MessageType τ]

/-- How often the tree has been initialized. -/
def Ledger.inits : Ledger τ → Nat
  | [] => 0
  | (.init _, none) :: past => inits past + 1
  | _ :: past => inits past

/-- **The outbox holds an output of the model**: the one that it was asked for last. -/
def Leaf.Offering [AtomicModel τ σ] (l : Leaf τ σ) : Prop :=
  ∃ (s : σ) (b : Bags τ), b.isEmpty = true ∧
    l.state = (AtomicModel.output (τ := τ) s).state ∧
    l.outbox = (b.write (AtomicModel.output s).answer).1

namespace Engine

variable [AtomicModel τ σ]

/-- **What a leaf has shown** is its output for the next event of the tree, collected at
that time. -/
structure ShownFor (past : Ledger τ) (t : Instant) (l : Leaf τ σ) : Prop where
  next : l.next = t
  finite : t ≠ .max
  offering : l.Offering
  collected : .collect t ∈ past.since

theorem ShownFor.mono {past past' : Ledger τ} {t : Instant} {l : Leaf τ σ}
    (h : ShownFor past t l) (hp : ∀ c ∈ past.since, c ∈ past'.since) : ShownFor past' t l :=
  ⟨h.next, h.finite, h.offering, hp _ h.collected⟩

/-- **Outboxes hold outputs for the next event**, as long as the tree is initialized only
once. Before it is, nothing is collected. -/
structure Dated (past : Ledger τ) (e : Engine τ σ) : Prop where
  fresh : past.inits = 0 → e.node.initialized = false ∧ past.Uncollected
  shown : past.inits ≤ 1 → ∀ {a : List Nat} {l : Leaf τ σ}, e.leafAt? a = some l →
    l.outbox.isEmpty = true ∨ ShownFor past e.next l

variable {good : Interface τ → Stage → σ → Prop} {m : Model τ σ} {e : Engine τ σ}
  {past : Ledger τ} {t : Instant}

/-! ## One call -/

theorem Dated.stopped (h : Dated past e) (c : Call τ) (s : Stop) :
    Dated ((c, some s) :: past) e := by
  have hinits : Ledger.inits ((c, some s) :: past) = past.inits := by cases c <;> rfl
  refine ⟨fun h0 => ?_, fun h1 a l hl => ?_⟩
  · exact h.fresh (hinits ▸ h0)
  · exact (h.shown (hinits ▸ h1) hl).imp id fun hs => hs.mono fun _ hc => hc

theorem Dated.injected (h : Dated past e) (port : Port τ)
    (values : List (MessageType.Value port.type)) (x : Bags τ) :
    Dated ((.inject port values, none) :: past) (e.withInbox x) := by
  have hsince : ∀ c ∈ past.since, c ∈ Ledger.since ((.inject port values, none) :: past) := by
    intro c hc
    rw [Ledger.since_inject]
    exact List.mem_append_left _ hc
  refine ⟨fun h0 => ?_, fun h1 a l hl => ?_⟩
  · obtain ⟨hi, hun⟩ := h.fresh h0
    refine ⟨by rw [node_withInbox]; exact hi, fun t ht => hun t ?_⟩
    rw [Ledger.since_inject, List.mem_append, List.mem_singleton] at ht
    exact ht.resolve_right nofun
  · obtain ⟨y, hy⟩ := exists_of_leafAt_withInbox hl
    rw [next_withInbox]
    rcases h.shown h1 hy with hempty | hshown
    · exact .inl hempty
    · exact .inr ⟨hshown.next, hshown.finite, hshown.offering, hsince _ hshown.collected⟩

theorem Dated.started (hb : Balanced good m past e) (h : Dated past e) :
    Dated ((.init t, none) :: past) (e.started t) := by
  refine ⟨nofun, fun h1 a l hl => .inl ?_⟩
  -- This is the first initialization, so nothing has been collected so far.
  have h0 : past.inits = 0 := by
    have : past.inits + 1 ≤ 1 := h1
    omega
  have hq := hb.silent (h.fresh h0).2
  rw [started_leafAt, Option.map_eq_some_iff] at hl
  obtain ⟨l, hl, rfl⟩ := hl
  obtain ⟨y, hy⟩ := exists_leafAt_withInbox (.ofPorts m.interface.inputs) hl
  exact (hq.leafAt hy).2

theorem Dated.collected (h : Dated past e) (hi : e.node.initialized = true) (hw : e.Windowed)
    (ht : t ≤ e.next) (hnext : (e.shown t).next = e.next) :
    Dated ((.collect t, none) :: past) (e.shown t) := by
  have hsince : ∀ c ∈ past.since, c ∈ Ledger.since ((.collect t, none) :: past) := by
    intro c hc
    rw [Ledger.since_collect]
    exact List.mem_append_left _ hc
  refine ⟨fun h0 => ?_, fun h1 a l hl => ?_⟩
  · rw [(h.fresh h0).1] at hi
    cases hi
  · rw [shown_leafAt hw ht, Option.map_eq_some_iff] at hl
    obtain ⟨l, hl, rfl⟩ := hl
    rw [hnext]
    by_cases hdue : l.isImminent t = true
    · refine .inr ?_
      have hdue' := hdue
      rw [Node.isImminent, Bool.and_eq_true, beq_iff_eq, Bool.not_eq_true', Bool.eq_false_iff,
        ne_eq, Instant.isInfinite_iff] at hdue'
      -- The event of the leaf is the next one of the tree.
      have het : e.next = t := le_antisymm (by rw [hdue'.1]; exact (hw.leafAt hl).2) ht
      rw [het, Leaf.shown, if_pos hdue]
      refine ⟨hdue'.1.symm, hdue'.2, ⟨l.state, l.outbox.clear, l.outbox.isEmpty_clear, rfl, rfl⟩, ?_⟩
      rw [Ledger.since_collect]
      exact List.mem_append_right _ (List.mem_singleton_self _)
    · rw [Leaf.shown, if_neg hdue]
      exact (h.shown h1 hl).imp id fun hs => hs.mono hsince

theorem Dated.moved (h : Dated past e) (hi : e.node.initialized = true) :
    Dated ((.advance t, none) :: past) (e.moved t []) := by
  refine ⟨fun h0 => ?_, fun _ a l hl => .inl ((quiet_moved t e).leafAt hl).2⟩
  rw [(h.fresh h0).1] at hi
  cases hi

variable [Observer ω]

/-- **One call leaves the outboxes dated.** -/
theorem Dated.perform (hc : Contract good) (ha : Attended ω good) (hm : m.Wired)
    (hb : Balanced good m past e) (h : Dated past e) {c : Call τ} (hd : c.Declared m)
    (w : World ω) : Dated ((c, (e.perform w c).stop) :: past) (e.perform w c).state := by
  have hperformed := hb.ready.performed hc ha hm hd w
  generalize e.perform w c = o at hperformed ⊢
  cases hperformed with
  | init => exact h.started hb
  | inject => exact h.injected _ _ _
  | collect before inside _ same =>
      exact h.collected before.initialized.node before.windowed inside same.next
  | advance before => exact h.moved before.initialized.node
  | refused => exact h.stopped _ _

theorem Booked.dated (hc : Contract good) (ha : Attended ω good) (hm : m.Wired)
    (hg : m.AllGood good) (h : Booked ω m past e) : Dated past e := by
  induction h with
  | create =>
      exact ⟨fun _ => ⟨initialized_ofModel m, fun _ => List.not_mem_nil⟩,
        fun _ _ _ hl => .inl ((quiet_ofModelBelow hg none).leafAt hl).2⟩
  | call hb hd ih => exact ih.perform hc ha hm (hb.balanced hc ha hm hg) hd _

/-! ## What is delivered, and when -/

/-- **Every message in an outbox is of the instant `t`**: whoever sends it has an event at
`t`, and was asked for its output at `t` since the last advance. -/
def Timely (past : Ledger τ) (t : Instant) (e : Engine τ σ) : Prop :=
  ∀ o, e.sent o ≠ 0 → ∃ l, e.leafAt? o.address = some l ∧ ShownFor past t l

omit [Observer ω] in
/-- **All messages are of the instant of the next event.** -/
theorem Dated.sent_for_next (h : Dated past e) (hone : past.inits ≤ 1) : Timely past e.next e := by
  intro o ho
  cases hl : e.leafAt? o.address with
  | none =>
      rw [sent, hl] at ho
      exact absurd rfl ho
  | some l =>
      refine ⟨l, rfl, (h.shown hone hl).resolve_left fun hempty => ho ?_⟩
      rw [sent, hl]
      exact congrArg _ (Bags.isEmpty_iff.mp hempty o.port)

omit [Observer ω] in
/-- They are of another instant only if there are none. -/
theorem Dated.eq_next_or_silent (h : Dated past e) (hone : past.inits ≤ 1)
    (ht : Timely past t e) : t = e.next ∨ ∀ o, e.sent o = 0 := by
  by_cases hsilent : ∀ o, e.sent o = 0
  · exact .inr hsilent
  · obtain ⟨o, ho⟩ := not_forall.mp hsilent
    obtain ⟨l, hl, hnow⟩ := ht o ho
    obtain ⟨l', hl', hnext⟩ := h.sent_for_next hone o ho
    cases hl.symm.trans hl'
    exact .inl (hnow.next.symm.trans hnext.next)

/-- **Messages belong to one instant** if the tree is advanced to its next event, or if nobody
sends anything, and in no other case. Take a tree that was initialized once, in any state that
calls have led to, and an advance to `t` that is completed. What a leaf receives was injected
since the last advance, or it is sent; and a leaf whose output was collected for `t` makes
its internal transition in this very advance, before it looks at its input. -/
theorem timely_iff (hacc : m.Accepted) (hc : Contract good) (ha : Attended ω good)
    (hg : m.AllGood good) (h : Booked ω m past e) (hone : past.inits = 1) {w : World ω}
    (hs : (e.perform w (.advance t)).stop = none) :
    (Timely past t e ↔ t = e.next ∨ ∀ o, e.sent o = 0) ∧
    ∀ {a : List Nat} {atom : Atomic τ σ} {l : Leaf τ σ}, m.atomAt? a = some atom →
      e.leafAt? a = some l → ∃ x l', Delivered m past e a atom.interface x ∧
        (e.perform w (.advance t)).state.leafAt? a = some l' ∧
        (ShownFor past t l → l'.cell
          = if x.isEmpty then .settle t (AtomicModel.internal l.state).state
            else .settle t
              (AtomicModel.external (AtomicModel.internal l.state).state .zero x).state) := by
  have hm := hacc.wired
  have hb := h.balanced hc ha hm hg
  have hd := h.dated hc ha hm hg
  have hone' : past.inits ≤ 1 := le_of_eq hone
  refine ⟨⟨hd.eq_next_or_silent hone', ?_⟩, fun {a atom l} hatom hl => ?_⟩
  · rintro (rfl | hsilent)
    · exact hd.sent_for_next hone'
    · exact fun o ho => absurd (hsilent o) ho
  · obtain ⟨hlive, hlast, hnext⟩ := hb.ready.inside_of_advance hc ha hm hs
    obtain ⟨heq, -⟩ := hlive.advance hc ha hm hlast hnext w
    obtain ⟨x, hx, hmoved⟩ := hb.exists_delivered hm t hatom hl
    rw [perform, heq]
    refine ⟨x, _, hx, hmoved, fun hshown => ?_⟩
    have hdue : Node.isImminent { l.toNode with inbox := x } t = true :=
      (Node.isImminent_iff hshown.finite).mpr hshown.next
    exact Leaf.cell_moved_of_due (l := { l with inbox := x }) hdue

/-- The tower of doublers is asked for the outputs of its first event and advanced to it. -/
theorem timely_iff_tower :
    let w : World Unobserved := ⟨⟨⟩, false⟩
    let t : Instant := ⟨2, 0, by decide⟩
    let started := ((ofModel Doubler.tower).perform w (.init .epoch)).state
    let e := (started.perform w (.collect t)).state
    let past : Ledger Payload := [(.collect t, none), (.init .epoch, none)]
    (Doubler.tower.Accepted ∧ Contract Doubler.Good ∧ Attended Unobserved Doubler.Good ∧
      Doubler.tower.AllGood Doubler.Good ∧ Booked Unobserved Doubler.tower past e) ∧
    (past.inits = 1 ∧ (e.perform w (.advance t)).stop = none ∧ e.sent ⟨[0, 0], 0⟩ ≠ 0) ∧
    Timely past t e := by
  intro w t started e past
  have ha : Attended Unobserved Doubler.Good := attended_unobserved _
  have hstarted : Booked Unobserved Doubler.tower _ started :=
    Booked.create.completed (c := .init .epoch) trivial (by decide +kernel)
  have he : Booked Unobserved Doubler.tower past e :=
    hstarted.completed (c := .collect t) trivial (by decide +kernel)
  have hs : (e.perform w (.advance t)).stop = none := by decide +kernel
  have hsent : e.sent ⟨[0, 0], 0⟩ ≠ 0 := by
    intro h0
    have hcard : (e.sent ⟨[0, 0], 0⟩).card = 1 := by decide +kernel
    rw [h0] at hcard
    cases hcard
  have hnext : t = e.next := by decide +kernel
  refine ⟨⟨Doubler.accepted_tower, Doubler.contract, ha, Doubler.allGood_tower, he⟩,
    ⟨rfl, hs, hsent⟩, ?_⟩
  exact (timely_iff Doubler.accepted_tower Doubler.contract ha Doubler.allGood_tower he rfl
    hs).1.mpr (.inl hnext)

/-- **Outputs may come too early, and twice.** The tower of doublers is asked for the outputs
of its first event, at two seconds, and is then stepped to the first second, where it has no
event. Nothing was injected, and yet the second doubler receives the message that
is meant for later. When the event comes it receives it again. -/
theorem early_delivery :
    let w : World Unobserved := ⟨⟨⟩, false⟩
    let early : Instant := ⟨1, 0, by decide⟩
    let t : Instant := ⟨2, 0, by decide⟩
    let value (e : Engine Payload Doubler) := (e.leafAt? [0, 1]).map fun l => l.state.value
    let started := ((ofModel Doubler.tower).perform w (.init .epoch)).state
    let shown := (started.perform w (.collect t)).state
    let e := (shown.perform w (.collect early)).state
    let past : Ledger Payload :=
      [(.collect early, none), (.collect t, none), (.init .epoch, none)]
    let moved := (e.perform w (.advance early)).state
    let again := ((moved.perform w (.collect t)).state.perform w (.advance t)).state
    (Booked Unobserved Doubler.tower past e ∧ past.inits = 1 ∧
      (∀ p, past.injected Doubler.tower.interface.inputs p = []) ∧
      (e.perform w (.advance early)).stop = none ∧
      ((moved.perform w (.collect t)).state.perform w (.advance t)).stop = none) ∧
    ¬ Timely past early e ∧ value e = some 1 ∧ value moved = some 2 ∧ value again = some 3 := by
  intro w early t value started shown e past moved again
  have hstarted : Booked Unobserved Doubler.tower _ started :=
    Booked.create.completed (c := .init .epoch) trivial (by decide +kernel)
  have hshown : Booked Unobserved Doubler.tower _ shown :=
    hstarted.completed (c := .collect t) trivial (by decide +kernel)
  have he : Booked Unobserved Doubler.tower past e :=
    hshown.completed (c := .collect early) trivial (by decide +kernel)
  refine ⟨⟨he, rfl, fun _ => rfl, by decide +kernel, by decide +kernel⟩, fun htimely => ?_,
    by decide +kernel, by decide +kernel, by decide +kernel⟩
  have hsent : e.sent ⟨[0, 0], 0⟩ ≠ 0 := by
    intro h0
    have hcard : (e.sent ⟨[0, 0], 0⟩).card = 1 := by decide +kernel
    rw [h0] at hcard
    cases hcard
  -- The sender has its event at two seconds, and not now.
  obtain ⟨l, hl, hnow⟩ := htimely _ hsent
  have hlater : (e.leafAt? [0, 0]).map (fun l => decide (l.next = early)) = some false := by
    decide +kernel
  rw [hl, Option.map_some, Option.some_inj, decide_eq_false_iff_not] at hlater
  exact hlater hnow.next

end Engine

end DiscreteEvent
