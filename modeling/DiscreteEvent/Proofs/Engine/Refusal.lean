/-
Refused calls.

An engine in service refuses a call on its root only for the time of the call: outputs
that were to be collected after the next event, and an advance out of the window of the
root. `Engine.Outside` are these calls, each with the violation that the root reports.
`refused_iff_outside` says that no other call is refused, with any violation, and that a
refused call has done nothing: the outcome is the engine as it was, in the world as it
was.

So no engine further down ever reports a violation. It is `Windowed` that keeps them from
it: a time inside of the window of a parent lies inside of those of its children. And
since the journal of a model is a part of its state, a refused call has not called a
function of any model either.
-/
import DiscreteEvent.Proofs.Engine.Flow
import DiscreteEvent.Proofs.Engine.Paths
import DiscreteEvent.Proofs.Model.Journal

set_option autoImplicit false

namespace DiscreteEvent

variable {τ σ ω : Type} [MessageType τ]

namespace Engine

variable [AtomicModel τ σ] [Observer ω]

/-! ## Calls outside of the window -/

/-- **The calls that an engine with the path `path` refuses**, and the violation that it
reports: nothing can be collected after the next event, and no advance goes out of the
window. -/
inductive Outside (path : String) (e : Engine τ σ) : Call τ → Violation → Prop
  | collect {t : Instant} (late : e.next < t) :
      Outside path e (.collect t) (.collectOutOfWindow path t e.next)
  | advance {t : Instant} (out : t < e.last ∨ e.next < t) :
      Outside path e (.advance t) (.advanceOutOfWindow path t e.last e.next)

variable {good : Interface τ → Stage → σ → Prop} {m : Model τ σ} {e : Engine τ σ}

/-- A call outside of the window leaves the engine and the world as they were. -/
theorem Outside.refused {c : Call τ} {v : Violation} (h : e.Outside e.node.path c v)
    (hi : e.Initialized) (w : World ω) : e.perform w c = .refused e w v := by
  cases h with
  | collect late => exact collect_refused hi late w
  | advance out => exact advance_refused hi out w

/-- **Any other call comes to its end.** -/
theorem Live.perform_done (hc : Contract good) (ha : Attended ω good) (hm : m.Wired)
    (h : Live good m e) {c : Call τ} (hd : c.Declared m)
    (hin : ∀ v, ¬ e.Outside e.node.path c v) (w : World ω) : (e.perform w c).stop = none := by
  cases c with
  | init t =>
      obtain ⟨heq, -⟩ := h.sound.init hc ha t w
      rw [perform, heq]
      rfl
  | inject port values =>
      obtain ⟨i, hx, -⟩ := h.sound.inbox.extend hm.distinct.inputs hd values
      simp only [perform, hx]
      rfl
  | collect t =>
      have ht : t ≤ e.next := not_lt.mp fun late => hin _ (.collect late)
      obtain ⟨heq, -⟩ := h.collect hc ha hm ht w
      rw [perform, heq]
      rfl
  | advance t =>
      have ht : ¬ (t < e.last ∨ e.next < t) := fun out => hin _ (.advance out)
      rw [not_or, not_lt, not_lt] at ht
      obtain ⟨heq, -⟩ := h.advance hc ha hm ht.1 ht.2 w
      rw [perform, heq]
      rfl

/-! ## Refused calls and the functions of the models -/

/-- The journal of an atomic model of the tree. -/
def journalAt? (e : Engine τ (Journaled τ σ)) (a : List Nat) : Option (List (ModelCall τ)) :=
  (e.leafAt? a).map (·.state.journal)

/-- **A call is refused if and only if it goes out of the window of the root**, with the
violation that says so of the root, and it has changed nothing by then: neither the engine
nor the world, in which the observer is. Any other call comes to its end. And where
the models keep journals, a refused call writes nothing into them. -/
theorem refused_iff_outside (hacc : m.Accepted) (hc : Contract good) (ha : Attended ω good)
    (hg : m.AllGood good) {c : Call τ} (hd : c.Declared m) (w : World ω) :
    (∀ e : Engine τ σ, e.Driven ω m → e.node.initialized = true →
      (∀ v, (e.perform w c).stop = some (.violation v) ↔ e.Outside m.id c v) ∧
      (∀ v, e.Outside m.id c v → e.perform w c = .refused e w v) ∧
      ((∀ v, ¬ e.Outside m.id c v) → (e.perform w c).stop = none)) ∧
    ∀ e : Engine τ (Journaled τ σ), e.Driven ω m.journaled → e.node.initialized = true →
      ∀ v, e.Outside m.id c v → ∀ a, (e.perform w c).state.journalAt? a = e.journalAt? a := by
  have hm := hacc.wired
  refine ⟨fun e he hi => ?_, fun e he hi v hv a => ?_⟩
  · have hlive := (he.ready hc ha hm hg).live hi
    have hrefused : ∀ v, e.Outside m.id c v → e.perform w c = .refused e w v := by
      rw [← he.path]
      exact fun v hv => hv.refused hlive.initialized w
    have hdone : (∀ v, ¬ e.Outside m.id c v) → (e.perform w c).stop = none := by
      rw [← he.path]
      exact fun hin => hlive.perform_done hc ha hm hd hin w
    refine ⟨fun v => ⟨fun hs => ?_, fun hv => by rw [hrefused v hv]; rfl⟩, hrefused, hdone⟩
    -- A call that stops goes out of the window, and it stops for one reason only.
    by_cases hin : ∃ v', e.Outside m.id c v'
    · obtain ⟨v', hv'⟩ := hin
      rw [hrefused v' hv'] at hs
      cases hs
      exact hv'
    · rw [hdone fun v hv => hin ⟨v, hv⟩] at hs
      cases hs
  · have hready := he.ready (Journaled.contract hc) (Journaled.attended ha)
      (hm.mapState _) hg.journaled
    have hpath : e.node.path = m.id := he.path.trans (by cases m <;> rfl)
    rw [← hpath] at hv
    rw [hv.refused (hready.live hi).initialized w]
    rfl

/-- The tower of doublers is initialized and receives a message for both of its children. It
is neither stepped beyond its first event nor taken back from it. -/
theorem refused_iff_outside_tower :
    let w : World Unobserved := ⟨⟨⟩, false⟩
    let started := ((ofModel Doubler.tower).perform w (.init .epoch)).state
    let fed := (started.perform w (.inject Doubler.add [(5 : UInt64)])).state
    let moved := (fed.perform w (.advance ⟨1, 0, by decide⟩)).state
    (Doubler.tower.Accepted ∧ Contract Doubler.Good ∧ Attended Unobserved Doubler.Good ∧
      Doubler.tower.AllGood Doubler.Good ∧ fed.Driven Unobserved Doubler.tower) ∧
    (fed.node.initialized = true ∧ moved.node.initialized = true ∧
      fed.node.inbox.isEmpty = false) ∧
    fed.perform w (.collect ⟨3, 0, by decide⟩)
      = .refused fed w (.collectOutOfWindow "tower" ⟨3, 0, by decide⟩ ⟨2, 0, by decide⟩) ∧
    moved.perform w (.advance .epoch) = .refused moved w
      (.advanceOutOfWindow "tower" .epoch ⟨1, 0, by decide⟩ ⟨3, 0, by decide⟩) := by
  intro w started fed moved
  have ha : Attended Unobserved Doubler.Good := attended_unobserved _
  have hstarted : started.Driven Unobserved Doubler.tower := .call .create trivial
  have hfed : fed.Driven Unobserved Doubler.tower :=
    .call hstarted (c := .inject Doubler.add [(5 : UInt64)]) (List.mem_singleton_self _)
  have hmoved : moved.Driven Unobserved Doubler.tower := .call hfed trivial
  have hinit : fed.node.initialized = true := by decide +kernel
  have hinit' : moved.node.initialized = true := by decide +kernel
  have hnext : fed.next = ⟨2, 0, by decide⟩ := by decide +kernel
  have hwindow : moved.last = ⟨1, 0, by decide⟩ ∧ moved.next = ⟨3, 0, by decide⟩ := by
    decide +kernel
  refine ⟨⟨Doubler.accepted_tower, Doubler.contract, ha, Doubler.allGood_tower, hfed⟩,
    ⟨hinit, hinit', by decide +kernel⟩, ?_, ?_⟩
  · have hcall := refused_iff_outside Doubler.accepted_tower Doubler.contract ha
      Doubler.allGood_tower (c := .collect ⟨3, 0, by decide⟩) trivial w
    have hlate : fed.next < ⟨3, 0, by decide⟩ := by
      rw [hnext]
      decide
    have h := (hcall.1 fed hfed hinit).2.1 _ (.collect hlate)
    rwa [hnext] at h
  · have hcall := refused_iff_outside Doubler.accepted_tower Doubler.contract ha
      Doubler.allGood_tower (c := .advance .epoch) trivial w
    have hearly : Instant.epoch < moved.last := by
      rw [hwindow.1]
      decide
    have h := (hcall.1 moved hmoved hinit').2.1 _ (.advance (.inl hearly))
    rwa [hwindow.1, hwindow.2] at h

end Engine

end DiscreteEvent
