/-
Engines in service.

An initialized engine of a wired tree of good models is `Live`: sound, with its
windows tied, and initialized throughout. On a live engine every call inside of
the window comes to its end, with the result that `PlainTree` states, and leaves
the engine live; a call outside of it is refused by the root. Before its
initialization an engine refuses to be stepped, so nothing is lost then either:
`Ready` covers both halves of its life, and `Performed` says, once for all, what a
call does to an engine that is ready.

The result is `Driven.ready`: whatever sequence of calls and runs a client makes,
at whatever times, the engine is ready for the next one. None of them is broken
off by a fault -- no place is missing, no bag meets messages of another type, no
child is joined to itself, and no elapsed time is negative.
-/
import DiscreteEvent.Engine.Run
import DiscreteEvent.Proofs.Engine.PlainTree

set_option autoImplicit false

namespace DiscreteEvent

variable {τ σ ω π : Type} [MessageType τ]

namespace Engine

/-- **An engine of `m` in service.** -/
structure Live (good : Interface τ → Stage → σ → Prop) (m : Model τ σ) (e : Engine τ σ) :
    Prop where
  sound : Sound good m e
  windowed : e.Windowed
  initialized : e.Initialized

/-- **An engine of `m`**, in service or not yet initialized. -/
structure Ready (good : Interface τ → Stage → σ → Prop) (m : Model τ σ) (e : Engine τ σ) :
    Prop where
  sound : Sound good m e
  windowed : e.node.initialized = true → e.Windowed
  initialized : e.node.initialized = true → e.Initialized

variable {good : Interface τ → Stage → σ → Prop} {m : Model τ σ} {e : Engine τ σ}

theorem Live.ready (h : Live good m e) : Ready good m e :=
  ⟨h.sound, fun _ => h.windowed, fun _ => h.initialized⟩

theorem Ready.live (h : Ready good m e) (hi : e.node.initialized = true) : Live good m e :=
  ⟨h.sound, h.windowed hi, h.initialized hi⟩

/-! ## The engine of a model -/

theorem getElem?_ofModelsBelow (parent : String) (models : List (Model τ σ)) (i : Nat) :
    (ofModelsBelow parent models)[i]? = models[i]?.map (ofModelBelow (some parent)) := by
  induction models generalizing i with
  | nil => rfl
  | cons m models ih =>
      cases i with
      | zero => rfl
      | succ i =>
          rw [ofModelsBelow, List.getElem?_cons_succ, List.getElem?_cons_succ]
          exact ih i

theorem length_ofModelsBelow (parent : String) (models : List (Model τ σ)) :
    (ofModelsBelow parent models).length = models.length := by
  induction models with
  | nil => rfl
  | cons m models ih => rw [ofModelsBelow, List.length_cons, List.length_cons, ih]

/-- **A new engine is sound**, if its models are in a good state. -/
theorem sound_ofModelBelow (h : m.AllGood good) (parent : Option String) :
    Sound good m (ofModelBelow parent m) := by
  induction h generalizing parent with
  | @atomic a self =>
      exact .leaf ⟨Bags.fits_ofPorts _, Bags.fits_ofPorts _, fun _ => self, nofun⟩
  | @coupled c models _ ih =>
      refine .hub ⟨rfl, rfl, rfl, Bags.fits_ofPorts _, Bags.fits_ofPorts _⟩
        (length_ofModelsBelow _ _).symm fun i m e hm he => ?_
      rw [getElem?_ofModelsBelow, hm, Option.map_some, Option.some_inj] at he
      subst he
      exact ih m (List.mem_of_getElem? hm) _

theorem initialized_ofModel (m : Model τ σ) : (ofModel m).node.initialized = false := by
  cases m <;> rfl

theorem ready_ofModel (h : m.AllGood good) : Ready good m (ofModel m) where
  sound := sound_ofModelBelow h none
  windowed hi := absurd (hi.symm.trans (initialized_ofModel m)) (by simp)
  initialized hi := absurd (hi.symm.trans (initialized_ofModel m)) (by simp)

/-! ## Messages for the root -/

theorem Sound.withInbox (h : Sound good m e) {inbox : Bags τ}
    (hin : inbox.Fits m.interface.inputs) : Sound good m (e.withInbox inbox) := by
  cases h with
  | leaf self => exact .leaf ⟨hin, self.outbox, self.fresh, self.running⟩
  | hub self length_eq each =>
      exact .hub ⟨self.eic, self.eoc, self.ic, hin, self.outbox⟩ length_eq each

theorem node_withInbox (e : Engine τ σ) (inbox : Bags τ) :
    (e.withInbox inbox).node = { e.node with inbox := inbox } := by
  cases e <;> rfl

theorem withInbox_self (e : Engine τ σ) : e.withInbox e.node.inbox = e := by
  cases e <;> rfl

theorem withInbox_withInbox (x y : Bags τ) (e : Engine τ σ) :
    (e.withInbox x).withInbox y = e.withInbox y := by
  cases e <;> rfl

@[simp] theorem last_withInbox (e : Engine τ σ) (inbox : Bags τ) :
    (e.withInbox inbox).last = e.last := by
  cases e <;> rfl

@[simp] theorem next_withInbox (e : Engine τ σ) (inbox : Bags τ) :
    (e.withInbox inbox).next = e.next := by
  cases e <;> rfl

theorem Live.withInbox (h : Live good m e) {inbox : Bags τ}
    (hin : inbox.Fits m.interface.inputs) : Live good m (e.withInbox inbox) :=
  ⟨h.sound.withInbox hin, h.windowed.withInbox, h.initialized.withInbox⟩

theorem Ready.withInbox (h : Ready good m e) {inbox : Bags τ}
    (hin : inbox.Fits m.interface.inputs) : Ready good m (e.withInbox inbox) where
  sound := h.sound.withInbox hin
  windowed hi := (h.windowed (by rw [node_withInbox] at hi; exact hi)).withInbox
  initialized hi := (h.initialized (by rw [node_withInbox] at hi; exact hi)).withInbox

/-! ## Calls in service -/

variable [AtomicModel τ σ] [Observer ω]

/-- **Initializing** an engine brings it into service, with all windows open at
the time of the call. -/
theorem Sound.init (hc : Contract good) (ha : Attended ω good) (h : Sound good m e)
    (t : Instant) (w : World ω) :
    e.init t w = .done (e.started t) (w.after (e.startEffect t)) ∧
      Live good m (e.started t) ∧ At t (e.started t) := by
  obtain ⟨heq, hsound⟩ := init_eq hc ha t e h w
  obtain ⟨-, hat⟩ := init_windowed t e (Outcome.unbroken_of_eq_done heq)
  rw [heq] at hat
  exact ⟨heq, ⟨hsound, hat.windowed, hat.initialized⟩, hat⟩

/-- **Collecting** from a live engine up to its next event. -/
theorem Live.collect (hc : Contract good) (ha : Attended ω good) (hm : m.Wired)
    (h : Live good m e) {t : Instant} (ht : t ≤ e.next) (w : World ω) :
    e.collect t w = .done (e.shown t) (w.after (e.showEffect t)) ∧
      Live good m (e.shown t) ∧ SameWindow e (e.shown t) := by
  obtain ⟨heq, hsound⟩ := collect_eq hc ha t e hm h.sound h.windowed h.initialized ht w
  obtain ⟨-, hs⟩ := collect_windowed t e h.windowed h.initialized ht
    (Outcome.unbroken_of_eq_done heq)
  rw [heq] at hs
  exact ⟨heq, ⟨hsound, hs.windowed, hs.initialized⟩, hs⟩

/-- **Advancing** a live engine inside of its window. -/
theorem Live.advance (hc : Contract good) (ha : Attended ω good) (hm : m.Wired)
    (h : Live good m e) {t : Instant} (hl : e.last ≤ t) (ht : t ≤ e.next) (w : World ω) :
    e.advance t w = .done (e.moved t []) (w.after (e.moveEffect t [])) ∧
      Live good m (e.moved t []) ∧ At t (e.moved t []) := by
  have hmail : Hub.Addressed m.interface.inputs ([] : List (Delivery τ)) := nofun
  obtain ⟨heq, hsound⟩ := advance_eq hc ha t e hm h.sound h.windowed h.initialized hl ht hmail w
  obtain ⟨-, hat⟩ := advance_windowed t e h.windowed h.initialized hl ht
    (Outcome.unbroken_of_eq_done heq)
  rw [heq] at hat
  exact ⟨heq, ⟨hsound, hat.windowed, hat.initialized⟩, hat⟩

/-- **A step** of a live engine: it collects and advances at the next event. -/
theorem Live.step (hc : Contract good) (ha : Attended ω good) (hm : m.Wired)
    (h : Live good m e) (w : World ω) :
    e.step w = .done ((e.shown e.next).moved e.next [])
        ((w.after (e.showEffect e.next)).after ((e.shown e.next).moveEffect e.next [])) ∧
      Live good m ((e.shown e.next).moved e.next []) := by
  obtain ⟨heq, hlive, hsame⟩ := h.collect hc ha hm (le_refl e.next) w
  have hl : (e.shown e.next).last ≤ e.next := by
    rw [hsame.last]
    exact h.windowed.last_le_next
  obtain ⟨heq', hlive', -⟩ := hlive.advance hc ha hm hl (le_of_eq hsame.next.symm)
    (w.after (e.showEffect e.next))
  rw [Engine.step, heq, Outcome.andThen_done, heq']
  exact ⟨rfl, hlive'⟩

/-! ## Calls before the initialization -/

/-- Before the initialization the root refuses to be stepped. -/
theorem collect_uninitialized (hi : e.node.initialized = false) (t : Instant) (w : World ω) :
    e.collect t w = .refused e w (.uninitialized e.node.path) := by
  cases e with
  | leaf l =>
      have hr : l.refuseCollect t = _ := Node.refuseCollect_of_uninitialized hi
      simp only [Engine.collect, Leaf.collect, hr]
      rfl
  | hub h es =>
      have hr : h.refuseCollect t = _ := Node.refuseCollect_of_uninitialized hi
      simp only [Engine.collect, hr]
      rfl

theorem advance_uninitialized (hi : e.node.initialized = false) (t : Instant) (w : World ω) :
    e.advance t w = .refused e w (.uninitialized e.node.path) := by
  cases e with
  | leaf l =>
      have hr : (l.receive []).refuseAdvance t = _ := Node.refuseAdvance_of_uninitialized hi
      simp only [Engine.advance, advanceWith, Leaf.advance, hr]
      rfl
  | hub h es =>
      have hr : (h.receive []).refuseAdvance t = _ := Node.refuseAdvance_of_uninitialized hi
      simp only [Engine.advance, advanceWith, hr]
      rfl

/-! ## Any sequence of calls -/

end Engine

/-- The call is about ports of the model. -/
def Call.Declared (m : Model τ σ) : Call τ → Prop
  | .inject port _ => port ∈ m.interface.inputs
  | _ => True

/-- A supervisor that returns normally. -/
structure Supervisor.Calm (π : Type) [Supervisor π] : Prop where
  proceed : ∀ (t : Instant) (interrupted : Bool) (p : π),
    (Supervisor.proceed t interrupted p).fault = none
  completed : ∀ (t : Instant) (p : π), (Supervisor.completed t p).fault = none

theorem calm_until : Supervisor.Calm Until := ⟨fun _ _ _ => rfl, fun _ _ => rfl⟩

namespace Engine

variable {good : Interface τ → Stage → σ → Prop} {m : Model τ σ} {e : Engine τ σ}
variable [AtomicModel τ σ] [Observer ω]

/-- **What comes of a call** on an engine that is ready: it comes to its end, or it is
refused and changes nothing. -/
inductive Performed (good : Interface τ → Stage → σ → Prop) (m : Model τ σ) (e : Engine τ σ) :
    Call τ → Outcome (Engine τ σ) ω → Prop
  | init {t : Instant} {w : World ω} (live : Live good m (e.started t)) :
      Performed good m e (.init t) (.done (e.started t) w)
  | inject {port : Port τ} {values : List (MessageType.Value port.type)} {x : Bags τ}
      {w : World ω} (extended : e.node.inbox.extend port values = .ok x)
      (fits : x.Fits m.interface.inputs) :
      Performed good m e (.inject port values) (.done (e.withInbox x) w)
  | collect {t : Instant} {w : World ω} (before : Live good m e) (inside : t ≤ e.next)
      (live : Live good m (e.shown t)) (same : SameWindow e (e.shown t)) :
      Performed good m e (.collect t) (.done (e.shown t) w)
  | advance {t : Instant} {w : World ω} (before : Live good m e)
      (inside : e.last ≤ t ∧ t ≤ e.next) (live : Live good m (e.moved t [])) :
      Performed good m e (.advance t) (.done (e.moved t []) w)
  | refused {c : Call τ} {w : World ω} {v : Violation} :
      Performed good m e c (.refused e w v)

/-- **One call** on an engine that is ready. -/
theorem Ready.performed (hc : Contract good) (ha : Attended ω good) (hm : m.Wired)
    (h : Ready good m e) {c : Call τ} (hd : c.Declared m) (w : World ω) :
    Performed good m e c (e.perform w c) := by
  cases c with
  | init t =>
      obtain ⟨heq, hlive, -⟩ := h.sound.init hc ha t w
      rw [Engine.perform, heq]
      exact .init hlive
  | inject port values =>
      obtain ⟨x, hx, hfits⟩ := h.sound.inbox.extend hm.distinct.inputs hd values
      simp only [Engine.perform, hx]
      exact .inject hx hfits
  | collect t =>
      cases hi : e.node.initialized with
      | false =>
          rw [Engine.perform, collect_uninitialized hi]
          exact .refused
      | true =>
          by_cases ht : e.next < t
          · rw [Engine.perform, collect_refused (h.initialized hi) ht]
            exact .refused
          · obtain ⟨heq, hlive, hsame⟩ := (h.live hi).collect hc ha hm (not_lt.mp ht) w
            rw [Engine.perform, heq]
            exact .collect (h.live hi) (not_lt.mp ht) hlive hsame
  | advance t =>
      cases hi : e.node.initialized with
      | false =>
          rw [Engine.perform, advance_uninitialized hi]
          exact .refused
      | true =>
          by_cases ht : t < e.last ∨ e.next < t
          · rw [Engine.perform, advance_refused (h.initialized hi) ht]
            exact .refused
          · rw [not_or, not_lt, not_lt] at ht
            obtain ⟨heq, hlive, -⟩ := (h.live hi).advance hc ha hm ht.1 ht.2 w
            rw [Engine.perform, heq]
            exact .advance (h.live hi) ht hlive

/-- **One call does not fault**, and the engine is ready for the next one. -/
theorem Ready.perform (hc : Contract good) (ha : Attended ω good) (hm : m.Wired)
    (h : Ready good m e) {c : Call τ} (hd : c.Declared m) (w : World ω) :
    (e.perform w c).Unbroken ∧ Ready good m (e.perform w c).state := by
  have hperformed := h.performed hc ha hm hd w
  generalize e.perform w c = o at hperformed ⊢
  cases hperformed with
  | init live => exact ⟨Outcome.unbroken_done _ _, live.ready⟩
  | inject _ fits => exact ⟨Outcome.unbroken_done _ _, h.withInbox fits⟩
  | collect _ _ live => exact ⟨Outcome.unbroken_done _ _, live.ready⟩
  | advance _ _ live => exact ⟨Outcome.unbroken_done _ _, live.ready⟩
  | refused => exact ⟨Outcome.unbroken_refused _ _ _, h⟩

/-- A step of an engine that is ready is refused or comes to its end. -/
theorem Ready.step (hc : Contract good) (ha : Attended ω good) (hm : m.Wired)
    (h : Ready good m e) (w : World ω) :
    (e.step w).Unbroken ∧ Ready good m (e.step w).state := by
  cases hi : e.node.initialized with
  | false =>
      rw [Engine.step, collect_uninitialized hi]
      exact ⟨Outcome.unbroken_refused _ _ _, h⟩
  | true =>
      obtain ⟨heq, hlive⟩ := (h.live hi).step hc ha hm w
      rw [heq]
      exact ⟨Outcome.unbroken_done _ _, hlive.ready⟩

variable [Supervisor π]

/-- **A run does not fault**, however long it is. -/
theorem Ready.run (hc : Contract good) (ha : Attended ω good) (hm : m.Wired)
    (hp : Supervisor.Calm π) {n : Nat} :
    ∀ {e : Engine τ σ} {p : π} {w : World ω} {o : Outcome (Engine τ σ × π) ω},
      Ready good m e → Engine.run n e p w = some o → o.Unbroken ∧ Ready good m o.state.1 := by
  induction n with
  | zero => exact fun _ ho => nomatch ho
  | succ n ih =>
      intro e p w o h ho
      simp only [Engine.run, hp.proceed, hp.completed] at ho
      split at ho
      · obtain ⟨hu, hr⟩ := h.step hc ha hm (w.heed (Supervisor.proceed e.next w.interrupted p))
        split at ho
        · cases ho
          exact ⟨hu, hr⟩
        · exact ih hr ho
      · cases ho
        exact ⟨Outcome.unbroken_done _ _, h⟩

/-- **The states of an engine of `m` in the hands of a client**: it makes calls
and runs in any order, before and after the initialization, and it goes on
from whatever state a call has left. -/
inductive Driven (ω : Type) [Observer ω] (m : Model τ σ) : Engine τ σ → Prop
  | create : Driven ω m (ofModel m)
  | call {e : Engine τ σ} {c : Call τ} {w : World ω} (he : Driven ω m e) (hd : c.Declared m) :
      Driven ω m (e.perform w c).state
  | runUntil {e : Engine τ σ} {n : Nat} {limit : Instant} {w : World ω}
      {o : Outcome (Engine τ σ) ω} (he : Driven ω m e) (ho : e.runUntil n limit w = some o) :
      Driven ω m o.state

theorem Ready.runUntil (hc : Contract good) (ha : Attended ω good) (hm : m.Wired)
    (h : Ready good m e) {n : Nat} {limit : Instant} {w : World ω} {o : Outcome (Engine τ σ) ω}
    (ho : e.runUntil n limit w = some o) : o.Unbroken ∧ Ready good m o.state := by
  obtain ⟨o', ho', rfl⟩ := Option.map_eq_some_iff.mp ho
  exact h.run hc ha hm calm_until ho'

theorem Driven.ready (hc : Contract good) (ha : Attended ω good) (hm : m.Wired)
    (hg : m.AllGood good) (h : Driven ω m e) : Ready good m e := by
  induction h with
  | create => exact ready_ofModel hg
  | call _ hd ih => exact (ih.perform hc ha hm hd _).2
  | runUntil _ ho ih => exact (ih.runUntil hc ha hm ho).2

end Engine

end DiscreteEvent
