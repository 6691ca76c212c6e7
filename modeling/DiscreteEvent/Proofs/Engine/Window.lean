/-
Time windows in an engine tree.

Every node keeps a window, from its last transition to its next event. A call
on the root is checked against the window of the root alone, and yet no engine
further down ever refuses the call that its parent passes on. This file proves
why: `Engine.Windowed` ties the window of every hub to those of its children,
and every call keeps it.

The tie is not symmetric. A leaf that does not fire keeps an older last
transition than its parent, while a hub always moves along; so `last` of a
child is at most that of its parent, and equal to it for a hub. On the other
side the next event of a parent is the earliest of its children, which is what
lets a time inside of the parent's window lie inside of every child's.

`reached_windowed` is the result: the tie holds in every state that a sequence
of calls leads to. The three lemmas before it (`init_windowed`,
`collect_windowed`, `advance_windowed`) are its steps; each is an induction over
the tree, and each says as well that the call is not refused further down.
-/
import DiscreteEvent.Proofs.Components.Doubler
import DiscreteEvent.Proofs.Engine.Call
import DiscreteEvent.Proofs.Time.Order

set_option autoImplicit false

namespace DiscreteEvent

variable {τ σ ω : Type} [MessageType τ]

/-! ## The earliest next event -/

namespace Hub

theorem earliest_cons (n : Node τ) (ns : List (Node τ)) :
    earliest (n :: ns) = min n.next (earliest ns) := rfl

theorem earliest_le {ns : List (Node τ)} {n : Node τ} (h : n ∈ ns) : earliest ns ≤ n.next := by
  induction ns with
  | nil => exact absurd h List.not_mem_nil
  | cons m ns ih =>
      rw [earliest_cons]
      rcases List.mem_cons.mp h with rfl | h
      · exact min_le_left _ _
      · exact le_trans (min_le_right _ _) (ih h)

theorem le_earliest {ns : List (Node τ)} {t : Instant} (h : ∀ n ∈ ns, t ≤ n.next) :
    t ≤ earliest ns := by
  induction ns with
  | nil => exact t.le_max
  | cons m ns ih =>
      rw [earliest_cons]
      exact le_min (h m (by simp)) (ih fun n hn => h n (by simp [hn]))

/-- The earliest next event is the next event of some node, if there is any. -/
theorem exists_eq_earliest {ns : List (Node τ)} (h : ns ≠ []) :
    ∃ n ∈ ns, n.next = earliest ns := by
  induction ns with
  | nil => exact absurd rfl h
  | cons m ns ih =>
      rw [earliest_cons]
      rcases le_total m.next (earliest ns) with hle | hle
      · exact ⟨m, by simp, (min_eq_left hle).symm⟩
      · rw [min_eq_right hle]
        by_cases hns : ns = []
        · subst hns
          exact ⟨m, by simp, Instant.max_le_iff.mp hle⟩
        · obtain ⟨n, hn, he⟩ := ih hns
          exact ⟨n, by simp [hn], he⟩

end Hub

/-! ## The invariant -/

namespace Engine

/-- Whether this is the engine of a coupled model. -/
def isHub : Engine τ σ → Bool
  | leaf _ => false
  | hub _ _ => true

/-- **The minimum of the next events**: the last instant if there is none. -/
structure IsEarliest (next : Instant) (children : List (Engine τ σ)) : Prop where
  le : ∀ c ∈ children, next ≤ c.next
  attained : children ≠ [] → ∃ c ∈ children, c.next = next
  max : children = [] → next = .max

/-- **The time-window invariant** of an engine tree. -/
inductive Windowed : Engine τ σ → Prop
  | leaf {l : Leaf τ σ} (window : l.last ≤ l.next) : Windowed (.leaf l)
  | hub {h : Hub τ} {children : List (Engine τ σ)}
      (window : h.last ≤ h.next)
      (earliest : IsEarliest h.next children)
      (around : ∀ c ∈ children, c.last ≤ h.last ∧ h.last ≤ c.next)
      (together : ∀ c ∈ children, c.isHub = true → c.last = h.last)
      (each : ∀ c ∈ children, Windowed c) : Windowed (.hub h children)

/-- Every node of the tree is initialized. -/
inductive Initialized : Engine τ σ → Prop
  | leaf {l : Leaf τ σ} (self : l.initialized = true) : Initialized (.leaf l)
  | hub {h : Hub τ} {children : List (Engine τ σ)} (self : h.initialized = true)
      (each : ∀ c ∈ children, Initialized c) : Initialized (.hub h children)

theorem Windowed.last_le_next {e : Engine τ σ} (h : e.Windowed) : e.last ≤ e.next := by
  cases h with
  | leaf window => exact window
  | hub window => exact window

theorem Windowed.child {h : Hub τ} {es : List (Engine τ σ)} (hw : Windowed (.hub h es))
    {c : Engine τ σ} (hc : c ∈ es) : c.Windowed := by
  cases hw with
  | hub _ _ _ _ each => exact each c hc

/-- A time up to the next event of a hub is one up to that of every child. -/
theorem Windowed.next_le {h : Hub τ} {es : List (Engine τ σ)} (hw : Windowed (.hub h es))
    {c : Engine τ σ} (hc : c ∈ es) : h.next ≤ c.next := by
  cases hw with
  | hub _ earliest => exact earliest.le c hc

/-- A time not before the last transition of a hub is not before that of any child. -/
theorem Windowed.last_le {h : Hub τ} {es : List (Engine τ σ)} (hw : Windowed (.hub h es))
    {c : Engine τ σ} (hc : c ∈ es) : c.last ≤ h.last := by
  cases hw with
  | hub _ _ around => exact (around c hc).1

theorem Initialized.child {h : Hub τ} {es : List (Engine τ σ)} (hi : Initialized (.hub h es))
    {c : Engine τ σ} (hc : c ∈ es) : c.Initialized := by
  cases hi with
  | hub _ each => exact each c hc

theorem Initialized.node {e : Engine τ σ} (h : e.Initialized) : e.node.initialized = true := by
  cases h with
  | leaf self => exact self
  | hub self => exact self

theorem isEarliest_earliest (es : List (Engine τ σ)) :
    IsEarliest (Hub.earliest (es.map node)) es where
  le c hc := Hub.earliest_le (List.mem_map_of_mem hc)
  attained h := by
    have hne : es.map node ≠ [] := by simpa using h
    obtain ⟨n, hn, he⟩ := Hub.exists_eq_earliest hne
    obtain ⟨c, hc, rfl⟩ := List.mem_map.mp hn
    exact ⟨c, hc, he⟩
  max h := by
    subst h
    rfl

/-- **A hub that has just moved to `t`**, whose children are around `t`. -/
theorem windowed_hub_at {t : Instant} {h : Hub τ} {es : List (Engine τ σ)} (hl : h.last = t)
    (hn : h.next = Hub.earliest (es.map node))
    (hw : ∀ c ∈ es, c.Windowed) (ha : ∀ c ∈ es, c.last ≤ t ∧ t ≤ c.next)
    (ht : ∀ c ∈ es, c.isHub = true → c.last = t) : Windowed (.hub h es) := by
  refine .hub ?_ (hn ▸ isEarliest_earliest es) (hl ▸ ha) (hl ▸ ht) hw
  rw [hl, hn]
  refine Hub.le_earliest fun n hmem => ?_
  obtain ⟨c, hc, rfl⟩ := List.mem_map.mp hmem
  exact (ha c hc).2

end Engine

/-! ## Leaves

What the calls do to the window of a leaf. The model is free to do what it
likes with its state; it is asked for its time advance, and that decides where
the window ends. -/

namespace Leaf

theorem report_of_unbroken [AtomicModel τ σ] [Observer ω] {l : Leaf τ σ} {phase : Phase}
    {t : Instant} {bags : List BagRecord} {w : World ω}
    (h : (l.report phase t bags w).Unbroken) :
    (l.report phase t bags w).stop = none ∧ (l.report phase t bags w).state = l :=
  ⟨h.stop_eq_none rfl, rfl⟩

variable [AtomicModel τ σ]

/-- Rescheduling at `t` opens a window at `t`. -/
theorem reschedule_of_unbroken {l : Leaf τ σ} {t : Instant} {w : World ω}
    (h : (l.reschedule t w).Unbroken) :
    (l.reschedule t w).stop = none ∧
      ∃ s ta, (l.reschedule t w).state
        = { l with state := s, last := t, next := t.schedule ta } := by
  have hs := h.of_andThen.stop_eq_none rfl
  rw [reschedule, Outcome.andThen_of_done hs]
  exact ⟨rfl, _, _, rfl⟩

/-- A transition on input that is there, at a time not before the last one, is
not refused. It changes nothing but the state. -/
theorem fireExternal_of_unbroken {l : Leaf τ σ} {t since : Instant} {w : World ω}
    (hi : l.inbox.isEmpty = false) (ht : since ≤ t) (h : (l.fireExternal t since w).Unbroken) :
    (l.fireExternal t since w).stop = none ∧ (l.fireExternal t since w).state.toNode = l.toNode := by
  simp only [fireExternal, hi, Instant.since?_of_le ht, Bool.false_eq_true, if_false] at h ⊢
  exact ⟨h.stop_eq_none rfl, rfl⟩

/-- Nor is the transition that is called for at `t`, whichever it is. -/
theorem fire_of_unbroken {l : Leaf τ σ} {t : Instant} {w : World ω}
    (hf : (l.inbox.isEmpty && !l.isImminent t) = false) (ht : l.last ≤ t)
    (h : (l.fire t w).Unbroken) :
    (l.fire t w).stop = none ∧ (l.fire t w).state.toNode = l.toNode := by
  unfold fire at h ⊢
  by_cases hdue : l.isImminent t = true
  · rw [if_pos hdue] at h ⊢
    by_cases hi : l.inbox.isEmpty = true
    · rw [if_pos hi] at h ⊢
      exact ⟨h.stop_eq_none rfl, rfl⟩
    · rw [if_neg hi] at h ⊢
      have hs : (l.fireInternal w).stop = none := h.of_andThen.stop_eq_none rfl
      rw [Outcome.andThen_of_done hs] at h ⊢
      exact fireExternal_of_unbroken (Bool.eq_false_iff.mpr hi) (le_refl t) h
  · rw [if_neg hdue] at h ⊢
    have hi : l.inbox.isEmpty = false := by
      rw [Bool.eq_false_iff.mpr hdue, Bool.not_false, Bool.and_true] at hf
      exact hf
    exact fireExternal_of_unbroken hi ht h

variable [Observer ω]

/-- Initialization at `t` opens a window at `t`. -/
theorem init_of_unbroken {l : Leaf τ σ} {t : Instant} {w : World ω} (h : (l.init t w).Unbroken) :
    (l.init t w).stop = none ∧ (l.init t w).state.initialized = true ∧
      (l.init t w).state.last = t ∧ t ≤ (l.init t w).state.next := by
  obtain ⟨hs, s, ta, he⟩ := reschedule_of_unbroken h.of_andThen
  rw [init, Outcome.andThen_of_done hs, he] at h ⊢
  exact ⟨h.stop_eq_none rfl, rfl, rfl, t.le_schedule ta⟩

/-- Collecting up to the next event leaves the window alone. -/
theorem collect_of_unbroken {l : Leaf τ σ} {t : Instant} {w : World ω}
    (hr : l.refuseCollect t = none) (h : (l.collect t w).Unbroken) :
    (l.collect t w).stop = none ∧ (l.collect t w).state.initialized = l.initialized ∧
      (l.collect t w).state.last = l.last ∧ (l.collect t w).state.next = l.next := by
  simp only [collect, hr] at h ⊢
  by_cases hdue : l.isImminent t = true
  · rw [if_pos hdue] at h ⊢
    have hemit : (l.emit t w).stop = none ∧ (l.emit t w).state.initialized = l.initialized ∧
        (l.emit t w).state.last = l.last ∧ (l.emit t w).state.next = l.next := by
      have hu := h.of_andThen
      simp only [emit, if_pos hdue] at hu ⊢
      exact ⟨hu.stop_eq_none rfl, rfl, rfl, rfl⟩
    rw [Outcome.andThen_of_done hemit.1] at h ⊢
    obtain ⟨hstop, hstate⟩ := report_of_unbroken h
    rw [hstate]
    exact ⟨hstop, hemit.2⟩
  · rw [if_neg hdue]
    exact ⟨rfl, rfl, rfl, rfl⟩

/-- **Advancing a leaf inside of its window.** If it fires, a new window opens
at `t`; otherwise it keeps the old one, which `t` lies in. -/
theorem advance_of_unbroken {l : Leaf τ σ} {t : Instant} {w : World ω}
    (hr : l.refuseAdvance t = none) (hl : l.last ≤ t) (hn : t ≤ l.next)
    (h : (l.advance t w).Unbroken) :
    (l.advance t w).stop = none ∧ (l.advance t w).state.initialized = l.initialized ∧
      (l.advance t w).state.last ≤ t ∧ t ≤ (l.advance t w).state.next := by
  simp only [advance, hr] at h ⊢
  by_cases hf : (l.inbox.isEmpty && !Node.isImminent { l.toNode with outbox := l.outbox.clear } t)
      = true
  · rw [if_pos hf]
    exact ⟨rfl, rfl, hl, hn⟩
  · rw [if_neg hf] at h ⊢
    -- The four calls in a row, each with what it leaves to the next one.
    obtain ⟨hs₁, hn₁⟩ := fire_of_unbroken (l := { l with outbox := l.outbox.clear })
      (Bool.eq_false_iff.mpr hf) hl h.of_andThen
    rw [Outcome.andThen_of_done hs₁] at h ⊢
    obtain ⟨hs₂, s, ta, he⟩ := reschedule_of_unbroken h.of_andThen
    rw [Outcome.andThen_of_done hs₂] at h ⊢
    obtain ⟨hs₃, -⟩ := report_of_unbroken h.of_andThen
    rw [Outcome.andThen_of_done hs₃]
    simp only [he]
    have hinit := congrArg Node.initialized hn₁
    exact ⟨rfl, hinit, le_refl t, t.le_schedule ta⟩

end Leaf

/-! ## Hubs

Each step says that the call came to its end, so that no engine below the root
refuses a call, and what has become of the window. -/

namespace Node

variable {n : Node τ} {t : Instant}

theorem refuseCollect_eq_none (hi : n.initialized = true) (ht : t ≤ n.next) :
    n.refuseCollect t = none := by
  rw [refuseCollect, hi, if_neg (by simp), if_neg (not_lt.mpr ht)]

theorem refuseCollect_of_lt (hi : n.initialized = true) (ht : n.next < t) :
    n.refuseCollect t = some (.collectOutOfWindow n.path t n.next) := by
  rw [refuseCollect, hi, if_neg (by simp), if_pos ht]

theorem refuseCollect_of_uninitialized (hi : n.initialized = false) :
    n.refuseCollect t = some (.uninitialized n.path) := by
  rw [refuseCollect, hi, if_pos (by simp)]

theorem refuseAdvance_eq_none (hi : n.initialized = true) (hl : n.last ≤ t) (ht : t ≤ n.next) :
    n.refuseAdvance t = none := by
  rw [refuseAdvance, hi, if_neg (by simp), if_neg (by simp [hl, ht])]

theorem refuseAdvance_of_lt (hi : n.initialized = true) (ht : t < n.last ∨ n.next < t) :
    n.refuseAdvance t = some (.advanceOutOfWindow n.path t n.last n.next) := by
  rw [refuseAdvance, hi, if_neg (by simp), if_pos ht]

theorem refuseAdvance_of_uninitialized (hi : n.initialized = false) :
    n.refuseAdvance t = some (.uninitialized n.path) := by
  rw [refuseAdvance, hi, if_pos (by simp)]

end Node

namespace Engine

/-- **A tree at `t`**: all of it is initialized, and `t` lies in the window of
its root. A hub has moved to `t`, a leaf may have stayed behind. -/
structure At (t : Instant) (e : Engine τ σ) : Prop where
  windowed : e.Windowed
  initialized : e.Initialized
  last_le : e.last ≤ t
  le_next : t ≤ e.next
  together : e.isHub = true → e.last = t

/-- A hub that moves to `t` after its children is at `t`. -/
theorem At.hub {t : Instant} {h : Hub τ} {es : List (Engine τ σ)} (hi : h.initialized = true)
    (hl : h.last = t) (hn : h.next = Hub.earliest (es.map node)) (hes : ∀ c ∈ es, At t c) :
    At t (.hub h es) := by
  have hw := windowed_hub_at hl hn (fun c hc => (hes c hc).windowed)
    (fun c hc => ⟨(hes c hc).last_le, (hes c hc).le_next⟩) (fun c hc => (hes c hc).together)
  refine ⟨hw, .hub hi fun c hc => (hes c hc).initialized, le_of_eq hl, ?_, fun _ => hl⟩
  exact le_trans (le_of_eq hl.symm) hw.last_le_next

/-- What collecting leaves alone. -/
structure SameWindow (e e' : Engine τ σ) : Prop where
  windowed : e'.Windowed
  initialized : e'.Initialized
  last : e'.last = e.last
  next : e'.next = e.next
  isHub : e'.isHub = e.isHub

/-- A hub whose children keep their windows keeps its own. -/
theorem SameWindow.hub {h h' : Hub τ} {es es' : List (Engine τ σ)}
    (hw : Windowed (.hub h es)) (hi : h'.initialized = true) (hl : h'.last = h.last)
    (hn : h'.next = h.next) (hes : List.Forall₂ SameWindow es es') :
    SameWindow (.hub h es) (.hub h' es') := by
  cases hw with
  | hub window earliest around together each =>
      -- Every child has a counterpart with the same window, in both directions, so what was the
      -- earliest event is the earliest one still.
      refine ⟨?_, .hub hi fun c' hc' => ?_, hl, hn, rfl⟩
      · refine .hub (hl ▸ hn ▸ window) ⟨fun c' hc' => ?_, fun hne => ?_, fun he => ?_⟩
          (fun c' hc' => ?_) (fun c' hc' hhub => ?_) (fun c' hc' => ?_)
        · obtain ⟨c, hc, hs⟩ := exists_left_of_forall₂ hes hc'
          rw [hn, hs.next]
          exact earliest.le c hc
        · have hne' : es ≠ [] := by
            rintro rfl
            exact hne (List.forall₂_nil_left_iff.mp hes)
          obtain ⟨c, hc, he⟩ := earliest.attained hne'
          obtain ⟨c', hc', hs⟩ := exists_left_of_forall₂ hes.flip hc
          exact ⟨c', hc', by rw [hs.next, hn, he]⟩
        · subst he
          rw [hn]
          exact earliest.max (List.forall₂_nil_right_iff.mp hes)
        · obtain ⟨c, hc, hs⟩ := exists_left_of_forall₂ hes hc'
          rw [hs.last, hs.next, hl]
          exact around c hc
        · obtain ⟨c, hc, hs⟩ := exists_left_of_forall₂ hes hc'
          rw [hs.last, hl]
          exact together c hc (hs.isHub ▸ hhub)
        · obtain ⟨_, _, hs⟩ := exists_left_of_forall₂ hes hc'
          exact hs.windowed
      · obtain ⟨_, _, hs⟩ := exists_left_of_forall₂ hes hc'
        exact hs.initialized

theorem Windowed.withInbox {e : Engine τ σ} {inbox : Bags τ} (h : e.Windowed) :
    (e.withInbox inbox).Windowed := by
  cases h with
  | leaf window => exact .leaf window
  | hub window earliest around together each => exact .hub window earliest around together each

theorem Initialized.withInbox {e : Engine τ σ} {inbox : Bags τ} (h : e.Initialized) :
    (e.withInbox inbox).Initialized := by
  cases h with
  | leaf self => exact .leaf self
  | hub self each => exact .hub self each

variable [Observer ω]

/-- A hub that could gather the outputs of its children has another outbox, and
is otherwise as it was. -/
theorem settleCollect_of_unbroken {t : Instant} {h : Hub τ} {es : List (Engine τ σ)}
    {w : World ω} (hu : (settleCollect t h es w).Unbroken) :
    (settleCollect t h es w).stop = none ∧
      ∃ outbox, (settleCollect t h es w).state = .hub { h with outbox := outbox } es := by
  cases hg : h.gather (es.map node) with
  | error f =>
      rw [settleCollect, hg] at hu
      exact absurd rfl (hu f)
  | ok outbox =>
      rw [settleCollect, hg] at hu ⊢
      exact ⟨hu.stop_eq_none rfl, outbox, rfl⟩

/-- A hub whose report was taken has moved to `t`, without messages. -/
theorem settleAdvance_of_unbroken {t : Instant} {h : Hub τ} {es : List (Engine τ σ)}
    {w : World ω} (hu : (settleAdvance t h es w).Unbroken) :
    (settleAdvance t h es w).stop = none ∧
      (settleAdvance t h es w).state
        = .hub { h with
            last := t, next := Hub.earliest (es.map node),
            inbox := h.inbox.clear, outbox := h.outbox.clear } es := by
  rw [settleAdvance, Outcome.unbroken_map] at hu
  rw [settleAdvance, Outcome.stop_map, Outcome.state_map]
  have hs := hu.of_andThen.stop_eq_none rfl
  rw [Outcome.andThen_of_done hs]
  exact ⟨rfl, rfl⟩

variable [AtomicModel τ σ]

/-- **Initialization at `t` opens all windows at `t`**, whatever was before. -/
theorem init_windowed (t : Instant) (e : Engine τ σ) :
    ∀ {w : World ω}, (e.init t w).Unbroken → (e.init t w).stop = none ∧ At t (e.init t w).state := by
  induction e using Engine.induction with
  | leaf l =>
      intro w h
      rw [init] at h ⊢
      obtain ⟨hs, hi, hl, hn⟩ := Leaf.init_of_unbroken h
      refine ⟨hs, .leaf ?_, .leaf hi, le_of_eq hl, hn, fun h => absurd h Bool.false_ne_true⟩
      show (l.init t w).state.last ≤ (l.init t w).state.next
      rw [hl]
      exact hn
  | hub h es ih =>
      intro w hu
      rw [init_hub] at hu ⊢
      obtain ⟨hs, hes⟩ := Outcome.each_of_unbroken (Q := fun _ c => At t c)
        (fun _ c hc w => ih c hc) hu.of_resume
      rw [Outcome.resume_of_done hs] at hu ⊢
      refine ⟨hu.stop_eq_none rfl, At.hub rfl rfl rfl fun c hc => ?_⟩
      obtain ⟨_, _, hat⟩ := exists_left_of_forall₂ hes hc
      exact hat

/-- **Collecting at a time up to the next event** is not refused anywhere, and
it leaves all windows alone. -/
theorem collect_windowed (t : Instant) (e : Engine τ σ) :
    ∀ {w : World ω}, e.Windowed → e.Initialized → t ≤ e.next → (e.collect t w).Unbroken →
      (e.collect t w).stop = none ∧ SameWindow e (e.collect t w).state := by
  induction e using Engine.induction with
  | leaf l =>
      intro w hw hi hn h
      have hr := Node.refuseCollect_eq_none hi.node hn
      rw [collect] at h ⊢
      obtain ⟨hs, hinit, hlast, hnext⟩ := Leaf.collect_of_unbroken hr h
      refine ⟨hs, .leaf ?_, .leaf (hinit.trans hi.node), hlast, hnext, rfl⟩
      show (l.collect t w).state.last ≤ (l.collect t w).state.next
      rw [hlast, hnext]
      exact hw.last_le_next
  | hub h es ih =>
      intro w hw hi hn hu
      have hr := Node.refuseCollect_eq_none hi.node hn
      by_cases hdue : h.isImminent t = true
      · rw [collect_hub hr hdue] at hu ⊢
        obtain ⟨hs, hes⟩ := Outcome.each_of_unbroken (Q := SameWindow)
          (fun _ c hc w => ih c hc (hw.child hc) (hi.child hc) (le_trans hn (hw.next_le hc)))
          hu.of_resume
        rw [Outcome.resume_of_done hs] at hu ⊢
        obtain ⟨hstop, outbox, he⟩ := settleCollect_of_unbroken hu
        rw [he]
        exact ⟨hstop, .hub hw hi.node rfl rfl hes⟩
      · rw [collect_hub_early hr (Bool.eq_false_iff.mpr hdue)]
        exact ⟨rfl, hw, hi, rfl, rfl, rfl⟩

/-- **Advancing inside of the window** is not refused anywhere. All hubs move
to `t`, and `t` lies in the new window of every leaf. -/
theorem advance_windowed (t : Instant) (e : Engine τ σ) :
    ∀ {mail : List (Delivery τ)} {w : World ω}, e.Windowed → e.Initialized →
      e.last ≤ t → t ≤ e.next → (advanceWith t mail e w).Unbroken →
      (advanceWith t mail e w).stop = none ∧ At t (advanceWith t mail e w).state := by
  induction e using Engine.induction with
  | leaf l =>
      intro mail w hw hi hl hn hu
      have hr : (l.receive mail).refuseAdvance t = none :=
        Node.refuseAdvance_eq_none hi.node hl hn
      rw [advanceWith] at hu ⊢
      obtain ⟨hs, hinit, hlast, hnext⟩ := Leaf.advance_of_unbroken hr hl hn hu
      exact ⟨hs, .leaf (le_trans hlast hnext), .leaf (hinit.trans hi.node), hlast, hnext,
        fun h => absurd h Bool.false_ne_true⟩
  | hub h es ih =>
      intro mail w hw hi hl hn hu
      have hr : (h.receive mail).refuseAdvance t = none :=
        Node.refuseAdvance_eq_none hi.node hl hn
      cases hd : (h.receive mail).deliveries (es.map node) with
      | error f =>
          simp only [advanceWith, hr, hd] at hu
          exact absurd rfl (hu f)
      | ok ds =>
          rw [advanceWith_hub hr hd] at hu ⊢
          -- The window of the parent lies inside of that of every child.
          obtain ⟨hs, hes⟩ := Outcome.each_of_unbroken (Q := fun _ c => At t c)
            (fun _ c hc w => ih c hc (hw.child hc) (hi.child hc) (le_trans (hw.last_le hc) hl)
              (le_trans hn (hw.next_le hc))) hu.of_resume
          rw [Outcome.resume_of_done hs] at hu ⊢
          obtain ⟨hstop, he⟩ := settleAdvance_of_unbroken hu
          rw [he]
          refine ⟨hstop, At.hub hi.node rfl rfl fun c hc => ?_⟩
          obtain ⟨_, _, hat⟩ := exists_left_of_forall₂ hes hc
          exact hat

/-! ## All reachable states -/

/-- A time outside of the root's window is refused by the root, and nothing changes. -/
theorem collect_refused {t : Instant} {e : Engine τ σ} (hi : e.Initialized) (ht : e.next < t)
    (w : World ω) : collect t e w = .refused e w (.collectOutOfWindow e.node.path t e.next) := by
  have hr := Node.refuseCollect_of_lt hi.node ht
  cases e with
  | leaf l =>
      simp only [collect, Leaf.collect, show l.refuseCollect t = _ from hr]
      rfl
  | hub h es => simp only [collect, show h.refuseCollect t = _ from hr, next, node]

theorem advance_refused {t : Instant} {e : Engine τ σ} (hi : e.Initialized)
    (ht : t < e.last ∨ e.next < t) (w : World ω) :
    advance t e w = .refused e w (.advanceOutOfWindow e.node.path t e.last e.next) := by
  have hr := Node.refuseAdvance_of_lt hi.node ht
  cases e with
  | leaf l =>
      simp only [advance, advanceWith, Leaf.advance,
        show (l.receive []).refuseAdvance t = _ from hr]
      rfl
  | hub h es =>
      simp only [advance, advanceWith, show (h.receive []).refuseAdvance t = _ from hr]
      rfl

/-- **One call keeps the tie**, whether it is refused or not. -/
theorem perform_windowed {e : Engine τ σ} {c : Call τ} {w : World ω} (hw : e.Windowed)
    (hi : e.Initialized) (hu : (e.perform w c).Unbroken) :
    (e.perform w c).state.Windowed ∧ (e.perform w c).state.Initialized := by
  cases c with
  | init t =>
      obtain ⟨-, hat⟩ := init_windowed t e hu
      exact ⟨hat.windowed, hat.initialized⟩
  | inject port values =>
      cases hx : e.node.inbox.extend port values with
      | error f =>
          simp only [perform, hx] at hu
          exact absurd rfl (hu f)
      | ok inbox =>
          simp only [perform, hx]
          exact ⟨hw.withInbox, hi.withInbox⟩
  | collect t =>
      by_cases ht : e.next < t
      · rw [perform, collect_refused hi ht]
        exact ⟨hw, hi⟩
      · obtain ⟨-, hs⟩ := collect_windowed t e hw hi (not_lt.mp ht) hu
        exact ⟨hs.windowed, hs.initialized⟩
  | advance t =>
      by_cases ht : t < e.last ∨ e.next < t
      · rw [perform, advance_refused hi ht]
        exact ⟨hw, hi⟩
      · rw [not_or, not_lt, not_lt] at ht
        obtain ⟨-, hat⟩ := advance_windowed t e hw hi ht.1 ht.2 hu
        exact ⟨hat.windowed, hat.initialized⟩

theorem Reached.ready {m : Model τ σ} {e : Engine τ σ} (h : Reached ω m e) :
    e.Windowed ∧ e.Initialized := by
  induction h with
  | init h =>
      obtain ⟨-, hat⟩ := init_windowed _ _ h
      exact ⟨hat.windowed, hat.initialized⟩
  | call _ h ih => exact perform_windowed ih.1 ih.2 h

/-- **The time-window invariant holds throughout**, whatever sequence of calls an
engine has seen since its initialization. -/
theorem reached_windowed {m : Model τ σ} {e : Engine τ σ} (h : Reached ω m e) : e.Windowed :=
  h.ready.1

/-- A tower of doublers that had input before its first event, at one second, was
stepped to that event, at two seconds, and then refused to go back. -/
theorem reached_windowed_tower :
    let w : World Unobserved := ⟨⟨⟩, false⟩
    let inbox : Bags Payload := .ofPorts [Doubler.add]
    let started := (((ofModel Doubler.tower).withInbox inbox).init .epoch w).state
    let fed := (started.perform w (.inject Doubler.add [(5 : UInt64)])).state
    let moved := (fed.perform w (.advance ⟨1, 0, by decide⟩)).state
    let shown := (moved.perform w (.collect ⟨2, 0, by decide⟩)).state
    let stepped := (shown.perform w (.advance ⟨2, 0, by decide⟩)).state
    let refused := (stepped.perform w (.advance .epoch)).state
    Reached Unobserved Doubler.tower refused ∧ refused.last = ⟨2, 0, by decide⟩ ∧
      refused.Windowed := by
  intro w inbox started fed moved shown stepped refused
  have hstarted : Reached Unobserved Doubler.tower started := .init (by decide +kernel)
  have hfed : Reached Unobserved Doubler.tower fed := hstarted.call (by decide +kernel)
  have hmoved : Reached Unobserved Doubler.tower moved := hfed.call (by decide +kernel)
  have hshown : Reached Unobserved Doubler.tower shown := hmoved.call (by decide +kernel)
  have hstepped : Reached Unobserved Doubler.tower stepped := hshown.call (by decide +kernel)
  have h : Reached Unobserved Doubler.tower refused := hstepped.call (by decide +kernel)
  exact ⟨h, by decide +kernel, reached_windowed h⟩

end Engine

end DiscreteEvent
