/-
Crews in service, and one step.

An initialized crew is `Live`: sound, with the window of the crew tied to the windows
of its leaves. Whatever turns its workers take, a step at the next event leaves a live
crew and no failure (`Live.stepOn`). The turns leave their mark only in the order in
which the leaves were called and the routes followed, the `Course` of the step.
-/
import DiscreteEvent.Proofs.Flat.Sound

set_option autoImplicit false

namespace DiscreteEvent

variable {τ σ ω π : Type} [MessageType τ] [AtomicModel τ σ]

theorem map_eq_mapIdx {α β : Type} (f : α → β) (xs : List α) :
    xs.map f = xs.mapIdx fun _ => f := by
  refine List.ext_getElem? fun i => ?_
  rw [List.getElem?_map, List.getElem?_mapIdx]

namespace Crew

/-! ## A step -/

/-- The crew after the outputs at `t`. -/
def shown (t : Instant) (c : Crew τ σ) : Crew τ σ :=
  { c with leaves := c.leaves.map (Leaf.shown t) }

/-- The crew when all messages of the step at `t` are where they go. -/
def routed (t : Instant) (routes : List Route) (c : Crew τ σ) : Crew τ σ :=
  (c.shown t).deposited routes

/-- **The crew after a step** at `t`, with the routes followed in the given order. -/
def stepped (t : Instant) (routes : List Route) (c : Crew τ σ) : Crew τ σ :=
  { c.routed t routes with
    leaves := (c.routed t routes).leaves.map (Leaf.moved t)
    last := t
    next := Hub.earliest (((c.routed t routes).leaves.map (Leaf.moved t)).map (·.toNode))
    inbox := (c.routed t routes).inbox.clear
    outbox := (c.routed t routes).outbox.clear }

/-- The report of the root about its outputs in a step at `t`. -/
def collectRecord (t : Instant) (routes : List Route) (c : Crew τ σ) : Record :=
  ⟨.collect, c.path, t, c.last, t, none, Record.bagsOf .output (c.routed t routes).outbox⟩

/-- The report of the root about its inputs in a step at `t`. -/
def advanceRecord (t : Instant) (routes : List Route) (c : Crew τ σ) : Record :=
  ⟨.advance, c.path, t, t, (c.stepped t routes).next, none, Record.bagsOf .input c.inbox⟩

end Crew

/-- **The course of a step**: in which orders the leaves were called and the routes
followed. -/
structure Course where
  collected : List Nat
  routed : List Route
  advanced : List Nat

namespace Course

/-- Everything was done once. -/
structure Covers (x : Course) (c : Crew τ σ) : Prop where
  collected : x.collected.Perm (List.range c.leaves.length)
  routed : x.routed.Perm c.routes
  advanced : x.advanced.Perm (List.range c.leaves.length)

/-- **What a step does to the world**: the effects of the leaves, and the reports of the root. -/
def effect (x : Course) (t : Instant) (c : Crew τ σ) : Effect :=
  .all (x.collected.map (LeafCall.effectAt (.collect t) c.leaves)) ++
    .all (x.advanced.map (LeafCall.effectAt (.advance t) (c.routed t x.routed).leaves)) ++
    (.ofRecord (c.collectRecord t x.routed) ++ .ofRecord (c.advanceRecord t x.routed))

end Course

namespace Crew

variable {good : Interface τ → Stage → σ → Prop} {m : Model τ σ} {c : Crew τ σ}

theorem leaves_routed (t : Instant) (routes : List Route) (c : Crew τ σ) :
    (c.routed t routes).leaves
      = (c.leaves.map (Leaf.shown t)).mapIdx fun i l =>
          l.receive ((c.shown t).mailFor routes i) := by
  rw [routed, deposited_eq]
  rfl

/-- **A crew of `m` in service.** -/
structure Live (good : Interface τ → Stage → σ → Prop) (m : Model τ σ) (c : Crew τ σ) :
    Prop where
  sound : Sound good m c
  initialized : c.initialized = true
  started : ∀ l ∈ c.leaves, l.initialized = true
  last_le : ∀ l ∈ c.leaves, l.last ≤ c.last
  next_eq : c.next = Hub.earliest (c.leaves.map (·.toNode))
  window : c.last ≤ c.next

omit [AtomicModel τ σ] in
theorem Live.next_le (h : Live good m c) {l : Leaf τ σ} (hl : l ∈ c.leaves) : c.next ≤ l.next := by
  rw [h.next_eq]
  exact Hub.earliest_le (List.mem_map_of_mem hl)

/-- A leaf that has received its mail is as it was but for its inbox and its outbox. -/
theorem exists_of_mem_routed {t : Instant} {routes : List Route} {l : Leaf τ σ}
    (hl : l ∈ (c.routed t routes).leaves) :
    ∃ l' ∈ c.leaves, l.initialized = l'.initialized ∧ l.last = l'.last ∧ l.next = l'.next := by
  obtain ⟨i, hi⟩ := List.getElem?_of_mem hl
  rw [leaves_routed, List.getElem?_mapIdx, List.getElem?_map, Option.map_map,
    Option.map_eq_some_iff] at hi
  obtain ⟨l', hl', rfl⟩ := hi
  have hnode := l'.toNode_shown t
  have hi : (l'.shown t).initialized = l'.initialized := by rw [hnode]
  have hlast : (l'.shown t).last = l'.last := by rw [hnode]
  have hnext : (l'.shown t).next = l'.next := by rw [hnode]
  exact ⟨l', List.mem_of_getElem? hl', hi, hlast, hnext⟩

variable [Observer ω]

theorem report_eq (ha : Attended ω good) (c : Crew τ σ) (phase : Phase) (t last next : Instant)
    (bags : List BagRecord) (w : World ω) :
    c.report phase t last next bags w
      = .done c (w.after (.ofRecord ⟨phase, c.path, t, last, next, none, bags⟩)) := by
  rw [Crew.report, World.report_none ha]
  rfl

/-- **The leader closes a step.** -/
theorem close_eq (ha : Attended ω good) (c : Crew τ σ) (t next : Instant) (w : World ω) :
    c.close t next w
      = .done { c with last := t, next := next, inbox := c.inbox.clear, outbox := c.outbox.clear }
          (w.after
            (.ofRecord ⟨.collect, c.path, t, c.last, t, none, Record.bagsOf .output c.outbox⟩ ++
              .ofRecord ⟨.advance, c.path, t, t, next, none, Record.bagsOf .input c.inbox⟩)) := by
  rw [close, report_eq ha, Outcome.andThen_done, report_eq ha, Outcome.andThen_done,
    World.after_append]

/-- **The end of a step** in which the messages took the given routes. -/
theorem close_routed (ha : Attended ω good) (t : Instant) (routes : List Route) (c : Crew τ σ)
    (w : World ω) :
    close t (c.stepped t routes).next
        { c.routed t routes with leaves := (c.routed t routes).leaves.map (Leaf.moved t) } w
      = .done (c.stepped t routes)
          (w.after (.ofRecord (c.collectRecord t routes) ++ .ofRecord (c.advanceRecord t routes)))
      := by
  have hpath : (c.routed t routes).path = c.path := by
    rw [routed, deposited_eq]
    rfl
  have hlast : (c.routed t routes).last = c.last := by
    rw [routed, deposited_eq]
    rfl
  have hinbox : (c.routed t routes).inbox = c.inbox := by
    rw [routed, deposited_eq]
    rfl
  rw [close_eq ha, collectRecord, advanceRecord, ← hpath, ← hlast, ← hinbox]
  rfl

/-- Every leaf of a live crew can be called up to the next event. -/
theorem Live.perform_collect (hc : Contract good) (ha : Attended ω good) (hm : m.Wired)
    (h : Live good m c) {t : Instant} (ht : t ≤ c.next) :
    ∀ l ∈ c.leaves, ∀ w : World ω, (LeafCall.collect t).perform l w
      = .done ((LeafCall.collect t).after l) (w.after ((LeafCall.collect t).effect l)) := by
  intro l hl w
  obtain ⟨i, hi⟩ := List.getElem?_of_mem hl
  obtain ⟨a, hatom, hsound⟩ := h.sound.atom hi
  exact (Leaf.collect_eq hc ha (hm.distinct_atoms m a (List.mem_of_getElem? hatom)) hsound
    (h.started l hl) (le_trans ht (h.next_le hl)) w).1

/-- Showing the outputs leaves a sound crew. -/
theorem Live.sound_shown (hc : Contract good) (hm : m.Wired) (h : Live good m c) {t : Instant}
    (ht : t ≤ c.next) : Sound good m (c.shown t) := by
  refine h.sound.mapIdx (fun {i a l} hatom hl hsound => ?_) (map_eq_mapIdx _ _) rfl h.sound.inbox
    h.sound.outbox rfl
  have hmem := List.mem_of_getElem? hl
  exact (Leaf.collect_eq (ω := Unobserved) hc (attended_unobserved good)
    (hm.distinct_atoms m a (List.mem_of_getElem? hatom)) hsound (h.started l hmem)
    (le_trans ht (h.next_le hmem)) ⟨⟨⟩, false⟩).2

/-- **Routing in the middle of a step** leaves a sound crew. -/
theorem Live.sound_routed (hc : Contract good) (hm : m.Wired) (h : Live good m c) {t : Instant}
    (ht : t ≤ c.next) {routes : List Route} (hr : routes.Perm c.routes) :
    Sound good m (c.routed t routes) := by
  refine (h.sound_shown hc hm ht).deposited hm fun r hmem => ?_
  rw [← h.sound.routes]
  exact hr.mem_iff.mp hmem

/-- Every leaf can advance to a time inside of the window, with its mail received. -/
theorem Live.advance_eq (hc : Contract good) (ha : Attended ω good) (hm : m.Wired)
    (h : Live good m c) {t : Instant} (hl : c.last ≤ t) (ht : t ≤ c.next) {routes : List Route}
    (hr : routes.Perm c.routes) {i : Nat} {a : Atomic τ σ} {l : Leaf τ σ}
    (hatom : m.atoms[i]? = some a) (hleaf : (c.routed t routes).leaves[i]? = some l)
    (w : World ω) :
    l.advance t w = .done (l.moved t) (w.after (l.moveEffect t)) ∧
      (l.moved t).Sound good a.interface := by
  obtain ⟨l', hmem, hi, hlast, hnext⟩ := exists_of_mem_routed (List.mem_of_getElem? hleaf)
  refine Leaf.advance_eq hc ha ((h.sound_routed hc hm ht hr).leaf hatom hleaf) ?_ ?_ ?_ w
  · rw [hi]
    exact h.started l' hmem
  · rw [hlast]
    exact le_trans (h.last_le l' hmem) hl
  · rw [hnext]
    exact le_trans ht (h.next_le hmem)

/-- **A step leaves a live crew.** -/
theorem Live.stepped (hc : Contract good) (hm : m.Wired) (h : Live good m c) {t : Instant}
    (hl : c.last ≤ t) (ht : t ≤ c.next) {routes : List Route} (hr : routes.Perm c.routes) :
    Live good m (c.stepped t routes) := by
  have hrouted := h.sound_routed hc hm ht hr
  have hleaves : ∀ l ∈ (c.stepped t routes).leaves,
      l.initialized = true ∧ l.last ≤ t ∧ t ≤ l.next := by
    intro l₂ hmem₂
    obtain ⟨l, hmem, rfl⟩ := List.mem_map.mp hmem₂
    obtain ⟨l', hmem', hi, hlast, hnext⟩ := exists_of_mem_routed hmem
    rw [Leaf.initialized_moved]
    refine ⟨hi.trans (h.started l' hmem'), Leaf.moved_window ?_ ?_⟩
    · rw [hlast]
      exact le_trans (h.last_le l' hmem') hl
    · rw [hnext]
      exact le_trans ht (h.next_le hmem')
  refine ⟨?_, ?_, fun l hmem => (hleaves l hmem).1, fun l hmem => (hleaves l hmem).2.1, rfl, ?_⟩
  · refine hrouted.mapIdx (fun {i a l} hatom hleaf _ => ?_) (map_eq_mapIdx _ _) rfl
      hrouted.inbox.cleared hrouted.outbox.cleared rfl
    exact (h.advance_eq (ω := Unobserved) hc (attended_unobserved good) hm hl ht hr hatom hleaf
      ⟨⟨⟩, false⟩).2
  · show (c.routed t routes).initialized = true
    rw [routed, deposited_eq]
    exact h.initialized
  · refine Hub.le_earliest fun n hn => ?_
    obtain ⟨l, hmem, rfl⟩ := List.mem_map.mp hn
    exact (hleaves l hmem).2.2

/-- **The first phase** of a step: all leaves show their outputs. -/
theorem Live.phase_collect (hc : Contract good) (ha : Attended ω good) (hm : m.Wired)
    {s : Shift τ σ ω} (h : Live good m s.crew) (hf : s.failure = {}) {t : Instant}
    (ht : t ≤ s.crew.next) (turns : List Nat) :
    ∃ (order : List Nat) (minima : List Instant), order.Perm (List.range s.crew.leaves.length) ∧
      s.phase (Shift.collectScript t) turns
        = { s with
            crew := s.crew.shown t
            world := s.world.after (.all (order.map (LeafCall.effectAt (.collect t) s.crew.leaves)))
            minima := minima } ∧
      minima.length = s.minima.length := by
  obtain ⟨order, minima, horder, hphase, hlength, -⟩ :=
    Shift.phase_calls (s := s) (c := .collect t) (Shift.collectScript t) s.leavesOf (fun _ => [])
      (fun k => by rw [List.append_nil]; rfl) (fun _ => .inl rfl)
      (Share.flatMap_items h.sound.workers) (by rw [hf]; rfl) (h.perform_collect hc ha hm ht) turns
  exact ⟨order, minima, horder, hphase, hlength⟩

/-- **The third phase** of a step of the crew `c`: all leaves advance, and the earliest of the
notes that the workers make is the next event. -/
theorem Live.phase_advance (hc : Contract good) (ha : Attended ω good) (hm : m.Wired)
    {c : Crew τ σ} (h : Live good m c) {t : Instant} (hl : c.last ≤ t) (ht : t ≤ c.next)
    {routed : List Route} (hrouted : routed.Perm c.routes) {s : Shift τ σ ω}
    (hcrew : s.crew = c.routed t routed) (hf : s.failure = {})
    (hminima : s.minima.length = c.workers) (turns : List Nat) :
    ∃ (advanced : List Nat) (minima : List Instant),
      advanced.Perm (List.range c.leaves.length) ∧ minima.length = c.workers ∧
      minima.foldr min .max = (c.stepped t routed).next ∧
      s.phase (Shift.advanceScript t) turns
        = { s with
            crew := { c.routed t routed with
              leaves := (c.routed t routed).leaves.map (Leaf.moved t) }
            world := s.world.after
              (.all (advanced.map (LeafCall.effectAt (.advance t) (c.routed t routed).leaves)))
            minima := minima } := by
  obtain ⟨crew, w, minima₁, failure⟩ := s
  cases hcrew
  have hw := h.sound.workers
  have hlength : (c.routed t routed).leaves.length = c.leaves.length := by
    rw [leaves_routed, List.length_mapIdx, List.length_map]
  have hworkers : (c.routed t routed).workers = c.workers := by
    rw [Crew.routed, deposited_eq]
    rfl
  obtain ⟨advanced, minima, hadvanced, hphase, hlength', hnoted⟩ := Shift.phase_calls
    (s := ⟨c.routed t routed, w, minima₁, failure⟩)
    (c := .advance t) (Shift.advanceScript t) (Shift.leavesOf ⟨c, w, minima₁, failure⟩)
    (fun k => [.note (Shift.leavesOf ⟨c, w, minima₁, failure⟩ k)])
    (fun k => by
      rw [Shift.advanceScript, Shift.leavesOf, Shift.leavesOf, hlength, hworkers])
    (fun _ => .inr rfl)
    (by rw [hlength, hworkers]; exact Share.flatMap_items hw) (by rw [hf]; rfl)
    (fun l hmem w => by
      obtain ⟨i, hi⟩ := List.getElem?_of_mem hmem
      obtain ⟨a, hatom, -⟩ := (h.sound_routed hc hm ht hrouted).atom hi
      exact (h.advance_eq hc ha hm hl ht hrouted hatom hi w).1)
    turns
  refine ⟨advanced, minima, hlength ▸ hadvanced, hlength'.trans hminima, ?_, hphase⟩
  refine Shift.foldr_minima (c := c.stepped t routed)
    (Shift.leavesOf ⟨c, w, minima₁, failure⟩) c.workers (hlength'.trans hminima) ?_
    fun k hk => ?_
  · refine (Share.flatMap_items hw).trans ?_
    rw [Crew.stepped, List.length_map, hlength]
  · exact (hnoted k (hworkers ▸ hk) (hminima ▸ hk) (List.cons_ne_nil _ _)).trans rfl

/-- **A step of a live crew at its next event**, whatever turns the workers take. -/
theorem Live.stepOn (hc : Contract good) (ha : Attended ω good) (hm : m.Wired)
    {s : Shift τ σ ω} (h : Live good m s.crew) (hf : s.failure = {})
    (hminima : s.minima.length = s.crew.workers) {t : Instant} (hl : s.crew.last ≤ t)
    (ht : t ≤ s.crew.next) (table : Timetable) :
    ∃ (x : Course) (minima : List Instant), x.Covers s.crew ∧
      minima.length = s.crew.workers ∧
      s.stepOn table t
        = ⟨s.crew.stepped t x.routed, s.world.after (x.effect t s.crew), minima, {}⟩ := by
  obtain ⟨collected, minima₁, hcollected, hphase₁, hlength₁⟩ :=
    h.phase_collect hc ha hm hf ht table.collect
  obtain ⟨routed, hrouted, hphase₂⟩ := Shift.phase_routes
    (s := { s with
      crew := s.crew.shown t
      world := s.world.after
        (.all (collected.map (LeafCall.effectAt (.collect t) s.crew.leaves)))
      minima := minima₁ })
    (by rw [hf]; rfl) ((h.sound_shown hc hm ht).connected hm) h.sound.workers table.route
  obtain ⟨advanced, minima₂, hadvanced, hlength₂, hmin, hphase₃⟩ :=
    h.phase_advance hc ha hm hl ht hrouted
      (s := { s with
        crew := s.crew.routed t routed
        world := s.world.after
          (.all (collected.map (LeafCall.effectAt (.collect t) s.crew.leaves)))
        minima := minima₁ }) rfl hf (hlength₁.trans hminima) table.advance
  refine ⟨⟨collected, routed, advanced⟩, minima₂, ⟨hcollected, hrouted, hadvanced⟩, hlength₂, ?_⟩
  rw [Shift.stepOn, hphase₁]
  have hthird := (congrArg (Shift.phase (Shift.advanceScript t) table.advance) hphase₂).trans
    hphase₃
  rw [hthird, Shift.close]
  simp only [hmin, close_routed ha, hf, Course.effect, World.after_append]
  rfl

end Crew

end DiscreteEvent
