/-
Crews in the hands of a client.

A client initializes a crew, puts messages into the inbox of its root and lets it run,
in any order. A crew is `Ready` for the next call whatever came before: before its
initialization it refuses to run, and after it it is live. A run of a live crew keeps
it live from step to step and has no failure (`Live.runOn`), whatever turns the workers
take in each of the steps.

`driven_unbroken` is about both engines of an accepted model: neither is ever broken
off by a fault.
-/
import DiscreteEvent.Proofs.Components.Doubler
import DiscreteEvent.Proofs.Engine.Live
import DiscreteEvent.Proofs.Flat.Live

set_option autoImplicit false

namespace DiscreteEvent

variable {τ σ ω π : Type} [MessageType τ] [AtomicModel τ σ]

namespace Crew

/-! ## Initialization -/

/-- The crew after its initialization at `t`. -/
def started (t : Instant) (c : Crew τ σ) : Crew τ σ :=
  { c with
    leaves := c.leaves.map (Leaf.started t)
    last := t
    next := Hub.earliest ((c.leaves.map (Leaf.started t)).map (·.toNode))
    initialized := true }

def startEffect (t : Instant) (c : Crew τ σ) : Effect :=
  .all ((List.range c.leaves.length).map (LeafCall.effectAt (.init t) c.leaves)) ++
    .ofRecord ⟨.init, c.path, t, t, (c.started t).next, none, []⟩

variable [Observer ω]
variable {good : Interface τ → Stage → σ → Prop} {m : Model τ σ} {c : Crew τ σ}

/-- **Calls of several leaves in a row**, none of which stops. -/
theorem onLeaves_eq {call : LeafCall}
    (hcall : ∀ l ∈ c.leaves, ∀ w : World ω,
      call.perform l w = .done (call.after l) (w.after (call.effect l))) {places : List Nat} :
    ∀ {called : List Nat} {w : World ω}, (called ++ places).Nodup →
      (∀ i ∈ places, i < c.leaves.length) →
      onLeaves call.perform { c with leaves := call.afterSome c.leaves called } places w
        = .done { c with leaves := call.afterSome c.leaves (called ++ places) }
            (w.after (.all (places.map (call.effectAt c.leaves)))) := by
  induction places with
  | nil =>
      intro called w _ _
      rw [List.append_nil]
      exact congrArg _ (World.after_nothing w).symm
  | cons i places ih =>
      intro called w hnodup hlt
      obtain ⟨l, hl⟩ : ∃ l, c.leaves[i]? = some l :=
        ⟨_, List.getElem?_eq_getElem (hlt i (by simp))⟩
      have hnot : i ∉ called := fun hi =>
        List.disjoint_of_nodup_append hnodup hi (by simp)
      have hat : (call.afterSome c.leaves called)[i]? = some l := by
        rw [LeafCall.afterSome, List.getElem?_mapIdx, hl, Option.map_some, if_neg hnot]
      have hfirst : onLeaf { c with leaves := call.afterSome c.leaves called } i call.perform w
          = .done { c with leaves := call.afterSome c.leaves (called ++ [i]) }
              (w.after (call.effectAt c.leaves i)) := by
        have heffect : call.effectAt c.leaves i = (call.effect l).below i := by
          rw [LeafCall.effectAt, hl]
        simp only [onLeaf, hat, hcall l (List.mem_of_getElem? hl), ← call.afterSome_concat hl,
          heffect, World.after_below]
        rfl
      rw [onLeaves_cons, hfirst, Outcome.andThen_done,
        ih (by rw [List.append_assoc]; exact hnodup) fun j hj => hlt j (by simp [hj]),
        List.append_assoc, ← World.after_append]
      rfl

/-- **Initializing** a crew brings it into service. -/
theorem Sound.init (hc : Contract good) (ha : Attended ω good) (h : Sound good m c) (t : Instant)
    (w : World ω) :
    c.init t w = .done (c.started t) (w.after (c.startEffect t)) ∧ Live good m (c.started t) := by
  have hcall : ∀ {i : Nat} {l : Leaf τ σ}, c.leaves[i]? = some l → ∀ w : World ω,
      ∃ a, m.atoms[i]? = some a ∧ (LeafCall.init t).perform l w
        = .done ((LeafCall.init t).after l) (w.after ((LeafCall.init t).effect l)) ∧
        (l.started t).Sound good a.interface := by
    intro i l hl w
    obtain ⟨a, hatom, hsound⟩ := h.atom hl
    exact ⟨a, hatom, Leaf.init_eq hc ha hsound t w⟩
  -- The leaves are called one after the other, and at the end all of them have been.
  have hleaves : onLeaves (LeafCall.init t).perform
      { c with leaves := (LeafCall.init t).afterSome c.leaves [] } (List.range c.leaves.length) w
        = _ := onLeaves_eq
    (fun l hmem w => by
      obtain ⟨i, hi⟩ := List.getElem?_of_mem hmem
      obtain ⟨-, -, hdone, -⟩ := hcall hi w
      exact hdone)
    List.nodup_range fun i hi => List.mem_range.mp hi
  rw [LeafCall.afterSome_nil, List.nil_append, LeafCall.afterSome_perm _ (List.Perm.refl _)]
    at hleaves
  refine ⟨?_, ?_, rfl, ?_, ?_, rfl, ?_⟩
  · rw [Crew.init]
    refine (congrArg (Outcome.andThen · _) hleaves).trans ?_
    rw [Outcome.andThen_done, report_eq ha, startEffect, World.after_append]
    rfl
  · refine h.mapIdx (fun {i a l} hatom hl _ => ?_) (map_eq_mapIdx _ _) rfl h.inbox h.outbox rfl
    obtain ⟨a', hatom', -, hsound⟩ := hcall hl w
    cases hatom.symm.trans hatom'
    exact hsound
  · intro l hl
    obtain ⟨l, -, rfl⟩ := List.mem_map.mp hl
    rfl
  · intro l hl
    obtain ⟨l, -, rfl⟩ := List.mem_map.mp hl
    exact le_refl t
  · refine Hub.le_earliest fun n hn => ?_
    obtain ⟨l, hl, rfl⟩ := List.mem_map.mp hn
    obtain ⟨l, -, rfl⟩ := List.mem_map.mp hl
    exact t.le_schedule _

/-! ## Messages for the root -/

/-- Messages are put into the inbox, all at one port. The call is broken off if the root
has no such port. -/
def inject (port : Port τ) (values : List (MessageType.Value port.type)) (c : Crew τ σ)
    (w : World ω) : Outcome (Crew τ σ) ω :=
  match c.inbox.extend port values with
  | .error fault => .broken c w fault
  | .ok inbox => .done { c with inbox := inbox } w

omit [AtomicModel τ σ] in
theorem Sound.withInbox (h : Sound good m c) {inbox : Bags τ}
    (hin : inbox.Fits m.interface.inputs) : Sound good m { c with inbox := inbox } :=
  ⟨h.length_eq, h.leaf, h.routes, hin, h.outbox, h.workers⟩

omit [AtomicModel τ σ] in
theorem Live.withInbox (h : Live good m c) {inbox : Bags τ}
    (hin : inbox.Fits m.interface.inputs) : Live good m { c with inbox := inbox } :=
  ⟨h.sound.withInbox hin, h.initialized, h.started, h.last_le, h.next_eq, h.window⟩

/-! ## Runs -/

variable [Supervisor π]

/-- **A run of a live crew** leaves it live, and it has come to its end only because the
supervisor wanted it to. -/
theorem Live.runOn (hc : Contract good) (ha : Attended ω good) (hm : m.Wired)
    (hp : Supervisor.Calm π) {n : Nat} :
    ∀ {plan : Nat → Timetable} {s : Shift τ σ ω} {p : π} {o : Outcome (Crew τ σ × π) ω},
      Live good m s.crew → s.failure = {} → s.minima.length = s.crew.workers →
      s.runOn n plan p = some o → o.stop = none ∧ Live good m o.state.1 := by
  induction n with
  | zero => exact fun _ _ _ ho => nomatch ho
  | succ n ih =>
      intro plan s p o h hf hminima ho
      simp only [Shift.runOn, hp.proceed, hp.completed] at ho
      split at ho
      · obtain ⟨x, minima, hx, hlength, hstep⟩ := stepOn hc ha hm
          (s := { s with
            world := s.world.heed (Supervisor.proceed s.crew.next s.world.interrupted p) })
          h hf hminima h.window (le_refl _) (plan 0)
        rw [hstep] at ho
        have hworkers : (s.crew.stepped s.crew.next x.routed).workers = s.crew.workers := by
          rw [Crew.stepped, Crew.routed, deposited_eq]
          rfl
        exact ih (h.stepped hc hm h.window (le_refl _) hx.routed) rfl
          (hlength.trans hworkers.symm) ho
      · cases ho
        exact ⟨rfl, h⟩

/-- **A crew of `m`**, in service or not yet initialized. -/
structure Ready (good : Interface τ → Stage → σ → Prop) (m : Model τ σ) (c : Crew τ σ) :
    Prop where
  sound : Sound good m c
  live : c.initialized = true → Live good m c

omit [AtomicModel τ σ] in
theorem Live.ready (h : Live good m c) : Ready good m c := ⟨h.sound, fun _ => h⟩

omit [AtomicModel τ σ] [Observer ω] in
theorem Ready.inject (hm : m.Wired) (h : Ready good m c) {port : Port τ}
    (hd : port ∈ m.interface.inputs) (values : List (MessageType.Value port.type)) (w : World ω) :
    (c.inject port values w).Unbroken ∧ Ready good m (c.inject port values w).state := by
  obtain ⟨i, hx, hfits⟩ := h.sound.inbox.extend hm.distinct.inputs hd values
  simp only [Crew.inject, hx]
  exact ⟨Outcome.unbroken_done _ _, h.sound.withInbox hfits, fun hi => (h.live hi).withInbox hfits⟩

/-- A crew that is ready refuses a run, or the run comes to its end. -/
theorem Ready.runUntilOn (hc : Contract good) (ha : Attended ω good) (hm : m.Wired)
    (h : Ready good m c) {n : Nat} {plan : Nat → Timetable} {limit : Instant} {w : World ω}
    {o : Outcome (Crew τ σ) ω} (ho : c.runUntilOn n plan limit w = some o) :
    o.Unbroken ∧ Ready good m o.state := by
  obtain ⟨o', ho', rfl⟩ := Option.map_eq_some_iff.mp ho
  rw [Crew.runOn] at ho'
  split at ho'
  · rename_i hi
    obtain ⟨hstop, hlive⟩ := (h.live hi).runOn hc ha hm calm_until rfl List.length_replicate ho'
    exact ⟨fun f hf => Option.some_ne_none _ (hf.symm.trans hstop), hlive.ready⟩
  · cases ho'
    exact ⟨Outcome.unbroken_refused _ _ _, h⟩

/-- **The states of a crew of `m` in the hands of a client**: it initializes the crew,
gives it messages and lets it run in any order, the workers take turns as they like,
and the client goes on from whatever state a call has left. -/
inductive Driven (ω : Type) [Observer ω] (m : Model τ σ) (wished : Nat) : Crew τ σ → Prop
  | create : Driven ω m wished (ofModel wished m)
  | init {c : Crew τ σ} {t : Instant} {w : World ω} (h : Driven ω m wished c) :
      Driven ω m wished (c.init t w).state
  | inject {c : Crew τ σ} {port : Port τ} {values : List (MessageType.Value port.type)}
      {w : World ω} (h : Driven ω m wished c) (hd : port ∈ m.interface.inputs) :
      Driven ω m wished (c.inject port values w).state
  | runUntil {c : Crew τ σ} {n : Nat} {plan : Nat → Timetable} {limit : Instant} {w : World ω}
      {o : Outcome (Crew τ σ) ω} (h : Driven ω m wished c)
      (ho : c.runUntilOn n plan limit w = some o) : Driven ω m wished o.state

theorem Driven.ready {wished : Nat} (hc : Contract good) (ha : Attended ω good) (hm : m.Wired)
    (hg : m.AllGood good) (h : Driven ω m wished c) : Ready good m c := by
  induction h with
  | create => exact ⟨sound_ofModel hm hg wished, nofun⟩
  | @init c t w _ ih =>
      obtain ⟨heq, hlive⟩ := ih.sound.init hc ha t w
      rw [heq]
      exact hlive.ready
  | inject _ hd ih => exact (ih.inject hm hd _ _).2
  | runUntil _ ho ih => exact (ih.runUntilOn hc ha hm ho).2

end Crew

/-! ## Both engines of a model -/

variable [Observer ω] {good : Interface τ → Stage → σ → Prop} {m : Model τ σ}

/-- **No call is ever broken off.** Take an accepted model of good atomic models, and any
state that calls in any order, at any times, have led its engine to, or its crew with
any number of workers and in whatever turns these worked. No further call meets a
missing place, a bag with messages of another type, a child joined to itself or a
negative elapsed time. -/
theorem driven_unbroken (hacc : m.Accepted) (hc : Contract good) (ha : Attended ω good)
    (hg : m.AllGood good) :
    (∀ e : Engine τ σ, e.Driven ω m →
      (∀ c : Call τ, c.Declared m → ∀ w : World ω, (e.perform w c).Unbroken) ∧
      ∀ (n : Nat) (limit : Instant) (w : World ω) (o : Outcome (Engine τ σ) ω),
        e.runUntil n limit w = some o → o.Unbroken) ∧
    ∀ (wished : Nat) (c : Crew τ σ), c.Driven ω m wished →
      (∀ (t : Instant) (w : World ω), (c.init t w).Unbroken) ∧
      (∀ port ∈ m.interface.inputs, ∀ (values : List (MessageType.Value port.type)) (w : World ω),
        (c.inject port values w).Unbroken) ∧
      ∀ (n : Nat) (plan : Nat → Timetable) (limit : Instant) (w : World ω)
        (o : Outcome (Crew τ σ) ω), c.runUntilOn n plan limit w = some o → o.Unbroken := by
  have hm := hacc.wired
  refine ⟨fun e he => ?_, fun wished c h => ?_⟩
  · have hready := he.ready hc ha hm hg
    exact ⟨fun c hd w => (hready.perform hc ha hm hd w).1,
      fun n limit w o ho => (hready.runUntil hc ha hm ho).1⟩
  · have hready := h.ready hc ha hm hg
    refine ⟨fun t w => ?_, fun port hd values w => (hready.inject hm hd values w).1,
      fun n plan limit w o ho => (hready.runUntilOn hc ha hm ho).1⟩
    rw [(hready.sound.init hc ha t w).1]
    exact Outcome.unbroken_done _ _

/-- An engine and a crew of two workers for the tower of doublers, both initialized at the
beginning of time, are asked to go to its end. -/
theorem driven_unbroken_tower :
    let w : World Unobserved := ⟨⟨⟩, false⟩
    let e := ((Engine.ofModel Doubler.tower).perform w (.init .min)).state
    let c := ((Crew.ofModel 2 Doubler.tower).init .min w).state
    (Doubler.tower.Accepted ∧ Doubler.tower.AllGood Doubler.Good ∧
      e.Driven Unobserved Doubler.tower ∧ c.Driven Unobserved Doubler.tower 2) ∧
    (e.perform w (.advance .max)).Unbroken ∧
      ∀ (plan : Nat → Timetable) (o : Outcome (Crew Payload Doubler) Unobserved),
        c.runUntilOn 9 plan .max w = some o → o.Unbroken := by
  intro w e c
  have he : e.Driven Unobserved Doubler.tower := .call (c := .init .min) .create trivial
  have hd : c.Driven Unobserved Doubler.tower 2 := .init .create
  obtain ⟨hengine, hcrew⟩ := driven_unbroken Doubler.accepted_tower Doubler.contract
    (attended_unobserved Doubler.Good) Doubler.allGood_tower
  exact ⟨⟨Doubler.accepted_tower, Doubler.allGood_tower, he, hd⟩,
    (hengine e he).1 (.advance .max) trivial w, fun plan o => (hcrew 2 c hd).2.2 9 plan .max w o⟩

end DiscreteEvent
