/-
Observation is transparent.

A client asks an engine of either kind for one thing after another: it calls the engine,
puts messages into its inbox, lets it run under a supervisor, and asks for an interruption.
Everything that it can find out afterwards is in the `Response`: the whole engine, with the
states, times and bags of all its parts, why the call stopped, and what the supervisor of a
run has been told. The responses to all requests are a transcript, and the transcript does
not depend on the observer, who may want a record now and none the next time
(`observation_transparent`). For a crew the workers have to take turns in the same order,
and this order is part of a request.

The proof adds nothing to the comparison of single calls, turns and runs but an induction
over the requests: after each of them the two engines are the same again, and the two worlds
differ in the observer only.
-/
import DiscreteEvent.Proofs.Components.Doubler
import DiscreteEvent.Proofs.Execution.Watched
import DiscreteEvent.Proofs.Flat.Unobserved

set_option autoImplicit false

namespace DiscreteEvent

variable {τ σ ω : Type} [MessageType τ]

/-- Related results stay related when something is done with each of them. -/
theorem option_rel_map {α β γ δ : Type*} {R : α → β → Prop} {S : γ → δ → Prop} {f : α → γ}
    {g : β → δ} {x : Option α} {y : Option β} (h : Option.Rel R x y)
    (hfg : ∀ a b, R a b → S (f a) (g b)) : Option.Rel S (x.map f) (y.map g) := by
  cases h with
  | some hab => exact .some (hfg _ _ hab)
  | none => exact .none

/-- What goes on alike from related results. -/
theorem option_bind_eq_of_rel {α β γ : Type*} {R : α → β → Prop} {f : α → Option γ}
    {g : β → Option γ} {x : Option α} {y : Option β} (h : Option.Rel R x y)
    (hfg : ∀ a b, R a b → f a = g b) : x.bind f = y.bind g := by
  cases h with
  | some hab => exact hfg _ _ hab
  | none => rfl

/-! ## Requests -/

/-- **What a client asks for.** A supervisor may be any, also one that hears signals from
outside, or a pacer with its clock. -/
inductive Request (τ : Type) [MessageType τ] : Type 1
  | call (c : Call τ)
  /-- A run, in which the workers of a crew take turns by plan. -/
  | run {π : Type} (supervisor : Supervisor π) (p : π) (decisions : Nat)
      (plan : Nat → Timetable)
  /-- From now on the client wants an interruption, or none. -/
  | wish (interrupted : Bool)

/-- **What the client finds afterwards.** -/
structure Response (τ σ : Type) [MessageType τ] : Type 1 where
  engine : Backend τ σ
  stop : Option Stop
  /-- Whether there is a wish for an interruption. -/
  interrupted : Bool
  /-- After a run its supervisor, with minutes of all steps. -/
  supervisor : Option (Σ π : Type, Minuted π)

variable [AtomicModel τ σ] [Observer ω]

namespace Backend

/-- **One call.** A crew cannot be taken through the halves of a step. -/
def perform (b : Backend τ σ) (w : World ω) (c : Call τ) : Option (Outcome (Backend τ σ) ω) :=
  match b, c with
  | sequential e, c => some ((e.perform w c).map sequential)
  | parallel c, .init t => some ((c.init t w).map parallel)
  | parallel c, .inject port values => some ((c.inject port values w).map parallel)
  | parallel _, .collect _ => none
  | parallel _, .advance _ => none

/-- **The answer to a request**, and the world that it leaves. There is none if the engine
does not have such a call, or if a run has not come to its end. -/
def answer (b : Backend τ σ) (w : World ω) : Request τ → Option (Response τ σ × World ω)
  | .call c => (b.perform w c).map fun o =>
      (⟨o.state, o.stop, o.world.interrupted, none⟩, o.world)
  | .run (π := π) _ p decisions plan =>
      (b.runOn decisions plan (⟨p, []⟩ : Minuted π) w).map fun o =>
        (⟨o.state.1, o.stop, o.world.interrupted, some ⟨π, o.state.2⟩⟩, o.world)
  | .wish interrupted =>
      some (⟨b, none, interrupted, none⟩, { w with interrupted := interrupted })

/-- **The answers to all requests**, each in the world that the one before has left. -/
def transcript (b : Backend τ σ) (w : World ω) :
    List (Request τ) → Option (List (Response τ σ))
  | [] => some []
  | request :: requests =>
    (b.answer w request).bind fun (response, w) =>
      (response.engine.transcript w requests).map (response :: ·)

/-! ## Comparison -/

/-- All states of the engine are in `P`. -/
def Within (P : σ → Prop) : Backend τ σ → Prop
  | sequential e => e.Within P
  | parallel c => c.Within P

variable {P : σ → Prop}

theorem perform_unseen (hcalm : Observer.Calm ω) (hP : Legible P) {b : Backend τ σ}
    (hb : b.Within P) (w : World ω) (c : Call τ) :
    Option.Rel (Outcome.Unseen (Within P)) (b.perform w c) (b.perform w.unobserved c) := by
  cases b with
  | sequential e => exact .some ((Engine.perform_unseen hcalm hP hb w c).map fun _ he => he)
  | parallel crew =>
      cases c with
      | init t => exact .some ((Crew.init_unseen hcalm hP t hb w).map fun _ hc => hc)
      | inject port values =>
          exact .some ((Crew.inject_unseen hb port values w).map fun _ hc => hc)
      | collect t => exact .none
      | advance t => exact .none

theorem runOn_unseen {π : Type} [Supervisor π] (hcalm : Observer.Calm ω) (hP : Legible P)
    {b : Backend τ σ} (hb : b.Within P) (n : Nat) (plan : Nat → Timetable) (p : π)
    (w : World ω) :
    Option.Rel (Outcome.Unseen fun x => x.1.Within P) (b.runOn n plan p w)
      (b.runOn n plan p w.unobserved) := by
  cases b with
  | sequential e =>
      exact option_rel_map (Engine.run_unseen hcalm hP hb) fun _ _ h => h.map fun _ he => he
  | parallel c =>
      exact option_rel_map (Crew.runOn_unseen hcalm hP hb n plan p w)
        fun _ _ h => h.map fun _ hc => hc

/-- **One request** gets the same answer without the observer. -/
theorem answer_unseen (hcalm : Observer.Calm ω) (hP : Legible P) {b : Backend τ σ}
    (hb : b.Within P) (w : World ω) (request : Request τ) :
    Option.Rel (fun x x' => x'.1 = x.1 ∧ x'.2 = x.2.unobserved ∧ x.1.engine.Within P)
      (b.answer w request) (b.answer w.unobserved request) := by
  cases request with
  | call c =>
      refine option_rel_map (perform_unseen hcalm hP hb w c) fun o o' h => ?_
      exact ⟨by rw [h.state, h.stop, h.world]; rfl, h.world, h.within⟩
  | run supervisor p n plan =>
      refine option_rel_map (runOn_unseen hcalm hP hb n plan (Minuted.mk p []) w) fun o o' h => ?_
      exact ⟨by rw [h.state, h.stop, h.world]; rfl, h.world, h.within⟩
  | wish interrupted => exact .some ⟨rfl, rfl, hb⟩

/-- **All requests** get the same answers without the observer. -/
theorem transcript_unobserved (hcalm : Observer.Calm ω) (hP : Legible P)
    {requests : List (Request τ)} :
    ∀ {b : Backend τ σ} {w : World ω}, b.Within P →
      b.transcript w requests = b.transcript w.unobserved requests := by
  induction requests with
  | nil => exact fun _ => rfl
  | cons request requests ih =>
      intro b w hb
      refine option_bind_eq_of_rel (answer_unseen hcalm hP hb w request) fun x x' h => ?_
      obtain ⟨hresponse, hworld, hwithin⟩ := h
      simp only [hresponse, hworld]
      exact congrArg (Option.map _) (ih hwithin)

end Backend

/-- **Observation is transparent.** Take any model, whether it is accepted or not, whose states
are in an invariant of states that can be rendered, and any observer that takes every record it
has asked for. For every list of requests, the engine tree of the model and a crew with any
number of workers give the same answers with the observer as with none: the same results of
calls, the same steps of runs, and after each request the same states, times, inboxes and
outboxes of all engines. An observer is told, and may refuse to be; it is not one that holds a
signal for an interruption, or shares a state with a model or a clock. -/
theorem observation_transparent {P : σ → Prop} {m : Model τ σ} (hcalm : Observer.Calm ω)
    (hP : Legible P) (hm : m.AllGood fun _ _ => P) (wished : Nat) (w : World ω)
    (requests : List (Request τ)) :
    (Backend.sequential (.ofModel m)).transcript w requests
        = (Backend.sequential (.ofModel m)).transcript w.unobserved requests ∧
      (Backend.parallel (.ofModel wished m)).transcript w requests
        = (Backend.parallel (.ofModel wished m)).transcript w.unobserved requests := by
  have htree : (Engine.ofModel m).Within P := Engine.within_ofModelBelow hm none
  have hcrew : (Crew.ofModel wished m).Within P := Crew.within_ofModel hm wished
  exact ⟨Backend.transcript_unobserved hcalm hP (b := .sequential (.ofModel m)) htree,
    Backend.transcript_unobserved hcalm hP (b := .parallel (.ofModel wished m)) hcrew⟩

/-- An observer that changes its mind each time it is asked whether it wants a record. -/
structure Wavering where
  wants : Bool := false
  records : List Record := []

instance : Observer Wavering where
  enabled o := (o.wants, { o with wants := !o.wants })
  observe r o := ({ o with records := o.records ++ [r] }, none)
  announce _ o := o

/-- The tower of doublers gets a message, is initialized, collects what is not yet due, and runs
up to its fifth second, while an observer gets every second record. A crew of two workers does
the same but for collecting. -/
theorem observation_transparent_tower :
    let w : World Wavering := ⟨{}, false⟩
    let start : List (Request Payload) :=
      [.call (.inject Doubler.add [(5 : UInt64)]), .call (.init .epoch)]
    let rest : List (Request Payload) :=
      [.wish true, .run inferInstance (Until.mk ⟨5, 0, by decide⟩) 9 fun _ => {}]
    let tree : Backend Payload Doubler := .sequential (.ofModel Doubler.tower)
    let crew : Backend Payload Doubler := .parallel (.ofModel 2 Doubler.tower)
    let byHand := start ++ .call (.collect .epoch) :: rest
    (tree.transcript w byHand = tree.transcript w.unobserved byHand ∧
      ((tree.transcript w byHand).map List.length) = some 5) ∧
    crew.transcript w (start ++ rest) = crew.transcript w.unobserved (start ++ rest) ∧
      ((crew.transcript w (start ++ rest)).map List.length) = some 4 := by
  intro w start rest tree crew byHand
  have hcalm : Observer.Calm Wavering := fun _ _ => rfl
  have hP : Legible fun _ : Doubler => True :=
    ⟨fun _ => ⟨_, rfl⟩, fun _ => trivial, fun _ => trivial, fun _ => trivial, fun _ _ _ => trivial⟩
  have hm : Doubler.tower.AllGood fun _ _ _ => True :=
    Doubler.allGood_tower.mono fun _ _ _ => trivial
  exact ⟨⟨(observation_transparent hcalm hP hm 2 w byHand).1, by decide +kernel⟩,
    (observation_transparent hcalm hP hm 2 w (start ++ rest)).2, by decide +kernel⟩

end DiscreteEvent
