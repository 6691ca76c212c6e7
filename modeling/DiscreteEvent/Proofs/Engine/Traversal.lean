/-
How calls walk an engine tree.

`init`, `collect` and `advance` are three recursions of one shape: call the
children in order, stop where one of them stops, and settle the hub when all
of them came to their end. This file states that shape once. `Outcome.each` is
the walk over the children, `Outcome.resume` what follows it, and
`init_hub`, `collect_hub` and `advanceWith_hub` say that the three calls are
instances.

What a call does is proved by `Engine.induction`, which hands over a hypothesis
for every child, and by one of two lemmas on the walk: `each_of_unbroken` for
calls that are only known not to fault, `each_eq_done` for calls whose result
is known.
-/
import DiscreteEvent.Engine.Tree
import Mathlib.Data.List.Forall2

set_option autoImplicit false

namespace DiscreteEvent

/-- In lists related element by element, an element on the right has a partner. -/
theorem exists_left_of_forall₂ {α β : Type} {R : α → β → Prop} {as : List α} {bs : List β}
    (h : List.Forall₂ R as bs) {b : β} (hb : b ∈ bs) : ∃ a ∈ as, R a b := by
  induction h with
  | nil => exact absurd hb List.not_mem_nil
  | cons hr _ ih =>
      rcases List.mem_cons.mp hb with rfl | hb
      · exact ⟨_, by simp, hr⟩
      · obtain ⟨a, ha, hab⟩ := ih hb
        exact ⟨a, by simp [ha], hab⟩

/-! ## Unbroken outcomes -/

namespace Outcome

variable {ε δ ω : Type}

/-- **No fault.** The call came to its end, or it was refused. -/
def Unbroken (o : Outcome ε ω) : Prop := ∀ f, o.stop ≠ some (.fault f)

/-- Whether there was a fault can be read off. -/
instance (o : Outcome ε ω) : Decidable o.Unbroken :=
  match h : o.stop with
  | some (.fault f) => isFalse fun hu => hu f h
  | some (.violation v) => isTrue fun f hf => by rw [h] at hf; cases hf
  | none => isTrue fun f hf => by rw [h] at hf; cases hf

theorem unbroken_done (s : ε) (w : World ω) : (done s w).Unbroken := nofun

theorem unbroken_of_eq_done {o : Outcome ε ω} {s : ε} {w : World ω} (h : o = done s w) :
    o.Unbroken := h ▸ unbroken_done s w

theorem unbroken_refused (s : ε) (w : World ω) (v : Violation) : (refused s w v).Unbroken :=
  nofun

@[simp] theorem stop_map (f : ε → δ) (o : Outcome ε ω) : (o.map f).stop = o.stop := rfl

@[simp] theorem state_map (f : ε → δ) (o : Outcome ε ω) : (o.map f).state = f o.state := rfl

@[simp] theorem world_map (f : ε → δ) (o : Outcome ε ω) : (o.map f).world = o.world := rfl

@[simp] theorem unbroken_map {f : ε → δ} {o : Outcome ε ω} : (o.map f).Unbroken ↔ o.Unbroken :=
  Iff.rfl

theorem andThen_of_done {o : Outcome ε ω} (h : o.stop = none)
    (next : ε → World ω → Outcome ε ω) : o.andThen next = next o.state o.world := by
  rw [andThen, h]

/-- Neither of two calls in a row faults, unless the pair does. -/
theorem Unbroken.of_andThen {o : Outcome ε ω} {next : ε → World ω → Outcome ε ω}
    (h : (o.andThen next).Unbroken) : o.Unbroken := by
  intro f hf
  rw [andThen_of_stop hf] at h
  exact h f hf

/-- A call that cannot be refused and did not fault came to its end. -/
theorem Unbroken.stop_eq_none {o : Outcome ε ω} {f : Option Fault} (h : o.Unbroken)
    (hs : o.stop = f.map .fault) : o.stop = none := by
  cases f with
  | none => exact hs
  | some f => exact absurd hs (h f)

/-! ## What follows the children -/

/-- **Settling**: `next` follows a call on the children that came to its end;
otherwise what the call left is put back by `wrap`. -/
def resume (o : Outcome ε ω) (wrap : ε → δ) (next : ε → World ω → Outcome δ ω) : Outcome δ ω :=
  match o.stop with
  | some _ => o.map wrap
  | none => next o.state o.world

theorem resume_of_done {o : Outcome ε ω} (h : o.stop = none) (wrap : ε → δ)
    (next : ε → World ω → Outcome δ ω) : o.resume wrap next = next o.state o.world := by
  rw [resume, h]

@[simp] theorem resume_done (s : ε) (w : World ω) (wrap : ε → δ)
    (next : ε → World ω → Outcome δ ω) : (done s w).resume wrap next = next s w := rfl

theorem Unbroken.of_resume {o : Outcome ε ω} {wrap : ε → δ}
    {next : ε → World ω → Outcome δ ω} (h : (o.resume wrap next).Unbroken) : o.Unbroken := by
  intro f hf
  simp only [resume, hf] at h
  exact h f hf

/-! ## The walk over the children -/

/-- **One call after the other**, on the elements of a list with their places,
the first of which is `i`. The first call that stops ends the walk, and `rest`
says what becomes of the elements behind it. -/
def each (call : Nat → ε → World ω → Outcome ε ω) (rest : Nat → List ε → List ε) :
    Nat → List ε → World ω → Outcome (List ε) ω
  | _, [], w => done [] w
  | i, e :: es, w =>
    let o := call i e w
    match o.stop with
    | some _ => o.map (· :: rest (i + 1) es)
    | none => (each call rest (i + 1) es o.world).map (o.state :: ·)

/-- **A walk without faults.** If every call that does not fault comes to its
end with a result in relation `Q`, so does the walk. -/
theorem each_of_unbroken {call : Nat → ε → World ω → Outcome ε ω}
    {rest : Nat → List ε → List ε} {Q : ε → ε → Prop} {es : List ε} :
    ∀ {i : Nat} {w : World ω},
      (∀ j, ∀ e ∈ es, ∀ w, (call j e w).Unbroken →
        (call j e w).stop = none ∧ Q e (call j e w).state) →
      (each call rest i es w).Unbroken →
      (each call rest i es w).stop = none ∧ List.Forall₂ Q es (each call rest i es w).state := by
  induction es with
  | nil => exact fun _ _ => ⟨rfl, .nil⟩
  | cons e es ih =>
      intro i w hcall hu
      -- The first call does not fault, because the walk would have ended with it.
      have hfirst : (call i e w).Unbroken := by
        intro f hf
        simp only [each, hf] at hu
        exact hu f hf
      obtain ⟨hstop, hq⟩ := hcall i e (by simp) w hfirst
      simp only [each, hstop] at hu ⊢
      obtain ⟨hs, hqs⟩ := ih (fun j e he => hcall j e (by simp [he])) hu
      exact ⟨hs, .cons hq hqs⟩

end Outcome

/-! ## The three calls as walks -/

namespace Engine

variable {τ σ ω : Type} [MessageType τ]

/-- **Induction on engine trees**, with a hypothesis for every child. -/
@[elab_as_elim]
theorem induction {motive : Engine τ σ → Prop} (leaf : ∀ l, motive (.leaf l))
    (hub : ∀ h children, (∀ c ∈ children, motive c) → motive (.hub h children))
    (e : Engine τ σ) : motive e :=
  @Engine.rec τ σ _ motive (fun es => ∀ e ∈ es, motive e) leaf
    (fun h children ih => hub h children ih) (fun _ he => absurd he (List.not_mem_nil))
    (fun _ _ ihe ihes c hc => (List.mem_cons.mp hc).elim (fun h => h ▸ ihe) (ihes c)) e

variable [AtomicModel τ σ] [Observer ω]

theorem initAll_eq_each (t : Instant) (es : List (Engine τ σ)) (i : Nat) (w : World ω) :
    initAll t es w = Outcome.each (fun _ => init t) (fun _ => id) i es w := by
  induction es generalizing i w with
  | nil => rw [initAll, Outcome.each]
  | cons e es ih =>
      rw [initAll, Outcome.each]
      simp only [ih (i + 1)]
      rfl

theorem collectAll_eq_each (t : Instant) (es : List (Engine τ σ)) (i : Nat) (w : World ω) :
    collectAll t es w = Outcome.each (fun _ => collect t) (fun _ => id) i es w := by
  induction es generalizing i w with
  | nil => rw [collectAll, Outcome.each]
  | cons e es ih =>
      rw [collectAll, Outcome.each]
      simp only [ih (i + 1)]
      rfl

theorem advanceAll_eq_each (t : Instant) (ds : List (Delivery τ)) (es : List (Engine τ σ))
    (i : Nat) (w : World ω) :
    advanceAll t ds i es w
      = Outcome.each (fun i => advanceWith t (Hub.mailFor ds i)) (receiveAll ds) i es w := by
  induction es generalizing i w with
  | nil => rw [advanceAll, Outcome.each]
  | cons e es ih =>
      rw [advanceAll]
      simp only [ih]
      rfl

/-- Initializing a hub: its children, and then what is left to do. -/
theorem init_hub (t : Instant) (h : Hub τ) (es : List (Engine τ σ)) (w : World ω) :
    init t (.hub h es) w
      = (Outcome.each (fun _ => init t) (fun _ => id) 0 es w).resume (.hub h)
          (settleInit t h) := by
  rw [init, initAll_eq_each t es 0 w]
  rfl

/-- Collecting from a hub whose event is due. -/
theorem collect_hub {t : Instant} {h : Hub τ} (hr : h.refuseCollect t = none)
    (hi : h.isImminent t = true) (es : List (Engine τ σ)) (w : World ω) :
    collect t (.hub h es) w
      = (Outcome.each (fun _ => collect t) (fun _ => id) 0 es w).resume
          (.hub { h with outbox := h.outbox.clear })
          (settleCollect t { h with outbox := h.outbox.clear }) := by
  rw [collect, collectAll_eq_each t es 0 w]
  simp only [hr, hi, if_true]
  rfl

/-- Collecting from a hub before its event changes nothing. -/
theorem collect_hub_early {t : Instant} {h : Hub τ} (hr : h.refuseCollect t = none)
    (hi : h.isImminent t = false) (es : List (Engine τ σ)) (w : World ω) :
    collect t (.hub h es) w = .done (.hub h es) w := by
  rw [collect]
  simp only [hr, hi, Bool.false_eq_true, if_false]

/-- Advancing a hub whose routes can be followed. -/
theorem advanceWith_hub {t : Instant} {h : Hub τ} {mail : List (Delivery τ)}
    {es : List (Engine τ σ)} {ds : List (Delivery τ)}
    (hr : (h.receive mail).refuseAdvance t = none)
    (hd : (h.receive mail).deliveries (es.map node) = .ok ds) (w : World ω) :
    advanceWith t mail (.hub h es) w
      = (Outcome.each (fun i => advanceWith t (Hub.mailFor ds i)) (receiveAll ds) 0 es w).resume
          (.hub (h.receive mail)) (settleAdvance t (h.receive mail)) := by
  rw [advanceWith]
  simp only [hr, hd, advanceAll_eq_each]
  rfl

end Engine

end DiscreteEvent
