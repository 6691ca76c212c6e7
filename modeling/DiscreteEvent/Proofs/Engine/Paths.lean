/-
Paths do not change.

An engine has its path from the beginning, and no call changes the path of any engine in a
tree, whatever comes of the call: it may come to its end, be refused, or be broken off
anywhere by a fault. `SamePaths` compares two trees address by address. It goes through the
walks over children (`Outcome.each_related`) and through what follows them
(`Outcome.resume_holds`), so every call keeps it (`samePaths_perform`), and every run. The
path of the root is the id of the model, then (`Driven.path`).
-/
import DiscreteEvent.Proofs.Engine.Attribution

set_option autoImplicit false

namespace DiscreteEvent

variable {τ σ ω π : Type} [MessageType τ]

/-! ## Calls that may stop -/

namespace Outcome

variable {ε δ : Type}

/-- What holds after a call and is kept by what follows it holds after both. -/
theorem andThen_holds {P : ε → Prop} {o : Outcome ε ω} {next : ε → World ω → Outcome ε ω}
    (ho : P o.state) (hnext : ∀ s w, P s → P (next s w).state) : P (o.andThen next).state := by
  unfold andThen
  split
  · exact hnext _ _ ho
  · exact ho

/-- What holds of whatever a walk may lead to holds after it. -/
theorem resume_holds {P : δ → Prop} {o : Outcome ε ω} {wrap : ε → δ}
    {next : ε → World ω → Outcome δ ω} (hwrap : P (wrap o.state))
    (hnext : P (next o.state o.world).state) : P (o.resume wrap next).state := by
  unfold resume
  split
  · exact hwrap
  · exact hnext

/-- **A walk keeps a relation** that every call keeps, wherever it stops. -/
theorem each_related {R : ε → ε → Prop} {call : Nat → ε → World ω → Outcome ε ω}
    {rest : Nat → List ε → List ε} {es : List ε}
    (hcall : ∀ j, ∀ e ∈ es, ∀ w, R e (call j e w).state)
    (hrest : ∀ j es, List.Forall₂ R es (rest j es)) (i : Nat) (w : World ω) :
    List.Forall₂ R es (each call rest i es w).state := by
  induction es generalizing i w with
  | nil => exact .nil
  | cons e es ih =>
      have hfirst := hcall i e (by simp) w
      rw [each]
      split
      · exact .cons hfirst (hrest _ _)
      · exact .cons hfirst (ih (fun j e he => hcall j e (by simp [he])) _ _)

end Outcome

/-! ## The path of a leaf -/

namespace Leaf

/-- **What a leaf keeps** when it sends or makes a transition: its path, and its next event as
long as it is not scheduled anew. -/
structure Kept (l l' : Leaf τ σ) : Prop where
  path : l'.path = l.path
  next : l'.next = l.next

variable [AtomicModel τ σ]

theorem kept_fireExternal (l : Leaf τ σ) (t since : Instant) (w : World ω) :
    l.Kept (l.fireExternal t since w).state := by
  unfold fireExternal
  split
  · exact ⟨rfl, rfl⟩
  · split <;> exact ⟨rfl, rfl⟩

theorem kept_fire (l : Leaf τ σ) (t : Instant) (w : World ω) : l.Kept (l.fire t w).state := by
  unfold fire
  split
  · split
    · exact ⟨rfl, rfl⟩
    · refine Outcome.andThen_holds (P := l.Kept) ⟨rfl, rfl⟩ fun l' w h => ?_
      have h' := kept_fireExternal l' t t w
      exact ⟨h'.path.trans h.path, h'.next.trans h.next⟩
  · exact kept_fireExternal l t l.last w

theorem path_reschedule (l : Leaf τ σ) (t : Instant) (w : World ω) :
    (l.reschedule t w).state.path = l.path :=
  Outcome.andThen_holds (P := fun l' : Leaf τ σ => l'.path = l.path) rfl fun _ _ h => h

variable [Observer ω]

theorem kept_collect (l : Leaf τ σ) (t : Instant) (w : World ω) :
    l.Kept (l.collect t w).state := by
  unfold collect
  split
  · exact ⟨rfl, rfl⟩
  · split
    · refine Outcome.andThen_holds (P := l.Kept) ?_ fun _ _ h => ⟨h.path, h.next⟩
      unfold emit
      split <;> exact ⟨rfl, rfl⟩
    · exact ⟨rfl, rfl⟩

theorem path_init (l : Leaf τ σ) (t : Instant) (w : World ω) :
    (l.init t w).state.path = l.path :=
  Outcome.andThen_holds (P := fun l' : Leaf τ σ => l'.path = l.path) (path_reschedule l t w)
    fun _ _ h => h

theorem path_advance (l : Leaf τ σ) (t : Instant) (w : World ω) :
    (l.advance t w).state.path = l.path := by
  unfold advance
  split
  · rfl
  · dsimp only
    split
    · rfl
    · refine Outcome.andThen_holds (P := fun l' : Leaf τ σ => l'.path = l.path)
        (kept_fire _ t w).path fun l' w h => ?_
      refine Outcome.andThen_holds (P := fun l' : Leaf τ σ => l'.path = l.path)
        ((path_reschedule l' t w).trans h) fun l' w h => ?_
      exact Outcome.andThen_holds (P := fun l' : Leaf τ σ => l'.path = l.path) h fun _ _ h => h

end Leaf

/-! ## The same paths -/

namespace Engine

/-- **The same paths** at the same addresses. -/
def SamePaths (e e' : Engine τ σ) : Prop := ∀ a, e'.pathAt? a = e.pathAt? a

theorem SamePaths.rfl {e : Engine τ σ} : e.SamePaths e := fun _ => Eq.refl _

theorem SamePaths.trans {e e' e'' : Engine τ σ} (h : e.SamePaths e') (h' : e'.SamePaths e'') :
    e.SamePaths e'' := fun a => (h' a).trans (h a)

theorem SamePaths.leaf {l l' : Leaf τ σ} (h : l'.path = l.path) :
    SamePaths (.leaf l) (.leaf l') := by
  intro a
  cases a with
  | nil => exact congrArg some h
  | cons i a => exact Eq.refl _

theorem SamePaths.hub {h h' : Hub τ} {es es' : List (Engine τ σ)} (hpath : h'.path = h.path)
    (hes : List.Forall₂ SamePaths es es') : SamePaths (.hub h es) (.hub h' es') := by
  intro a
  cases a with
  | nil => exact congrArg some hpath
  | cons i a =>
      rw [pathAt?, pathAt?]
      induction hes generalizing i with
      | nil => exact Eq.refl _
      | cons hfirst _ ih =>
          cases i with
          | zero => exact hfirst a
          | succ i => exact ih i

theorem forall₂_samePaths (es : List (Engine τ σ)) : List.Forall₂ SamePaths es es :=
  List.forall₂_same.mpr fun _ _ => SamePaths.rfl

theorem samePaths_withInbox (x : Bags τ) (e : Engine τ σ) : e.SamePaths (e.withInbox x) :=
  pathAt_withInbox x e

theorem samePaths_receiveAll (ds : List (Delivery τ)) (i : Nat) (es : List (Engine τ σ)) :
    List.Forall₂ SamePaths es (receiveAll ds i es) := by
  induction es generalizing i with
  | nil => exact .nil
  | cons e es ih =>
      refine .cons ?_ (ih _)
      cases e with
      | leaf l => exact .leaf rfl
      | hub h es => exact .hub rfl (forall₂_samePaths es)

theorem path_ofModel (m : Model τ σ) : (ofModel m).node.path = m.id := by
  cases m <;> rfl

/-! ## The calls -/

variable [AtomicModel τ σ] [Observer ω]

theorem samePaths_init (t : Instant) (e : Engine τ σ) :
    ∀ w : World ω, e.SamePaths (e.init t w).state := by
  induction e using Engine.induction with
  | leaf l => exact fun w => .leaf (l.path_init t w)
  | hub h es ih =>
      intro w
      have hes := Outcome.each_related (fun _ e he w => ih e he w)
        (fun _ es => forall₂_samePaths es) 0 w
      rw [init_hub]
      exact Outcome.resume_holds (P := SamePaths _) (.hub rfl hes) (.hub rfl hes)

theorem samePaths_collect (t : Instant) (e : Engine τ σ) :
    ∀ w : World ω, e.SamePaths (e.collect t w).state := by
  induction e using Engine.induction with
  | leaf l => exact fun w => .leaf (l.kept_collect t w).path
  | hub h es ih =>
      intro w
      cases hr : h.refuseCollect t with
      | some v =>
          simp only [collect, hr]
          exact .rfl
      | none =>
          cases hdue : h.isImminent t with
          | false =>
              rw [collect_hub_early hr hdue]
              exact .rfl
          | true =>
              have hes := Outcome.each_related (fun _ e he w => ih e he w)
                (fun _ es => forall₂_samePaths es) 0 w
              rw [collect_hub hr hdue]
              refine Outcome.resume_holds (P := SamePaths _) (.hub rfl hes) ?_
              unfold settleCollect
              split
              · exact .hub rfl hes
              · exact .hub rfl hes

theorem samePaths_advanceWith (t : Instant) (e : Engine τ σ) :
    ∀ (mail : List (Delivery τ)) (w : World ω), e.SamePaths (advanceWith t mail e w).state := by
  induction e using Engine.induction with
  | leaf l => exact fun mail w => .leaf ((l.receive mail).path_advance t w)
  | hub h es ih =>
      intro mail w
      cases hr : (h.receive mail).refuseAdvance t with
      | some v =>
          simp only [advanceWith, hr]
          exact .hub rfl (forall₂_samePaths es)
      | none =>
          cases hd : (h.receive mail).deliveries (es.map node) with
          | error fault =>
              simp only [advanceWith, hr, hd]
              exact .hub rfl (forall₂_samePaths es)
          | ok ds =>
              have hes := Outcome.each_related (fun i e he w => ih e he (Hub.mailFor ds i) w)
                (samePaths_receiveAll ds) 0 w
              rw [advanceWith_hub hr hd]
              refine Outcome.resume_holds (P := SamePaths _) (.hub rfl hes) ?_
              refine .hub ?_ hes
              exact Outcome.andThen_holds (P := fun h' : Hub τ => h'.path = h.path) rfl
                fun _ _ h => h

/-- **No call changes a path**, whatever comes of it. -/
theorem samePaths_perform (e : Engine τ σ) (w : World ω) (c : Call τ) :
    e.SamePaths (e.perform w c).state := by
  cases c with
  | init t => exact samePaths_init t e w
  | collect t => exact samePaths_collect t e w
  | advance t => exact samePaths_advanceWith t e [] w
  | inject port values =>
      simp only [perform]
      split
      · exact .rfl
      · exact samePaths_withInbox _ e

theorem samePaths_step (e : Engine τ σ) (w : World ω) : e.SamePaths (e.step w).state := by
  rw [step]
  cases hs : (e.collect e.next w).stop with
  | some s =>
      rw [Outcome.andThen_of_stop hs]
      exact samePaths_collect _ e w
  | none =>
      rw [Outcome.andThen_of_done hs]
      exact (samePaths_collect _ e w).trans (samePaths_advanceWith _ _ [] _)

/-- Nor does a run. -/
theorem samePaths_run [Supervisor π] {n : Nat} :
    ∀ {e : Engine τ σ} {p : π} {w : World ω} {o : Outcome (Engine τ σ × π) ω},
      run n e p w = some o → e.SamePaths o.state.1 := by
  induction n with
  | zero => exact fun ho => nomatch ho
  | succ n ih =>
      intro e p w o ho
      have hstep := e.samePaths_step (w.heed (Supervisor.proceed e.next w.interrupted p))
      -- Wherever the run ends, its state is that before the step or that after it.
      simp only [run] at ho
      split at ho
      · cases ho
        exact .rfl
      · split at ho
        · split at ho
          · cases ho
            exact hstep
          · split at ho
            · cases ho
              exact hstep
            · exact hstep.trans (ih ho)
        · cases ho
          exact .rfl

/-- **The paths of a tree** are those it was created with. -/
theorem Driven.samePaths {m : Model τ σ} {e : Engine τ σ} (h : e.Driven ω m) :
    (ofModel m).SamePaths e := by
  induction h with
  | create => exact .rfl
  | call _ _ ih => exact ih.trans (samePaths_perform _ _ _)
  | runUntil _ ho ih =>
      obtain ⟨_, ho', rfl⟩ := Option.map_eq_some_iff.mp ho
      exact ih.trans (samePaths_run ho')

/-- **The path of the root is its id**, whatever calls have been made. -/
theorem Driven.path {m : Model τ σ} {e : Engine τ σ} (h : e.Driven ω m) : e.node.path = m.id := by
  have hroot := h.samePaths []
  rw [pathAt?, pathAt?] at hroot
  exact (Option.some.inj hroot).trans (path_ofModel m)

end Engine

end DiscreteEvent
