/-
Runs of an engine of either kind, decision by decision.

An engine in service, a tree or a crew, is `Live`. A run of a live engine is a loop that
makes one decision after the other: the supervisor is asked about the next event, and either
the run ends, or one step is taken and the supervisor is told of it. The loops of a tree and
of a crew look different, and a crew has besides its engine the notes of its workers. What is
common to them is a run that has yet to be gone through (`Rest`), and the one thing that can
be done with it (`Live.decision`). Everything about runs follows by induction on the number of
decisions.
-/
import DiscreteEvent.Proofs.Execution.Watched

set_option autoImplicit false

namespace DiscreteEvent

variable {τ σ ω π : Type} [MessageType τ]
variable {good : Interface τ → Stage → σ → Prop} {m : Model τ σ}

/-- Showing the outputs does not move the next event. -/
theorem Engine.next_shown [AtomicModel τ σ] (t : Instant) (e : Engine τ σ) :
    (e.shown t).next = e.next := by
  cases e with
  | leaf l =>
      have hnext : (l.shown t).next = l.next := by rw [l.toNode_shown t]
      exact hnext
  | hub h es =>
      unfold shown
      split <;> rfl

namespace Backend

/-- **An engine of `m` in service.** -/
def Live (good : Interface τ → Stage → σ → Prop) (m : Model τ σ) : Backend τ σ → Prop
  | sequential e => Engine.Live good m e
  | parallel c => Crew.Live good m c

/-- The engine of a live tree or crew has its window in order. -/
theorem Live.last_le_next {b : Backend τ σ} (h : b.Live good m) : b.last ≤ b.next := by
  cases b with
  | sequential e => exact Engine.Windowed.last_le_next h.windowed
  | parallel c => exact Crew.Live.window h

/-- What waits at the root of a live engine fits there. -/
theorem Live.inbox {b : Backend τ σ} (h : b.Live good m) : b.inbox.Fits m.interface.inputs := by
  cases b with
  | sequential e => exact Engine.Sound.inbox h.sound
  | parallel c => exact Crew.Sound.inbox h.sound

theorem Live.withInbox {b : Backend τ σ} (h : b.Live good m) {x : Bags τ}
    (hx : x.Fits m.interface.inputs) : (b.withInbox x).Live good m := by
  cases b with
  | sequential e => exact Engine.Live.withInbox h hx
  | parallel c => exact Crew.Live.withInbox h hx

/-- Messages for a port that the root has are accepted. -/
theorem Live.extend {b : Backend τ σ} (hm : m.Wired) (h : b.Live good m) {i : Injection τ}
    (hi : i.port ∈ m.interface.inputs) {x : Bags τ}
    (hx : b.inbox.extend i.port i.values = .ok x) : (b.withInbox x).Live good m := by
  obtain ⟨_, hx', hfits⟩ := h.inbox.extend hm.distinct.inputs hi i.values
  cases hx.symm.trans hx'
  exact h.withInbox hfits

/-! ## Leaves -/

/-- The leaves of an engine, in its order. -/
def leaves : Backend τ σ → List (Leaf τ σ)
  | sequential e => e.leaves
  | parallel c => c.leaves

/-- The cells of an engine, in its order. -/
def row (b : Backend τ σ) : List (Cell σ) := b.leaves.map Leaf.cell

/-- **The next event of a live engine is that of a leaf**, if there is one. -/
theorem Live.exists_due {b : Backend τ σ} (h : b.Live good m) (hmax : b.next ≠ .max) :
    ∃ c ∈ b.row, c.next = b.next := by
  have hnext : b.next = Hub.earliest (b.leaves.map (·.toNode)) := by
    cases b with
    | sequential e => exact Engine.Windowed.next_eq e h.windowed
    | parallel c => exact Crew.Live.next_eq h
  by_cases hnil : b.leaves.map (·.toNode) = []
  · rw [hnil] at hnext
    exact absurd hnext hmax
  · obtain ⟨n, hn, hearliest⟩ := Hub.exists_eq_earliest hnil
    obtain ⟨l, hl, rfl⟩ := List.mem_map.mp hn
    exact ⟨l.cell, List.mem_map_of_mem hl, hearliest.trans hnext.symm⟩

/-! ## Steps -/

variable [AtomicModel τ σ]

/-- An engine in service between two steps is live. -/
theorem Serves.live {b : Backend τ σ} (h : b.Serves good m) : b.Live good m := by
  cases b with
  | sequential e =>
      obtain ⟨e₀, x, hlive, -, hx, rfl⟩ := h
      exact hlive.withInbox hx
  | parallel c =>
      obtain ⟨-, e, htwin⟩ := h
      exact htwin.crew

/-- **After a step** the last transition is at the time at which the step was due. -/
theorem Step.last_eq {b b' : Backend τ σ} {x : Effect} (hs : b.Step x b') : b'.last = b.next := by
  cases hs with
  | @sequential e event => exact Engine.last_moved event (e.next_shown e.next)
  | parallel event hx => rfl

/-- **A step leaves a live engine.** -/
theorem Step.live (hc : Contract good) (hm : m.Wired) {b b' : Backend τ σ} {x : Effect}
    (h : b.Live good m) (hs : b.Step x b') : b'.Live good m := by
  cases hs with
  | sequential event =>
      exact (Engine.Live.step hc (attended_unobserved good) hm h ⟨⟨⟩, false⟩).2
  | parallel event hx =>
      exact Crew.Live.stepped hc hm h (Crew.Live.window h) (le_refl _) hx.routed

/-- The next step is not before the one just taken. -/
theorem Step.next_le (hc : Contract good) (hm : m.Wired) {b b' : Backend τ σ} {x : Effect}
    (h : b.Live good m) (hs : b.Step x b') : b.next ≤ b'.next :=
  hs.last_eq ▸ (hs.live hc hm h).last_le_next

/-- **What happens to a live engine** leaves it live. -/
theorem Unfolds.live (hc : Contract good) (hm : m.Wired) {b b' : Backend τ σ}
    {h : List (Occurrence τ)} {x : Effect} (hx : Unfolds m b h x b') (hb : b.Live good m) :
    b'.Live good m := by
  induction hx with
  | nothing => exact hb
  | inject declared extended _ ih => exact ih (hb.extend hm declared extended)
  | step first _ ih => exact ih (first.live hc hm hb)

/-! ## Runs -/

variable [Observer ω] [Supervisor π]

/-- **A run that has yet to be gone through**: what comes of it when the supervisor makes at
most `n` more decisions. The workers of a crew have not failed so far. -/
def Rest (n : Nat) (plan : Nat → Timetable) (b : Backend τ σ) (p : π) (w : World ω)
    (result : Option (Outcome (Backend τ σ × π) ω)) : Prop :=
  match b with
  | sequential e =>
    result = (e.run n p w).map fun o => o.map fun s => (sequential s.1, s.2)
  | parallel c => ∃ minima : List Instant, minima.length = c.workers ∧
      result = ((Shift.mk c w minima {}).runOn n plan p).map fun o =>
        o.map fun s => (parallel s.1, s.2)

/-- The beginning of a run. -/
theorem Live.rest {b : Backend τ σ} (h : b.Live good m) (n : Nat) (plan : Nat → Timetable)
    (p : π) (w : World ω) : b.Rest n plan p w (b.runOn n plan p w) := by
  cases b with
  | sequential e => exact rfl
  | parallel c =>
      have hinitialized : c.initialized = true := Crew.Live.initialized h
      refine ⟨List.replicate c.workers .max, List.length_replicate, ?_⟩
      rw [runOn, Crew.runOn, if_pos hinitialized]
      rfl

/-- Without a decision there is no end. -/
theorem Rest.zero {plan : Nat → Timetable} {b : Backend τ σ} {p : π} {w : World ω}
    {result : Option (Outcome (Backend τ σ × π) ω)} (h : b.Rest 0 plan p w result) :
    result = none := by
  cases b with
  | sequential e => exact h
  | parallel c =>
      obtain ⟨minima, -, hresult⟩ := h
      exact hresult

/-- **One decision of a live engine's run.** Either the supervisor does not want the step at the
next event, and the run ends; or the step is taken, the supervisor is told of it, and the rest
of the run follows. -/
theorem Live.decision (hc : Contract good) (ha : Attended ω good) (hm : m.Wired)
    (hp : Supervisor.Calm π) (hh : Supervisor.Halting π) {b : Backend τ σ} (h : b.Live good m)
    {n : Nat} {plan : Nat → Timetable} {p : π} {w : World ω}
    {result : Option (Outcome (Backend τ σ × π) ω)} (hr : b.Rest (n + 1) plan p w result) :
    ((Supervisor.proceed b.next w.interrupted p).answer = false ∧
      result = some (.done (b, (Supervisor.proceed b.next w.interrupted p).state)
        (w.heed (Supervisor.proceed b.next w.interrupted p)))) ∨
    ((Supervisor.proceed b.next w.interrupted p).answer = true ∧
      ∃ (x : Effect) (b₁ : Backend τ σ), b.Step x b₁ ∧
        b₁.Rest n (fun k => plan (k + 1))
          (Supervisor.completed b.next (Supervisor.proceed b.next w.interrupted p).state).state
          (((w.heed (Supervisor.proceed b.next w.interrupted p)).after x).heed
            (Supervisor.completed b.next (Supervisor.proceed b.next w.interrupted p).state))
          result) := by
  cases b with
  | sequential e =>
      simp only [Rest, Engine.run, hp.proceed, hp.completed] at hr
      split at hr
      · rename_i hgo
        obtain ⟨hstep, -⟩ :=
          Engine.Live.step hc ha hm h (w.heed (Supervisor.proceed e.next w.interrupted p))
        simp only [hstep, Outcome.done, ← World.after_append] at hr
        exact .inr ⟨hgo, _, _, .sequential (hh.ne_max hgo), hr⟩
      · rename_i hno
        exact .inl ⟨Bool.eq_false_iff.mpr hno, hr⟩
  | parallel c =>
      obtain ⟨minima, hminima, hr⟩ := hr
      simp only [Shift.runOn, hp.proceed, hp.completed] at hr
      split at hr
      · rename_i hgo
        obtain ⟨x, minima₁, hx, hlength, hstep⟩ := Crew.Live.stepOn hc ha hm
          (s := ⟨c, w.heed (Supervisor.proceed c.next w.interrupted p), minima, {}⟩) h rfl hminima
          (Crew.Live.window h) (le_refl _) (plan 0)
        rw [hstep] at hr
        -- A step leaves as many workers and minima as it has found.
        have hworkers : (c.stepped c.next x.routed).workers = c.workers := by
          rw [Crew.stepped, Crew.routed, Crew.deposited_eq]
          rfl
        exact .inr ⟨hgo, _, _, .parallel (hh.ne_max hgo) hx, minima₁,
          hlength.trans hworkers.symm, hr⟩
      · rename_i hno
        exact .inl ⟨Bool.eq_false_iff.mpr hno, hr⟩

/-- **A run of a live engine goes through a history of steps**, of which the supervisor knows. -/
theorem Live.ran (hc : Contract good) (ha : Attended ω good) (hm : m.Wired)
    (hp : Supervisor.Calm π) (hh : Supervisor.Halting π) {I : List Instant → π → Prop}
    (hI : Supervisor.Keeps I) {n : Nat} :
    ∀ {b : Backend τ σ} {plan : Nat → Timetable} {p : π} {w : World ω} {known : List Instant}
      {o : Outcome (Backend τ σ × π) ω}, b.Live good m → I known p →
      b.Rest n plan p w (some o) → ∃ ts, Ran m I b w known ts o := by
  induction n with
  | zero => exact fun _ _ hr => nomatch hr.zero
  | succ n ih =>
      intro b plan p w known o h hknown hr
      obtain ⟨hno, ho⟩ | ⟨hgo, x, b₁, hstep, hrest⟩ := h.decision hc ha hm hp hh hr
      · cases ho
        exact ⟨[], .nil hknown hno⟩
      · -- The supervisor knows of one step more in the rest of the run.
        obtain ⟨ts, hran⟩ := ih (hstep.live hc hm h) (hI.step hknown hgo) hrest
        refine ⟨_, .cons hstep ?_ hran⟩
        rw [World.observer_heed]
        exact World.observer_after_congr (World.observer_heed _ _) _

end Backend

end DiscreteEvent
