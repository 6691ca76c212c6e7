/-
Leaves that are not disturbed by the rest of their tree.

The steps of an engine are those of its whole tree: when any leaf has an event, all outputs
are collected, and every leaf gets its turn. What the other leaves do therefore decides when
there is a step, and how many of them there are, also at one instant. None of this is to be
seen in the life of a sheltered leaf (`Engine.undisturbed`).

The lives of such leaves in two trees are compared step by step. A step in which no sheltered
leaf is due passes them by (`Poised.passes`); so the steps of the two runs need not match, and
each run is followed to the next step in which one is due (`Poised.exists_due`). Such a step is
at the same time in both runs, because the leaves have the same events, and there they make the
same transitions (`Poised.in_step`, `Poised.meets`).
-/
import DiscreteEvent.Proofs.Engine.Refinement
import DiscreteEvent.Proofs.Model.Apart

set_option autoImplicit false

namespace DiscreteEvent

variable {τ σ ω ω' : Type} [MessageType τ] [AtomicModel τ σ]

/-! ## Transitions of leaves -/

namespace Leaf

/-- **The transition that a leaf makes** when it gets its turn at `t`, if it makes one. -/
def transition? (t : Instant) (l : Leaf τ σ) : Option (Transition τ σ) :=
  if l.idle t then none
  else some ⟨t, l.isImminent t, l.last.elapsed t, l.inbox, (l.moved t).state⟩

/-- A leaf that has shown its output makes the transition of its cell. -/
theorem transition?_shown (l : Leaf τ σ) {t : Instant} (ht : t ≠ .max) (x : Bags τ) :
    transition? t { l.shown t with inbox := x } = l.cell.transition? t x := by
  have hdue : Node.isImminent { (l.shown t).toNode with inbox := x } t
      = decide (l.cell.next = t) := by
    rw [toNode_shown, Bool.eq_iff_iff, decide_eq_true_iff]
    exact Node.isImminent_iff (n := { l.toNode with inbox := x, outbox := _ }) ht
  have hlast : (l.shown t).last = l.cell.last := by
    rw [toNode_shown]
    rfl
  rw [transition?, Cell.transition?, idle, hdue, hlast, ← cell_moved l ht x]
  rfl

end Leaf

namespace Engine

variable [Observer ω] [Observer ω']

/-- **The transition of a leaf in the step at the next event**: it gets its turn after all outputs
have been collected. -/
def transition? (a : List Nat) (e : Engine τ σ) (w : World ω) : Option (Transition τ σ) :=
  (turnAt [] a (e.collect e.next w).state).bind (Leaf.transition? e.next)

/-- **The life of a leaf** through all steps before the limit: its transitions, one after the
other. -/
def life (limit : Instant) (a : List Nat) : Nat → Engine τ σ → World ω → List (Transition τ σ)
  | 0, _, _ => []
  | n + 1, e, w =>
    if e.next < limit then
      (e.transition? a w).toList ++ life limit a n (e.step w).state (e.step w).world
    else []

/-! ## One step -/

variable {good : Interface τ → Stage → σ → Prop} {m m' : Model τ σ} {e e' : Engine τ σ}
  {leaves : Set (List Nat)}

/-- **An engine of `m` between two steps**, live and without messages. -/
structure Poised (good : Interface τ → Stage → σ → Prop) (m : Model τ σ) (e : Engine τ σ) :
    Prop where
  live : Live good m e
  quiet : e.Quiet

/-- After a step the engine is poised for the next one. -/
theorem Poised.step (hc : Contract good) (ha : Attended ω good) (hm : m.Wired)
    (h : Poised good m e) (w : World ω) :
    (e.step w).stop = none ∧ Poised good m (e.step w).state := by
  obtain ⟨hstep, hlive⟩ := h.live.step hc ha hm w
  rw [hstep]
  exact ⟨rfl, hlive, quiet_moved _ _⟩

omit [AtomicModel τ σ] in
/-- No leaf has its event before that of the engine. -/
theorem Poised.next_le (h : Poised good m e) {a : List Nat} {c : Cell σ}
    (hcell : e.cells a = some c) : e.next ≤ c.next := by
  obtain ⟨l, hl, rfl⟩ := Option.map_eq_some_iff.mp hcell
  exact (h.live.windowed.leafAt hl).2

/-- **A leaf in a step**: it receives what the chains carry to it, and makes the transition of
its cell. -/
theorem Poised.exists_transition (hc : Contract good) (ha : Attended ω good) (hm : m.Wired)
    (h : Poised good m e) (hmax : e.next ≠ .max) {a : List Nat} {atom : Atomic τ σ}
    (hatom : m.atomAt? a = some atom) (w : World ω) :
    ∃ (l : Leaf τ σ) (y : Bags τ), e.leafAt? a = some l ∧ l.Sound good atom.interface ∧
      m.Receives e.next (.ofPorts m.interface.inputs) e.cells a atom.interface y ∧
      e.transition? a w = l.cell.transition? e.next y ∧
      (e.step w).state.cells a = some (l.cell.step e.next y) := by
  obtain ⟨hcollect, hshown, -⟩ := h.live.collect hc ha hm (le_refl e.next) w
  obtain ⟨hstep, -⟩ := h.live.step hc ha hm w
  obtain ⟨l, hl, hsound⟩ := h.live.sound.exists_leaf.1 hatom
  have hleaf : (e.shown e.next).leafAt? a = some (l.shown e.next) := by
    rw [shown_leafAt h.live.windowed (le_refl _), hl, Option.map_some]
  have hmail : Hub.Addressed m.interface.inputs ([] : List (Delivery τ)) := List.forall_mem_nil _
  obtain ⟨y, hturn, hy, hsum⟩ := exists_turnAt _ hm hshown.sound
    (gathered_shown e.next e hm h.live.sound h.quiet) hmail hatom hleaf
  refine ⟨l, y, hl, hsound, ⟨hy, fun q hq => (hsum q hq).trans ?_⟩, ?_, ?_⟩
  · -- Nothing waits at the root, so only the chains inside count.
    rw [reaching, Model.inflow, carried_congr fun c _ =>
      sent_shown h.live.sound h.live.windowed h.quiet (le_refl _) hmax c.1]
    congr 1
    simp only [Bags.messagesAt_ofPorts, Multiset.coe_nil, carried, ite_self, Multiset.bind_zero]
    rfl
  · rw [transition?, hcollect]
    show (turnAt [] a (e.shown e.next)).bind _ = _
    rw [hturn, Option.bind_some, Leaf.transition?_shown l hmax]
  · rw [hstep]
    show ((e.shown e.next).moved e.next []).cells a = _
    rw [cells, moved_leafAt, hturn, Option.map_some, Option.map_some, Leaf.cell_moved l hmax]

/-- Where there is no leaf, there is no transition. -/
theorem Poised.transition?_eq_none (hc : Contract good) (ha : Attended ω good) (hm : m.Wired)
    (h : Poised good m e) {a : List Nat} (hatom : m.atomAt? a = none) (w : World ω) :
    e.transition? a w = none ∧ (e.step w).state.cells a = none := by
  obtain ⟨hcollect, hshown, -⟩ := h.live.collect hc ha hm (le_refl e.next) w
  refine ⟨?_, ?_⟩
  · rw [transition?, hcollect]
    cases hturn : turnAt [] a (e.shown e.next) with
    | none => exact congrArg (Option.bind · _) hturn
    | some l =>
        obtain ⟨l', hl'⟩ := exists_leafAt_of_turnAt hturn
        exact nomatch hl'.symm.trans (hshown.sound.exists_leaf.2 hatom)
  · rw [cells, (h.step hc ha hm w).2.live.sound.exists_leaf.2 hatom]
    rfl

/-- **A step passes by the sheltered leaves** when none of them is due. -/
theorem Poised.passes (hc : Contract good) (ha : Attended ω good) (hm : m.Wired)
    (h : Poised good m e) (hmax : e.next ≠ .max) (hS : m.Sheltered leaves)
    (hsilent : ∀ b ∈ leaves, ∀ c, e.cells b = some c → c.next ≠ e.next) (w : World ω)
    {a : List Nat} (hmem : a ∈ leaves) :
    e.transition? a w = none ∧ (e.step w).state.cells a = e.cells a := by
  cases hatom : m.atomAt? a with
  | none =>
      obtain ⟨hnone, hcells⟩ := h.transition?_eq_none hc ha hm hatom w
      refine ⟨hnone, hcells.trans ?_⟩
      rw [cells, h.live.sound.exists_leaf.2 hatom]
      rfl
  | some atom =>
      obtain ⟨l, y, hl, -, hy, htransition, hcells⟩ := h.exists_transition hc ha hm hmax hatom w
      have hcell : e.cells a = some l.cell := congrArg (Option.map Leaf.cell) hl
      -- Its own event is not due, and nothing is sent to it.
      obtain ⟨hnone, hstays⟩ := Cell.transition?_of_idle
        (hS.receives_isEmpty hmem hsilent hy) (hsilent a hmem l.cell hcell)
      rw [htransition, hcells, hnone, hstays, hcell]
      exact ⟨rfl, rfl⟩

/-- **A step at the same time in two trees** that are the same on the sheltered leaves: these make
the same transitions. -/
theorem Poised.in_step (hc : Contract good) (ho : OrderFree good) (ha : Attended ω good)
    (ha' : Attended ω' good) (hm : m.Wired) (hm' : m'.Wired) (hS : m.Sheltered leaves)
    (hsame : m.SameOn leaves m') (h : Poised good m e) (h' : Poised good m' e')
    (hnext : e'.next = e.next) (hmax : e.next ≠ .max)
    (hcells : ∀ b ∈ leaves, e.cells b = e'.cells b) (w : World ω) (w' : World ω') {a : List Nat}
    (hmem : a ∈ leaves) :
    List.Forall₂ Transition.Alike (e.transition? a w).toList (e'.transition? a w').toList ∧
      (e.step w).state.cells a = (e'.step w').state.cells a := by
  cases hatom : m.atomAt? a with
  | none =>
      obtain ⟨hnone, hafter⟩ := h.transition?_eq_none hc ha hm hatom w
      obtain ⟨hnone', hafter'⟩ :=
        h'.transition?_eq_none hc ha' hm' ((hsame.leaf a hmem).symm.trans hatom) w'
      rw [hnone, hnone', hafter, hafter']
      exact ⟨.nil, rfl⟩
  | some atom =>
      obtain ⟨l, y, hl, hsound, hy, htransition, hafter⟩ :=
        h.exists_transition hc ha hm hmax hatom w
      obtain ⟨l', y', hl', -, hy', htransition', hafter'⟩ :=
        h'.exists_transition hc ha' hm' (hnext ▸ hmax) ((hsame.leaf a hmem).symm.trans hatom) w'
      have hcell : l.cell = l'.cell := by
        have heq := hcells a hmem
        rw [cells, cells, hl, hl'] at heq
        exact Option.some.inj heq
      rw [hnext, ← hsame.interface_eq] at hy'
      -- By the same chains the same is sent to it in both trees, but perhaps in another order.
      have hthere := hsame.receives hS hcells hmem hy
      have halike : y.Alike y' := hy.fits.alike hy'.fits fun q hq =>
        (hthere.content q hq).trans (hy'.content q hq).symm
      obtain ⟨g, hg⟩ := hsound.exists_good
      have hfired := hsound.exists_good_fired hc (h.live.initialized.leafAt hl) hmax
      rw [htransition, htransition', hafter, hafter', ← hcell, hnext,
        Cell.step_congr ho hg hfired hy.fits hy'.fits halike]
      exact ⟨Cell.transition?_alike ho hg hfired hy.fits hy'.fits halike, rfl⟩

/-! ## Runs -/

/-- **A run up to a limit** takes the next step if its time is before the limit. -/
theorem Poised.runUntil_succ (hc : Contract good) (ha : Attended ω good) (hm : m.Wired)
    (h : Poised good m e) (n : Nat) (limit : Instant) (w : World ω) :
    e.runUntil (n + 1) limit w
      = if e.next < limit then (e.step w).state.runUntil n limit (e.step w).world
        else some (.done e w) := by
  have hstop := (h.step hc ha hm w).1
  have hproceed : Supervisor.proceed e.next w.interrupted (Until.mk limit)
      = { state := Until.mk limit, answer := decide (e.next < limit) } := rfl
  -- The supervisor of such a run never asks for anything.
  have hheed : ∀ {α : Type} (answer : α) (w : World ω),
      w.heed { state := Until.mk limit, answer := answer } = w := fun _ _ => rfl
  rw [runUntil, run, hproceed]
  by_cases hlt : e.next < limit
  · simp only [hheed, decide_eq_true hlt, if_pos hlt, if_true, hstop]
    rfl
  · simp only [hheed, decide_eq_false hlt, if_neg hlt, Bool.false_eq_true, if_false]
    rfl

/-- **How a run goes on**: it ends here, or it takes a step. -/
inductive RunsOn (limit : Instant) (e : Engine τ σ) (w : World ω) (o : Outcome (Engine τ σ) ω) :
    Nat → Prop
  | ends {n : Nat} (late : limit ≤ e.next) (now : o = .done e w) : RunsOn limit e w o (n + 1)
  | goes {n : Nat} (early : e.next < limit)
      (rest : (e.step w).state.runUntil n limit (e.step w).world = some o) :
      RunsOn limit e w o (n + 1)

theorem Poised.runsOn (hc : Contract good) (ha : Attended ω good) (hm : m.Wired)
    (h : Poised good m e) {n : Nat} {limit : Instant} {w : World ω}
    {o : Outcome (Engine τ σ) ω} (ho : e.runUntil n limit w = some o) :
    RunsOn limit e w o n := by
  cases n with
  | zero => cases ho
  | succ n =>
      rw [h.runUntil_succ hc ha hm] at ho
      by_cases hlt : e.next < limit
      · rw [if_pos hlt] at ho
        exact .goes hlt ho
      · rw [if_neg hlt] at ho
        exact .ends (not_lt.mp hlt) (Option.some.inj ho).symm

theorem life_of_lt {n : Nat} {limit : Instant} (h : e.next < limit) (a : List Nat) (w : World ω) :
    e.life limit a (n + 1) w
      = (e.transition? a w).toList ++ (e.step w).state.life limit a n (e.step w).world :=
  if_pos h

theorem life_of_le {n : Nat} {limit : Instant} (h : limit ≤ e.next) (a : List Nat) (w : World ω) :
    e.life limit a (n + 1) w = [] :=
  if_neg (not_lt.mpr h)

/-- An event before a limit is not at the last instant. -/
theorem ne_max_of_lt {t limit : Instant} (h : t < limit) : t ≠ .max :=
  fun ht => absurd (ht ▸ h) (not_lt.mpr limit.le_max)

/-- **The life of a leaf leads to where the run leaves it.** -/
theorem Poised.lead_life (hc : Contract good) (ha : Attended ω good) (hm : m.Wired)
    {limit : Instant} {a : List Nat} {n : Nat} :
    ∀ {e : Engine τ σ} {w : World ω} {o : Outcome (Engine τ σ) ω}, Poised good m e →
      e.runUntil n limit w = some o →
      (o.state.cells a).map Cell.position
        = (e.cells a).map fun c => Transition.lead c.position (e.life limit a n w) := by
  induction n with
  | zero => exact fun _ ho => nomatch ho
  | succ n ih =>
      intro e w o h ho
      cases h.runsOn hc ha hm ho with
      | ends hend hnow =>
          rw [hnow, life_of_le hend]
          rfl
      | goes hlt hrest =>
          rw [ih (h.step hc ha hm w).2 hrest, life_of_lt hlt]
          cases hatom : m.atomAt? a with
          | none =>
              have hnone : e.cells a = none :=
                congrArg (Option.map Leaf.cell) (h.live.sound.exists_leaf.2 hatom)
              rw [(h.transition?_eq_none hc ha hm hatom w).2, hnone]
              rfl
          | some atom =>
              obtain ⟨l, y, hl, -, -, htransition, hcells⟩ :=
                h.exists_transition hc ha hm (ne_max_of_lt hlt) hatom w
              have hcell : e.cells a = some l.cell := congrArg (Option.map Leaf.cell) hl
              rw [hcells, hcell, htransition, Option.map_some, Option.map_some,
                Transition.lead_append, Cell.lead_transition?]

/-- **When all events of the sheltered leaves are late**, the rest of the run passes them by. -/
theorem Poised.late (hc : Contract good) (ha : Attended ω good) (hm : m.Wired)
    (hS : m.Sheltered leaves) {limit : Instant} {n : Nat} :
    ∀ {e : Engine τ σ} {w : World ω} {o : Outcome (Engine τ σ) ω}, Poised good m e →
      e.runUntil n limit w = some o →
      (∀ b ∈ leaves, ∀ c, e.cells b = some c → limit ≤ c.next) →
      o.stop = none ∧ ∀ b ∈ leaves, o.state.cells b = e.cells b ∧ e.life limit b n w = [] := by
  induction n with
  | zero => exact fun _ ho => nomatch ho
  | succ n ih =>
      intro e w o h ho hlate
      cases h.runsOn hc ha hm ho with
      | ends hend hnow =>
          subst hnow
          exact ⟨rfl, fun b _ => ⟨rfl, life_of_le hend b w⟩⟩
      | goes hlt hrest =>
          have hsilent : ∀ b ∈ leaves, ∀ c, e.cells b = some c → c.next ≠ e.next :=
            fun b hb c hcell hdue => absurd (hlate b hb c hcell) (not_le.mpr (hdue ▸ hlt))
          have hpass := fun b hb => h.passes hc ha hm (ne_max_of_lt hlt) hS hsilent w (a := b) hb
          -- Their cells stay as they are, so their events stay late.
          obtain ⟨hstop, hrun⟩ := ih (h.step hc ha hm w).2 hrest fun b hb c hcell =>
            hlate b hb c ((hpass b hb).2 ▸ hcell)
          refine ⟨hstop, fun b hb => ?_⟩
          obtain ⟨hcells, hlife⟩ := hrun b hb
          rw [life_of_lt hlt, hlife, (hpass b hb).1, hcells, (hpass b hb).2]
          exact ⟨rfl, rfl⟩

/-- **A run comes to the next event of the sheltered leaves**, which has passed them by until
then. -/
theorem Poised.exists_due (hc : Contract good) (ha : Attended ω good) (hm : m.Wired)
    (hS : m.Sheltered leaves) {limit t : Instant} (hlimit : t < limit) {n : Nat} :
    ∀ {e : Engine τ σ} {w : World ω} {o : Outcome (Engine τ σ) ω}, Poised good m e →
      e.runUntil n limit w = some o →
      (∀ b ∈ leaves, ∀ c, e.cells b = some c → t ≤ c.next) →
      (∃ b ∈ leaves, ∃ c, e.cells b = some c ∧ c.next = t) →
      ∃ (k : Nat) (e₁ : Engine τ σ) (w₁ : World ω), Poised good m e₁ ∧ e₁.next = t ∧
        e₁.runUntil k limit w₁ = some o ∧
        ∀ b ∈ leaves, e₁.cells b = e.cells b ∧ e.life limit b n w = e₁.life limit b k w₁ := by
  induction n with
  | zero => exact fun _ ho => nomatch ho
  | succ n ih =>
      intro e w o h ho hle hdue
      obtain ⟨b₀, hb₀, c₀, hcell₀, hnext₀⟩ := hdue
      rcases eq_or_lt_of_le (hnext₀ ▸ h.next_le hcell₀ : e.next ≤ t) with hnow | hlt
      · exact ⟨n + 1, e, w, h, hnow, ho, fun b _ => ⟨rfl, rfl⟩⟩
      · cases h.runsOn hc ha hm ho with
        | ends hend _ => exact absurd (lt_of_lt_of_le (lt_trans hlt hlimit) hend) (lt_irrefl _)
        | goes hearly hrest =>
            -- The step is before `t`, so none of them is due in it.
            have hsilent : ∀ b ∈ leaves, ∀ c, e.cells b = some c → c.next ≠ e.next :=
              fun b hb c hcell hdue => absurd (hle b hb c hcell) (not_le.mpr (hdue ▸ hlt))
            have hpass := fun b hb =>
              h.passes hc ha hm (ne_max_of_lt hearly) hS hsilent w (a := b) hb
            obtain ⟨k, e₁, w₁, h₁, hnext₁, hrun₁, hsame⟩ := ih (h.step hc ha hm w).2 hrest
              (fun b hb c hcell => hle b hb c ((hpass b hb).2 ▸ hcell))
              ⟨b₀, hb₀, c₀, (hpass b₀ hb₀).2.trans hcell₀, hnext₀⟩
            refine ⟨k, e₁, w₁, h₁, hnext₁, hrun₁, fun b hb => ?_⟩
            rw [life_of_lt hearly, (hpass b hb).1, (hsame b hb).1, (hsame b hb).2, (hpass b hb).2]
            exact ⟨rfl, rfl⟩

/-- **A second run comes to the same step**, if a sheltered leaf is due in it: it takes this step at
the same time, after others that have passed the sheltered leaves by. -/
theorem Poised.meets (hc : Contract good) (ho : OrderFree good) (ha : Attended ω good)
    (ha' : Attended ω' good) (hm : m.Wired) (hm' : m'.Wired) (hS : m.Sheltered leaves)
    (hS' : m'.Sheltered leaves) (hsame : m.SameOn leaves m') (h : Poised good m e)
    (h' : Poised good m' e') (hcells : ∀ b ∈ leaves, e.cells b = e'.cells b) {limit : Instant}
    (hlt : e.next < limit) (hdue : ∃ b ∈ leaves, ∃ c, e.cells b = some c ∧ c.next = e.next)
    (w : World ω) {w' : World ω'} {n' : Nat} {o' : Outcome (Engine τ σ) ω'}
    (hrun' : e'.runUntil n' limit w' = some o') :
    ∃ (k : Nat) (e₁ : Engine τ σ) (w₁ : World ω'), Poised good m' e₁ ∧
      e₁.runUntil k limit w₁ = some o' ∧
      ∀ b ∈ leaves, (e.step w).state.cells b = e₁.cells b ∧
        ∃ life, e'.life limit b n' w' = life ++ e₁.life limit b k w₁ ∧
          List.Forall₂ Transition.Alike (e.transition? b w).toList life := by
  obtain ⟨b₀, hb₀, c₀, hcell₀, hnext₀⟩ := hdue
  obtain ⟨k, e₁, w₁, h₁, hnext₁, hrun₁, hthere⟩ := h'.exists_due hc ha' hm' hS' hlt hrun'
    (fun b hb c hcell => h.next_le ((hcells b hb).trans hcell))
    ⟨b₀, hb₀, c₀, (hcells b₀ hb₀).symm.trans hcell₀, hnext₀⟩
  cases h₁.runsOn hc ha' hm' hrun₁ with
  | ends hend _ => exact absurd (lt_of_lt_of_le (hnext₁.symm ▸ hlt) hend) (lt_irrefl _)
  | @goes k hearly hrest₁ =>
      refine ⟨k, _, _, (h₁.step hc ha' hm' w₁).2, hrest₁, fun b hb => ?_⟩
      obtain ⟨halike, hafter⟩ := h.in_step hc ho ha ha' hm hm' hS hsame h₁ hnext₁
        (ne_max_of_lt hlt) (fun b hb => (hcells b hb).trans (hthere b hb).1.symm) w w₁ hb
      exact ⟨hafter, _, (hthere b hb).2.trans (life_of_lt hearly b w₁), halike⟩

/-- **Two runs of trees that are the same on the sheltered leaves**, from positions where these
leaves are the same. -/
theorem Poised.lives_alike (hc : Contract good) (ho : OrderFree good) (ha : Attended ω good)
    (ha' : Attended ω' good) (hm : m.Wired) (hm' : m'.Wired) (hS : m.Sheltered leaves)
    (hS' : m'.Sheltered leaves) (hsame : m.SameOn leaves m') {limit : Instant} {n : Nat} :
    ∀ {e e' : Engine τ σ} {w : World ω} {w' : World ω'} {n' : Nat}
      {o : Outcome (Engine τ σ) ω} {o' : Outcome (Engine τ σ) ω'},
      Poised good m e → Poised good m' e' → e.runUntil n limit w = some o →
      e'.runUntil n' limit w' = some o' → (∀ b ∈ leaves, e.cells b = e'.cells b) →
      o.stop = none ∧ o'.stop = none ∧
        ∀ b ∈ leaves, o.state.cells b = o'.state.cells b ∧
          List.Forall₂ Transition.Alike (e.life limit b n w) (e'.life limit b n' w') := by
  -- The induction follows the steps of the first run; of the second one it takes as many as it
  -- needs each time.
  induction n with
  | zero => exact fun _ _ hrun => nomatch hrun
  | succ n ih =>
      intro e e' w w' n' o o' h h' hrun hrun' hcells
      cases h.runsOn hc ha hm hrun with
      | ends hend hnow =>
          -- The first run is over, so the sheltered leaves are done in the second one as well.
          subst hnow
          obtain ⟨hstop', hrest⟩ := h'.late hc ha' hm' hS' hrun' fun b hb c hcell =>
            le_trans hend (h.next_le ((hcells b hb).trans hcell))
          refine ⟨rfl, hstop', fun b hb => ?_⟩
          rw [(hrest b hb).1, (hrest b hb).2, life_of_le hend]
          exact ⟨hcells b hb, .nil⟩
      | goes hlt hrest =>
          have hafter := (h.step hc ha hm w).2
          by_cases hdue : ∃ b ∈ leaves, ∃ c, e.cells b = some c ∧ c.next = e.next
          · -- Both runs take this step.
            obtain ⟨k, e₁, w₁, h₁, hrun₁, hboth⟩ := h.meets hc ho ha ha' hm hm' hS hS' hsame h'
              hcells hlt hdue w hrun'
            obtain ⟨hstop, hstop', hlives⟩ := ih hafter h₁ hrest hrun₁ fun b hb => (hboth b hb).1
            refine ⟨hstop, hstop', fun b hb => ⟨(hlives b hb).1, ?_⟩⟩
            obtain ⟨life, hlife, halike⟩ := (hboth b hb).2
            rw [hlife, life_of_lt hlt]
            exact List.rel_append halike (hlives b hb).2
          · -- The step concerns only other leaves.
            have hsilent : ∀ b ∈ leaves, ∀ c, e.cells b = some c → c.next ≠ e.next :=
              fun b hb c hcell hnow => hdue ⟨b, hb, c, hcell, hnow⟩
            have hpass := fun b hb =>
              h.passes hc ha hm (ne_max_of_lt hlt) hS hsilent w (a := b) hb
            obtain ⟨hstop, hstop', hlives⟩ := ih hafter h' hrest hrun' fun b hb =>
              (hpass b hb).2.trans (hcells b hb)
            refine ⟨hstop, hstop', fun b hb => ⟨(hlives b hb).1, ?_⟩⟩
            rw [life_of_lt hlt, (hpass b hb).1]
            exact (hlives b hb).2

/-! ## Whole runs -/

omit [AtomicModel τ σ] in
/-- The leaves of a new engine have the states of the model. -/
theorem state_ofModelBelow {a : List Nat} :
    ∀ {parent : Option String} {m : Model τ σ},
      ((ofModelBelow parent m).leafAt? a).map (·.state) = (m.atomAt? a).map (·.state) := by
  induction a with
  | nil =>
      intro parent m
      cases m <;> rfl
  | cons i a ih =>
      intro parent m
      cases m with
      | atomic => rfl
      | coupled c children =>
          rw [ofModelBelow, leafAt?, Model.atomAt?, getElem?_ofModelsBelow]
          cases children[i]? with
          | none => rfl
          | some child => exact ih

/-- **The cells of an engine that has just been initialized** are settled in the states of the
model. -/
theorem cells_started (t : Instant) (m : Model τ σ) (a : List Nat) :
    ((ofModel m).started t).cells a = (m.atomAt? a).map fun atom => Cell.settle t atom.state := by
  have hcell : Leaf.cell ∘ Leaf.started t = Cell.settle t ∘ fun l : Leaf τ σ => l.state := rfl
  rw [cells, started_leafAt, Option.map_map, hcell, ← Option.map_map, ofModel, state_ofModelBelow,
    Option.map_map]
  rfl

/-- After its initialization an engine is poised for the first step. -/
theorem poised_init (hc : Contract good) (ha : Attended ω good) (hg : m.AllGood good)
    (t : Instant) (w : World ω) :
    ((ofModel m).init t w).stop = none ∧
      ((ofModel m).init t w).state = (ofModel m).started t ∧
      Poised good m ((ofModel m).started t) := by
  obtain ⟨hinit, hlive, -⟩ := (sound_ofModelBelow hg none).init hc ha t w
  rw [ofModel, hinit]
  exact ⟨rfl, rfl, hlive, (quiet_ofModelBelow hg none).started t⟩

/-- **Sheltered leaves are not disturbed by the others.** Take two accepted trees of good atomic
models that do not look at the order of messages, with the same ids, ports and couplings. Let no
coupling chain lead into a set of leaves from another leaf, and let the leaves of the set have the
same atomic models in both trees; the others may be anything. Initialize both at the same time,
and run both up to a limit until the runs return.

Then both runs are completed, and every leaf of the set makes the same transitions in both, one
by one: at the same times, with the same times since the last one, on the same messages, and to
the same states. In the end its state, its last transition and its next event are the same, and
its state and its last transition are those to which its transitions lead. -/
theorem undisturbed (hc : Contract good) (ho : OrderFree good) (ha : Attended ω good)
    (ha' : Attended ω' good) (hacc : m.Accepted) (hacc' : m'.Accepted) (hg : m.AllGood good)
    (hg' : m'.AllGood good) (hS : m.Sheltered leaves) (hsame : m.SameOn leaves m')
    {t₀ limit : Instant} {w w₁ : World ω} {w' w₁' : World ω'} {n n' : Nat}
    {o : Outcome (Engine τ σ) ω} {o' : Outcome (Engine τ σ) ω'}
    (hrun : ((ofModel m).init t₀ w).state.runUntil n limit w₁ = some o)
    (hrun' : ((ofModel m').init t₀ w').state.runUntil n' limit w₁' = some o') :
    o.stop = none ∧ o'.stop = none ∧
      ∀ a ∈ leaves, o.state.cells a = o'.state.cells a ∧
        List.Forall₂ Transition.Alike (((ofModel m).init t₀ w).state.life limit a n w₁)
          (((ofModel m').init t₀ w').state.life limit a n' w₁') ∧
        (o.state.cells a).map Cell.position = (((ofModel m).init t₀ w).state.cells a).map
          (fun c => Transition.lead c.position
            (((ofModel m).init t₀ w).state.life limit a n w₁)) ∧
        (o'.state.cells a).map Cell.position = (((ofModel m').init t₀ w').state.cells a).map
          fun c => Transition.lead c.position
            (((ofModel m').init t₀ w').state.life limit a n' w₁') := by
  obtain ⟨-, hstart, hpoised⟩ := poised_init hc ha hg t₀ w
  obtain ⟨-, hstart', hpoised'⟩ := poised_init hc ha' hg' t₀ w'
  rw [hstart] at hrun ⊢
  rw [hstart'] at hrun' ⊢
  have hS' : m'.Sheltered leaves := fun c hmem => hS c (hsame.crossings_eq ▸ hmem)
  obtain ⟨hstop, hstop', hlives⟩ := hpoised.lives_alike hc ho ha ha' hacc.wired hacc'.wired hS hS'
    hsame hpoised' hrun hrun' fun a hmem => by
      rw [cells_started, cells_started, hsame.leaf a hmem]
  exact ⟨hstop, hstop', fun a hmem => ⟨(hlives a hmem).1, (hlives a hmem).2,
    hpoised.lead_life hc ha hacc.wired hrun, hpoised'.lead_life hc ha' hacc'.wired hrun'⟩⟩

/-- The pair in a tower of doublers, with nothing but the third doubler behind it. Whether this one
is due every two seconds or every second, and so whether there are two or four steps before the
fifth second, the pair lives the same life. -/
theorem undisturbed_tower :
    let w : World Unobserved := ⟨⟨⟩, false⟩
    let pair : Set (List Nat) := fun a => a = [0, 0] ∨ a = [0, 1]
    let other := Doubler.towerWith 1
    let limit : Instant := ⟨5, 0, by decide⟩
    let run := fun m n => ((ofModel m).init .epoch w).state.runUntil n limit w
    (Doubler.tower.Accepted ∧ other.Accepted ∧ Doubler.tower.AllGood Doubler.Good ∧
      other.AllGood Doubler.Good ∧ Doubler.tower.Sheltered pair ∧
      Doubler.tower.SameOn pair other ∧ run Doubler.tower 2 = none ∧
      (run Doubler.tower 3).isSome = true ∧ run other 4 = none ∧ (run other 5).isSome = true) ∧
    ∀ o o', run Doubler.tower 3 = some o → run other 5 = some o' →
      o.stop = none ∧ o'.stop = none ∧
        ∀ a ∈ pair, o.state.cells a = o'.state.cells a ∧
          List.Forall₂ Transition.Alike
            (((ofModel Doubler.tower).init .epoch w).state.life limit a 3 w)
            (((ofModel other).init .epoch w).state.life limit a 5 w) ∧
          (o.state.cells a).map Cell.position
            = (((ofModel Doubler.tower).init .epoch w).state.cells a).map fun c =>
                Transition.lead c.position
                  (((ofModel Doubler.tower).init .epoch w).state.life limit a 3 w) := by
  intro w pair other limit run
  have hS : Doubler.tower.Sheltered pair := by
    intro c hmem _
    have hcrossings : Doubler.tower.crossings =
        [(⟨[0, 0], 0⟩, ⟨[0, 1], 0⟩), (⟨[0, 0], 0⟩, ⟨[1], 0⟩), (⟨[0, 1], 0⟩, ⟨[1], 0⟩)] := by
      decide +kernel
    simp only [hcrossings, List.mem_cons, List.not_mem_nil, or_false] at hmem
    rcases hmem with rfl | rfl | rfl
    · exact .inl rfl
    · exact .inl rfl
    · exact .inr rfl
  have hsame : Doubler.tower.SameOn pair other :=
    { shape := rfl
      leaf := by rintro a (rfl | rfl) <;> rfl }
  refine ⟨⟨Doubler.accepted_tower, Doubler.accepted_towerWith 1, Doubler.allGood_tower,
      Doubler.allGood_towerWith 1, hS, hsame, by decide +kernel, by decide +kernel,
      by decide +kernel, by decide +kernel⟩,
    fun o o' ho ho' => ?_⟩
  obtain ⟨hstop, hstop', hlives⟩ := undisturbed Doubler.contract Doubler.orderFree
    (attended_unobserved _) (attended_unobserved _) Doubler.accepted_tower
    (Doubler.accepted_towerWith 1) Doubler.allGood_tower (Doubler.allGood_towerWith 1) hS hsame
    ho ho'
  refine ⟨hstop, hstop', fun a ha => ?_⟩
  obtain ⟨hcells, halike, hlead, -⟩ := hlives a ha
  exact ⟨hcells, halike, hlead⟩

end Engine

end DiscreteEvent
