/-
Runs of unhurried models come to an end.

A model may have one event after another without time going on, so nothing in the loop of a
run says that it ends. It ends when the models take their time: every time advance is at
least `d`. The measure is found leaf by leaf. Up to the limit a leaf has `room` for a number of
its own events, counted from its last transition. A step at the next event is an event of at
least one leaf, and takes from its room; input, which may come to any leaf at any time, moves a
last transition forwards only, and never makes room. The next event of a leaf may be put off or
brought forward by input as often as there is some; this does not matter, since an event that
comes is at least `d` after the last transition, unless it is the last instant, where no
step is taken.

So a run up to a limit takes at most as many steps as there is room in all leaves together
(`Live.ends`), and after an initialization this is the same for each of them
(`unhurried_runs_end`).
-/
import DiscreteEvent.Proofs.Components.Doubler
import DiscreteEvent.Proofs.Engine.Protocol
import DiscreteEvent.Proofs.Execution.Segments
import DiscreteEvent.Proofs.Execution.Steps

set_option autoImplicit false

namespace DiscreteEvent

variable {τ σ ω : Type} [MessageType τ]

/-! ## Unhurried models -/

/-- **An invariant of models that take their time**: what has been announced is at least `d`
away from the last transition. -/
def Unhurried (d : Span) (good : Interface τ → Stage → σ → Prop) :
    Interface τ → Stage → σ → Prop :=
  fun i g s => good i g s ∧ ∀ ta, g = .settled (some ta) → d ≤ ta

/-- Models that never announce an event that is less than `d` away keep their contract and
take their time. -/
theorem Contract.unhurried [AtomicModel τ σ] {good : Interface τ → Stage → σ → Prop} {d : Span}
    (hc : Contract good)
    (hd : ∀ {i g s}, good i g s → ∀ ta, (AtomicModel.timeAdvance s).answer = some ta → d ≤ ta) :
    Contract (Unhurried d good) where
  timeAdvance h := ⟨(hc.timeAdvance h.1).1, (hc.timeAdvance h.1).2,
    fun ta hta => hd h.1 ta (Stage.settled.inj hta)⟩
  output h := ⟨(hc.output h.1).1, (hc.output h.1).2.1, (hc.output h.1).2.2, h.2⟩
  internal h := ⟨(hc.internal h.1).1, (hc.internal h.1).2, nofun⟩
  confluent h hx he := ⟨(hc.confluent h.1 hx he).1, (hc.confluent h.1 hx he).2, nofun⟩
  external h he hx hne :=
    ⟨(hc.external h.1 he hx hne).1, (hc.external h.1 he hx hne).2, nofun⟩

theorem Attended.unhurried [AtomicModel τ σ] [Observer ω]
    {good : Interface τ → Stage → σ → Prop} (ha : Attended ω good) (d : Span) :
    Attended ω (Unhurried d good) where
  calm := ha.calm
  legible o he _ _ _ h := ha.legible o he h.1

/-! ## The room of a cell -/

namespace Cell

/-- The next event is at least `d` away from the last transition, or there is none. -/
def Spaced (d : Span) (c : Cell σ) : Prop :=
  c.next = .max ∨ c.last.ticks + d.ticks ≤ c.next.ticks

/-- **The room of a cell** before the limit: how often `d` fits in between. -/
def room (limit : Instant) (d : Span) (c : Cell σ) : Nat :=
  (limit.ticks - c.last.ticks).toNat / d.ticks

variable {limit t : Instant} {d : Span} {c c' : Cell σ}

/-- A later transition makes no room. -/
theorem room_le (h : c.last ≤ c'.last) : c'.room limit d ≤ c.room limit d := by
  have hticks : c.last.ticks ≤ c'.last.ticks := h
  exact Nat.div_le_div_right (by omega)

/-- **An event takes room**: the next transition is at least `d` later. -/
theorem room_lt (hd : 0 < d.ticks) (hspaced : c.Spaced d) (hmax : c.next ≠ .max)
    (hlimit : c.next < limit) (h : c'.last = c.next) :
    c'.room limit d < c.room limit d := by
  have hbefore : c.next.ticks < limit.ticks := hlimit
  have happart : c.last.ticks + d.ticks ≤ c.next.ticks := hspaced.resolve_left hmax
  calc c'.room limit d < (limit.ticks - c.next.ticks).toNat / d.ticks + 1 := by
        rw [room, h]
        exact Nat.lt_succ_self _
    _ = ((limit.ticks - c.next.ticks).toNat + d.ticks) / d.ticks :=
        (Nat.add_div_right _ hd).symm
    _ ≤ c.room limit d := Nat.div_le_div_right (by omega)

/-- What was scheduled at least `d` away is so, or it is never. -/
theorem spaced_of_schedule {ta : Option Span} (hnext : c.next = c.last.schedule ta)
    (hta : ∀ a, ta = some a → d ≤ a) : c.Spaced d := by
  cases ta with
  | none => exact .inl hnext
  | some a =>
      have hle : d.ticks ≤ a.ticks := hta a rfl
      have hticks := Instant.ticks_schedule c.last a
      rw [← hnext] at hticks
      by_cases hin : c.last.ticks + a.ticks ≤ Instant.maxTicks
      · refine .inr ?_
        omega
      · refine .inl (Instant.ticks_injective ?_)
        rw [hticks, Instant.ticks_max]
        omega

variable [AtomicModel τ σ]

/-- **After a step** the last transition of a cell is at the time of the step, or it is the one
from before; if the cell was due it is the former. -/
theorem last_step (t : Instant) (y : Bags τ) (c : Cell σ) :
    (c.next = t → (c.step t y).last = t) ∧
      ((c.step t y).last = t ∨ (c.step t y).last = c.last) := by
  unfold step
  by_cases hdue : c.next = t
  · rw [if_pos hdue]
    split <;> exact ⟨fun _ => rfl, .inl rfl⟩
  · rw [if_neg hdue]
    refine ⟨fun h => absurd h hdue, ?_⟩
    split
    · exact .inr rfl
    · exact .inl rfl

end Cell

/-! ## The cells of an engine, in a row -/

/-- Two engines of a model, leaf by leaf. -/
theorem Engine.Sound.forall₂_leaves {good : Interface τ → Stage → σ → Prop} {m : Model τ σ}
    {R : Leaf τ σ → Leaf τ σ → Prop} {e e' : Engine τ σ} (h : Sound good m e)
    (h' : Sound good m e')
    (hR : ∀ {a l}, e.leafAt? a = some l → ∃ l', e'.leafAt? a = some l' ∧ R l l') :
    List.Forall₂ R e.leaves e'.leaves := by
  refine List.forall₂_iff_get.mpr ⟨h.length_leaves.trans h'.length_leaves.symm,
    fun n hn hn' => ?_⟩
  obtain ⟨a, atom, ha, rfl⟩ := m.exists_number (h.length_leaves ▸ hn)
  obtain ⟨l, hl, -⟩ := h.exists_leaf.1 ha
  obtain ⟨l', hl', hrel⟩ := hR hl
  have hget := h.getElem?_leaves hl
  have hget' := h'.getElem?_leaves hl'
  rw [List.getElem?_eq_getElem hn, Option.some_inj] at hget
  rw [List.getElem?_eq_getElem hn', Option.some_inj] at hget'
  rw [List.get_eq_getElem, List.get_eq_getElem, hget, hget']
  exact hrel

namespace Backend

variable {good : Interface τ → Stage → σ → Prop} {m : Model τ σ} {b b' : Backend τ σ}

/-- Every leaf of a live engine has its next event scheduled. -/
theorem Live.exists_scheduled (h : b.Live good m) {c : Cell σ} (hc : c ∈ b.row) :
    ∃ i ta, good i (.settled ta) c.state ∧ c.next = c.last.schedule ta := by
  obtain ⟨l, hl, rfl⟩ := List.mem_map.mp hc
  cases b with
  | sequential e =>
      obtain ⟨a, atom, -, hat, hsound⟩ := Engine.Sound.exists_leafAt h.sound hl
      exact ⟨_, hsound.running (Engine.Initialized.leafAt h.initialized hat)⟩
  | parallel c =>
      obtain ⟨i, hi⟩ := List.getElem?_of_mem hl
      obtain ⟨a, -, hsound⟩ := Crew.Sound.atom h.sound hi
      exact ⟨_, hsound.running (Crew.Live.started h l hl)⟩

/-- No leaf had its last transition after the next event of the engine. -/
theorem Live.row_last_le (h : b.Live good m) {c : Cell σ} (hc : c ∈ b.row) : c.last ≤ b.next := by
  refine le_trans ?_ h.last_le_next
  obtain ⟨l, hl, rfl⟩ := List.mem_map.mp hc
  cases b with
  | sequential e =>
      obtain ⟨a, atom, -, hat, -⟩ := Engine.Sound.exists_leafAt h.sound hl
      exact (Engine.Windowed.leafAt h.windowed hat).1
  | parallel c => exact Crew.Live.last_le h l hl

variable [AtomicModel τ σ]

/-- **A step is one of every cell**, on some input. -/
theorem Step.row (hc : Contract good) (hm : m.Wired) {x : Effect} (h : b.Live good m)
    (hs : b.Step x b') :
    List.Forall₂ (fun c c' => ∃ y : Bags τ, c' = c.step b.next y) b.row b'.row := by
  have hlive := hs.live hc hm h
  refine List.forall₂_map_left_iff.mpr (List.forall₂_map_right_iff.mpr ?_)
  cases hs with
  | @sequential e event =>
      refine Engine.Sound.forall₂_leaves h.sound hlive.sound fun {a l} hl => ?_
      have hshown : (e.shown e.next).leafAt? a = some (l.shown e.next) := by
        rw [Engine.shown_leafAt h.windowed (le_refl _), hl, Option.map_some]
      obtain ⟨y, hturn⟩ : ∃ y, Engine.turnAt [] a (e.shown e.next)
          = some { l.shown e.next with inbox := y } := Engine.exists_turnAt_of_leafAt hshown
      refine ⟨_, ?_, y, l.cell_moved event y⟩
      rw [Engine.moved_leafAt, hturn, Option.map_some]
  | @parallel c event x hx =>
      refine List.forall₂_map_right_iff.mpr ?_
      rw [Crew.leaves_routed]
      refine List.forall₂_iff_get.mpr ⟨?_, fun i hi hi' => ?_⟩
      · rw [List.length_mapIdx, List.length_map]
        rfl
      · rw [List.get_eq_getElem, List.get_eq_getElem, List.getElem_mapIdx, List.getElem_map]
        exact ⟨_, Leaf.cell_moved c.leaves[i] event _⟩

/-! ## The room of an engine -/

/-- **The room of an engine** before the limit: that of all leaves together. -/
def room (limit : Instant) (d : Span) (b : Backend τ σ) : Nat :=
  (b.row.map (Cell.room limit d)).sum

omit [MessageType τ] [AtomicModel τ σ] in
/-- Where nothing grows, and something shrinks, the sum shrinks. -/
theorem sum_map_lt_of_forall₂ {α : Type} {R : α → α → Prop} {f : α → Nat} {xs ys : List α}
    (h : List.Forall₂ R xs ys) (hle : ∀ x ∈ xs, ∀ y, R x y → f y ≤ f x)
    (hlt : ∃ x ∈ xs, ∀ y, R x y → f y < f x) : (ys.map f).sum < (xs.map f).sum := by
  have hsum : ∀ {xs ys : List α}, List.Forall₂ R xs ys → (∀ x ∈ xs, ∀ y, R x y → f y ≤ f x) →
      (ys.map f).sum ≤ (xs.map f).sum := by
    intro xs ys h hle
    induction h with
    | nil => exact le_refl _
    | cons hr _ ih =>
        obtain ⟨hhead, htail⟩ := List.forall_mem_cons.mp hle
        exact Nat.add_le_add (hhead _ hr) (ih htail)
  induction h with
  | nil => exact absurd hlt (by simp)
  | cons hr hrest ih =>
      obtain ⟨hhead, htail⟩ := List.forall_mem_cons.mp hle
      obtain ⟨x, hx, hfall⟩ := hlt
      rcases List.mem_cons.mp hx with rfl | hx
      · exact Nat.add_lt_add_of_lt_of_le (hfall _ hr) (hsum hrest htail)
      · exact Nat.add_lt_add_of_le_of_lt (hhead _ hr) (ih htail ⟨x, hx, hfall⟩)

variable {limit : Instant} {d : Span}

/-- **A step takes room.** The leaf whose event it is has less room than before, and no leaf
has more. -/
theorem Step.room_lt (hc : Contract (Unhurried d good)) (hm : m.Wired) (hd : 0 < d.ticks)
    {x : Effect} (h : b.Live (Unhurried d good) m) (hs : b.Step x b') (hlimit : b.next < limit) :
    b'.room limit d < b.room limit d := by
  have hmax : b.next ≠ .max := (lt_of_lt_of_le hlimit limit.le_max).ne
  refine sum_map_lt_of_forall₂ (hs.row hc hm h) ?_ ?_
  · rintro c hcell _ ⟨y, rfl⟩
    refine Cell.room_le ?_
    rcases (c.last_step b.next y).2 with hlast | hlast
    · exact (h.row_last_le hcell).trans_eq hlast.symm
    · exact le_of_eq hlast.symm
  · obtain ⟨c, hcell, hdue⟩ := h.exists_due hmax
    obtain ⟨i, ta, hgood, hnext⟩ := h.exists_scheduled hcell
    have hspaced : c.Spaced d := Cell.spaced_of_schedule hnext fun a ha => hgood.2 a (ha ▸ rfl)
    refine ⟨c, hcell, ?_⟩
    rintro _ ⟨y, rfl⟩
    refine Cell.room_lt hd hspaced (hdue.symm ▸ hmax) (hdue.symm ▸ hlimit) ?_
    rw [(c.last_step b.next y).1 hdue, hdue]

variable [Observer ω]

/-- **A run of unhurried models comes to its end**, if there are more decisions than the engine
has room, after at most as many steps as it has room. -/
theorem Live.ends (hc : Contract (Unhurried d good)) (ha : Attended ω (Unhurried d good))
    (hm : m.Wired) (hd : 0 < d.ticks) {n : Nat} :
    ∀ {b : Backend τ σ} {plan : Nat → Timetable} {w : World ω}
      {result : Option (Outcome (Backend τ σ × Until) ω)}, b.Live (Unhurried d good) m →
      b.room limit d < n → b.Rest n plan (Until.mk limit) w result →
      ∃ (ts : List Instant) (x : Effect) (b' : Backend τ σ) (w' : World ω),
        result = some (.done (b', Until.mk limit) w') ∧
        ts.length ≤ b.room limit d ∧ Unfolds m b (ts.map .step) x b' ∧ limit ≤ b'.next := by
  induction n with
  | zero => exact fun _ hroom => absurd hroom (Nat.not_lt_zero _)
  | succ n ih =>
      intro b plan w result h hroom hr
      obtain ⟨hno, rfl⟩ | ⟨hgo, x, b₁, hstep, hrest⟩ :=
        h.decision hc ha hm calm_until halting_until hr
      · exact ⟨[], {}, b, _, rfl, Nat.zero_le _, .nothing, not_lt.mp (of_decide_eq_false hno)⟩
      · -- There is less room after the step, and one decision less to be made.
        have hless := hstep.room_lt hc hm hd h (of_decide_eq_true hgo)
        obtain ⟨ts, y, b', w', hresult, hlength, hy, hend⟩ := ih (hstep.live hc hm h)
          (Nat.lt_of_lt_of_le hless (Nat.le_of_lt_succ hroom)) hrest
        exact ⟨b.next :: ts, x ++ y, b', w', hresult,
          Nat.succ_le_of_lt (Nat.lt_of_le_of_lt hlength hless), .step hstep hy, hend⟩

end Backend

/-! ## After an initialization -/

section

variable [AtomicModel τ σ] {good : Interface τ → Stage → σ → Prop} {m : Model τ σ} {d : Span}

/-- **After its initialization at `t₀`** an engine has the same room in each of its leaves,
whatever waits at the root. -/
theorem Backend.room_started (b : Backend τ σ) (limit t₀ : Instant) (d : Span) (x : Bags τ) :
    ((b.started t₀).withInbox x).room limit d
      = b.leaves.length * ((limit.ticks - t₀.ticks).toNat / d.ticks) := by
  have hrow : ((b.started t₀).withInbox x).row = b.leaves.map fun l => (l.started t₀).cell := by
    cases b with
    | sequential e =>
        have hinbox : ∀ e : Engine τ σ,
            (e.withInbox x).leaves.map Leaf.cell = e.leaves.map Leaf.cell := by
          intro e
          cases e <;> rfl
        refine (hinbox (e.started t₀)).trans ?_
        rw [Engine.leaves_started, List.map_map]
        rfl
    | parallel c => exact List.map_map
  rw [Backend.room, hrow, List.map_map, ← List.sum_replicate_nat, ← List.map_const']
  rfl

variable [Observer ω]

/-- A run of an engine that has just been initialized. -/
theorem Backend.Live.ends_started (hc : Contract (Unhurried d good))
    (ha : Attended ω (Unhurried d good)) (hm : m.Wired) (hd : Span.zero < d) {b : Backend τ σ}
    {t₀ : Instant} {x : Bags τ} (hx : x.Fits m.interface.inputs)
    (h : (b.started t₀).Live (Unhurried d good) m) (limit : Instant)
    (plan : Nat → Timetable) (w : World ω) :
    ∃ (ts : List Instant) (y : Effect) (b' : Backend τ σ) (w' : World ω),
      ((b.started t₀).withInbox x).runOn
          (b.leaves.length * ((limit.ticks - t₀.ticks).toNat / d.ticks) + 1) plan
          (Until.mk limit) w = some (.done (b', Until.mk limit) w') ∧
        ts.length ≤ b.leaves.length * ((limit.ticks - t₀.ticks).toNat / d.ticks) ∧
        Backend.Unfolds m ((b.started t₀).withInbox x) (ts.map .step) y b' ∧ limit ≤ b'.next := by
  have hlive := h.withInbox hx
  rw [← Backend.room_started b limit t₀ d x]
  exact hlive.ends hc ha hm hd (Nat.lt_succ_self _) (hlive.rest _ plan _ w)

/-- **Runs of unhurried models come to their end.** Take an accepted model of good atomic
models none of which, in any state it can be in, announces an event that is less than `d` away,
for a `d` that is not zero. After an initialization at `t₀`, with anything waiting at the root,
a run up to any limit, the last instant included, comes to its regular end. It takes at most as
many steps as there are atomic models, times how often `d` fits between `t₀` and the limit. This
is so for a tree and for a crew of any number of workers, whatever turns they take. -/
theorem unhurried_runs_end (hacc : m.Accepted) (hc : Contract good) (ha : Attended ω good)
    (hg : m.AllGood good) (hd : Span.zero < d)
    (hunhurried : ∀ {i g s}, good i g s →
      ∀ ta, (AtomicModel.timeAdvance s).answer = some ta → d ≤ ta)
    (t₀ limit : Instant) {x : Bags τ} (hx : x.Fits m.interface.inputs) (w w₁ : World ω) :
    let steps := m.atoms.length * ((limit.ticks - t₀.ticks).toNat / d.ticks)
    (∃ (ts : List Instant) (y : Effect) (e : Engine τ σ) (w₂ : World ω),
      ((((Engine.ofModel m).init t₀ w).state).withInbox x).runUntil (steps + 1) limit w₁
          = some (.done e w₂) ∧
        ts.length ≤ steps ∧ limit ≤ e.next ∧
        Backend.Unfolds m (.sequential ((((Engine.ofModel m).init t₀ w).state).withInbox x))
          (ts.map .step) y (.sequential e)) ∧
    ∀ (wished : Nat) (plan : Nat → Timetable),
      ∃ (ts : List Instant) (y : Effect) (c : Crew τ σ) (w₂ : World ω),
        Crew.runUntilOn (steps + 1) plan limit
            { ((Crew.ofModel wished m).init t₀ w).state with inbox := x } w₁
          = some (.done c w₂) ∧
        ts.length ≤ steps ∧ limit ≤ c.next ∧
        Backend.Unfolds m (.parallel { ((Crew.ofModel wished m).init t₀ w).state with inbox := x })
          (ts.map .step) y (.parallel c) := by
  intro steps
  have hm := hacc.wired
  have hc' : Contract (Unhurried d good) := hc.unhurried hunhurried
  have ha' := ha.unhurried d
  have hg' : m.AllGood (Unhurried d good) := hg.mono fun _ _ h => ⟨h, nofun⟩
  refine ⟨?_, fun wished plan => ?_⟩
  · have hsound := Engine.sound_ofModelBelow hg' none
    obtain ⟨hinit, hlive, -⟩ := hsound.init hc' ha' t₀ w
    obtain ⟨ts, y, b, w₂, hrun, hlength, hy, hend⟩ :=
      Backend.Live.ends_started (b := .sequential (Engine.ofModel m)) hc' ha' hm hd hx hlive limit
        (fun _ => {}) w₁
    have hleaves : (Backend.sequential (Engine.ofModel m)).leaves.length = m.atoms.length :=
      hsound.length_leaves
    rw [hleaves] at hrun hlength
    obtain ⟨⟨⟨e, p⟩, w₂, stop⟩, ho, hdone⟩ := Option.map_eq_some_iff.mp hrun
    cases hdone
    refine ⟨ts, y, e, w₂, ?_, hlength, hend, ?_⟩
    · rw [Engine.ofModel, hinit, Engine.runUntil]
      exact congrArg (Option.map _) ho
    · rw [Engine.ofModel, hinit]
      exact hy
  · have hsound := Crew.sound_ofModel hm hg' wished
    obtain ⟨hinit, hlive⟩ := hsound.init hc' ha' t₀ w
    obtain ⟨ts, y, b, w₂, hrun, hlength, hy, hend⟩ :=
      Backend.Live.ends_started (b := .parallel (Crew.ofModel wished m)) hc' ha' hm hd hx hlive
        limit plan w₁
    have hleaves : (Backend.parallel (Crew.ofModel wished m)).leaves.length = m.atoms.length :=
      hsound.length_eq
    rw [hleaves] at hrun hlength
    obtain ⟨⟨⟨c, p⟩, w₂, stop⟩, ho, hdone⟩ := Option.map_eq_some_iff.mp hrun
    cases hdone
    refine ⟨ts, y, c, w₂, ?_, hlength, hend, ?_⟩
    · rw [hinit, Crew.runUntilOn]
      exact congrArg (Option.map _) ho
    · rw [hinit]
      exact hy

end

/-- A doubler whose period is at least `d`. -/
def Doubler.Slow (d : Span) (i : Interface Payload) (g : Stage) (s : Doubler) : Prop :=
  Good i g s ∧ d ≤ s.period

/-- Input does not change the period of a doubler. -/
theorem Doubler.period_react (s : Doubler) (x : Bags Payload) :
    (s.react x).state.period = s.period := by
  unfold react
  split <;> rfl

theorem Doubler.contract_slow (d : Span) : Contract (Slow d) where
  timeAdvance h := ⟨rfl, h⟩
  output h :=
    have hgood := contract.output (d := d) h.1
    ⟨hgood.1, hgood.2.1, hgood.2.2, h.2⟩
  internal h := ⟨rfl, h⟩
  confluent {_ s x} h hx hne :=
    have hgood := contract.confluent h.1 hx hne
    ⟨hgood.1, hgood.2, h.2.trans_eq (s.period_react x).symm⟩
  external {_ _ s _ x} h he hx hne :=
    have hgood := contract.external h.1 he hx hne
    ⟨hgood.1, hgood.2, h.2.trans_eq (s.period_react x).symm⟩

/-- The tower of doublers, with a message waiting, runs up to its ninth second. Its three
doublers have periods of at least two seconds, so there are at most twelve steps. -/
theorem unhurried_runs_end_tower :
    let d : Span := ⟨2, 0, by decide⟩
    let limit : Instant := ⟨9, 0, by decide⟩
    let x := (Bags.ofPorts [Doubler.add]).append 0 [⟨Payload.word64, (5 : UInt64)⟩]
    let w : World Unobserved := ⟨⟨⟩, false⟩
    (Doubler.tower.AllGood (Doubler.Slow d) ∧ x.Fits Doubler.tower.interface.inputs ∧
      Doubler.tower.atoms.length * ((limit.ticks - Instant.epoch.ticks).toNat / d.ticks) = 12) ∧
    ∃ (ts : List Instant) (y : Effect) (e : Engine Payload Doubler) (w₂ : World Unobserved),
      ((((Engine.ofModel Doubler.tower).init .epoch w).state).withInbox x).runUntil 13 limit w
          = some (.done e w₂) ∧
        ts.length ≤ 12 ∧ limit ≤ e.next ∧
        Backend.Unfolds Doubler.tower
          (.sequential ((((Engine.ofModel Doubler.tower).init .epoch w).state).withInbox x))
          (ts.map .step) y (.sequential e) := by
  intro d limit x w
  have hx : x.Fits Doubler.tower.interface.inputs := by
    refine (Bags.fits_ofPorts [Doubler.add]).append fun p hp m hm => ?_
    cases hp
    rw [List.mem_singleton.mp hm]
    rfl
  have hatom : ∀ id period, d ≤ (Doubler.every period).period →
      (Doubler.atom id period).AllGood (Doubler.Slow d) :=
    fun _ _ hperiod => .atomic ⟨rfl, hperiod⟩
  have hg : Doubler.tower.AllGood (Doubler.Slow d) := by
    refine .coupled fun m hm => ?_
    rcases List.mem_pair.mp hm with rfl | rfl
    · refine .coupled fun m hm => ?_
      rcases List.mem_pair.mp hm with rfl | rfl
      · exact hatom _ _ (by decide)
      · exact hatom _ _ (by decide)
    · exact hatom _ _ (by decide)
  have hsteps : Doubler.tower.atoms.length
      * ((limit.ticks - Instant.epoch.ticks).toNat / d.ticks) = 12 := by decide +kernel
  have hunhurried : ∀ {i g s}, Doubler.Slow d i g s →
      ∀ ta, (AtomicModel.timeAdvance s).answer = some ta → d ≤ ta :=
    fun h _ hta => Option.some.inj hta ▸ h.2
  have hends := (unhurried_runs_end Doubler.accepted_tower (Doubler.contract_slow d)
    (attended_unobserved _) hg (by decide) hunhurried .epoch limit hx w w).1
  rw [hsteps] at hends
  exact ⟨⟨hg, hx, hsteps⟩, hends⟩

end DiscreteEvent
