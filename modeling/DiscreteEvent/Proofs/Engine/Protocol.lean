/-
The calls that an atomic model sees.

An engine calls the functions of a model in turn, and the turns make up blocks, at most one
in a step. `Diary.Block` are the three blocks there are, and staying idle: a due model is
asked for its output and makes its internal transition, and the external one right after
it if there is input; a model that is not due reacts to input, if there is any, with the
time since its last block; and every transition ends with the question for the time
advance. `Diary.Conforms` is a life that consists of such blocks.

The calls are read off the journals of the models (`Journaled`). `Leaf.block` is the step of
one leaf, whatever it finds in its inbox, and `Live.round` that of a tree: the outputs of
all leaves come before the transitions of any leaf, since the first of the two calls that
make a step adds the outputs to the journals, and the second one the rest.

A session of an engine begins with its only initialization, and then there are messages for
the root and runs up to some limit. Such a run is nothing but steps (`InSession.underway`),
so `Underway.conforms`, by induction on the steps, is about every point of every session.
-/
import DiscreteEvent.Proofs.Engine.Natural
import DiscreteEvent.Proofs.Engine.Refinement

set_option autoImplicit false

namespace DiscreteEvent

variable {τ σ ω : Type} [MessageType τ]

/-! ## Diaries -/

/-- **What is known of the life of a model**: the calls so far, the time of the last block,
and that of the next event. -/
structure Diary (τ : Type) [MessageType τ] where
  calls : List (ModelCall τ)
  last : Instant
  next : Instant

namespace Diary

/-- **What a step at `t` adds to a diary.** In between stand the calls up to the time when
the outputs of all models have been collected. -/
inductive Block (t : Instant) (d : Diary τ) : List (ModelCall τ) → Diary τ → Prop
  | idle (before : t < d.next) : Block t d d.calls d
  /-- The event is due, and there is no input. -/
  | internal (due : t = d.next) (es : List (Emission τ)) (ta : Option Span) :
      Block t d (d.calls ++ [.output es])
        ⟨d.calls ++ [.output es, .internal, .timeAdvance ta], t, t.schedule ta⟩
  /-- The event is due, and input comes at the same time. -/
  | confluent (due : t = d.next) (es : List (Emission τ)) {x : Bags τ} (input : x.isEmpty = false)
      (ta : Option Span) :
      Block t d (d.calls ++ [.output es])
        ⟨d.calls ++ [.output es, .internal, .external .zero x, .timeAdvance ta], t,
          t.schedule ta⟩
  /-- Input comes before the event, with the time since the last block. -/
  | external (before : t < d.next) {elapsed : Span} (since : t.since? d.last = some elapsed)
      {x : Bags τ} (input : x.isEmpty = false) (ta : Option Span) :
      Block t d d.calls
        ⟨d.calls ++ [.external elapsed x, .timeAdvance ta], t, t.schedule ta⟩

/-- **A life by the protocol**, from the initialization at `t₀` on, through steps at the given
times. -/
inductive Conforms (t₀ : Instant) : List Instant → Diary τ → Prop
  | init (ta : Option Span) : Conforms t₀ [] ⟨[.timeAdvance ta], t₀, t₀.schedule ta⟩
  | step {times : List Instant} {t : Instant} {d d' : Diary τ} {shown : List (ModelCall τ)}
      (h : Conforms t₀ times d) (block : d.Block t shown d') : Conforms t₀ (times ++ [t]) d'

end Diary

/-- The diary of a cell whose model keeps a journal. -/
def Cell.diary (c : Cell (Journaled τ σ)) : Diary τ := ⟨c.state.journal, c.last, c.next⟩

/-- The diary of a leaf. -/
def Leaf.diary (l : Leaf τ (Journaled τ σ)) : Diary τ := l.cell.diary

/-- **A round at `t`**: everybody adds a block to the diary, the output in the first half
and the transition in the second one. -/
def Round {ι : Type} (t : Instant) (before halfway after : ι → Option (Diary τ)) : Prop :=
  ∀ i d, before i = some d → ∃ d' d'', halfway i = some d' ∧ after i = some d'' ∧
    d.Block t d'.calls d''

/-- After a round every life by the protocol is one still. -/
theorem Round.conforms {ι : Type} {t t₀ : Instant} {before halfway after : ι → Option (Diary τ)}
    {times : List Instant} {i : ι} (h : Round t before halfway after)
    (hd : ∃ d, before i = some d ∧ d.Conforms t₀ times) :
    ∃ d, after i = some d ∧ d.Conforms t₀ (times ++ [t]) := by
  obtain ⟨d, hbefore, hd⟩ := hd
  obtain ⟨d', d'', -, hafter, hblock⟩ := h i d hbefore
  exact ⟨d'', hafter, .step hd hblock⟩

/-! ## Leaves -/

variable [AtomicModel τ σ]

/-- Whoever settles asks for the time advance, and nothing else. -/
theorem Cell.exists_diary_settle (t : Instant) (s : Journaled τ σ) :
    ∃ ta, (settle (τ := τ) t s).diary
      = ⟨s.journal ++ [.timeAdvance ta], t, t.schedule ta⟩ := by
  refine ⟨(AtomicModel.timeAdvance (τ := τ) s).answer, ?_⟩
  rw [diary, settle, Journaled.journal_timeAdvance]
  rfl

/-- **The step of a cell** inside of its window, on any input. -/
theorem Cell.block {c : Cell (Journaled τ σ)} {t : Instant} (hl : c.last ≤ t) (ht : t ≤ c.next)
    (x : Bags τ) :
    c.diary.Block t
      (if c.next = t then (AtomicModel.output (τ := τ) c.state).state.journal else c.state.journal)
      (c.step t x).diary := by
  unfold step
  by_cases hdue : c.next = t
  · -- The output has been asked for, so the rest of the block comes after it.
    have hnow : t = c.diary.next := hdue.symm
    rw [if_pos hdue, if_pos hdue]
    by_cases hx : x.isEmpty = true
    · obtain ⟨ta, hsettle⟩ :=
        exists_diary_settle t (AtomicModel.internal (AtomicModel.output (τ := τ) c.state).state).state
      rw [if_pos hx, hsettle, Journaled.journal_internal, Journaled.journal_output,
        List.append_assoc, List.append_assoc]
      exact .internal hnow _ ta
    · obtain ⟨ta, hsettle⟩ := exists_diary_settle t (AtomicModel.external
        (AtomicModel.internal (AtomicModel.output (τ := τ) c.state).state).state .zero x).state
      rw [if_neg hx, hsettle, Journaled.journal_external, Journaled.journal_internal,
        Journaled.journal_output, List.append_assoc, List.append_assoc, List.append_assoc]
      exact .confluent hnow _ (Bool.eq_false_iff.mpr hx) ta
  · -- Nothing has been asked so far, and only input can change that.
    have hbefore : t < c.diary.next := lt_of_le_of_ne ht (Ne.symm hdue)
    rw [if_neg hdue, if_neg hdue]
    by_cases hx : x.isEmpty = true
    · rw [if_pos hx]
      exact .idle hbefore
    · obtain ⟨ta, hsettle⟩ :=
        exists_diary_settle t (AtomicModel.external c.state (c.last.elapsed t) x).state
      rw [if_neg hx, hsettle, Journaled.journal_external, List.append_assoc]
      exact .external hbefore (Instant.since?_of_le hl) (Bool.eq_false_iff.mpr hx) ta

/-- **The step of a leaf** inside of its window, whatever it finds in its inbox. -/
theorem Leaf.block {l : Leaf τ (Journaled τ σ)} {t : Instant} (hl : l.last ≤ t) (ht : t ≤ l.next)
    (hmax : t ≠ .max) (x : Bags τ) :
    l.diary.Block t (l.shown t).state.journal (Leaf.moved t { l.shown t with inbox := x }).diary := by
  have hblock := Cell.block (c := l.cell) hl ht x
  rw [← Leaf.cell_moved l hmax x] at hblock
  -- A cell is due if its next event is now, a leaf only if that is not at infinity.
  have hshown : (l.shown t).state.journal = if l.cell.next = t
      then (AtomicModel.output (τ := τ) l.state).state.journal else l.state.journal := by
    unfold shown
    by_cases hdue : l.isImminent t = true
    · have hnow : l.cell.next = t := (Node.isImminent_iff hmax).mp hdue
      rw [if_pos hdue, if_pos hnow]
    · have hnow : ¬l.cell.next = t := fun h => hdue ((Node.isImminent_iff hmax).mpr h)
      rw [if_neg hdue, if_neg hnow]
  rw [hshown]
  exact hblock

/-- The initialization of a leaf whose journal is empty. -/
theorem Leaf.conforms_started {l : Leaf τ (Journaled τ σ)} (h : l.state.journal = [])
    (t : Instant) : (l.started t).diary.Conforms t [] := by
  obtain ⟨ta, hsettle⟩ := Cell.exists_diary_settle (τ := τ) t l.state
  have hdiary : (l.started t).diary = ⟨[.timeAdvance ta], t, t.schedule ta⟩ := by
    rw [h] at hsettle
    exact hsettle
  rw [hdiary]
  exact .init ta

/-- A step that is taken before a limit is not one at the last instant. -/
theorem Until.ne_max {t : Instant} {interrupted : Bool} {p : Until}
    (h : (Supervisor.proceed t interrupted p).answer = true) : t ≠ .max := by
  rintro rfl
  exact absurd (of_decide_eq_true h) (not_lt.mpr p.limit.le_max)

/-! ## Trees -/

namespace Engine

/-- The diaries of a tree, by the addresses of the leaves. -/
def diaries (e : Engine τ (Journaled τ σ)) (a : List Nat) : Option (Diary τ) :=
  (e.leafAt? a).map Leaf.diary

omit [AtomicModel τ σ] in
theorem diaries_eq (e : Engine τ (Journaled τ σ)) (a : List Nat) :
    e.diaries a = (e.cells a).map Cell.diary := by
  rw [diaries, cells, Option.map_map]
  rfl

omit [AtomicModel τ σ] in
theorem diaries_withInbox (x : Bags τ) (e : Engine τ (Journaled τ σ)) :
    (e.withInbox x).diaries = e.diaries := by
  funext a
  rw [diaries_eq, diaries_eq, cells_withInbox]

variable {good : Interface τ → Stage → σ → Prop} {m : Model τ σ}

omit [AtomicModel τ σ] in
/-- Every leaf gets its turn in an advance, with something in its inbox. -/
theorem exists_turnAt_of_leafAt {a : List Nat} {l : Leaf τ σ} :
    ∀ {mail : List (Delivery τ)} {e : Engine τ σ}, e.leafAt? a = some l →
      ∃ x, turnAt mail a e = some { l with inbox := x } := by
  induction a with
  | nil =>
      intro mail e hl
      cases e with
      | hub => cases hl
      | leaf l' =>
          cases hl
          exact ⟨_, rfl⟩
  | cons i a ih =>
      intro mail e hl
      cases e with
      | leaf => cases hl
      | hub h es =>
          obtain ⟨c, hc, hl⟩ := Option.bind_eq_some_iff.mp hl
          rw [turnAt, hc, Option.bind_some]
          exact ih hl

variable [Observer ω]

/-- **A step of a live tree is a round.** -/
theorem Live.round {good : Interface τ → Stage → Journaled τ σ → Prop}
    {m : Model τ (Journaled τ σ)} {e : Engine τ (Journaled τ σ)} (hc : Contract good)
    (ha : Attended ω good) (hm : m.Wired) (h : Live good m e) (hmax : e.next ≠ .max)
    (w : World ω) :
    Round e.next e.diaries (e.collect e.next w).state.diaries (e.step w).state.diaries := by
  obtain ⟨hcollect, -, -⟩ := h.collect hc ha hm (le_refl e.next) w
  obtain ⟨hstep, -⟩ := h.step hc ha hm w
  rw [hcollect, hstep]
  intro a d hd
  obtain ⟨l, hl, rfl⟩ := Option.map_eq_some_iff.mp hd
  have hshown : (e.shown e.next).leafAt? a = some (l.shown e.next) := by
    rw [shown_leafAt h.windowed (le_refl _), hl, Option.map_some]
  -- What was routed to the leaf is in its inbox by now; for the block any input will do.
  obtain ⟨x, hturn⟩ : ∃ x, turnAt [] a (e.shown e.next) = some { l.shown e.next with inbox := x } :=
    exists_turnAt_of_leafAt hshown
  have hwindow := h.windowed.leafAt hl
  refine ⟨(l.shown e.next).diary, _, ?_, ?_,
    Leaf.block (le_trans hwindow.1 h.windowed.last_le_next) hwindow.2 hmax x⟩
  · exact congrArg (Option.map Leaf.diary) hshown
  · show (((e.shown e.next).moved e.next []).leafAt? a).map Leaf.diary = _
    rw [moved_leafAt, hturn, Option.map_some, Option.map_some]

/-! ## Sessions of a tree -/

/-- **The states of an engine of `m` in a session that began at `t₀`**, between its runs. It
has been initialized once, with anything in the inbox of the root; since then messages have
been put there, and the engine has run up to one limit after another, in any order. -/
inductive InSession (ω : Type) [Observer ω] (m : Model τ σ) (t₀ : Instant) : Engine τ σ → Prop
  | init {x : Bags τ} (hx : x.Fits m.interface.inputs) (w : World ω) :
      InSession ω m t₀ (((ofModel m).withInbox x).init t₀ w).state
  | inject {e : Engine τ σ} {port : Port τ} (values : List (MessageType.Value port.type))
      (w : World ω) (h : InSession ω m t₀ e) (hd : port ∈ m.interface.inputs) :
      InSession ω m t₀ (e.perform w (.inject port values)).state
  | runUntil {e : Engine τ σ} {n : Nat} {limit : Instant} {w : World ω}
      {o : Outcome (Engine τ σ) ω} (h : InSession ω m t₀ e) (ho : e.runUntil n limit w = some o) :
      InSession ω m t₀ o.state

/-- **The states of an engine of `m` in a session, also in the middle of its runs**, with the
times of the steps that have been taken. -/
inductive Underway (ω : Type) [Observer ω] (m : Model τ σ) (t₀ : Instant) :
    List Instant → Engine τ σ → Prop
  | init {x : Bags τ} (hx : x.Fits m.interface.inputs) (w : World ω) :
      Underway ω m t₀ [] (((ofModel m).withInbox x).init t₀ w).state
  | inject {times : List Instant} {e : Engine τ σ} {port : Port τ}
      (values : List (MessageType.Value port.type)) (w : World ω) (h : Underway ω m t₀ times e)
      (hd : port ∈ m.interface.inputs) :
      Underway ω m t₀ times (e.perform w (.inject port values)).state
  | step {times : List Instant} {e : Engine τ σ} (w : World ω) (h : Underway ω m t₀ times e)
      (hmax : e.next ≠ .max) : Underway ω m t₀ (times ++ [e.next]) (e.step w).state

/-- A run up to a limit is made of steps. -/
theorem Underway.run {t₀ : Instant} {n : Nat} :
    ∀ {times : List Instant} {e : Engine τ σ} {p : Until} {w : World ω}
      {o : Outcome (Engine τ σ × Until) ω}, e.Underway ω m t₀ times → e.run n p w = some o →
      ∃ times, o.state.1.Underway ω m t₀ times := by
  induction n with
  | zero => exact fun _ ho => nomatch ho
  | succ n ih =>
      intro times e p w o h ho
      -- The supervisor does not fault, so its answer decides, and then how the step ends.
      simp only [Engine.run, calm_until.proceed, calm_until.completed] at ho
      split at ho
      · rename_i hgo
        have hnext := h.step (w.heed (Supervisor.proceed e.next w.interrupted p))
          (Until.ne_max hgo)
        split at ho
        · cases ho
          exact ⟨_, hnext⟩
        · exact ih hnext ho
      · cases ho
        exact ⟨times, h⟩

theorem InSession.underway {t₀ : Instant} {e : Engine τ σ} (h : e.InSession ω m t₀) :
    ∃ times, e.Underway ω m t₀ times := by
  induction h with
  | init hx w => exact ⟨[], .init hx w⟩
  | inject values w _ hd ih =>
      obtain ⟨times, h⟩ := ih
      exact ⟨times, h.inject values w hd⟩
  | runUntil _ ho ih =>
      obtain ⟨times, h⟩ := ih
      obtain ⟨o', ho', rfl⟩ := Option.map_eq_some_iff.mp ho
      exact h.run ho'

/-- **A session with journals.** Whatever session there is of an engine, there is one with
journals that takes the same course. -/
theorem InSession.exists_journaled {t₀ : Instant} {e : Engine τ σ} (h : e.InSession ω m t₀) :
    ∃ e' : Engine τ (Journaled τ σ), e'.InSession ω m.journaled t₀ ∧
      e'.mapState Journaled.self = e := by
  -- Whatever the client does to the engine it can do to the one with journals.
  induction h with
  | @init x hx w =>
      have hplain : ((ofModel m.journaled).withInbox x).mapState Journaled.self
          = (ofModel m).withInbox x := by
        rw [← withInbox_mapState, ofModel, plain_ofModelBelow, ofModel]
      refine ⟨_, .init (by rw [Model.interface_journaled]; exact hx) w, ?_⟩
      rw [← hplain, init_mapState faithful_self]
      rfl
  | @inject _ port values w _ hd ih =>
      obtain ⟨e', h', rfl⟩ := ih
      refine ⟨_, h'.inject values w (by rw [Model.interface_journaled]; exact hd), ?_⟩
      rw [perform_mapState faithful_self]
      rfl
  | runUntil _ ho ih =>
      obtain ⟨e', h', rfl⟩ := ih
      obtain ⟨o₁, ho₁, rfl⟩ := Option.map_eq_some_iff.mp ho
      rw [run_mapState faithful_self] at ho₁
      obtain ⟨o', ho', rfl⟩ := Option.map_eq_some_iff.mp ho₁
      exact ⟨_, h'.runUntil (Option.map_eq_some_iff.mpr ⟨o', ho', rfl⟩), rfl⟩

/-- An engine in a session is live. -/
theorem Underway.live (hc : Contract good) (ha : Attended ω good) (hm : m.Wired)
    (hg : m.AllGood good) {t₀ : Instant} {times : List Instant} {e : Engine τ σ}
    (h : e.Underway ω m t₀ times) : Live good m e := by
  induction h with
  | init hx w =>
      obtain ⟨heq, hlive, -⟩ := ((sound_ofModelBelow hg none).withInbox hx).init hc ha t₀ w
      rw [ofModel, heq]
      exact hlive
  | @inject _ e port values w _ hd ih =>
      obtain ⟨i, hx, hfits⟩ := ih.sound.inbox.extend hm.distinct.inputs hd values
      simp only [perform, hx]
      exact ih.withInbox hfits
  | step w _ _ ih =>
      obtain ⟨heq, hlive⟩ := ih.step hc ha hm w
      rw [heq]
      exact hlive

/-- **Every step in a session is a round.** -/
theorem Underway.round (hc : Contract good) (ha : Attended ω good) (hm : m.Wired)
    (hg : m.AllGood good) {t₀ : Instant} {times : List Instant} {e : Engine τ (Journaled τ σ)}
    (h : e.Underway ω m.journaled t₀ times) (hmax : e.next ≠ .max) (w : World ω) :
    Round e.next e.diaries (e.collect e.next w).state.diaries (e.step w).state.diaries :=
  (h.live (Journaled.contract hc) (Journaled.attended ha) hm.journaled hg.journaled).round
    (Journaled.contract hc) (Journaled.attended ha) hm.journaled hmax w

/-- **Every diary is one of a life by the protocol.** -/
theorem Underway.conforms (hc : Contract good) (ha : Attended ω good) (hm : m.Wired)
    (hg : m.AllGood good) {t₀ : Instant} {times : List Instant} {e : Engine τ (Journaled τ σ)}
    (h : e.Underway ω m.journaled t₀ times) {a : List Nat} {atom : Atomic τ σ}
    (hatom : m.atomAt? a = some atom) : ∃ d, e.diaries a = some d ∧ d.Conforms t₀ times := by
  induction h with
  | @init x hx w =>
      have hat : m.journaled.atomAt? a = some (atom.mapState fun s => ⟨s, []⟩) := by
        rw [Model.journaled, Model.atomAt_mapState, hatom, Option.map_some]
      -- Before the initialization every journal is empty: that, too, is a promise of the models.
      obtain ⟨l, hl, hsound⟩ :=
        (sound_ofModelBelow (Model.blank_journaled m) none).exists_leaf.1 hat
      obtain ⟨-, hblank⟩ := hsound.exists_good
      obtain ⟨y, hy⟩ := exists_leafAt_withInbox x hl
      obtain ⟨heq, -⟩ := ((sound_ofModelBelow hg.journaled none).withInbox hx).init
        (Journaled.contract hc) (Journaled.attended ha) t₀ w
      refine ⟨_, ?_, Leaf.conforms_started hblank t₀⟩
      rw [ofModel, heq]
      show ((started t₀ ((ofModelBelow none m.journaled).withInbox x)).leafAt? a).map Leaf.diary = _
      rw [started_leafAt, hy]
      rfl
  | @inject _ e port values w _ _ ih =>
      rw [perform]
      split
      · exact ih
      · show ∃ d, (e.withInbox _).diaries a = some d ∧ _
        rw [diaries_withInbox]
        exact ih
  | step w h hmax ih => exact (h.round hc ha hm hg hmax w).conforms ih

end Engine

end DiscreteEvent
