/-
Which engines report, and what.

The effect of a call is a list of notes, put together in the course of a recursion over the
tree. This file says without the recursion what is on the list. `Reported` compares it with
a table of records by addresses: every engine makes the record that the table has for it, no
other engine makes any, and each reports after all those below it.

The tables are read off the trees before and after the call. `startEntry` has a record for
every engine. `showEntry` has one for the engines whose next event is at the time of the
call, and `moveEntry` one for all hubs and for the leaves that are due or have input, which is
what lies in their inboxes when their turn comes (`metAt?`).
-/
import DiscreteEvent.Proofs.Engine.Attribution

set_option autoImplicit false

namespace DiscreteEvent

variable {τ σ : Type} [MessageType τ]

/-! ## Tables of records -/

/-- **The notes are those of a table**: every engine makes the record that it has there, if it
has one, and no note stands before one of an engine further down. -/
structure Reported (entry : List Nat → Option Record) (notes : List Note) : Prop where
  once : ∀ a, (notes.filter (·.address == a)).map (·.record) = (entry a).toList
  bottomUp : notes.Pairwise fun x y => ¬x.address <+: y.address

namespace Effect

variable {ε : Type} {x : Nat → ε → Effect}

/-- Where there is no child, nobody reports. -/
theorem recordsAt_each_of_none {es : List ε} {i : Nat} (hi : es[i]? = none) (a : List Nat) :
    (each x 0 es).recordsAt (i :: a) = [] := by
  rw [recordsAt, List.map_eq_nil_iff, List.filter_eq_nil_iff]
  intro n hn
  obtain ⟨j, e, n', he, -, rfl⟩ := mem_notes_each hn
  rw [beq_iff_eq, List.cons.injEq, Nat.zero_add]
  rintro ⟨rfl, -⟩
  cases hi.symm.trans he

/-- If lower engines come first below every child, they do below all of them. -/
theorem bottomUp_notes_each {es : List ε} :
    ∀ {k : Nat}, (∀ i e, es[i]? = some e →
        (x (k + i) e).notes.Pairwise fun m n => ¬m.address <+: n.address) →
      (each x k es).notes.Pairwise fun m n => ¬m.address <+: n.address := by
  induction es with
  | nil => exact fun _ => .nil
  | cons e es ih =>
      intro k h
      rw [each, notes_append, List.pairwise_append]
      refine ⟨?_, ih fun i e' he' => ?_, fun m hm n hn => ?_⟩
      · rw [below, List.pairwise_map]
        refine (h 0 e rfl).imp fun hmn => ?_
        rw [List.cons_prefix_cons, not_and]
        exact fun _ => hmn
      · rw [Nat.add_assoc, Nat.add_comm 1]
        exact h (i + 1) e' he'
      · -- Addresses below different children have different beginnings.
        obtain ⟨m', -, rfl⟩ := List.mem_map.mp hm
        obtain ⟨i, _, n', -, -, rfl⟩ := mem_notes_each hn
        rw [List.cons_prefix_cons]
        rintro ⟨hk, -⟩
        omega

end Effect

namespace Reported

variable {entry : List Nat → Option Record} {notes : List Note} {r : Record}

/-- Every note is one of the table. -/
theorem entry_eq (h : Reported entry notes) {n : Note} (hn : n ∈ notes) :
    entry n.address = some n.record := by
  have hmem : n.record ∈ (notes.filter (·.address == n.address)).map (·.record) :=
    List.mem_map_of_mem (List.mem_filter.mpr ⟨hn, beq_self_eq_true _⟩)
  rw [h.once, Option.mem_toList] at hmem
  exact hmem

/-- Nobody reports. -/
theorem nothing (h : ∀ a, entry a = none) : Reported entry [] where
  once a := by
    rw [h a]
    rfl
  bottomUp := .nil

/-- A leaf by itself. -/
theorem leaf (h : entry [] = some r) (hbelow : ∀ i a, entry (i :: a) = none) :
    Reported entry [⟨[], r⟩] where
  once a := by
    cases a with
    | nil =>
        rw [h]
        rfl
    | cons i a =>
        rw [hbelow]
        rfl
  bottomUp := List.pairwise_singleton _ _

/-- **A hub**: first the children report, and then the hub itself. -/
theorem hub {ε : Type} {x : Nat → ε → Effect} {es : List ε}
    (hchild : ∀ i e, es[i]? = some e → Reported (fun a => entry (i :: a)) (x i e).notes)
    (hnone : ∀ i a, es[i]? = none → entry (i :: a) = none) (h : entry [] = some r) :
    Reported entry (Effect.each x 0 es ++ .ofRecord r).notes where
  once a := by
    show Effect.recordsAt _ a = _
    cases a with
    | nil =>
        rw [Effect.recordsAt_each_ofRecord, h]
        rfl
    | cons i a =>
        rw [Effect.recordsAt_append, Effect.recordsAt_ofRecord_cons, List.append_nil]
        cases he : es[i]? with
        | none =>
            rw [Effect.recordsAt_each_of_none he, hnone i a he]
            rfl
        | some e =>
            have heach := Effect.recordsAt_each (x := x) a (k := 0) he
            rw [Nat.zero_add] at heach
            rw [heach]
            exact (hchild i e he).once a
  bottomUp := by
    rw [Effect.notes_append, List.pairwise_append]
    refine ⟨Effect.bottomUp_notes_each fun i e he => ?_, List.pairwise_singleton _ _,
      fun m hm n hn => ?_⟩
    · rw [Nat.zero_add]
      exact (hchild i e he).bottomUp
    · obtain ⟨i, _, m', -, -, rfl⟩ := Effect.mem_notes_each hm
      rw [List.mem_singleton.mp hn, List.prefix_nil]
      exact List.cons_ne_nil _ _

end Reported

/-! ## Engines by their addresses -/

namespace Engine

/-- **The engine at an address.** -/
def engineAt? : List Nat → Engine τ σ → Option (Engine τ σ)
  | [], e => some e
  | i :: a, .hub _ es => es[i]?.bind (engineAt? a)
  | _ :: _, .leaf _ => none

/-- **An engine when its turn to advance comes**: with the mail that has reached it by then
in its inbox. -/
def metAt? : List (Delivery τ) → List Nat → Engine τ σ → Option (Engine τ σ)
  | mail, [], e => some (e.receive mail)
  | mail, i :: a, .hub h es =>
    es[i]?.bind (metAt? (Hub.mailFor ((h.receive mail).posted (es.map node)) i) a)
  | _, _ :: _, .leaf _ => none

/-- Leaves are engines. -/
theorem leafAt_eq_some_iff {l : Leaf τ σ} {a : List Nat} :
    ∀ {e : Engine τ σ}, e.leafAt? a = some l ↔ e.engineAt? a = some (.leaf l) := by
  induction a with
  | nil =>
      intro e
      cases e <;> simp [leafAt?, engineAt?]
  | cons i a ih =>
      intro e
      cases e with
      | leaf => simp [leafAt?, engineAt?]
      | hub h es =>
          rw [leafAt?, engineAt?]
          cases es[i]? with
          | none => simp
          | some c => exact ih

/-- The turn of a leaf. -/
theorem turnAt_eq_some_iff {l : Leaf τ σ} {a : List Nat} :
    ∀ {mail : List (Delivery τ)} {e : Engine τ σ},
      turnAt mail a e = some l ↔ e.metAt? mail a = some (.leaf l) := by
  induction a with
  | nil =>
      intro mail e
      cases e <;> simp [turnAt, metAt?, receive]
  | cons i a ih =>
      intro mail e
      cases e with
      | leaf => simp [turnAt, metAt?]
      | hub h es =>
          rw [turnAt, metAt?]
          cases es[i]? with
          | none => simp
          | some c => exact ih

/-- The windows of a tree are tied at every address. -/
theorem Windowed.engineAt {a : List Nat} {c : Engine τ σ} :
    ∀ {e : Engine τ σ}, e.Windowed → e.engineAt? a = some c → c.Windowed ∧ e.next ≤ c.next := by
  induction a with
  | nil =>
      intro e hw hc
      cases hc
      exact ⟨hw, le_refl _⟩
  | cons i a ih =>
      intro e hw hc
      cases e with
      | leaf => cases hc
      | hub h es =>
          obtain ⟨d, hd, hc⟩ := Option.bind_eq_some_iff.mp hc
          have hmem := List.mem_of_getElem? hd
          obtain ⟨hcw, hnext⟩ := ih (hw.child hmem) hc
          exact ⟨hcw, le_trans (hw.next_le hmem) hnext⟩

variable [AtomicModel τ σ]

/-! ## What the records say -/

/-- The text of the state; the engine of a network has none. -/
def text? : Engine τ σ → Option String
  | leaf l => (AtomicModel.render l.state).toOption
  | hub _ _ => none

/-- **The record of an initialization** at `t`, from the engine it led to. -/
def startRecord (t : Instant) (after : Engine τ σ) : Record :=
  ⟨.init, after.node.path, t, t, after.next, after.text?, []⟩

/-- **The record of a collection** at `t`: the window is that from before, and the bags are
those that have been filled. -/
def showRecord (t : Instant) (before after : Engine τ σ) : Record :=
  ⟨.collect, before.node.path, t, before.last, t, after.text?,
    Record.bagsOf .output after.node.outbox⟩

/-- **The record of an advance** to `t`: the state and the next event are those from after
it, and the bags are those that were used. -/
def moveRecord (t : Instant) (met after : Engine τ σ) : Record :=
  ⟨.advance, met.node.path, t, t, after.next, after.text?, Record.bagsOf .input met.node.inbox⟩

/-- The initialization is reported by everybody. -/
def startEntry (t : Instant) (after : Engine τ σ) (a : List Nat) : Option Record :=
  (after.engineAt? a).map (startRecord t)

/-- A collection is reported by those whose event is due. -/
def showEntry (t : Instant) (before after : Engine τ σ) (a : List Nat) : Option Record :=
  match before.engineAt? a, after.engineAt? a with
  | some b, some s => if b.next = t then some (showRecord t b s) else none
  | _, _ => none

/-- An advance is reported by all hubs, and by the leaves that are due or have input. -/
def moveEntry (t : Instant) (mail : List (Delivery τ)) (before after : Engine τ σ)
    (a : List Nat) : Option Record :=
  match before.metAt? mail a, after.engineAt? a with
  | some b, some s =>
    if b.isHub = true ∨ b.next = t ∨ b.node.inbox.isEmpty = false then some (moveRecord t b s)
    else none
  | _, _ => none

/-! ## The three calls -/

/-- **Initialization is reported** by every engine. -/
theorem reported_startEffect (t : Instant) (e : Engine τ σ) :
    Reported (startEntry t (e.started t)) (e.startEffect t).notes := by
  induction e using Engine.induction with
  | leaf l => exact .leaf rfl fun _ _ => rfl
  | hub h es ih =>
      rw [startEffect, startEffects_eq]
      refine .hub (fun i e he => ?_) (fun i a hi => ?_) rfl
      · -- Below a child the table is that of the child.
        have hentry : (fun a => startEntry t (started t (.hub h es)) (i :: a))
            = startEntry t (e.started t) := by
          funext a
          simp only [startEntry, started, engineAt?, startedAll_eq, List.getElem?_mapIdx, he,
            Option.map_some, Option.bind_some]
        rw [hentry]
        exact ih e (List.mem_of_getElem? he)
      · simp only [startEntry, started, engineAt?, startedAll_eq, List.getElem?_mapIdx, hi,
          Option.map_none, Option.bind_none]

/-- The record of a leaf that has shown its output. -/
theorem showEntry_leaf {t : Instant} {l : Leaf τ σ} (h : l.next = t) :
    showEntry t (.leaf l) (.leaf (l.shown t)) [] = some
      ⟨.collect, (l.shown t).path, t, (l.shown t).last, (l.shown t).next,
        (AtomicModel.render (l.shown t).state).toOption,
        Record.bagsOf .output (l.shown t).outbox⟩ := by
  have hpath : (l.shown t).path = l.path := by rw [Leaf.toNode_shown]
  have hlast : (l.shown t).last = l.last := by rw [Leaf.toNode_shown]
  have hnext : (l.shown t).next = t := by rw [Leaf.toNode_shown, h]
  have hdue : (leaf l).next = t := h
  rw [hpath, hlast, hnext]
  simp only [showEntry, engineAt?, if_pos hdue]
  rfl

/-- **A collection is reported** by the engines whose event is due. -/
theorem reported_showEffect {t : Instant} (hmax : t ≠ .max) (e : Engine τ σ) :
    e.Windowed → t ≤ e.next → Reported (showEntry t e (e.shown t)) (e.showEffect t).notes := by
  induction e using Engine.induction with
  | leaf l =>
      intro _ _
      rw [showEffect, Leaf.showEffect]
      by_cases hdue : l.isImminent t = true
      · rw [if_pos hdue]
        exact .leaf (showEntry_leaf ((Node.isImminent_iff hmax).mp hdue)) fun _ _ => rfl
      · have hnext : (leaf l).next ≠ t := fun h => hdue ((Node.isImminent_iff hmax).mpr h)
        rw [if_neg hdue]
        refine .nothing fun a => ?_
        cases a with
        | nil => simp only [showEntry, shown, engineAt?, if_neg hnext]
        | cons i a => rfl
  | hub h es ih =>
      intro hw ht
      by_cases hdue : h.isImminent t = true
      · have hnext : (hub h es).next = t := (Node.isImminent_iff hmax).mp hdue
        rw [showEffect, if_pos hdue, showEffects_eq]
        refine .hub (fun i e he => ?_) (fun i a hi => ?_) ?_
        · have hentry : (fun a => showEntry t (.hub h es) (shown t (.hub h es)) (i :: a))
              = showEntry t e (e.shown t) := by
            funext a
            simp only [showEntry, shown, if_pos hdue, engineAt?, shownAll_eq,
              List.getElem?_mapIdx, he, Option.map_some, Option.bind_some]
          have hmem := List.mem_of_getElem? he
          rw [hentry]
          exact ih e hmem (hw.child hmem) (le_trans ht (hw.next_le hmem))
        · simp only [showEntry, engineAt?, hi, Option.bind_none]
        · simp only [showEntry, shown, if_pos hdue, engineAt?, if_pos hnext]
          rw [← hnext]
          rfl
      · -- Nobody further down is due either.
        have hlt : t < (hub h es).next :=
          lt_of_le_of_ne ht fun heq => hdue ((Node.isImminent_iff hmax).mpr heq.symm)
        rw [showEffect, if_neg hdue]
        refine .nothing fun a => ?_
        unfold showEntry
        split
        · rename_i b _ hb _
          exact if_neg (ne_of_gt (lt_of_lt_of_le hlt (hw.engineAt hb).2))
        · rfl

/-- **An advance is reported** by the hubs, and by the leaves that make a transition. -/
theorem reported_moveEffect {t : Instant} (hmax : t ≠ .max) (e : Engine τ σ) :
    ∀ {mail : List (Delivery τ)},
      Reported (moveEntry t mail e (e.moved t mail)) (e.moveEffect t mail).notes := by
  induction e using Engine.induction with
  | leaf l =>
      intro mail
      rw [moveEffect, Leaf.moveEffect]
      by_cases hidle : (l.receive mail).idle t = true
      · -- No event is due and there is no input, so there is no transition.
        have h := hidle
        rw [Leaf.idle, Bool.and_eq_true, Bool.not_eq_true', Bool.eq_false_iff] at h
        have hnext : (leaf (l.receive mail)).next ≠ t :=
          fun heq => h.2 ((Node.isImminent_iff hmax).mpr heq)
        rw [if_pos hidle]
        refine .nothing fun a => ?_
        cases a with
        | cons i a => rfl
        | nil =>
            simp only [moveEntry, metAt?, receive, moved, engineAt?]
            refine if_neg ?_
            rintro (hhub | hdue | hin)
            · cases hhub
            · exact hnext hdue
            · exact absurd (h.1.symm.trans hin) (by simp)
      · -- There is a transition, because of input or because of an event.
        rw [if_neg hidle]
        refine .leaf ?_ fun _ _ => rfl
        simp only [moveEntry, metAt?, receive, moved, engineAt?, Leaf.moved, if_neg hidle]
        refine if_pos ?_
        rw [Leaf.idle, Bool.and_eq_true, not_and_or] at hidle
        rcases hidle with hin | hdue
        · exact .inr (.inr (Bool.eq_false_iff.mpr hin))
        · rw [Bool.not_eq_true', Bool.not_eq_false] at hdue
          exact .inr (.inl ((Node.isImminent_iff hmax).mp hdue))
  | hub h es ih =>
      intro mail
      rw [moveEffect, moveEffects_eq]
      refine .hub (fun i e he => ?_) (fun i a hi => ?_) ?_
      · have hentry : (fun a => moveEntry t mail (.hub h es) (moved t mail (.hub h es)) (i :: a))
            = moveEntry t (Hub.mailFor ((h.receive mail).posted (es.map node)) i) e
                (e.moved t (Hub.mailFor ((h.receive mail).posted (es.map node)) i)) := by
          funext a
          simp only [moveEntry, moved, metAt?, engineAt?, movedAll_eq, List.getElem?_mapIdx, he,
            Option.map_some, Option.bind_some, Nat.zero_add]
        rw [hentry]
        exact ih e (List.mem_of_getElem? he)
      · simp only [moveEntry, metAt?, hi, Option.bind_none]
      · simp only [moveEntry, metAt?, engineAt?, receive, moved, isHub, true_or, if_true]
        rfl

end Engine

end DiscreteEvent
