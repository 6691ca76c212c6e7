/-
Who reports what.

The effect of a call on a tree is put together from the effects of its leaves and the
reports of its hubs. `Effect.Attributed` says how: every record has the path of the
engine whose address its note has, the records at the address of a leaf are those that
the leaf has made by itself, and an interruption was asked for by some leaf. The three
calls of an engine tree have such effects (`attributed_startEffect`,
`attributed_showEffect`, `attributed_moveEffect`), by the same induction each time.
-/
import DiscreteEvent.Proofs.Engine.Refinement

set_option autoImplicit false

namespace DiscreteEvent

variable {τ σ ω : Type} [MessageType τ]

/-! ## Attributed effects -/

namespace Effect

/-- All reports are those of one engine, which has this path, about itself. -/
def Own (path : String) (x : Effect) : Prop :=
  ∀ n ∈ x.notes, n.address = [] ∧ n.record.path = path

theorem own_nothing (path : String) : Own path {} := fun _ hn => nomatch hn

theorem own_ofReply {σ α : Type} (path : String) (r : Reply σ α) : Own path (ofReply r) :=
  fun _ hn => nomatch hn

theorem own_ofRecord (r : Record) : Own r.path (ofRecord r) := by
  intro n hn
  rw [List.mem_singleton.mp hn]
  exact ⟨rfl, rfl⟩

theorem Own.append {path : String} {x y : Effect} (hx : x.Own path) (hy : y.Own path) :
    (x ++ y).Own path := by
  intro n hn
  rcases List.mem_append.mp hn with hn | hn
  · exact hx n hn
  · exact hy n hn

/-- An engine that reports about itself does not report about others. -/
theorem Own.recordsAt_cons {path : String} {x : Effect} (h : x.Own path) (i : Nat) (a : List Nat) :
    x.recordsAt (i :: a) = [] := by
  rw [recordsAt, List.map_eq_nil_iff, List.filter_eq_nil_iff]
  intro n hn
  rw [(h n hn).1]
  exact Bool.false_ne_true

/-- **The effect of a tree**, whose engines have the paths `path`, is put together from
the effects `part` of its leaves and from reports of other engines. -/
structure Attributed (path : List Nat → Option String) (part : List Nat → Option Effect)
    (x : Effect) : Prop where
  signed : ∀ n ∈ x.notes, path n.address = some n.record.path
  records : ∀ {a y}, part a = some y → x.recordsAt a = y.recordsAt []
  interrupts : x.interrupts = true ↔ ∃ a y, part a = some y ∧ y.interrupts = true

variable {path : List Nat → Option String} {part : List Nat → Option Effect}

/-- A leaf by itself. -/
theorem Own.attributed {x : Effect} {p : String} (h : x.Own p) (hpath : path [] = some p)
    (hpart : part [] = some x) (hbelow : ∀ i a, part (i :: a) = none) : x.Attributed path part where
  signed n hn := by rw [(h n hn).1, (h n hn).2, hpath]
  records {a y} hy := by
    cases a with
    | nil =>
        cases hpart.symm.trans hy
        rfl
    | cons i a => exact nomatch (hbelow i a).symm.trans hy
  interrupts := by
    constructor
    · exact fun hx => ⟨[], x, hpart, hx⟩
    · rintro ⟨a, y, hy, hi⟩
      cases a with
      | nil =>
          cases hpart.symm.trans hy
          exact hi
      | cons i a => exact nomatch (hbelow i a).symm.trans hy

/-- Nothing at all, if no leaf does anything. -/
theorem attributed_nothing (h : ∀ a y, part a = some y → y = {}) : Attributed path part {} where
  signed _ hn := nomatch hn
  records hy := by
    rw [h _ _ hy]
    rfl
  interrupts := by
    constructor
    · exact fun hx => nomatch hx
    · rintro ⟨a, y, hy, hi⟩
      rw [h a y hy] at hi
      cases hi

/-- A note of one of several children. -/
theorem mem_notes_each {ε : Type} {x : Nat → ε → Effect} {n : Note} {es : List ε} :
    ∀ {k : Nat}, n ∈ (each x k es).notes → ∃ (i : Nat) (e : ε) (n' : Note), es[i]? = some e ∧
      n' ∈ (x (k + i) e).notes ∧ n = ⟨(k + i) :: n'.address, n'.record⟩ := by
  induction es with
  | nil => exact fun h => nomatch h
  | cons e es ih =>
      intro k h
      rw [each, notes_append, List.mem_append] at h
      rcases h with h | h
      · obtain ⟨n', hn', rfl⟩ := List.mem_map.mp h
        exact ⟨0, e, n', rfl, hn', rfl⟩
      · obtain ⟨i, e', n', he', hn', rfl⟩ := ih h
        rw [Nat.add_right_comm, Nat.add_assoc] at hn'
        exact ⟨i + 1, e', n', he', hn', by rw [Nat.add_right_comm, Nat.add_assoc]⟩

/-- **A tree from its children**, and from what its root does itself. -/
theorem attributed_each {ε : Type} {x : Nat → ε → Effect} {es : List ε} {own : Effect} {p : String}
    (hchild : ∀ i e, es[i]? = some e →
      (x i e).Attributed (fun a => path (i :: a)) fun a => part (i :: a))
    (hown : own.Own p) (hi : own.interrupts = false) (hpath : path [] = some p)
    (hpart : part [] = none) (hnone : ∀ i a, es[i]? = none → part (i :: a) = none) :
    (each x 0 es ++ own).Attributed path part := by
  refine ⟨fun n hn => ?_, fun {a y} hy => ?_, ?_⟩
  · -- A note is one of the root itself, or one of a child with one place more in its address.
    rcases List.mem_append.mp hn with hn | hn
    · obtain ⟨i, e, n', he, hn', rfl⟩ := mem_notes_each hn
      rw [Nat.zero_add] at hn' ⊢
      exact (hchild i e he).signed n' hn'
    · rw [(hown n hn).1, (hown n hn).2, hpath]
  · cases a with
    | nil => exact nomatch hpart.symm.trans hy
    | cons i a =>
        cases he : es[i]? with
        | none => exact nomatch (hnone i a he).symm.trans hy
        | some e =>
            have heach := recordsAt_each (x := x) a (k := 0) he
            rw [Nat.zero_add] at heach
            rw [recordsAt_append, heach, hown.recordsAt_cons, List.append_nil]
            exact (hchild i e he).records hy
  · rw [interrupts_append, hi, Bool.or_false, interrupts_each]
    constructor
    · rintro ⟨i, e, he, h⟩
      rw [Nat.zero_add] at h
      obtain ⟨a, y, hy, h⟩ := (hchild i e he).interrupts.mp h
      exact ⟨i :: a, y, hy, h⟩
    · rintro ⟨a, y, hy, h⟩
      cases a with
      | nil => exact nomatch hpart.symm.trans hy
      | cons i a =>
          cases he : es[i]? with
          | none => exact nomatch (hnone i a he).symm.trans hy
          | some e =>
              refine ⟨i, e, he, ?_⟩
              rw [Nat.zero_add]
              exact (hchild i e he).interrupts.mpr ⟨a, y, hy, h⟩

/-- The reports of the root of a tree. -/
theorem recordsAt_each_ofRecord {ε : Type} (x : Nat → ε → Effect) (es : List ε) (r : Record) :
    (each x 0 es ++ ofRecord r).recordsAt [] = [r] := by
  rw [recordsAt_append, recordsAt_each_nil, recordsAt_ofRecord_nil, List.nil_append]

end Effect

/-! ## Leaves -/

namespace Leaf

variable [AtomicModel τ σ]

theorem own_noted (l : Leaf τ σ) (phase : Phase) (t : Instant) (bags : List BagRecord) :
    (l.noted phase t bags).Own l.path := Effect.own_ofRecord _

theorem own_startEffect (l : Leaf τ σ) (t : Instant) : (l.startEffect t).Own l.path :=
  (Effect.own_ofReply _ _).append ((l.started t).own_noted .init t [])

theorem own_showEffect (l : Leaf τ σ) (t : Instant) : (l.showEffect t).Own l.path := by
  have hpath : (l.shown t).path = l.path := by rw [toNode_shown]
  unfold showEffect
  split
  · exact (Effect.own_ofReply _ _).append (hpath ▸ (l.shown t).own_noted .collect t _)
  · exact Effect.own_nothing _

theorem own_moveEffect (l : Leaf τ σ) (t : Instant) : (l.moveEffect t).Own l.path := by
  unfold moveEffect
  split
  · exact Effect.own_nothing _
  · exact ((Effect.own_ofReply _ _).append (Effect.own_ofReply _ _)).append
      ((l.settle t (l.transition t).state).own_noted .advance t _)

theorem path_moved (l : Leaf τ σ) (t : Instant) : (l.moved t).path = l.path := by
  unfold moved
  split <;> rfl

end Leaf

/-! ## Trees -/

namespace Engine

/-- **The path of the engine at an address.** -/
def pathAt? : List Nat → Engine τ σ → Option String
  | [], e => some e.node.path
  | i :: a, .hub _ es => es[i]?.bind (pathAt? a)
  | _ :: _, .leaf _ => none

theorem pathAt_withInbox (x : Bags τ) (e : Engine τ σ) (a : List Nat) :
    (e.withInbox x).pathAt? a = e.pathAt? a := by
  cases a with
  | nil => rw [pathAt?, node_withInbox, pathAt?]
  | cons i a => cases e <;> rfl

variable [AtomicModel τ σ]

theorem pathAt_shown (t : Instant) {a : List Nat} :
    ∀ {e : Engine τ σ}, (e.shown t).pathAt? a = e.pathAt? a := by
  induction a with
  | nil =>
      intro e
      cases e with
      | leaf l => exact congrArg (some ·.path) (l.toNode_shown t)
      | hub h es =>
          rw [shown]
          split <;> rfl
  | cons i a ih =>
      intro e
      cases e with
      | leaf => rfl
      | hub h es =>
          rw [shown]
          split
          · rw [pathAt?, pathAt?, shownAll_eq, List.getElem?_mapIdx]
            cases es[i]? with
            | none => rfl
            | some c => exact ih
          · rfl

theorem pathAt_moved (t : Instant) {a : List Nat} :
    ∀ {mail : List (Delivery τ)} {e : Engine τ σ}, (e.moved t mail).pathAt? a = e.pathAt? a := by
  induction a with
  | nil =>
      intro mail e
      cases e with
      | leaf l => exact congrArg some ((l.receive mail).path_moved t)
      | hub h es => rfl
  | cons i a ih =>
      intro mail e
      cases e with
      | leaf => rfl
      | hub h es =>
          rw [moved, pathAt?, pathAt?, movedAll_eq, List.getElem?_mapIdx]
          cases es[i]? with
          | none => rfl
          | some c => exact ih

omit [AtomicModel τ σ] in
/-- The places of a hub where there is no child. -/
theorem leafAt_none {h : Hub τ} {es : List (Engine τ σ)} {i : Nat} (hi : es[i]? = none)
    (a : List Nat) : (Engine.hub h es).leafAt? (i :: a) = none := by
  rw [leafAt?, hi, Option.bind_none]

/-- **Initialization is reported** by every engine about itself. -/
theorem attributed_startEffect (t : Instant) (e : Engine τ σ) :
    (e.startEffect t).Attributed (fun a => e.pathAt? a)
      fun a => (e.leafAt? a).map (Leaf.startEffect t) := by
  induction e using Engine.induction with
  | leaf l => exact (l.own_startEffect t).attributed rfl rfl fun _ _ => rfl
  | hub h es ih =>
      rw [startEffect, startEffects_eq]
      refine Effect.attributed_each (fun i e he => ?_) (Effect.own_ofRecord _) rfl rfl rfl
        fun i a hi => by rw [leafAt_none hi, Option.map_none]
      simp only [pathAt?, leafAt?, he, Option.bind_some]
      exact ih e (List.mem_of_getElem? he)

/-- **Outputs are reported** by the engines that are due. -/
theorem attributed_showEffect (t : Instant) (e : Engine τ σ) :
    e.Windowed → t ≤ e.next →
      (e.showEffect t).Attributed (fun a => e.pathAt? a)
        fun a => (e.leafAt? a).map (Leaf.showEffect t) := by
  induction e using Engine.induction with
  | leaf l => exact fun _ _ => (l.own_showEffect t).attributed rfl rfl fun _ _ => rfl
  | hub h es ih =>
      intro hw ht
      by_cases hdue : h.isImminent t = true
      · rw [showEffect, if_pos hdue, showEffects_eq]
        have hpath : (shown t (.hub h es)).node.path = h.path := by
          rw [shown]
          split <;> rfl
        refine Effect.attributed_each (fun i e he => ?_) (Effect.own_ofRecord _) rfl
          (congrArg some hpath.symm) rfl fun i a hi => by rw [leafAt_none hi, Option.map_none]
        have hmem := List.mem_of_getElem? he
        simp only [pathAt?, leafAt?, he, Option.bind_some]
        exact ih e hmem (hw.child hmem) (le_trans ht (hw.next_le hmem))
      · rw [showEffect, if_neg hdue]
        refine Effect.attributed_nothing fun a y hy => ?_
        obtain ⟨l, hl, rfl⟩ := Option.map_eq_some_iff.mp hy
        have hleaf := hw.not_due ht (Bool.eq_false_iff.mpr hdue) hl
        rw [Leaf.showEffect, hleaf, if_neg Bool.false_ne_true]

/-- **Transitions are reported** by the engines that make them. -/
theorem attributed_moveEffect (t : Instant) (e : Engine τ σ) :
    ∀ {mail : List (Delivery τ)}, (e.moveEffect t mail).Attributed (fun a => e.pathAt? a)
      fun a => (turnAt mail a e).map (Leaf.moveEffect t) := by
  induction e using Engine.induction with
  | leaf l => exact fun {mail} => ((l.receive mail).own_moveEffect t).attributed rfl rfl fun _ _ => rfl
  | hub h es ih =>
      intro mail
      rw [moveEffect, moveEffects_eq]
      refine Effect.attributed_each (fun i e he => ?_) (Effect.own_ofRecord _) rfl rfl rfl
        fun i a hi => by rw [turnAt, hi, Option.bind_none, Option.map_none]
      simp only [pathAt?, turnAt, he, Option.bind_some]
      exact ih e (List.mem_of_getElem? he)

end Engine

end DiscreteEvent
