/-
Reports of both engines, side by side.

Two effects, one of a tree and one of a crew, are `Effect.Alike` when every leaf has
reported the same in both of them, up to the order of messages within a bag, and likewise
the root, if it is a network. A leaf goes by its address in the tree and by its number in
the crew. The leaves of a crew report in the order in which they are called, but what one
leaf reports does not depend on that order (`attributed_calls`).
-/
import DiscreteEvent.Proofs.Engine.Alike
import DiscreteEvent.Proofs.Flat.Live

set_option autoImplicit false

namespace DiscreteEvent

variable {τ σ : Type}

/-! ## Alike effects -/

namespace Effect

/-- **Every leaf of `m` reports the same** in both effects, up to the order of messages;
in the first one it has its address in the tree, and in the second one its number. -/
structure AlikeLeaves (m : Model τ σ) (x y : Effect) : Prop where
  leaf : ∀ {a : List Nat} {atom : Atomic τ σ}, m.atomAt? a = some atom →
    List.Forall₂ Record.Alike (x.recordsAt a) (y.recordsAt [m.number a])
  interrupts : x.interrupts = y.interrupts

/-- **The same reports from a tree and from a crew** of `m`. Every note says truly which
engine made the record; the leaves report the same, and so does the root, if it is
a network. -/
structure Alike (m : Model τ σ) (path path' : List Nat → Option String) (x y : Effect) : Prop
    extends AlikeLeaves m x y where
  signed : ∀ n ∈ x.notes, path n.address = some n.record.path
  signed' : ∀ n ∈ y.notes, path' n.address = some n.record.path
  root : ∀ {c : Coupled τ} {children : List (Model τ σ)}, m = .coupled c children →
    List.Forall₂ Record.Alike (x.recordsAt []) (y.recordsAt [])

variable {m : Model τ σ} {path path' : List Nat → Option String} {x x' y y' : Effect}

theorem AlikeLeaves.append (h : AlikeLeaves m x y) (h' : AlikeLeaves m x' y') :
    AlikeLeaves m (x ++ x') (y ++ y') where
  leaf ha := by
    rw [recordsAt_append, recordsAt_append]
    exact List.rel_append (h.leaf ha) (h'.leaf ha)
  interrupts := by rw [interrupts_append, interrupts_append, h.interrupts, h'.interrupts]

/-- The root may make reports in addition. -/
theorem AlikeLeaves.append_own (h : AlikeLeaves m x y) {own : Effect} {p : String}
    (hown : own.Own p) (hi : own.interrupts = false) : AlikeLeaves m x (y ++ own) where
  leaf {a atom} ha := by
    rw [recordsAt_append, hown.recordsAt_cons, List.append_nil]
    exact h.leaf ha
  interrupts := by rw [interrupts_append, hi, Bool.or_false, h.interrupts]

theorem Alike.append (h : Alike m path path' x y) (h' : Alike m path path' x' y') :
    Alike m path path' (x ++ x') (y ++ y') where
  toAlikeLeaves := h.toAlikeLeaves.append h'.toAlikeLeaves
  signed n hn := (List.mem_append.mp hn).elim (h.signed n) (h'.signed n)
  signed' n hn := (List.mem_append.mp hn).elim (h.signed' n) (h'.signed' n)
  root hm := by
    rw [recordsAt_append, recordsAt_append]
    exact List.rel_append (h.root hm) (h'.root hm)

/-- Whatever is asked of both worlds alike. -/
theorem alike_ofReply {σ' α : Type} (r : Reply σ' α) :
    Alike m path path' (ofReply r) (ofReply r) where
  leaf _ := .nil
  interrupts := rfl
  signed _ hn := nomatch hn
  signed' _ hn := nomatch hn
  root _ := .nil

/-- **Leaf by leaf**: effects are alike if their parts are, and if these are the parts
of the leaves of `m`. -/
theorem alikeLeaves_of_parts {part part' : List Nat → Option Effect} (hx : x.Attributed path part)
    (hy : y.Attributed path' part')
    (hparts : ∀ a atom, m.atomAt? a = some atom → ∃ z z', part a = some z ∧
      part' [m.number a] = some z' ∧ List.Forall₂ Record.Alike (z.recordsAt []) (z'.recordsAt []) ∧
      z.interrupts = z'.interrupts)
    (hdom : ∀ a z, part a = some z → ∃ atom, m.atomAt? a = some atom)
    (hdom' : ∀ b z, part' b = some z → ∃ a atom, m.atomAt? a = some atom ∧ b = [m.number a]) :
    AlikeLeaves m x y := by
  refine ⟨fun {a atom} ha => ?_, ?_⟩
  · obtain ⟨z, z', hz, hz', hrecords, -⟩ := hparts a atom ha
    rw [hx.records hz, hy.records hz']
    exact hrecords
  · rw [Bool.eq_iff_iff, hx.interrupts, hy.interrupts]
    constructor
    · rintro ⟨a, z, hz, hi⟩
      obtain ⟨atom, ha⟩ := hdom a z hz
      obtain ⟨z₁, z', hz₁, hz', -, hinterrupts⟩ := hparts a atom ha
      cases hz.symm.trans hz₁
      exact ⟨_, z', hz', hinterrupts ▸ hi⟩
    · rintro ⟨b, z', hz', hi⟩
      obtain ⟨a, atom, ha, rfl⟩ := hdom' b z' hz'
      obtain ⟨z, z₁, hz, hz₁, -, hinterrupts⟩ := hparts a atom ha
      cases hz'.symm.trans hz₁
      exact ⟨a, z, hz, hinterrupts ▸ hi⟩

end Effect

/-! ## The reports of a crew -/

variable [MessageType τ]

namespace Effect

theorem mem_notes_all {n : Note} {xs : List Effect} :
    n ∈ (all xs).notes ↔ ∃ x ∈ xs, n ∈ x.notes := by
  induction xs with
  | nil =>
      constructor
      · exact fun h => nomatch h
      · rintro ⟨x, hx, -⟩
        exact absurd hx List.not_mem_nil
  | cons x xs ih =>
      show n ∈ (x ++ all xs).notes ↔ _
      rw [notes_append, List.mem_append, ih]
      constructor
      · rintro (h | ⟨x', hx', h⟩)
        · exact ⟨x, by simp, h⟩
        · exact ⟨x', by simp [hx'], h⟩
      · rintro ⟨x', hx', h⟩
        rcases List.mem_cons.mp hx' with rfl | hx'
        · exact .inl h
        · exact .inr ⟨x', hx', h⟩

end Effect

/-- A list in which only one entry of another list has a part. -/
theorem flatMap_of_only {α : Type} {i : Nat} {xs : List α} {f : Nat → List α} {order : List Nat}
    (hnodup : order.Nodup) (hi : i ∈ order) (hf : f i = xs) (hne : ∀ j, j ≠ i → f j = []) :
    order.flatMap f = xs := by
  induction order with
  | nil => exact absurd hi List.not_mem_nil
  | cons j order ih =>
      obtain ⟨hj, hrest⟩ := List.nodup_cons.mp hnodup
      rw [List.flatMap_cons]
      by_cases hji : j = i
      · subst hji
        have hnothing : order.flatMap f = [] :=
          List.flatMap_eq_nil_iff.mpr fun k hk => hne k fun hkj => hj (hkj ▸ hk)
        rw [hf, hnothing, List.append_nil]
      · rw [hne j hji, List.nil_append]
        exact ih hrest ((List.mem_cons.mp hi).resolve_left fun h => hji h.symm)

/-- **The path at an address** in a crew: the root has the empty one, and a leaf its number. -/
def Crew.pathAt? (c : Crew τ σ) : List Nat → Option String
  | [] => some c.path
  | [i] => c.leaves[i]?.map (·.path)
  | _ :: _ :: _ => none

namespace LeafCall

variable [AtomicModel τ σ]

theorem own_effect (call : LeafCall) (l : Leaf τ σ) : (call.effect l).Own l.path := by
  cases call with
  | init t => exact l.own_startEffect t
  | collect t => exact l.own_showEffect t
  | advance t => exact l.own_moveEffect t

/-- The effects of the leaves by their addresses in the crew. -/
def part (call : LeafCall) (leaves : List (Leaf τ σ)) : List Nat → Option Effect
  | [i] => leaves[i]?.map call.effect
  | _ => none

theorem recordsAt_effectAt (call : LeafCall) (leaves : List (Leaf τ σ)) (i j : Nat) :
    (call.effectAt leaves j).recordsAt [i]
      = if j = i then (leaves[i]?.map fun l => (call.effect l).recordsAt []).getD [] else [] := by
  unfold effectAt
  cases hl : leaves[j]? with
  | none =>
      by_cases hji : j = i
      · rw [if_pos hji, ← hji, hl]
        rfl
      · rw [if_neg hji]
        rfl
  | some l =>
      simp only [Effect.recordsAt_below_cons]
      by_cases hji : j = i
      · rw [if_pos hji, if_pos hji, ← hji, hl]
        rfl
      · rw [if_neg hji, if_neg hji]

/-- **Every leaf reports by itself**, in whatever order the leaves are called. -/
theorem attributed_calls (call : LeafCall) {leaves : List (Leaf τ σ)} {order : List Nat}
    (horder : order.Perm (List.range leaves.length)) (path : List Nat → Option String)
    (hpath : ∀ i, path [i] = leaves[i]?.map (·.path)) :
    (Effect.all (order.map (call.effectAt leaves))).Attributed path (call.part leaves) := by
  have hmem : ∀ {i : Nat} {l : Leaf τ σ}, leaves[i]? = some l → i ∈ order := by
    intro i l hl
    exact horder.mem_iff.mpr (List.mem_range.mpr (List.getElem?_eq_some_iff.mp hl).1)
  have hpart : ∀ {a : List Nat} {y : Effect}, call.part leaves a = some y →
      ∃ i l, a = [i] ∧ leaves[i]? = some l ∧ y = call.effect l := by
    intro a y hy
    match a with
    | [] => cases hy
    | [i] =>
        obtain ⟨l, hl, rfl⟩ := Option.map_eq_some_iff.mp hy
        exact ⟨i, l, rfl, hl, rfl⟩
    | _ :: _ :: _ => cases hy
  refine ⟨fun n hn => ?_, fun {a y} hy => ?_, ?_⟩
  · obtain ⟨x, hx, hn⟩ := Effect.mem_notes_all.mp hn
    obtain ⟨i, -, rfl⟩ := List.mem_map.mp hx
    unfold effectAt at hn
    cases hl : leaves[i]? with
    | none =>
        rw [hl] at hn
        cases hn
    | some l =>
        rw [hl] at hn
        obtain ⟨n, hown, rfl⟩ := List.mem_map.mp hn
        obtain ⟨haddress, hp⟩ := call.own_effect l n hown
        rw [haddress, hpath, hl, hp]
        rfl
  · -- A leaf has one place in the order, so no other call reports at its address.
    obtain ⟨i, l, rfl, hl, rfl⟩ := hpart hy
    rw [Effect.recordsAt_all, List.flatMap_map]
    refine flatMap_of_only (horder.nodup_iff.mpr List.nodup_range) (hmem hl) ?_ fun j hj => ?_
    · rw [recordsAt_effectAt, if_pos rfl, hl]
      rfl
    · rw [recordsAt_effectAt, if_neg hj]
  · rw [Effect.interrupts_all, List.any_map, List.any_eq_true]
    constructor
    · rintro ⟨i, -, h⟩
      simp only [Function.comp_apply, effectAt] at h
      cases hl : leaves[i]? with
      | none =>
          rw [hl] at h
          cases h
      | some l =>
          rw [hl] at h
          exact ⟨[i], call.effect l, by rw [part, hl]; rfl, h⟩
    · rintro ⟨a, y, hy, h⟩
      obtain ⟨i, l, rfl, hl, rfl⟩ := hpart hy
      refine ⟨i, hmem hl, ?_⟩
      simp only [Function.comp_apply, effectAt, hl]
      exact h

/-- The root does not report in the calls of leaves. -/
theorem recordsAt_calls_nil (call : LeafCall) (leaves : List (Leaf τ σ)) (order : List Nat) :
    (Effect.all (order.map (call.effectAt leaves))).recordsAt [] = [] := by
  rw [Effect.recordsAt_all, List.flatMap_map, List.flatMap_eq_nil_iff]
  intro i _
  unfold effectAt
  cases leaves[i]? with
  | none => rfl
  | some l => exact Effect.recordsAt_below_nil i _

end LeafCall

end DiscreteEvent
