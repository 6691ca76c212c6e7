/-
Numbers for the leaves of a tree.

A flat engine has its leaves in one list, in the order of the tree. So a leaf has
two names, the address that leads to it and its number in the list.
`Model.number` gives the number for an address. It is one-to-one between the
addresses of atomic models and the places of the list `Model.atoms`
(`number_inj`, `exists_number`), and the leaves of an engine tree are numbered in
the same way (`Sound.getElem?_leaves`).
-/
import DiscreteEvent.Proofs.Engine.Refinement

set_option autoImplicit false

namespace DiscreteEvent

/-! ## Places in a concatenation -/

section Offset

variable {α β β' : Type} (f : α → List β)

/-- Where the part of the entry number `i` begins, when all parts are put together. -/
def offset (xs : List α) (i : Nat) : Nat := ((xs.take i).flatMap f).length

variable {f}

theorem offset_cons_succ (x : α) (xs : List α) (i : Nat) :
    offset f (x :: xs) (i + 1) = (f x).length + offset f xs i := by
  rw [offset, List.take_succ_cons, List.flatMap_cons, List.length_append, offset]

theorem offset_succ {xs : List α} {i : Nat} {x : α} (h : xs[i]? = some x) :
    offset f xs (i + 1) = offset f xs i + (f x).length := by
  rw [offset, offset, List.take_add_one, h, Option.toList_some, List.flatMap_append,
    List.length_append, List.flatMap_singleton]

theorem offset_le {xs : List α} {i j : Nat} (h : i ≤ j) : offset f xs i ≤ offset f xs j := by
  obtain ⟨k, rfl⟩ := Nat.exists_eq_add_of_le h
  rw [offset, offset, List.take_add, List.flatMap_append, List.length_append]
  exact Nat.le_add_right _ _

/-- The entries of one part, among all. -/
theorem getElem?_flatMap_offset {xs : List α} {i : Nat} {x : α} (h : xs[i]? = some x) {k : Nat}
    {y : β} (hy : (f x)[k]? = some y) : (xs.flatMap f)[offset f xs i + k]? = some y := by
  induction xs generalizing i with
  | nil => cases h
  | cons z xs ih =>
      cases i with
      | zero =>
          cases h
          rw [List.flatMap_cons, offset, List.take_zero, List.flatMap_nil, List.length_nil,
            Nat.zero_add, List.getElem?_append_left (List.getElem?_eq_some_iff.mp hy).1]
          exact hy
      | succ i =>
          rw [List.flatMap_cons, offset_cons_succ, Nat.add_assoc,
            List.getElem?_append_right (Nat.le_add_right _ _), Nat.add_sub_cancel_left]
          exact ih h

/-- Every place is in some part. -/
theorem exists_offset {xs : List α} {n : Nat} (h : n < (xs.flatMap f).length) :
    ∃ i x k, xs[i]? = some x ∧ k < (f x).length ∧ n = offset f xs i + k := by
  induction xs generalizing n with
  | nil => exact absurd h (Nat.not_lt_zero n)
  | cons x xs ih =>
      by_cases hn : n < (f x).length
      · exact ⟨0, x, n, rfl, hn, by rw [offset, List.take_zero, List.flatMap_nil]; simp⟩
      · rw [List.flatMap_cons, List.length_append] at h
        obtain ⟨i, y, k, hi, hk, hnk⟩ := ih (n := n - (f x).length) (by omega)
        exact ⟨i + 1, y, k, hi, hk, by rw [offset_cons_succ]; omega⟩

/-- No place is in two parts. -/
theorem offset_inj {xs : List α} {i j k l : Nat} {x y : α} (hi : xs[i]? = some x)
    (hj : xs[j]? = some y) (hk : k < (f x).length) (hl : l < (f y).length)
    (h : offset f xs i + k = offset f xs j + l) : i = j ∧ k = l := by
  rcases Nat.lt_trichotomy i j with hlt | rfl | hlt
  · have hle : offset f xs (i + 1) ≤ offset f xs j := offset_le hlt
    rw [offset_succ hi] at hle
    omega
  · exact ⟨rfl, by omega⟩
  · have hle : offset f xs (j + 1) ≤ offset f xs i := offset_le hlt
    rw [offset_succ hj] at hle
    omega

/-- Only the lengths of the parts matter. -/
theorem offset_congr {γ : Type} {g : γ → List β'} {xs : List α} {ys : List γ}
    (h : xs.map (fun x => (f x).length) = ys.map fun y => (g y).length) (i : Nat) :
    offset f xs i = offset g ys i := by
  rw [offset, offset, List.length_flatMap, List.length_flatMap, List.map_take, List.map_take, h]

end Offset

/-! ## Numbers of atomic models -/

namespace Model

variable {τ σ : Type}

mutual

/-- The atomic models of a tree, in its order. -/
def atoms : Model τ σ → List (Atomic τ σ)
  | .atomic a => [a]
  | .coupled _ children => atomsOf children

def atomsOf : List (Model τ σ) → List (Atomic τ σ)
  | [] => []
  | m :: rest => atoms m ++ atomsOf rest

end

theorem atomsOf_eq (ms : List (Model τ σ)) : atomsOf ms = ms.flatMap atoms := by
  induction ms with
  | nil => rfl
  | cons m ms ih => rw [atomsOf, ih, List.flatMap_cons]

theorem atoms_coupled (c : Coupled τ) (ms : List (Model τ σ)) :
    (Model.coupled c ms).atoms = ms.flatMap atoms := by
  rw [atoms, atomsOf_eq]

/-- **The number of the leaf at an address.** -/
def number : List Nat → Model τ σ → Nat
  | i :: a, .coupled _ children => offset atoms children i + (children[i]?.map (number a)).getD 0
  | _, _ => 0

theorem number_cons {c : Coupled τ} {ms : List (Model τ σ)} {i : Nat} {m : Model τ σ}
    (h : ms[i]? = some m) (a : List Nat) :
    (Model.coupled c ms).number (i :: a) = offset atoms ms i + m.number a := by
  rw [number, h, Option.map_some, Option.getD_some]

/-- The list has every atomic model at its number. -/
theorem getElem?_atoms {a : List Nat} :
    ∀ {m : Model τ σ} {x : Atomic τ σ}, m.atomAt? a = some x → m.atoms[m.number a]? = some x := by
  induction a with
  | nil =>
      intro m x h
      cases m with
      | atomic => exact h
      | coupled => cases h
  | cons i a ih =>
      intro m x h
      cases m with
      | atomic => cases h
      | coupled c ms =>
          obtain ⟨m, hm, hx⟩ := Option.bind_eq_some_iff.mp h
          rw [number_cons hm, atoms_coupled]
          exact getElem?_flatMap_offset hm (ih hx)

theorem number_lt {m : Model τ σ} {a : List Nat} {x : Atomic τ σ} (h : m.atomAt? a = some x) :
    m.number a < m.atoms.length := (List.getElem?_eq_some_iff.mp (getElem?_atoms h)).1

/-- **No two leaves have one number.** -/
theorem number_inj {a : List Nat} :
    ∀ {m : Model τ σ} {b : List Nat} {x y : Atomic τ σ}, m.atomAt? a = some x →
      m.atomAt? b = some y → m.number a = m.number b → a = b := by
  induction a with
  | nil =>
      intro m b x y ha hb _
      cases m with
      | coupled => cases ha
      | atomic =>
          cases b with
          | nil => rfl
          | cons => cases hb
  | cons i a ih =>
      intro m b x y ha hb h
      cases m with
      | atomic => cases ha
      | coupled c ms =>
          cases b with
          | nil => cases hb
          | cons j b =>
              obtain ⟨m, hm, ha⟩ := Option.bind_eq_some_iff.mp ha
              obtain ⟨m', hm', hb⟩ := Option.bind_eq_some_iff.mp hb
              rw [number_cons hm, number_cons hm'] at h
              obtain ⟨rfl, hnum⟩ := offset_inj hm hm' (number_lt ha) (number_lt hb) h
              cases hm.symm.trans hm'
              rw [ih ha hb hnum]

/-- **Every number is that of a leaf.** -/
theorem exists_number (m : Model τ σ) :
    ∀ {n : Nat}, n < m.atoms.length → ∃ a x, m.atomAt? a = some x ∧ m.number a = n := by
  induction m using Model.induction with
  | atomic x =>
      intro n hn
      rw [atoms, List.length_singleton] at hn
      exact ⟨[], x, rfl, (Nat.lt_one_iff.mp hn).symm⟩
  | coupled c ms ih =>
      intro n hn
      rw [atoms_coupled] at hn
      obtain ⟨i, m, k, hm, hk, rfl⟩ := exists_offset hn
      obtain ⟨a, x, ha, rfl⟩ := ih m (List.mem_of_getElem? hm) hk
      refine ⟨i :: a, x, ?_, number_cons hm a⟩
      rw [atomAt?, hm]
      exact ha

end Model

/-! ## Numbers of leaves -/

namespace Engine

variable {τ σ : Type} [MessageType τ]

mutual

/-- The leaves of an engine tree, in its order. -/
def leaves : Engine τ σ → List (Leaf τ σ)
  | leaf l => [l]
  | hub _ es => leavesOf es

def leavesOf : List (Engine τ σ) → List (Leaf τ σ)
  | [] => []
  | e :: es => leaves e ++ leavesOf es

end

theorem leavesOf_eq (es : List (Engine τ σ)) : leavesOf es = es.flatMap leaves := by
  induction es with
  | nil => rfl
  | cons e es ih => rw [leavesOf, ih, List.flatMap_cons]

theorem leaves_hub (h : Hub τ) (es : List (Engine τ σ)) :
    (hub h es).leaves = es.flatMap leaves := by
  rw [leaves, leavesOf_eq]

variable {good : Interface τ → Stage → σ → Prop}

/-- If every child has as many leaves as its model has atomic models, the two lists of
children agree. -/
theorem Sound.map_length {c : Coupled τ} {models : List (Model τ σ)} {h : Hub τ}
    {es : List (Engine τ σ)} (hs : Sound good (.coupled c models) (.hub h es))
    (hlen : ∀ e ∈ es, ∀ {m : Model τ σ}, Sound good m e → e.leaves.length = m.atoms.length) :
    es.map (fun e => e.leaves.length) = models.map fun m => m.atoms.length := by
  cases hs with
  | hub _ length_eq each =>
      refine List.ext_getElem? fun i => ?_
      rw [List.getElem?_map, List.getElem?_map]
      cases hm : models[i]? with
      | none =>
          rw [List.getElem?_eq_none_iff, length_eq] at hm
          rw [List.getElem?_eq_none_iff.mpr hm]
          rfl
      | some m =>
          have hlt : i < es.length := by
            rw [← length_eq]
            exact (List.getElem?_eq_some_iff.mp hm).1
          have he := List.getElem?_eq_getElem hlt
          rw [he, Option.map_some, Option.map_some,
            hlen _ (List.mem_of_getElem? he) (each i m _ hm he)]

/-- There are as many leaves as atomic models. -/
theorem Sound.length_leaves (e : Engine τ σ) :
    ∀ {m : Model τ σ}, Sound good m e → e.leaves.length = m.atoms.length := by
  induction e using Engine.induction with
  | leaf l =>
      intro m hs
      cases hs with
      | leaf => rfl
  | hub h es ih =>
      intro m hs
      obtain ⟨c, models, rfl, -⟩ := hs.of_hub
      rw [leaves_hub, Model.atoms_coupled, List.length_flatMap, List.length_flatMap,
        hs.map_length ih]

/-- **A leaf is found at its number.** -/
theorem Sound.getElem?_leaves {a : List Nat} :
    ∀ {m : Model τ σ} {e : Engine τ σ} {l : Leaf τ σ}, Sound good m e → e.leafAt? a = some l →
      e.leaves[m.number a]? = some l := by
  induction a with
  | nil =>
      intro m e l hs hl
      cases hs with
      | leaf => exact hl
      | hub => cases hl
  | cons i a ih =>
      intro m e l hs hl
      cases e with
      | leaf => cases hl
      | hub h es =>
          obtain ⟨c, models, rfl, -⟩ := hs.of_hub
          obtain ⟨e, he, hl⟩ := Option.bind_eq_some_iff.mp hl
          obtain ⟨m, hm, -, hsound⟩ := hs.child he
          rw [Model.number_cons hm, leaves_hub,
            ← offset_congr (hs.map_length fun e _ _ hs => hs.length_leaves) i]
          exact getElem?_flatMap_offset he (ih hsound hl)

end Engine

end DiscreteEvent
