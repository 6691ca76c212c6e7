/-
The shares of the workers make up the whole.

A share starts where the one before it ends, the first one at zero and the last
one ending at the number of items. So the shares, one after the other, are all
items in order (`flatMap_items`), and no item is in two of them. How many there are in
a share is decided by a remainder (`length_items`), so no share has two more than another.

The program computes both ends of a share on machine words (`boundsOnWords`). Where the
greatest of its products is a word, all of them are, and the ends are those of the division
of natural numbers (`fair_boundsOnWords`).
-/
import DiscreteEvent.Flat.Share
import Mathlib.Algebra.Order.Group.Nat
import Mathlib.Data.List.Nodup
import Mathlib.Data.List.Range

set_option autoImplicit false

namespace DiscreteEvent.Share

variable {count workers : Nat}

theorem start_zero : start count workers 0 = 0 := by
  rw [start, Nat.zero_mul, Nat.zero_div]

/-- The last share ends with the last item. -/
theorem start_workers (h : 0 < workers) : start count workers workers = count := by
  rw [start, Nat.mul_div_cancel_left _ h]

theorem start_le_start (count workers : Nat) {w w' : Nat} (h : w ≤ w') :
    start count workers w ≤ start count workers w' :=
  Nat.div_le_div_right (Nat.mul_le_mul_right count h)

/-- The first shares are the first items. -/
theorem flatMap_items_range (count workers n : Nat) :
    (List.range n).flatMap (items count workers) = List.range (start count workers n) := by
  induction n with
  | zero => rw [start_zero]; rfl
  | succ n ih =>
      have happend := List.range'_append_1 (s := 0) (m := start count workers n)
        (n := start count workers (n + 1) - start count workers n)
      rw [Nat.zero_add, Nat.add_sub_cancel' (start_le_start count workers (Nat.le_succ n)),
        ← List.range_eq_range', ← List.range_eq_range'] at happend
      rw [List.range_succ, List.flatMap_append, ih, List.flatMap_singleton, items]
      exact happend

/-- **All shares together are all items**, in order. -/
theorem flatMap_items (h : 0 < workers) :
    (List.range workers).flatMap (items count workers) = List.range count := by
  rw [flatMap_items_range, start_workers h]

theorem mem_items {w i : Nat} :
    i ∈ items count workers w ↔ start count workers w ≤ i ∧ i < start count workers (w + 1) := by
  have hle := start_le_start count workers (Nat.le_succ w)
  rw [items, List.mem_range'_1, Nat.add_sub_cancel' hle]

/-- No item is in two shares. -/
theorem not_mem_items {w w' i : Nat} (hne : w ≠ w') (h : i ∈ items count workers w) :
    i ∉ items count workers w' := by
  intro h'
  rw [mem_items] at h h'
  rcases Nat.lt_or_gt_of_ne hne with hlt | hlt
  · have hle : start count workers (w + 1) ≤ start count workers w' := start_le_start _ _ hlt
    omega
  · have hle : start count workers (w' + 1) ≤ start count workers w := start_le_start _ _ hlt
    omega

/-- Every item is in the share of some worker. -/
theorem mem_items_iff (h : 0 < workers) {i : Nat} :
    (∃ w < workers, i ∈ items count workers w) ↔ i < count := by
  rw [← List.mem_range, ← flatMap_items h]
  simp only [List.mem_flatMap, List.mem_range]

/-- There is always a worker. -/
theorem workers_pos (wished leaves : Nat) : 0 < Share.workers wished leaves :=
  Nat.lt_of_lt_of_le Nat.zero_lt_one (Nat.le_max_right _ _)

/-- There are not more workers than leaves, if there is a leaf. -/
theorem workers_le {wished leaves : Nat} (h : 0 < leaves) : Share.workers wished leaves ≤ leaves :=
  max_le (Nat.min_le_right _ _) h

/-! ## The size of a share -/

/-- **The size of a share**: the quotient, and one more if the remainders make up another. -/
theorem length_items (h : 0 < workers) (w : Nat) :
    (items count workers w).length
      = count / workers + if workers ≤ w * count % workers + count % workers then 1 else 0 := by
  rw [items, List.length_range', start, start, Nat.succ_mul, Nat.add_div h, Nat.add_assoc,
    Nat.add_sub_cancel_left]

/-- No share has two items more than another. -/
theorem length_items_le (h : 0 < workers) (w w' : Nat) :
    (items count workers w).length ≤ (items count workers w').length + 1 := by
  rw [length_items h, length_items h]
  split <;> split <;> omega

/-- Where there are enough items, everybody has one. -/
theorem length_items_pos (h : 0 < workers) (hle : workers ≤ count) (w : Nat) :
    0 < (items count workers w).length := by
  have hquotient : 0 < count / workers := Nat.div_pos hle h
  rw [length_items h]
  exact Nat.lt_of_lt_of_le hquotient (Nat.le_add_right _ _)

/-! ## Ends of shares -/

/-- **A fair division** of so many items among workers, by the ends of each share: the shares
follow each other, together they have every item once, and their sizes differ by one at most. -/
structure Fair (count workers : Nat) (bounds : Nat → Nat × Nat) : Prop where
  first : (bounds 0).1 = 0
  last : (bounds (workers - 1)).2 = count
  next : ∀ w, w + 1 < workers → (bounds w).2 = (bounds (w + 1)).1
  ordered : ∀ w < workers, (bounds w).1 ≤ (bounds w).2 ∧ (bounds w).2 ≤ count
  apart : ∀ w < workers, ∀ w' < workers, w ≠ w' →
    (bounds w).2 ≤ (bounds w').1 ∨ (bounds w').2 ≤ (bounds w).1
  once : ∀ i < count, ∃! w, w < workers ∧ (bounds w).1 ≤ i ∧ i < (bounds w).2
  even : ∀ w < workers, ∀ w' < workers,
    (bounds w).2 - (bounds w).1 ≤ (bounds w').2 - (bounds w').1 + 1

/-- **The shares of the workers are fair**, however their ends were computed. -/
theorem fair_of_eq_start (h : 0 < workers) {bounds : Nat → Nat × Nat}
    (heq : ∀ w < workers, bounds w = (start count workers w, start count workers (w + 1))) :
    Fair count workers bounds where
  first := by
    rw [heq 0 h]
    exact start_zero
  last := by
    rw [heq _ (Nat.sub_lt h Nat.zero_lt_one), Nat.sub_add_cancel h]
    exact start_workers h
  next w hw := by rw [heq w (Nat.lt_of_succ_lt hw), heq _ hw]
  ordered w hw := by
    rw [heq w hw]
    exact ⟨start_le_start _ _ (Nat.le_succ w), (start_le_start _ _ hw).trans_eq (start_workers h)⟩
  apart w hw w' hw' hne := by
    rw [heq w hw, heq w' hw']
    rcases Nat.lt_or_gt_of_ne hne with hlt | hlt
    · exact .inl (start_le_start _ _ hlt)
    · exact .inr (start_le_start _ _ hlt)
  once i hi := by
    obtain ⟨w, hw, hmem⟩ := (mem_items_iff h).mpr hi
    refine ⟨w, ⟨hw, ?_⟩, fun w' ⟨hw', hmem'⟩ => ?_⟩
    · rw [heq w hw]
      exact mem_items.mp hmem
    · rw [heq w' hw'] at hmem'
      by_contra hne
      exact not_mem_items hne (mem_items.mpr hmem') hmem
  even w hw w' hw' := by
    have hle : (items count workers w).length ≤ (items count workers w').length + 1 :=
      length_items_le h w w'
    rw [heq w hw, heq w' hw']
    rwa [items, items, List.length_range', List.length_range'] at hle

/-- **The ends of a share, computed on machine words.** -/
def boundsOnWords (count workers worker : USize) : USize × USize :=
  (worker * count / workers, (worker + 1) * count / workers)

/-- A product that is not greater than a word is the product of the words. -/
theorem toNat_mul_of_le {a b c d : USize} (h : c.toNat * d.toNat < USize.size)
    (hac : a.toNat ≤ c.toNat) (hbd : b.toNat ≤ d.toNat) :
    (a * b).toNat = a.toNat * b.toNat := by
  rw [USize.toNat_mul]
  exact Nat.mod_eq_of_lt (Nat.lt_of_le_of_lt (Nat.mul_le_mul hac hbd) h)

/-- The number of the next worker is a word, too. -/
theorem toNat_succ {worker workers : USize} (h : worker < workers) :
    (worker + 1).toNat = worker.toNat + 1 := by
  have hlt : worker.toNat + 1 < USize.size :=
    Nat.lt_of_le_of_lt (USize.lt_iff_toNat_lt.mp h) workers.toNat_lt_size
  rw [USize.toNat_add, USize.toNat_one]
  exact Nat.mod_eq_of_lt hlt

/-- **On machine words** the ends of a share are what they are for natural numbers. -/
theorem toNat_boundsOnWords {count workers worker : USize}
    (hsize : workers.toNat * count.toNat < USize.size) (h : worker < workers) :
    (boundsOnWords count workers worker).1.toNat = start count.toNat workers.toNat worker.toNat ∧
      (boundsOnWords count workers worker).2.toNat
        = start count.toNat workers.toNat (worker.toNat + 1) := by
  have hlt : worker.toNat < workers.toNat := USize.lt_iff_toNat_lt.mp h
  have hsucc : (worker + 1).toNat ≤ workers.toNat := by
    rw [toNat_succ h]
    exact hlt
  constructor
  · rw [boundsOnWords, USize.toNat_div, toNat_mul_of_le hsize hlt.le (Nat.le_refl _), start]
  · rw [boundsOnWords, USize.toNat_div, toNat_mul_of_le hsize hsucc (Nat.le_refl _), start,
      toNat_succ h]

/-- A share is what lies between its ends on machine words. -/
theorem items_eq_boundsOnWords {count workers worker : USize}
    (hsize : workers.toNat * count.toNat < USize.size) (h : worker < workers) :
    items count.toNat workers.toNat worker.toNat
      = List.range' (boundsOnWords count workers worker).1.toNat
          ((boundsOnWords count workers worker).2.toNat
            - (boundsOnWords count workers worker).1.toNat) := by
  obtain ⟨hfirst, hlast⟩ := toNat_boundsOnWords hsize h
  rw [hfirst, hlast, items]

/-- **The shares that are computed on machine words are fair**, as long as the number of items
times that of the workers is a word. -/
theorem fair_boundsOnWords {count workers : USize} (hpos : 0 < workers)
    (hsize : workers.toNat * count.toNat < USize.size) :
    Fair count.toNat workers.toNat fun w =>
      ((boundsOnWords count workers (.ofNat w)).1.toNat,
        (boundsOnWords count workers (.ofNat w)).2.toNat) := by
  have hworkers : 0 < workers.toNat := USize.lt_iff_toNat_lt.mp hpos
  refine fair_of_eq_start hworkers fun w hw => ?_
  have hword : (USize.ofNat w).toNat = w :=
    USize.toNat_ofNat_of_lt' (Nat.lt_trans hw workers.toNat_lt_size)
  have hlt : USize.ofNat w < workers := USize.lt_iff_toNat_lt.mpr (hword.symm ▸ hw)
  obtain ⟨hfirst, hlast⟩ := toNat_boundsOnWords hsize hlt
  rw [hword] at hfirst hlast
  exact Prod.ext hfirst hlast

end DiscreteEvent.Share
