/-
What a step of a crew comes to, phase by phase.

A leaf fires on what the routes have brought to it (`deposited_eq`), and the earliest
event among the shares of the workers is the earliest of all (`foldr_minima`).
-/
import DiscreteEvent.Proofs.Flat.Phases

set_option autoImplicit false

namespace DiscreteEvent

variable {τ σ ω : Type} [MessageType τ]

namespace Crew

/-! ## What the routes bring -/

/-- What a route brings to leaf number `i`. -/
def deliveryFor (c : Crew τ σ) (i : Nat) (r : Route) : Option (Delivery τ) :=
  match r.target with
  | .leaf p => if p.leaf = i then some ⟨i, p.port, c.load r.source⟩ else none
  | .rootOutput _ => none

/-- What a route brings to the outputs of the root. -/
def deliveryOut (c : Crew τ σ) (r : Route) : Option (Delivery τ) :=
  match r.target with
  | .leaf _ => none
  | .rootOutput p => some ⟨0, p, c.load r.source⟩

/-- What routes bring to leaf number `i`. -/
def mailFor (c : Crew τ σ) (routes : List Route) (i : Nat) : List (Delivery τ) :=
  routes.filterMap (c.deliveryFor i)

/-- What routes bring to the outputs of the root. -/
def mailOut (c : Crew τ σ) (routes : List Route) : List (Delivery τ) :=
  routes.filterMap c.deliveryOut

theorem receive_append (l : Leaf τ σ) (mail mail' : List (Delivery τ)) :
    l.receive (mail ++ mail') = (l.receive mail).receive mail' := by
  rw [Leaf.receive, Node.receive, List.foldl_append]
  rfl

theorem filterMap_concat {α β : Type} (f : α → Option β) (xs : List α) (x : α) :
    (xs ++ [x]).filterMap f = xs.filterMap f ++ (f x).toList := by
  rw [List.filterMap_append, List.filterMap_cons]
  cases f x <;> rfl

/-- **The crew after deposits**: every leaf has received its mail. -/
theorem deposited_eq (c : Crew τ σ) (routes : List Route) :
    c.deposited routes = { c with
      leaves := c.leaves.mapIdx fun i l => l.receive (c.mailFor routes i)
      outbox := (c.mailOut routes).foldl (fun b d => b.append d.port d.messages) c.outbox } := by
  induction routes using List.reverseRecOn with
  | nil =>
      have hleaves : c.leaves.mapIdx (fun i l => l.receive (c.mailFor [] i)) = c.leaves := by
        refine List.ext_getElem? fun i => ?_
        rw [List.getElem?_mapIdx]
        cases c.leaves[i]? <;> rfl
      rw [hleaves]
      rfl
  | append_singleton routes r ih =>
      rw [deposited_concat, ih]
      cases hr : r.target with
      | rootOutput p =>
          simp only [mailFor, mailOut, filterMap_concat, deliveryFor, deliveryOut, hr,
            Option.toList_none, Option.toList_some, List.append_nil, List.foldl_append]
          rfl
      | leaf p =>
          -- The mail of the leaf at the end of the route gets longer, and no other mail does.
          simp only [mailFor, mailOut, filterMap_concat, deliveryFor, deliveryOut, hr,
            Option.toList_none, List.append_nil, deposit]
          congr 1
          refine List.ext_getElem? fun i => ?_
          rw [List.getElem?_modify, List.getElem?_mapIdx, List.getElem?_mapIdx]
          cases c.leaves[i]? with
          | none => rfl
          | some l =>
              simp only [Option.map_eq_map, Option.map_some]
              by_cases hi : p.leaf = i
              · rw [if_pos hi, if_pos hi, receive_append]
                rfl
              · rw [if_neg hi, if_neg hi, Option.toList_none, List.append_nil]

end Crew

/-! ## The earliest next event -/

theorem Hub.earliest_append (ns ns' : List (Node τ)) :
    earliest (ns ++ ns') = min (earliest ns) (earliest ns') := by
  induction ns with
  | nil => exact (min_eq_right (earliest ns').le_max).symm
  | cons n ns ih => rw [List.cons_append, earliest_cons, earliest_cons, ih, min_assoc]

namespace Shift

theorem earliestOf_append (c : Crew τ σ) (places places' : List Nat) :
    earliestOf c (places ++ places') = min (earliestOf c places) (earliestOf c places') := by
  rw [earliestOf, List.filterMap_append, List.map_append, Hub.earliest_append]
  rfl

/-- The earliest next event among all leaves. -/
theorem earliestOf_range (c : Crew τ σ) :
    earliestOf c (List.range c.leaves.length) = Hub.earliest (c.leaves.map (·.toNode)) := by
  rw [earliestOf, filterMap_getElem?_range]

/-- **The leader finds the earliest next event** of all leaves among the notes of the
workers. -/
theorem foldr_minima {c : Crew τ σ} {minima : List Instant} (items : Nat → List Nat)
    (workers : Nat) (hlength : minima.length = workers)
    (hitems : (List.range workers).flatMap items = List.range c.leaves.length)
    (hnoted : ∀ k < workers, minima[k]? = some (earliestOf c (items k))) :
    minima.foldr min .max = Hub.earliest (c.leaves.map (·.toNode)) := by
  have hminima : minima = (List.range workers).map fun k => earliestOf c (items k) := by
    refine List.ext_getElem? fun k => ?_
    rw [List.getElem?_map]
    by_cases hk : k < workers
    · rw [hnoted k hk, List.getElem?_range hk]
      rfl
    · rw [List.getElem?_eq_none (by omega), List.getElem?_eq_none (by simpa using hk)]
      rfl
  have hfold : ∀ ks : List Nat, (ks.map fun k => earliestOf c (items k)).foldr min .max
      = earliestOf c (ks.flatMap items) := by
    intro ks
    induction ks with
    | nil => rfl
    | cons k ks ih => rw [List.map_cons, List.foldr_cons, ih, List.flatMap_cons, earliestOf_append]
  rw [hminima, hfold, hitems, earliestOf_range]

end Shift

end DiscreteEvent
