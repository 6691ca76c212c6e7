/-
Up to the order of messages.

Two engines may follow their routes in different orders, and then the bags that they
fire on have the same messages in different orders. Such bags are `Bags.Alike`, and
records in which only this is different are `Record.Alike`. A leaf whose model does not
look at the order goes from alike bags into the same state (`Leaf.moved_congr`), and what
it reports is alike (`Leaf.moveEffect_congr`).
-/
import DiscreteEvent.Proofs.Engine.Attribution

set_option autoImplicit false

namespace DiscreteEvent

variable {τ σ : Type} [MessageType τ]

/-! ## Records -/

/-- The same messages on a port, in whatever order. -/
structure BagRecord.Alike (x y : BagRecord) : Prop where
  direction : x.direction = y.direction
  port : x.port = y.port
  messages : x.messages.Perm y.messages

/-- **The same report**, up to the order of messages within a bag. -/
structure Record.Alike (x y : Record) : Prop where
  phase : x.phase = y.phase
  path : x.path = y.path
  time : x.time = y.time
  last : x.last = y.last
  next : x.next = y.next
  state : x.state = y.state
  bags : List.Forall₂ BagRecord.Alike x.bags y.bags

theorem BagRecord.alike_refl (xs : List BagRecord) : List.Forall₂ BagRecord.Alike xs xs :=
  List.forall₂_same.mpr fun _ _ => ⟨rfl, rfl, List.Perm.refl _⟩

theorem Record.alike_refl (r : Record) : r.Alike r :=
  ⟨rfl, rfl, rfl, rfl, rfl, rfl, BagRecord.alike_refl _⟩

/-- Alike bags of the same ports, bag by bag. -/
theorem Bags.Alike.forall₂ {x y : Bags τ} {ports : List (Port τ)} (h : x.Alike y)
    (hx : x.Fits ports) (hy : y.Fits ports) :
    List.Forall₂ (fun b b' : Bag τ => b.port = b'.port ∧ b.messages.Perm b'.messages)
      x.list y.list := by
  refine List.forall₂_of_length_eq_of_get (hx.length_eq.trans hy.length_eq.symm)
    fun i hi hi' => ⟨?_, ?_⟩
  · have hport := congrArg (·[i]?) (hx.ports_eq.trans hy.ports_eq.symm)
    simp only [List.getElem?_map, List.getElem?_eq_getElem hi, List.getElem?_eq_getElem hi',
      Option.map_some, Option.some_inj] at hport
    exact hport
  · have hperm := h i
    rw [messagesAt_of_getElem? (List.getElem?_eq_getElem hi),
      messagesAt_of_getElem? (List.getElem?_eq_getElem hi')] at hperm
    exact hperm

/-- **Alike bags are reported alike.** -/
theorem Record.bagsOf_alike {x y : Bags τ} {ports : List (Port τ)} (direction : Direction)
    (h : x.Alike y) (hx : x.Fits ports) (hy : y.Fits ports) :
    List.Forall₂ BagRecord.Alike (bagsOf direction x) (bagsOf direction y) := by
  rw [bagsOf, bagsOf, Bags.render, Bags.render]
  have hbags := h.forall₂ hx hy
  generalize x.list = xs at hbags
  generalize y.list = ys at hbags
  induction hbags with
  | nil => exact .nil
  | @cons b b' _ _ hb _ ih =>
      have hempty : b.messages.isEmpty = b'.messages.isEmpty := by
        rw [Bool.eq_iff_iff, List.isEmpty_iff, List.isEmpty_iff]
        constructor
        · exact fun he => (he ▸ hb.2).nil_eq.symm
        · exact fun he => (he ▸ hb.2.symm).nil_eq.symm
      rw [List.filter_cons, List.filter_cons, hempty]
      split
      · exact .cons ⟨rfl, congrArg Port.name hb.1, hb.2.map _⟩ ih
      · exact ih

/-! ## Leaves -/

namespace Leaf

variable [AtomicModel τ σ] {good : Interface τ → Stage → σ → Prop} {i : Interface τ}
  {l : Leaf τ σ} {t : Instant} {x y : Bags τ}

/-- **The transition of a leaf** does not depend on the order of its input. -/
theorem transition_congr (hc : Contract good) (ho : OrderFree good)
    (hs : Sound good i { l with inbox := x }) (hi : l.initialized = true) (hy : y.Fits i.inputs)
    (h : x.Alike y) : transition t { l with inbox := x } = transition t { l with inbox := y } := by
  have hdue : ∀ z, Node.isImminent { l.toNode with inbox := z } t = l.isImminent t := fun _ => rfl
  rw [transition, transition, hdue x, hdue y]
  by_cases himm : l.isImminent t = true
  · obtain ⟨d, hg, -⟩ := hs.of_imminent hi himm
    have hexternal := ho.external .zero (hc.internal hg).2 hs.inbox hy h
    simp only [if_pos himm, h.isEmpty_eq, hexternal]
  · obtain ⟨g, hg⟩ := hs.exists_good
    rw [if_neg himm, if_neg himm]
    exact ho.external _ hg hs.inbox hy h

omit [AtomicModel τ σ] in
/-- Whether a leaf has anything to do does not depend on the order of its input. -/
theorem idle_congr (h : x.Alike y) :
    idle t { l with inbox := x } = idle t { l with inbox := y } := by
  rw [idle, idle, h.isEmpty_eq]
  rfl

/-- **A leaf moves to the same state** on alike input. -/
theorem moved_congr (hc : Contract good) (ho : OrderFree good)
    (hs : Sound good i { l with inbox := x }) (hi : l.initialized = true) (hy : y.Fits i.inputs)
    (h : x.Alike y) : moved t { l with inbox := x } = moved t { l with inbox := y } := by
  have hidle := idle_congr (l := l) (t := t) h
  rw [moved, moved, hidle, transition_congr hc ho hs hi hy h]
  split
  · rename_i hnone
    have hempty := hnone
    rw [idle, Bool.and_eq_true] at hempty
    have hx : x = .ofPorts i.inputs := hs.inbox.eq_ofPorts (h.isEmpty_eq.trans hempty.1)
    rw [hx, hy.eq_ofPorts hempty.1]
  · have hclear : x.clear = y.clear := hs.inbox.clear.trans hy.clear.symm
    rw [settle, settle, hclear]

/-- **A leaf reports the same** on alike input, up to the order of the messages. -/
theorem moveEffect_congr (hc : Contract good) (ho : OrderFree good)
    (hs : Sound good i { l with inbox := x }) (hi : l.initialized = true) (hy : y.Fits i.inputs)
    (h : x.Alike y) :
    List.Forall₂ Record.Alike ((moveEffect t { l with inbox := x }).recordsAt [])
        ((moveEffect t { l with inbox := y }).recordsAt []) ∧
      (moveEffect t { l with inbox := x }).interrupts
        = (moveEffect t { l with inbox := y }).interrupts := by
  have hidle := idle_congr (l := l) (t := t) h
  rw [moveEffect, moveEffect, hidle, transition_congr hc ho hs hi hy h]
  split
  · exact ⟨.nil, rfl⟩
  · exact ⟨.cons ⟨rfl, rfl, rfl, rfl, rfl, rfl, Record.bagsOf_alike .input h hs.inbox hy⟩ .nil, rfl⟩

end Leaf

end DiscreteEvent
