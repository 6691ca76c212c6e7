/-
Bags that fit their ports.

A bag is asked for by name and type, or by place, and messages are copied from
one bag to another without a look at their types. What makes all of this safe
is `Bags.Fits`: the bags stand for exactly the given ports, and each holds
messages of the type of its port only. Every operation keeps it, and on fitting
bags no operation faults: a declared port is found (`Fits.find`), an output to
declared ports is written to its end (`Fits.write`), and a transfer between
ports of one type hands over what is in the source (`Fits.transfer`).

Bags without messages are determined by their ports. `Fits.eq_ofPorts` says so,
and it is how "cleared", "empty" and "as created" become one thing.
-/
import DiscreteEvent.Engine.Hub

set_option autoImplicit false

namespace DiscreteEvent

namespace Bags

variable {τ : Type} [MessageType τ]

/-- **The bags of these ports**, with messages of their types. -/
structure Fits (b : Bags τ) (ports : List (Port τ)) : Prop where
  ports_eq : b.list.map (·.port) = ports
  typed : ∀ bag ∈ b.list, ∀ m ∈ bag.messages, m.type = bag.port.type

variable {b : Bags τ} {ports : List (Port τ)}

/-! ## Places -/

theorem Fits.length_eq (h : b.Fits ports) : b.list.length = ports.length := by
  rw [← h.ports_eq, List.length_map]

/-- Behind every port there is a bag. -/
theorem Fits.exists_bag (h : b.Fits ports) {i : Nat} {p : Port τ} (hp : ports[i]? = some p) :
    ∃ bag, b.list[i]? = some bag ∧ bag.port = p := by
  rw [← h.ports_eq, List.getElem?_map, Option.map_eq_some_iff] at hp
  exact hp

theorem messagesAt_of_getElem? {i : Nat} {bag : Bag τ} (h : b.list[i]? = some bag) :
    b.messagesAt i = bag.messages := by
  rw [messagesAt, h]

theorem messagesAt_of_length_le {i : Nat} (h : b.list.length ≤ i) : b.messagesAt i = [] := by
  rw [messagesAt, List.getElem?_eq_none h]

theorem Fits.type_eq (h : b.Fits ports) {i : Nat} {p : Port τ} (hp : ports[i]? = some p)
    {m : Message τ} (hm : m ∈ b.messagesAt i) : m.type = p.type := by
  obtain ⟨bag, hbag, rfl⟩ := h.exists_bag hp
  rw [messagesAt_of_getElem? hbag] at hm
  exact h.typed bag (List.mem_of_getElem? hbag) m hm

/-- Bags with the same ports and the same messages are the same. -/
theorem Fits.ext {x y : Bags τ} (hx : x.Fits ports)
    (hy : y.Fits ports) (h : ∀ q < ports.length, x.messagesAt q = y.messagesAt q) : x = y := by
  obtain ⟨xs⟩ := x
  obtain ⟨ys⟩ := y
  congr 1
  refine List.ext_getElem? fun q => ?_
  by_cases hq : q < ports.length
  · obtain ⟨bx, hbx, hpx⟩ := hx.exists_bag (List.getElem?_eq_getElem hq)
    obtain ⟨y, hby, hpy⟩ := hy.exists_bag (List.getElem?_eq_getElem hq)
    have hm := h q hq
    rw [messagesAt_of_getElem? hbx, messagesAt_of_getElem? hby] at hm
    obtain ⟨px, mx⟩ := bx
    obtain ⟨py, my⟩ := y
    cases hpx.trans hpy.symm
    cases hm
    exact hbx.trans hby.symm
  · have hlx : xs.length = ports.length := hx.length_eq
    have hly : ys.length = ports.length := hy.length_eq
    rw [List.getElem?_eq_none (by omega), List.getElem?_eq_none (by omega)]

/-! ## Empty bags -/

theorem isEmpty_iff : b.isEmpty = true ↔ ∀ i, b.messagesAt i = [] := by
  rw [isEmpty, List.all_eq_true]
  constructor
  · intro h i
    rw [messagesAt]
    split
    case h_1 => rfl
    case h_2 bag hbag => exact List.isEmpty_iff.mp (h bag (List.mem_of_getElem? hbag))
  · intro h bag hbag
    obtain ⟨i, hi⟩ := List.getElem?_of_mem hbag
    rw [List.isEmpty_iff, ← messagesAt_of_getElem? hi]
    exact h i

theorem fits_ofPorts (ports : List (Port τ)) : (ofPorts ports).Fits ports where
  ports_eq := by
    rw [ofPorts, List.map_map]
    exact List.map_id _
  typed bag hbag m hm := by
    obtain ⟨p, -, rfl⟩ := List.mem_map.mp hbag
    exact absurd hm List.not_mem_nil

@[simp] theorem messagesAt_ofPorts (ports : List (Port τ)) (i : Nat) :
    (ofPorts ports).messagesAt i = [] := by
  rw [messagesAt, ofPorts, List.getElem?_map]
  cases ports[i]? <;> rfl

@[simp] theorem isEmpty_ofPorts (ports : List (Port τ)) : (ofPorts ports).isEmpty = true :=
  isEmpty_iff.mpr (messagesAt_ofPorts ports)

@[simp] theorem isEmpty_clear (b : Bags τ) : b.clear.isEmpty = true := by
  rw [isEmpty, clear, List.all_map]
  exact List.all_eq_true.mpr fun _ _ => rfl

/-- Clearing leaves the ports and nothing else. -/
theorem Fits.clear (h : b.Fits ports) : b.clear = ofPorts ports := by
  rw [Bags.clear, ofPorts, ← h.ports_eq, List.map_map]
  rfl

theorem Fits.cleared (h : b.Fits ports) : b.clear.Fits ports := h.clear ▸ fits_ofPorts ports

/-- **Fitting bags without messages are those that an engine starts with.** -/
theorem Fits.eq_ofPorts (h : b.Fits ports) (he : b.isEmpty = true) : b = ofPorts ports := by
  rw [← h.clear, Bags.clear]
  have hid : ∀ bag ∈ b.list, { bag with messages := [] } = id bag := by
    intro bag hbag
    rw [isEmpty, List.all_eq_true] at he
    rw [← List.isEmpty_iff.mp (he bag hbag), id]
  rw [List.map_congr_left hid, List.map_id]

/-! ## Adding messages -/

/-- The other ports are left alone, also by messages for a port that does not exist. -/
theorem messagesAt_append_of_ne (b : Bags τ) {i j : Nat} (ms : List (Message τ)) (h : i ≠ j) :
    (b.append i ms).messagesAt j = b.messagesAt j := by
  rw [messagesAt, messagesAt, Bags.append, List.getElem?_modify_ne _ _ h]

/-- Messages of the port's type keep the bags fitting. -/
theorem Fits.append (h : b.Fits ports) {i : Nat} {ms : List (Message τ)}
    (hms : ∀ p, ports[i]? = some p → ∀ m ∈ ms, m.type = p.type) : (b.append i ms).Fits ports where
  ports_eq := by
    rw [← h.ports_eq]
    refine List.ext_getElem? fun j => ?_
    rw [Bags.append, List.getElem?_map, List.getElem?_map, List.getElem?_modify]
    cases b.list[j]? with
    | none => rfl
    | some bag => by_cases hij : i = j <;> simp [hij]
  typed bag hbag m hm := by
    obtain ⟨j, hj⟩ := List.getElem?_of_mem hbag
    rw [Bags.append, List.getElem?_modify, Option.map_eq_map, Option.map_eq_some_iff] at hj
    obtain ⟨old, hold, rfl⟩ := hj
    have hport : ports[j]? = some old.port := by
      rw [← h.ports_eq, List.getElem?_map, hold, Option.map_some]
    by_cases hij : i = j
    · subst hij
      simp only [if_pos, List.mem_append] at hm ⊢
      rcases hm with hm | hm
      · exact h.typed old (List.mem_of_getElem? hold) m hm
      · exact hms old.port hport m hm
    · simp only [if_neg hij] at hm ⊢
      exact h.typed old (List.mem_of_getElem? hold) m hm

/-- Adding messages many times: on each port, those for it in the order in which they came. -/
theorem messagesAt_foldl_append {α : Type} (place : α → Nat) (load : α → List (Message τ))
    (as : List α) : ∀ (b : Bags τ) {q : Nat}, q < b.list.length →
      (as.foldl (fun b a => b.append (place a) (load a)) b).messagesAt q
        = b.messagesAt q ++ (as.filter (place · == q)).flatMap load := by
  induction as with
  | nil =>
      intro b q _
      rw [List.foldl_nil, List.filter_nil, List.flatMap_nil, List.append_nil]
  | cons a as ih =>
      intro b q hq
      rw [List.foldl_cons, ih _ (by rw [length_append]; exact hq), List.filter_cons]
      by_cases ha : place a = q
      · subst ha
        rw [messagesAt_append b _ _ _ hq, if_pos rfl, if_pos (by simp), List.flatMap_cons,
          List.append_assoc]
      · rw [if_neg (by simpa using ha), messagesAt_append_of_ne b _ ha]

/-- **A declared port is found**, when no two ports share a name. -/
theorem Fits.find (h : b.Fits ports) (hn : (ports.map (·.name)).Nodup) {i : Nat} {p : Port τ}
    (hi : ports[i]? = some p) : ∃ bag, b.find p = .ok (i, bag) ∧ b.list[i]? = some bag := by
  obtain ⟨bag, hbag, hport⟩ := h.exists_bag hi
  have hlt : i < b.list.length := (List.getElem?_eq_some_iff.mp hbag).1
  -- Whatever bag of this name comes first, names being distinct it is this one.
  have hplace : b.place? p.name = some i := by
    rw [place?, List.findIdx?_eq_some_iff_getElem]
    refine ⟨hlt, ?_, fun j hj => ?_⟩
    · rw [(List.getElem?_eq_some_iff.mp hbag).2, hport, beq_iff_eq]
    · intro hname
      rw [beq_iff_eq] at hname
      have hj' : ports[j]? = some b.list[j].port := by
        rw [← h.ports_eq, List.getElem?_map, List.getElem?_eq_getElem (by omega), Option.map_some]
      have hjn : (ports.map (·.name))[j]? = (ports.map (·.name))[i]? := by
        rw [List.getElem?_map, List.getElem?_map, hi, hj', Option.map_some, Option.map_some, hname]
      have hjlt : j < (ports.map (·.name)).length := by
        rw [List.length_map, ← h.length_eq]
        omega
      exact absurd ((List.getElem?_inj hjlt hn).mp hjn) (by omega)
  refine ⟨bag, ?_, hbag⟩
  rw [Bags.find, hplace]
  simp only [hbag, hport, if_true]

/-- A declared port can be read. -/
theorem Fits.get (h : b.Fits ports) (hn : (ports.map (·.name)).Nodup) {i : Nat} {p : Port τ}
    (hi : ports[i]? = some p) :
    b.get p = .ok ((b.messagesAt i).filterMap (Message.value? p.type)) := by
  obtain ⟨bag, hfind, hbag⟩ := h.find hn hi
  rw [Bags.get, hfind, messagesAt_of_getElem? hbag]

/-- Values for a declared port are added. -/
theorem Fits.extend (h : b.Fits ports) (hn : (ports.map (·.name)).Nodup) {p : Port τ}
    (hp : p ∈ ports) (vs : List (MessageType.Value p.type)) :
    ∃ i, b.extend p vs = .ok (b.append i (vs.map (Message.mk p.type))) ∧
      (b.append i (vs.map (Message.mk p.type))).Fits ports := by
  obtain ⟨i, hi⟩ := List.getElem?_of_mem hp
  obtain ⟨bag, hfind, -⟩ := h.find hn hi
  refine ⟨i, by rw [Bags.extend, hfind], h.append fun q hq m hm => ?_⟩
  rw [hi] at hq
  cases hq
  obtain ⟨v, -, rfl⟩ := List.mem_map.mp hm
  rfl

/-- **An output to declared ports is written to its end.** -/
theorem Fits.write (hn : (ports.map (·.name)).Nodup) {es : List (Emission τ)} :
    ∀ {b : Bags τ}, b.Fits ports → (∀ e ∈ es, e.port ∈ ports) →
      (b.write es).2 = none ∧ (b.write es).1.Fits ports := by
  induction es with
  | nil => exact fun h _ => ⟨rfl, h⟩
  | cons e es ih =>
      intro b h hes
      obtain ⟨i, hx, hfits⟩ := h.extend hn (hes e (by simp)) e.values
      rw [Bags.write, hx]
      exact ih hfits fun e' he' => hes e' (by simp [he'])

/-! ## Copying -/

/-- **A transfer between ports of one type** hands over what is in the source. -/
theorem Fits.transfer {source target : Bags τ} {ps qs : List (Port τ)} (hs : source.Fits ps)
    (ht : target.Fits qs) {i j : Nat} {p q : Port τ} (hp : ps[i]? = some p)
    (hq : qs[j]? = some q) (htype : p.type = q.type) :
    DiscreteEvent.transfer source.list[i]? target.list[j]? = .ok (source.messagesAt i) := by
  obtain ⟨x, hx, rfl⟩ := hs.exists_bag hp
  obtain ⟨y, hy, rfl⟩ := ht.exists_bag hq
  rw [messagesAt_of_getElem? hx, hx, hy, DiscreteEvent.transfer, if_pos htype]

end Bags

end DiscreteEvent
