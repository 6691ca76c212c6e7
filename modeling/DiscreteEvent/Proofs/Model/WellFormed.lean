/-
Which descriptions are models, and what is wrong with the others.

`Blueprint.build` looks names up one by one and stops at the first defect. Here is what
it decides, said without looking anything up in an order. `Blueprint.WellFormed` is what
a description must fulfil; `Blueprint.defects` are all the defects it has, in the order
in which a reader meets them: the ports of the boundary, the ids of the children, and then
coupling by coupling what is wrong with the source, with the destination and with the
pair of them.

A computation `Blames` a list of defects if it fails with the first of them, and comes to
its end if there is none. Computations in a row blame the lists put together
(`Except.Blames.bind`, `Except.Blames.mapM`), so `build_blames` follows `build` from its
beginning to its end. The places that `build` finds are the only ones with the names that
were declared (`Blueprint.Resolved`).
-/
import DiscreteEvent.Proofs.Components.Doubler
import Mathlib.Data.List.Nodup

set_option autoImplicit false

namespace DiscreteEvent

variable {τ σ : Type}

/-! ## Computations and their defects -/

/-- **A computation fails with the first of the defects**, and only with that. -/
def Except.Blames {ε α : Type} (x : Except ε α) (ds : List ε) : Prop :=
  ∀ d, x = .error d ↔ ds.head? = some d

namespace Except.Blames

variable {ε α β : Type}

theorem ok (a : α) : Blames (.ok a : Except ε α) [] :=
  fun _ => ⟨nofun, nofun⟩

theorem error (d : ε) (ds : List ε) : Blames (.error d : Except ε α) (d :: ds) := by
  intro e
  rw [List.head?_cons, Except.error.injEq, Option.some_inj]

/-- Without a defect a computation comes to its end. -/
theorem eq_nil_iff {x : Except ε α} {ds : List ε} (h : Blames x ds) :
    ds = [] ↔ ∃ a, x = .ok a := by
  constructor
  · rintro rfl
    cases x with
    | ok a => exact ⟨a, rfl⟩
    | error d => exact nomatch (h d).mp rfl
  · rintro ⟨a, rfl⟩
    cases ds with
    | nil => rfl
    | cons d ds => exact nomatch (h d).mpr rfl

/-- **Two computations in a row.** The second one begins only if the first one has no
defect to report. -/
theorem bind {x : Except ε α} {f : α → Except ε β} {ds es : List ε} (hx : Blames x ds)
    (hf : ∀ a, x = .ok a → Blames (f a) es) : Blames (x >>= f) (ds ++ es) := by
  cases x with
  | ok a =>
      rw [hx.eq_nil_iff.mpr ⟨a, rfl⟩, List.nil_append]
      exact hf a rfl
  | error d =>
      obtain ⟨ds', rfl⟩ := List.head?_eq_some_iff.mp ((hx d).mp rfl)
      exact error d _

/-- A computation after which only the result is put together. -/
theorem bind_ok {x : Except ε α} {f : α → Except ε β} {ds : List ε} (hx : Blames x ds)
    (hf : ∀ a, ∃ b, f a = .ok b) : Blames (x >>= f) ds := by
  have h : Blames (x >>= f) (ds ++ []) := hx.bind fun a _ => by
    obtain ⟨b, hb⟩ := hf a
    exact hb ▸ ok b
  rwa [List.append_nil] at h

/-- **One computation for each element of a list.** -/
theorem mapM {f : α → Except ε β} {g : α → List ε} (h : ∀ a, Blames (f a) (g a)) (as : List α) :
    Blames (as.mapM f) (as.flatMap g) := by
  induction as with
  | nil =>
      rw [List.mapM_nil]
      exact ok _
  | cons a as ih =>
      rw [List.mapM_cons, List.flatMap_cons]
      refine (h a).bind fun b _ => ?_
      rw [← List.append_nil (as.flatMap g)]
      exact ih.bind fun bs _ => ok _

end Except.Blames

/-- Results that belong to the elements of a list, one by one. -/
theorem Except.forall₂_of_mapM {ε α β : Type} {f : α → Except ε β} {R : α → β → Prop}
    (h : ∀ a b, f a = .ok b → R a b) {as : List α} :
    ∀ {bs : List β}, as.mapM f = .ok bs → List.Forall₂ R as bs := by
  induction as with
  | nil =>
      intro bs hbs
      rw [List.mapM_nil] at hbs
      cases hbs
      exact .nil
  | cons a as ih =>
      intro bs hbs
      rw [List.mapM_cons] at hbs
      obtain ⟨b, hb, hbs⟩ := bind_eq_ok.mp hbs
      obtain ⟨bs', hbs', hbs⟩ := bind_eq_ok.mp hbs
      cases hbs
      exact .cons (h a b hb) (ih hbs')

/-! ## Names that occur again -/

/-- The name at a place, if it occurred before. -/
def againAt (names : List String) (i : Nat) : Option String :=
  names[i]?.filter (· ∈ names.take i)

/-- **The names that occur again**, in the order of these occurrences. -/
def repeatedNames (names : List String) : List String :=
  (List.range names.length).filterMap (againAt names)

/-- The first of them is what a reader finds who keeps what he has seen. -/
theorem firstRepeated_eq_head? (seen names : List String) :
    Interface.firstRepeated seen names
      = ((List.range names.length).filterMap fun i =>
          names[i]?.filter fun n => n ∈ seen ++ names.take i).head? := by
  induction names generalizing seen with
  | nil => rfl
  | cons name names ih =>
      rw [Interface.firstRepeated, List.length_cons, List.range_succ_eq_map, List.filterMap_cons,
        List.filterMap_map]
      by_cases h : name ∈ seen
      · have hfirst : (name :: names)[0]?.filter (· ∈ seen ++ (name :: names).take 0)
            = some name := by
          simp [Option.filter, h]
        rw [if_pos h, hfirst, List.head?_cons]
      · have hfirst : (name :: names)[0]?.filter (· ∈ seen ++ (name :: names).take 0) = none := by
          simp [Option.filter, h]
        rw [if_neg h, ih, hfirst]
        congr 2
        funext i
        simp only [Function.comp, List.getElem?_cons_succ, List.take_succ_cons, List.mem_append,
          List.mem_cons]
        congr 1
        funext n
        rw [decide_eq_decide]
        tauto

theorem firstRepeated_nil (names : List String) :
    Interface.firstRepeated [] names = (repeatedNames names).head? :=
  firstRepeated_eq_head? [] names

/-- No name occurs again in a list without duplicates, and in no other. -/
theorem repeatedNames_eq_nil_iff (names : List String) :
    repeatedNames names = [] ↔ names.Nodup := by
  rw [← List.head?_eq_none_iff, ← firstRepeated_nil, Interface.firstRepeated_eq_none_iff]
  simp

theorem Interface.Distinct.nodup {i : Interface τ} (h : i.Distinct) (direction : Direction) :
    ((i.ports direction).map (·.name)).Nodup := by
  cases direction with
  | input => exact h.inputs
  | output => exact h.outputs

/-! ## Finding by a key -/

section Find

variable {α : Type} {key : α → String} {xs : List α} {k : String}

/-- The entry at the first place with a property is the first one that has it. -/
theorem find?_of_findIdx? {p : α → Bool} {i : Nat} (h : xs.findIdx? p = some i) :
    ∃ x, xs[i]? = some x ∧ xs.find? p = some x := by
  obtain ⟨hi, hp, hbefore⟩ := List.findIdx?_eq_some_iff_getElem.mp h
  refine ⟨xs[i], List.getElem?_eq_getElem hi, ?_⟩
  rw [List.find?_eq_some_iff_getElem]
  exact ⟨hp, i, hi, rfl, fun j hj => by simpa using hbefore j hj⟩

/-- In a list without duplicates exactly the entry with a key is found. -/
theorem find?_eq_some_iff_of_nodup (hnodup : (xs.map key).Nodup) {x : α} :
    xs.find? (key · == k) = some x ↔ x ∈ xs ∧ key x = k := by
  have hkey : ∀ {y}, xs.find? (key · == k) = some y → key y = k := by
    intro y hy
    simpa using List.find?_some hy
  constructor
  · intro h
    exact ⟨List.mem_of_find?_eq_some h, hkey h⟩
  · rintro ⟨hx, rfl⟩
    have hsome : (xs.find? (key · == key x)).isSome = true :=
      List.find?_isSome.mpr ⟨x, hx, beq_iff_eq.mpr rfl⟩
    obtain ⟨y, hy⟩ := Option.isSome_iff_exists.mp hsome
    rw [hy, List.inj_on_of_nodup_map hnodup (List.mem_of_find?_eq_some hy) hx (hkey hy)]

/-- `i` is the place of the one entry with the key `k`. -/
def OnlyAt {α κ : Type} (key : α → κ) (xs : List α) (k : κ) (i : Nat) : Prop :=
  ∀ j, (∃ x, xs[j]? = some x ∧ key x = k) ↔ j = i

theorem onlyAt_of_findIdx? {i : Nat} (hnodup : (xs.map key).Nodup)
    (h : xs.findIdx? (key · == k) = some i) : OnlyAt key xs k i := by
  obtain ⟨hi, hk, -⟩ := List.findIdx?_eq_some_iff_getElem.mp h
  rw [beq_iff_eq] at hk
  intro j
  constructor
  · rintro ⟨x, hx, hkey⟩
    obtain ⟨hj, rfl⟩ := List.getElem?_eq_some_iff.mp hx
    rw [← hk] at hkey
    have hj' : j < (xs.map key).length := by rw [List.length_map]; exact hj
    have hi' : i < (xs.map key).length := by rw [List.length_map]; exact hi
    have hsame : (xs.map key)[j] = (xs.map key)[i] := by
      rw [List.getElem_map, List.getElem_map, hkey]
    exact hnodup.getElem_inj_iff.mp hsame
  · rintro rfl
    exact ⟨_, List.getElem?_eq_getElem hi, hk⟩

end Find

namespace Blueprint

/-! ## Well-formed descriptions -/

/-- **The models of which a coupling can name ports**: the coupled model itself, when no
child is named, and the children under their ids. -/
inductive Hosts (b : Blueprint τ σ) : Option String → Interface τ → Prop
  | boundary : Hosts b none b.interface
  | child {m : Model τ σ} (hm : m ∈ b.children) : Hosts b (some m.id) m.interface

/-- An end of a coupling names a port on one side of a model that is there. -/
def Declares {ε : Type} [LinkEnd ε] (b : Blueprint τ σ) (direction : Direction) (e : ε)
    (p : Port τ) : Prop :=
  ∃ i, b.Hosts (LinkEnd.model? e) i ∧ p ∈ i.ports direction ∧ p.name = LinkEnd.port e

/-- **A coupling is in order**: both ends name ports on the right sides, and the messages
are of one type. -/
def Joins {α β : Type} [LinkEnd α] [LinkEnd β] (b : Blueprint τ σ) (source destination : Direction)
    (l : Link α β) : Prop :=
  ∃ p q, b.Declares source l.source p ∧ b.Declares destination l.destination q ∧ p.type = q.type

/-- **A description that is in order.** -/
structure WellFormed (b : Blueprint τ σ) : Prop where
  inputs : (b.interface.inputs.map (·.name)).Nodup
  outputs : (b.interface.outputs.map (·.name)).Nodup
  children : (b.children.map Model.id).Nodup
  eic : ∀ l ∈ b.eic, b.Joins .input .input l
  eoc : ∀ l ∈ b.eoc, b.Joins .output .output l
  ic : ∀ l ∈ b.ic, b.Joins .output .input l
  apart : ∀ l ∈ b.ic, l.source.child ≠ l.destination.child

/-! ## Resolved couplings -/

/-- The slot of a port of the boundary. -/
structure IsBoundarySlot (b : Blueprint τ σ) (direction : Direction) (e : BoundaryPort)
    (s : BoundarySlot) : Prop where
  named : s.named = e
  port : OnlyAt (·.name) (b.interface.ports direction) e.port s.place

/-- The slot of a port of a child. -/
structure IsChildSlot (b : Blueprint τ σ) (direction : Direction) (e : ChildPort)
    (s : ChildSlot) : Prop where
  named : s.named = e
  child : OnlyAt Model.id b.children e.child s.place.child
  port : ∃ m, b.children[s.place.child]? = some m ∧
    OnlyAt (·.name) (m.interface.ports direction) e.port s.place.port

/-- **A resolved coupling** has the slots of the ends that were declared. -/
structure Resolved {α β α' β' : Type} (source : α → α' → Prop) (destination : β → β' → Prop)
    (l : Link α β) (r : Link α' β') : Prop where
  source : source l.source r.source
  destination : destination l.destination r.destination

/-! ## All defects -/

/-- What is wrong with the name of a port on one side of a model. -/
def portDefects (id : String) (i : Interface τ) (direction : Direction) (name : String) :
    List Defect :=
  if name ∈ (i.ports direction).map (·.name) then []
  else if name ∈ (i.ports direction.opposite).map (·.name) then [.portDirection id name direction]
  else [.unknownPort id name direction]

/-- What is wrong with one end of a coupling. -/
def endDefects {ε : Type} [LinkEnd ε] (b : Blueprint τ σ) (direction : Direction) (e : ε) :
    List Defect :=
  match LinkEnd.model? e with
  | none => portDefects b.id b.interface direction (LinkEnd.port e)
  | some id =>
    match b.children.find? (·.id == id) with
    | none => [.unknownModel b.id id]
    | some m => portDefects id m.interface direction (LinkEnd.port e)

/-- The port that an end of a coupling names. -/
def portOf? {ε : Type} [LinkEnd ε] (b : Blueprint τ σ) (direction : Direction) (e : ε) :
    Option (Port τ) :=
  match LinkEnd.model? e with
  | none => (b.interface.ports direction).find? (·.name == LinkEnd.port e)
  | some id => (b.children.find? (·.id == id)).bind fun m =>
      (m.interface.ports direction).find? (·.name == LinkEnd.port e)

/-- An end in full: the model, which for the boundary is the coupled model, and the port. -/
def fullName {ε : Type} [LinkEnd ε] (b : Blueprint τ σ) (e : ε) : String :=
  (LinkEnd.model? e).getD b.id ++ "." ++ LinkEnd.port e

variable [MessageType τ]

/-- What is wrong with the types of the messages on a coupling. -/
def typeDefects {α β : Type} [LinkEnd α] [LinkEnd β] (b : Blueprint τ σ)
    (source destination : Direction) (l : Link α β) : List Defect :=
  match b.portOf? source l.source, b.portOf? destination l.destination with
  | some p, some q =>
    if p.type = q.type then []
    else [.portTypeMismatch (b.fullName l.source) (MessageType.name p.type)
      (b.fullName l.destination) (MessageType.name q.type)]
  | _, _ => []

/-- What is wrong with a coupling between the boundary and a child. -/
def externalDefects {α β : Type} [LinkEnd α] [LinkEnd β] (b : Blueprint τ σ)
    (direction : Direction) (l : Link α β) : List Defect :=
  b.endDefects direction l.source ++ b.endDefects direction l.destination ++
    b.typeDefects direction direction l

/-- What is wrong with a coupling between two children. -/
def internalDefects (b : Blueprint τ σ) (l : Link ChildPort ChildPort) : List Defect :=
  b.endDefects .output l.source ++ b.endDefects .input l.destination ++
    (if l.source.child = l.destination.child then [.selfLoop b.id l.source.child] else []) ++
    b.typeDefects .output .input l

/-- **All defects of a description**, in the order in which they are met. -/
def defects (b : Blueprint τ σ) : List Defect :=
  (repeatedNames (b.interface.inputs.map (·.name))).map (.duplicatePort b.id · .input) ++
  (repeatedNames (b.interface.outputs.map (·.name))).map (.duplicatePort b.id · .output) ++
  (repeatedNames (b.children.map Model.id)).map (.duplicateModelId b.id ·) ++
  b.eic.flatMap (b.externalDefects .input) ++
  b.eoc.flatMap (b.externalDefects .output) ++
  b.ic.flatMap b.internalDefects

/-! ## Looking up blames what is wrong -/

section

omit [MessageType τ]

theorem mem_names_iff {ports : List (Port τ)} {name : String} :
    name ∈ ports.map (·.name) ↔ ports.findIdx? (·.name == name) ≠ none := by
  rw [ne_eq, List.findIdx?_eq_none_iff, List.mem_map]
  constructor
  · rintro ⟨p, hp, rfl⟩ hnone
    simpa using hnone p hp
  · intro h
    by_contra hnot
    exact h fun p hp => by simpa using fun he => hnot ⟨p, hp, he⟩

theorem locatePort_blames (id : String) (i : Interface τ) (direction : Direction)
    (name : String) :
    Except.Blames (locatePort id i direction name) (portDefects id i direction name) := by
  unfold locatePort portDefects
  -- The port is there, or the other side has it, or neither side has.
  split
  case h_1 place hplace =>
    rw [if_pos (mem_names_iff.mpr (by rw [hplace]; exact nofun))]
    obtain ⟨p, hp, -⟩ := find?_of_findIdx? hplace
    rw [hp]
    exact .ok _
  case h_2 hnone =>
    rw [if_neg fun h => mem_names_iff.mp h hnone, Interface.position?]
    split
    case h_1 hopposite =>
      rw [if_pos (mem_names_iff.mpr (by rw [hopposite]; exact nofun))]
      exact .error _ _
    case h_2 hopposite =>
      rw [if_neg fun h => mem_names_iff.mp h hopposite]
      exact .error _ _

theorem locateBoundary_blames (b : Blueprint τ σ) (direction : Direction) (e : BoundaryPort) :
    Except.Blames (b.locateBoundary direction e) (b.endDefects direction e) :=
  (locatePort_blames b.id b.interface direction e.port).bind_ok fun _ => ⟨_, rfl⟩

theorem locateChild_blames (b : Blueprint τ σ) (direction : Direction) (e : ChildPort) :
    Except.Blames (b.locateChild direction e) (b.endDefects direction e) := by
  have hmodel : LinkEnd.model? e = some e.child := rfl
  unfold locateChild endDefects
  rw [hmodel]
  split
  case h_1 hnone =>
    have hfind : b.children.find? (·.id == e.child) = none := by
      rw [List.find?_eq_none]
      exact fun m hm => by simpa using List.findIdx?_eq_none_iff.mp hnone m hm
    simp only [hfind]
    exact .error _ _
  case h_2 child hchild =>
    obtain ⟨m, hm, hfind⟩ := find?_of_findIdx? hchild
    simp only [hm, hfind]
    exact (locatePort_blames e.child m.interface direction e.port).bind_ok fun _ => ⟨_, rfl⟩

/-- What a port is called in full. -/
theorem qualified_eq {ε : Type} [LinkEnd ε] (b : Blueprint τ σ) (e : ε) :
    b.qualified e = b.fullName e := by
  rw [qualified, fullName]
  cases h : LinkEnd.model? e with
  | none => rfl
  | some id => simp only [LinkEnd.display, h, Option.getD_some]

end

/-! ## What a look-up finds -/

section

omit [MessageType τ]

/-- A port was found at the first place that has its name. -/
theorem locatePort_found {id name : String} {i : Interface τ} {direction : Direction} {place : Nat}
    {p : Port τ} (h : locatePort id i direction name = .ok (place, p)) :
    (i.ports direction).findIdx? (·.name == name) = some place ∧
      (i.ports direction).find? (·.name == name) = some p := by
  unfold locatePort at h
  split at h
  case h_1 found hfound =>
    obtain ⟨q, hq, hfind⟩ := find?_of_findIdx? hfound
    rw [hq] at h
    cases h
    exact ⟨hfound, hfind⟩
  case h_2 => split at h <;> cases h

theorem locateBoundary_found {b : Blueprint τ σ} {direction : Direction} {e : BoundaryPort}
    {slot : BoundarySlot} {p : Port τ} (h : b.locateBoundary direction e = .ok (slot, p)) :
    slot.named = e ∧
      (b.interface.ports direction).findIdx? (·.name == e.port) = some slot.place ∧
      b.portOf? direction e = some p := by
  obtain ⟨⟨place, q⟩, hl, hr⟩ := Except.bind_eq_ok.mp h
  cases hr
  obtain ⟨hplace, hfind⟩ := locatePort_found hl
  exact ⟨rfl, hplace, hfind⟩

theorem locateChild_found {b : Blueprint τ σ} {direction : Direction} {e : ChildPort}
    {slot : ChildSlot} {p : Port τ} (h : b.locateChild direction e = .ok (slot, p)) :
    slot.named = e ∧ b.children.findIdx? (·.id == e.child) = some slot.place.child ∧
      (∃ m, b.children[slot.place.child]? = some m ∧
        (m.interface.ports direction).findIdx? (·.name == e.port) = some slot.place.port) ∧
      b.portOf? direction e = some p := by
  unfold locateChild at h
  split at h
  case h_1 => cases h
  case h_2 child hchild =>
    obtain ⟨m, hm, hfind⟩ := find?_of_findIdx? hchild
    rw [hm] at h
    obtain ⟨⟨place, q⟩, hl, hr⟩ := Except.bind_eq_ok.mp h
    cases hr
    obtain ⟨hplace, hport⟩ := locatePort_found hl
    refine ⟨rfl, hchild, ⟨m, hm, hplace⟩, ?_⟩
    have hmodel : LinkEnd.model? e = some e.child := rfl
    simp only [portOf?, hmodel, hfind, Option.bind_some]
    exact hport

end

/-! ## Couplings blame what is wrong -/

theorem checkTypes_blames {α β : Type} [LinkEnd α] [LinkEnd β] {b : Blueprint τ σ}
    {source destination : Direction} {l : Link α β} {p q : Port τ}
    (hp : b.portOf? source l.source = some p)
    (hq : b.portOf? destination l.destination = some q) :
    Except.Blames (b.checkTypes l p q) (b.typeDefects source destination l) := by
  simp only [checkTypes, typeDefects, hp, hq, qualified_eq]
  by_cases h : p.type = q.type
  · rw [if_pos h, if_pos h]
    exact .ok _
  · rw [if_neg h, if_neg h]
    exact .error _ _

/-- After the types only the result is put together. -/
theorem checkTypes_then_blames {α β γ : Type} [LinkEnd α] [LinkEnd β] {b : Blueprint τ σ}
    {source destination : Direction} {l : Link α β} {p q : Port τ} (r : γ)
    (hp : b.portOf? source l.source = some p)
    (hq : b.portOf? destination l.destination = some q) :
    Except.Blames (b.checkTypes l p q >>= fun _ => pure r)
      (b.typeDefects source destination l) :=
  (checkTypes_blames hp hq).bind_ok fun _ => ⟨r, rfl⟩

theorem resolveInput_blames (b : Blueprint τ σ) (l : Link BoundaryPort ChildPort) :
    Except.Blames (b.resolveInput l) (b.externalDefects .input l) := by
  rw [externalDefects, List.append_assoc]
  refine (b.locateBoundary_blames .input l.source).bind ?_
  rintro ⟨source, p⟩ hs
  refine (b.locateChild_blames .input l.destination).bind ?_
  rintro ⟨destination, q⟩ hd
  exact checkTypes_then_blames _ (locateBoundary_found hs).2.2 (locateChild_found hd).2.2.2

theorem resolveOutput_blames (b : Blueprint τ σ) (l : Link ChildPort BoundaryPort) :
    Except.Blames (b.resolveOutput l) (b.externalDefects .output l) := by
  rw [externalDefects, List.append_assoc]
  refine (b.locateChild_blames .output l.source).bind ?_
  rintro ⟨source, p⟩ hs
  refine (b.locateBoundary_blames .output l.destination).bind ?_
  rintro ⟨destination, q⟩ hd
  exact checkTypes_then_blames _ (locateChild_found hs).2.2.2 (locateBoundary_found hd).2.2

omit [MessageType τ] in
/-- Two ends have one child exactly if they name one. -/
theorem child_eq_iff {b : Blueprint τ σ} {d d' : Direction} {e e' : ChildPort}
    {slot slot' : ChildSlot} {p q : Port τ} (h : b.locateChild d e = .ok (slot, p))
    (h' : b.locateChild d' e' = .ok (slot', q)) :
    slot.place.child = slot'.place.child ↔ e.child = e'.child := by
  obtain ⟨-, hchild, -⟩ := locateChild_found h
  obtain ⟨-, hchild', -⟩ := locateChild_found h'
  constructor
  · intro heq
    obtain ⟨hi, hid, -⟩ := List.findIdx?_eq_some_iff_getElem.mp hchild
    obtain ⟨hi', hid', -⟩ := List.findIdx?_eq_some_iff_getElem.mp hchild'
    simp only [heq, beq_iff_eq] at hid hid'
    exact hid.symm.trans hid'
  · intro heq
    rw [heq, hchild'] at hchild
    exact (Option.some_inj.mp hchild).symm

theorem resolveInternal_blames (b : Blueprint τ σ) (l : Link ChildPort ChildPort) :
    Except.Blames (b.resolveInternal l) (b.internalDefects l) := by
  rw [internalDefects, List.append_assoc, List.append_assoc]
  refine (b.locateChild_blames .output l.source).bind ?_
  rintro ⟨source, p⟩ hs
  refine (b.locateChild_blames .input l.destination).bind ?_
  rintro ⟨destination, q⟩ hd
  -- The code compares places, and a reader compares names.
  by_cases hself : source.place.child = destination.place.child
  · have hname := (child_eq_iff hs hd).mp hself
    simp only [if_pos hself, if_pos hname]
    exact .error _ _
  · have hname := mt (child_eq_iff hs hd).mpr hself
    simp only [if_neg hself, if_neg hname, List.nil_append]
    exact checkTypes_then_blames _ (locateChild_found hs).2.2.2 (locateChild_found hd).2.2.2

/-! ## The whole description -/

omit [MessageType τ] in
theorem checkBoundary_blames (b : Blueprint τ σ) : Except.Blames b.checkBoundary
    ((repeatedNames (b.interface.inputs.map (·.name))).map (.duplicatePort b.id · .input) ++
      (repeatedNames (b.interface.outputs.map (·.name))).map (.duplicatePort b.id · .output)) := by
  rw [checkBoundary, Interface.duplicate?, firstRepeated_nil, firstRepeated_nil]
  cases repeatedNames (b.interface.inputs.map (·.name)) with
  | cons name names => exact .error _ _
  | nil =>
      cases repeatedNames (b.interface.outputs.map (·.name)) with
      | cons name names => exact .error _ _
      | nil => exact .ok _

omit [MessageType τ] in
theorem checkChildren_blames (b : Blueprint τ σ) : Except.Blames b.checkChildren
    ((repeatedNames (b.children.map Model.id)).map (.duplicateModelId b.id ·)) := by
  rw [checkChildren, firstRepeated_nil]
  cases repeatedNames (b.children.map Model.id) with
  | cons name names => exact .error _ _
  | nil => exact .ok _

/-- **Building blames the defects of the description.** -/
theorem build_blames (b : Blueprint τ σ) : Except.Blames b.build b.defects := by
  -- The checks stand in a row, and so do the defects that each of them blames.
  have h := b.checkBoundary_blames.bind (f := fun _ => _) fun _ _ =>
    b.checkChildren_blames.bind (f := fun _ => _) fun _ _ =>
      (Except.Blames.mapM b.resolveInput_blames b.eic).bind (f := fun eic => _) fun eic _ =>
        (Except.Blames.mapM b.resolveOutput_blames b.eoc).bind (f := fun eoc => _) fun eoc _ =>
          (Except.Blames.mapM b.resolveInternal_blames b.ic).bind_ok
            (f := fun ic => pure (Model.coupled ⟨b.id, b.interface, eic, eoc, ic⟩ b.children))
            fun ic => ⟨_, rfl⟩
  simp only [← List.append_assoc] at h
  exact h

/-! ## No defects -/

section

omit [MessageType τ]

/-- Something is wrong with an end unless it names a port. -/
theorem endDefects_eq_nil_iff {ε : Type} [LinkEnd ε] (b : Blueprint τ σ) (direction : Direction)
    (e : ε) : b.endDefects direction e = [] ↔ ∃ p, b.portOf? direction e = some p := by
  have hports : ∀ (id : String) (i : Interface τ) (name : String),
      portDefects id i direction name = [] ↔
        ∃ p, (i.ports direction).find? (·.name == name) = some p := by
    intro id i name
    rw [portDefects, ← Option.isSome_iff_exists, List.find?_isSome]
    by_cases h : name ∈ (i.ports direction).map (·.name)
    · rw [if_pos h]
      obtain ⟨p, hp, rfl⟩ := List.mem_map.mp h
      exact ⟨fun _ => ⟨p, hp, beq_self_eq_true _⟩, fun _ => rfl⟩
    · rw [if_neg h]
      refine ⟨fun h' => ?_, fun ⟨p, hp, hname⟩ => absurd (List.mem_map.mpr ⟨p, hp, ?_⟩) h⟩
      · split at h' <;> cases h'
      · exact beq_iff_eq.mp hname
  unfold endDefects portOf?
  split
  case h_1 => exact hports _ _ _
  case h_2 id _ =>
    cases hfind : b.children.find? (·.id == id) with
    | none => exact ⟨nofun, fun ⟨_, hp⟩ => nomatch hp⟩
    | some m => exact hports _ _ _

variable {b : Blueprint τ σ}

theorem portOf?_eq_some_iff (hids : (b.children.map Model.id).Nodup)
    (hboundary : b.interface.Distinct) (hchildren : ∀ m ∈ b.children, m.interface.Distinct)
    {ε : Type} [LinkEnd ε] {direction : Direction} {e : ε} {p : Port τ} :
    b.portOf? direction e = some p ↔ b.Declares direction e p := by
  unfold portOf? Declares
  cases hm : LinkEnd.model? e with
  | none =>
      simp only
      rw [find?_eq_some_iff_of_nodup (hboundary.nodup direction)]
      constructor
      · exact fun h => ⟨_, .boundary, h⟩
      · rintro ⟨i, hi, h⟩
        cases hi
        exact h
  | some id =>
      simp only [Option.bind_eq_some_iff, find?_eq_some_iff_of_nodup hids]
      constructor
      · rintro ⟨m, ⟨hmem, rfl⟩, hp⟩
        rw [find?_eq_some_iff_of_nodup ((hchildren m hmem).nodup direction)] at hp
        exact ⟨_, .child hmem, hp⟩
      · rintro ⟨i, hi, hp⟩
        cases hi with
        | @child m hmem =>
            refine ⟨m, ⟨hmem, rfl⟩, ?_⟩
            rw [find?_eq_some_iff_of_nodup ((hchildren m hmem).nodup direction)]
            exact hp

end

/-- **Nothing is wrong with the ends and the types of a coupling** that joins two ports. -/
theorem joins_iff {α β : Type} [LinkEnd α] [LinkEnd β] {b : Blueprint τ σ}
    (hids : (b.children.map Model.id).Nodup) (hboundary : b.interface.Distinct)
    (hchildren : ∀ m ∈ b.children, m.interface.Distinct) {source destination : Direction}
    {l : Link α β} :
    b.Joins source destination l ↔ b.endDefects source l.source = [] ∧
      b.endDefects destination l.destination = [] ∧ b.typeDefects source destination l = [] := by
  rw [endDefects_eq_nil_iff, endDefects_eq_nil_iff]
  have htypes : ∀ {p q}, b.portOf? source l.source = some p →
      b.portOf? destination l.destination = some q →
      (b.typeDefects source destination l = [] ↔ p.type = q.type) := by
    intro p q hp hq
    simp only [typeDefects, hp, hq]
    by_cases h : p.type = q.type
    · rw [if_pos h]
      exact ⟨fun _ => h, fun _ => rfl⟩
    · rw [if_neg h]
      exact ⟨nofun, fun h' => absurd h' h⟩
  constructor
  · rintro ⟨p, q, hp, hq, htype⟩
    rw [← portOf?_eq_some_iff hids hboundary hchildren] at hp hq
    exact ⟨⟨p, hp⟩, ⟨q, hq⟩, (htypes hp hq).mpr htype⟩
  · rintro ⟨⟨p, hp⟩, ⟨q, hq⟩, htype⟩
    refine ⟨p, q, ?_, ?_, (htypes hp hq).mp htype⟩
    · exact (portOf?_eq_some_iff hids hboundary hchildren).mp hp
    · exact (portOf?_eq_some_iff hids hboundary hchildren).mp hq

/-- **A description without defects is well formed**, and conversely. -/
theorem wellFormed_iff {b : Blueprint τ σ} (hchildren : ∀ m ∈ b.children, m.interface.Distinct) :
    b.WellFormed ↔ b.defects = [] := by
  have hself : ∀ l : Link ChildPort ChildPort,
      (if l.source.child = l.destination.child then [Defect.selfLoop b.id l.source.child] else [])
          = [] ↔ l.source.child ≠ l.destination.child := by
    intro l
    by_cases h : l.source.child = l.destination.child
    · rw [if_pos h]
      exact ⟨nofun, fun h' => absurd h h'⟩
    · rw [if_neg h]
      exact ⟨fun _ => h, fun _ => rfl⟩
  -- A list of defects is empty part by part, and each part belongs to one condition.
  simp only [defects, List.append_eq_nil_iff, List.map_eq_nil_iff, repeatedNames_eq_nil_iff,
    List.flatMap_eq_nil_iff, externalDefects, internalDefects, hself]
  constructor
  · intro h
    have hjoin : ∀ {α β : Type} [LinkEnd α] [LinkEnd β] {source destination : Direction}
        {l : Link α β}, b.Joins source destination l ↔ _ :=
      joins_iff h.children ⟨h.inputs, h.outputs⟩ hchildren
    refine ⟨⟨⟨⟨⟨h.inputs, h.outputs⟩, h.children⟩, fun l hl => ?_⟩, fun l hl => ?_⟩, fun l hl => ?_⟩
    · obtain ⟨hs, hd, ht⟩ := hjoin.mp (h.eic l hl)
      exact ⟨⟨hs, hd⟩, ht⟩
    · obtain ⟨hs, hd, ht⟩ := hjoin.mp (h.eoc l hl)
      exact ⟨⟨hs, hd⟩, ht⟩
    · obtain ⟨hs, hd, ht⟩ := hjoin.mp (h.ic l hl)
      exact ⟨⟨⟨hs, hd⟩, h.apart l hl⟩, ht⟩
  · rintro ⟨⟨⟨⟨⟨hin, hout⟩, hids⟩, heic⟩, heoc⟩, hic⟩
    have hjoin : ∀ {α β : Type} [LinkEnd α] [LinkEnd β] {source destination : Direction}
        {l : Link α β}, b.Joins source destination l ↔ _ :=
      joins_iff hids ⟨hin, hout⟩ hchildren
    refine ⟨hin, hout, hids, fun l hl => ?_, fun l hl => ?_, fun l hl => ?_, fun l hl => ?_⟩
    · exact hjoin.mpr ⟨(heic l hl).1.1, (heic l hl).1.2, (heic l hl).2⟩
    · exact hjoin.mpr ⟨(heoc l hl).1.1, (heoc l hl).1.2, (heoc l hl).2⟩
    · exact hjoin.mpr ⟨(hic l hl).1.1.1, (hic l hl).1.1.2, (hic l hl).2⟩
    · exact (hic l hl).1.2

/-! ## What was built -/

section

variable {b : Blueprint τ σ}

omit [MessageType τ] in
theorem isBoundarySlot_of_locate (hboundary : b.interface.Distinct) {direction : Direction}
    {e : BoundaryPort} {slot : BoundarySlot} {p : Port τ}
    (h : b.locateBoundary direction e = .ok (slot, p)) : b.IsBoundarySlot direction e slot := by
  obtain ⟨hnamed, hplace, -⟩ := locateBoundary_found h
  exact ⟨hnamed, onlyAt_of_findIdx? (hboundary.nodup direction) hplace⟩

omit [MessageType τ] in
theorem isChildSlot_of_locate (hids : (b.children.map Model.id).Nodup)
    (hchildren : ∀ m ∈ b.children, m.interface.Distinct) {direction : Direction} {e : ChildPort}
    {slot : ChildSlot} {p : Port τ} (h : b.locateChild direction e = .ok (slot, p)) :
    b.IsChildSlot direction e slot := by
  obtain ⟨hnamed, hchild, ⟨m, hm, hport⟩, -⟩ := locateChild_found h
  exact ⟨hnamed, onlyAt_of_findIdx? hids hchild, m, hm,
    onlyAt_of_findIdx? ((hchildren m (List.mem_of_getElem? hm)).nodup direction) hport⟩

/-- **The couplings of a model that was built** are those that were declared, in this order,
each with the places of its names. -/
theorem build_resolved (hchildren : ∀ m ∈ b.children, m.interface.Distinct)
    (hw : b.WellFormed) {m : Model τ σ} (h : b.build = .ok m) :
    ∃ eic eoc ic, m = .coupled ⟨b.id, b.interface, eic, eoc, ic⟩ b.children ∧
      List.Forall₂ (Resolved (b.IsBoundarySlot .input) (b.IsChildSlot .input)) b.eic eic ∧
      List.Forall₂ (Resolved (b.IsChildSlot .output) (b.IsBoundarySlot .output)) b.eoc eoc ∧
      List.Forall₂ (Resolved (b.IsChildSlot .output) (b.IsChildSlot .input)) b.ic ic := by
  have hboundary : b.interface.Distinct := ⟨hw.inputs, hw.outputs⟩
  -- The two checks before the couplings leave nothing in the model.
  obtain ⟨⟨⟩, -, h⟩ := Except.bind_eq_ok.mp h
  obtain ⟨⟨⟩, -, h⟩ := Except.bind_eq_ok.mp h
  obtain ⟨eic, heic, h⟩ := Except.bind_eq_ok.mp h
  obtain ⟨eoc, heoc, h⟩ := Except.bind_eq_ok.mp h
  obtain ⟨ic, hic, h⟩ := Except.bind_eq_ok.mp h
  cases h
  refine ⟨eic, eoc, ic, rfl, Except.forall₂_of_mapM (fun l r hr => ?_) heic,
    Except.forall₂_of_mapM (fun l r hr => ?_) heoc, Except.forall₂_of_mapM (fun l r hr => ?_) hic⟩
  · obtain ⟨⟨source, p⟩, hs, hr⟩ := Except.bind_eq_ok.mp hr
    obtain ⟨⟨destination, q⟩, hd, hr⟩ := Except.bind_eq_ok.mp hr
    obtain ⟨⟨⟩, -, hr⟩ := Except.bind_eq_ok.mp hr
    cases hr
    exact ⟨isBoundarySlot_of_locate hboundary hs, isChildSlot_of_locate hw.children hchildren hd⟩
  · obtain ⟨⟨source, p⟩, hs, hr⟩ := Except.bind_eq_ok.mp hr
    obtain ⟨⟨destination, q⟩, hd, hr⟩ := Except.bind_eq_ok.mp hr
    obtain ⟨⟨⟩, -, hr⟩ := Except.bind_eq_ok.mp hr
    cases hr
    exact ⟨isChildSlot_of_locate hw.children hchildren hs, isBoundarySlot_of_locate hboundary hd⟩
  · obtain ⟨⟨source, p⟩, hs, hr⟩ := Except.bind_eq_ok.mp hr
    obtain ⟨⟨destination, q⟩, hd, hr⟩ := Except.bind_eq_ok.mp hr
    by_cases hself : source.place.child = destination.place.child
    · simp only [if_pos hself] at hr
      cases hr
    · simp only [if_neg hself] at hr
      obtain ⟨⟨⟩, -, hr⟩ := Except.bind_eq_ok.mp hr
      cases hr
      exact ⟨isChildSlot_of_locate hw.children hchildren hs,
        isChildSlot_of_locate hw.children hchildren hd⟩

end

/-- **Building decides whether a description is well formed.** Take any description whose
children are models. It is built exactly if it is well formed, and then the model has the
children, the ports and the couplings that were declared, these with the places of the
names; otherwise the defect that is reported is the first of all it has. -/
theorem build_decides_wellFormed [AtomicModel τ σ] {b : Blueprint τ σ}
    (hchildren : ∀ m ∈ b.children, m.Accepted) :
    ((∃ m, b.build = .ok m) ↔ b.WellFormed) ∧
    (∀ m, b.build = .ok m →
      ∃ eic eoc ic, m = .coupled ⟨b.id, b.interface, eic, eoc, ic⟩ b.children ∧
        List.Forall₂ (Resolved (b.IsBoundarySlot .input) (b.IsChildSlot .input)) b.eic eic ∧
        List.Forall₂ (Resolved (b.IsChildSlot .output) (b.IsBoundarySlot .output)) b.eoc eoc ∧
        List.Forall₂ (Resolved (b.IsChildSlot .output) (b.IsChildSlot .input)) b.ic ic) ∧
    ∀ d, b.build = .error d ↔ b.defects.head? = some d := by
  have hdistinct : ∀ m ∈ b.children, m.interface.Distinct :=
    fun m hm => (hchildren m hm).wired.distinct
  have hbuilt : (∃ m, b.build = .ok m) ↔ b.WellFormed := by
    rw [wellFormed_iff hdistinct]
    exact b.build_blames.eq_nil_iff.symm
  exact ⟨hbuilt, fun m h => build_resolved hdistinct (hbuilt.mp ⟨m, h⟩) h, b.build_blames⟩

/-- The description of a tower in which several things are wrong: a way in begins at an output
of the tower, a way out at a child that is not there, and a child is joined to itself. -/
def slanted : Blueprint Payload Doubler :=
  { Doubler.towerBlueprint with
    eic := [⟨⟨"add"⟩, ⟨"pair", "add"⟩⟩, ⟨⟨"out"⟩, ⟨"third", "add"⟩⟩]
    eoc := [⟨⟨"fourth", "out"⟩, ⟨"out"⟩⟩]
    ic := [⟨⟨"third", "out"⟩, ⟨"third", "add"⟩⟩] }

/-- The description of the tower is well formed, and its slanted version is refused for the
first of its three defects. -/
theorem build_decides_wellFormed_tower :
    (∀ m ∈ Doubler.towerBlueprint.children, m.Accepted) ∧
      (∀ m ∈ slanted.children, m.Accepted) ∧
      Doubler.towerBlueprint.WellFormed ∧
      slanted.defects = [.portDirection "tower" "out" .input, .unknownModel "tower" "fourth",
        .selfLoop "tower" "third"] ∧
      slanted.build = .error (.portDirection "tower" "out" .input) := by
  have hchildren : ∀ m ∈ Doubler.towerBlueprint.children, m.Accepted := by
    intro m hm
    rcases List.mem_pair.mp hm with rfl | rfl
    · exact Doubler.accepted_pair
    · exact Doubler.accepted_atom _ _
  have hdefects : slanted.defects = [.portDirection "tower" "out" .input,
      .unknownModel "tower" "fourth", .selfLoop "tower" "third"] := by decide +kernel
  obtain ⟨hbuilt, -, -⟩ := build_decides_wellFormed hchildren
  obtain ⟨-, -, hrefused⟩ := build_decides_wellFormed (b := slanted) hchildren
  exact ⟨hchildren, hchildren, hbuilt.mp ⟨Doubler.tower, rfl⟩, hdefects,
    (hrefused _).mpr (by rw [hdefects]; rfl)⟩

end Blueprint

end DiscreteEvent
