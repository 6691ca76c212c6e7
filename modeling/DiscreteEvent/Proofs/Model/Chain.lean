/-
Coupling chains: the ways that messages can take through a model tree.

A message that leaves a leaf goes up through external output couplings, across
one internal coupling and down through external input couplings. `exits` are
the ways up to an output of a model, `entries` the ways down from an input, and
`crossings` the whole chains inside of a model. They are lists, because ways are
counted: couplings that are declared twice, or that meet again further on, make
as many chains, and each of them carries the messages once.

Leaves are named by their addresses, the places of the children on the way down
from the root. `Model.inflow` is what all of this is for: what reaches a port of
a leaf, given what the leaves send and what waits at the root. It is a multiset,
because in which order messages arrive is a matter of the engine.
-/
import DiscreteEvent.Model.Tree
import Mathlib.Data.Multiset.Bind
import Mathlib.Data.Multiset.Range

set_option autoImplicit false

namespace DiscreteEvent

/-- A port of a leaf, by the address of the leaf. -/
@[ext]
structure Terminal where
  address : List Nat
  port : Nat
deriving DecidableEq

/-- A port below child number `i`, seen from the parent. -/
def Terminal.below (i : Nat) (t : Terminal) : Terminal := ⟨i :: t.address, t.port⟩

theorem Terminal.below_eq_iff {i j : Nat} {t : Terminal} {a : List Nat} {q : Nat} :
    t.below i = ⟨j :: a, q⟩ ↔ i = j ∧ t = ⟨a, q⟩ := by
  rw [Terminal.below, Terminal.mk.injEq, List.cons.injEq, and_assoc, Terminal.ext_iff]

namespace Model

variable {τ σ : Type}

/-- The atomic model at an address. -/
def atomAt? : List Nat → Model τ σ → Option (Atomic τ σ)
  | [], .atomic a => some a
  | i :: a, .coupled _ children => children[i]?.bind (atomAt? a)
  | _, _ => none

mutual

/-- **The ways in**: where the messages on an input go, through external input
couplings down to the leaves. -/
def entries : Model τ σ → Nat → List Terminal
  | .atomic _, p => [⟨[], p⟩]
  | .coupled c children, p =>
    (c.eic.filter (·.source.place == p)).flatMap fun l =>
      (entriesAt children l.destination.place.child l.destination.place.port).map
        (·.below l.destination.place.child)

def entriesAt : List (Model τ σ) → Nat → Nat → List Terminal
  | [], _, _ => []
  | m :: _, 0, p => entries m p
  | _ :: rest, i + 1, p => entriesAt rest i p

end

mutual

/-- **The ways out**: where the messages on an output come from, through external
output couplings up from the leaves. -/
def exits : Model τ σ → Nat → List Terminal
  | .atomic _, p => [⟨[], p⟩]
  | .coupled c children, p =>
    (c.eoc.filter (·.destination.place == p)).flatMap fun l =>
      (exitsAt children l.source.place.child l.source.place.port).map
        (·.below l.source.place.child)

def exitsAt : List (Model τ σ) → Nat → Nat → List Terminal
  | [], _, _ => []
  | m :: _, 0, p => exits m p
  | _ :: rest, i + 1, p => exitsAt rest i p

end

/-- The ways in behind an input of a child. -/
def entriesOf (children : List (Model τ σ)) (p : Place) : List Terminal :=
  (entriesAt children p.child p.port).map (·.below p.child)

/-- The ways out before an output of a child. -/
def exitsOf (children : List (Model τ σ)) (p : Place) : List Terminal :=
  (exitsAt children p.child p.port).map (·.below p.child)

mutual

/-- **The chains inside**: from a leaf up, across one internal coupling, and down
to a leaf. -/
def crossings : Model τ σ → List (Terminal × Terminal)
  | .atomic _ => []
  | .coupled c children =>
    crossingsFrom 0 children ++ c.ic.flatMap fun l =>
      (exitsOf children l.source.place).flatMap fun o =>
        (entriesOf children l.destination.place).map fun d => (o, d)

/-- The chains inside of several children, the first of which is number `i`. -/
def crossingsFrom : Nat → List (Model τ σ) → List (Terminal × Terminal)
  | _, [] => []
  | i, m :: rest =>
    (crossings m).map (fun c => (c.1.below i, c.2.below i)) ++ crossingsFrom (i + 1) rest

end

theorem entriesAt_eq (children : List (Model τ σ)) (i p : Nat) :
    entriesAt children i p = (children[i]?.map fun m => m.entries p).getD [] := by
  induction children generalizing i with
  | nil => rfl
  | cons m rest ih =>
      cases i with
      | zero => rfl
      | succ i =>
          rw [entriesAt, List.getElem?_cons_succ]
          exact ih i

theorem exitsAt_eq (children : List (Model τ σ)) (i p : Nat) :
    exitsAt children i p = (children[i]?.map fun m => m.exits p).getD [] := by
  induction children generalizing i with
  | nil => rfl
  | cons m rest ih =>
      cases i with
      | zero => rfl
      | succ i =>
          rw [exitsAt, List.getElem?_cons_succ]
          exact ih i

/-- The ways in behind an input of a child that is there. -/
theorem entriesOf_eq {children : List (Model τ σ)} {p : Place} {m : Model τ σ}
    (hm : children[p.child]? = some m) :
    entriesOf children p = (m.entries p.port).map (·.below p.child) := by
  rw [entriesOf, entriesAt_eq, hm, Option.map_some, Option.getD_some]

theorem exitsOf_eq {children : List (Model τ σ)} {p : Place} {m : Model τ σ}
    (hm : children[p.child]? = some m) :
    exitsOf children p = (m.exits p.port).map (·.below p.child) := by
  rw [exitsOf, exitsAt_eq, hm, Option.map_some, Option.getD_some]

theorem entries_coupled (c : Coupled τ) (children : List (Model τ σ)) (p : Nat) :
    (Model.coupled c children).entries p
      = (c.eic.filter (·.source.place == p)).flatMap fun l =>
          entriesOf children l.destination.place := rfl

theorem exits_coupled (c : Coupled τ) (children : List (Model τ σ)) (p : Nat) :
    (Model.coupled c children).exits p
      = (c.eoc.filter (·.destination.place == p)).flatMap fun l =>
          exitsOf children l.source.place := rfl

end Model

/-! ## What reaches a port -/

/-- **What chains carry to a port**: the load of each of those that end there, once. -/
def carried {α μ : Type} (chains : Multiset α) (target : α → Terminal) (load : α → Multiset μ)
    (d : Terminal) : Multiset μ :=
  chains.bind fun c => if target c = d then load c else 0

section Carried

variable {α β μ : Type} {target : α → Terminal} {load : α → Multiset μ} {d : Terminal}

theorem carried_add (s r : Multiset α) :
    carried (s + r) target load d = carried s target load d + carried r target load d :=
  Multiset.add_bind s r _

theorem carried_bind (s : Multiset β) (f : β → Multiset α) :
    carried (s.bind f) target load d = s.bind fun b => carried (f b) target load d :=
  Multiset.bind_assoc

theorem carried_map (s : Multiset β) (f : β → α) :
    carried (s.map f) target load d = carried s (fun b => target (f b)) (fun b => load (f b)) d :=
  Multiset.bind_map s _ f

theorem carried_congr {s : Multiset α} {load' : α → Multiset μ} (h : ∀ c ∈ s, load c = load' c) :
    carried s target load d = carried s target load' d :=
  Multiset.bind_congr fun c hc => by rw [h c hc]

/-- A sum over the entries with some key, as a sum over all entries. -/
theorem bind_filter_key (key : α → Nat) (k : Nat) (as : List α) (f : α → Multiset μ) :
    (as.filter (key · == k) : Multiset α).bind f
      = (as : Multiset α).bind fun a => if key a = k then f a else 0 := by
  induction as with
  | nil => rfl
  | cons a as ih =>
      rw [List.filter_cons, ← Multiset.cons_coe, Multiset.cons_bind, ← ih]
      by_cases ha : key a = k
      · rw [if_pos (by simpa using ha), if_pos ha, ← Multiset.cons_coe, Multiset.cons_bind]
      · rw [if_neg (by simpa using ha), if_neg ha, zero_add]

/-- A load that is a sum may be carried part by part. -/
theorem carried_load_bind (s : Multiset α) (r : Multiset β) (f : β → Multiset μ) :
    carried s target (fun _ => r.bind f) d = r.bind fun b => carried s target (fun _ => f b) d := by
  have hinside : ∀ c ∈ s, (if target c = d then r.bind f else 0)
      = r.bind fun b => if target c = d then f b else 0 := by
    intro c _
    by_cases h : target c = d
    · simp only [if_pos h]
    · simp only [if_neg h, Multiset.bind_zero]
  rw [carried, Multiset.bind_congr hinside]
  exact Multiset.bind_bind s r

/-- Chains below child number `i` end below child number `i`. -/
theorem carried_below (s : Multiset α) (i j : Nat) (a : List Nat) (q : Nat) :
    carried s (fun c => (target c).below i) load ⟨j :: a, q⟩
      = if i = j then carried s target load ⟨a, q⟩ else 0 := by
  by_cases hij : i = j
  · rw [if_pos hij]
    refine Multiset.bind_congr fun c _ => ?_
    simp only [Terminal.below_eq_iff, hij, true_and]
  · rw [if_neg hij, carried]
    simp only [Terminal.below_eq_iff, hij, false_and, if_false, Multiset.bind_zero]

end Carried

namespace Model

variable {τ σ μ : Type}

/-- **What reaches a port of a leaf**, over every coupling chain that ends there:
what the leaf at its beginning sends, for a chain inside, and what waits at the
root, for a chain from an input of the root. -/
def inflow (m : Model τ σ) (sent : Terminal → Multiset μ) (waiting : Nat → Multiset μ)
    (d : Terminal) : Multiset μ :=
  carried (m.crossings : Multiset (Terminal × Terminal)) Prod.snd (fun c => sent c.1) d +
    (Multiset.range m.interface.inputs.length).bind fun p =>
      carried (m.entries p : Multiset Terminal) (fun t => t) (fun _ => waiting p) d

/-- Into a child from outside: what the ways in carry that begin at it. -/
theorem carried_entriesOf (children : List (Model τ σ)) (p : Place) (x : Multiset μ)
    (i : Nat) (a : List Nat) (q : Nat) :
    carried (entriesOf children p : Multiset Terminal) (fun t => t) (fun _ => x) ⟨i :: a, q⟩
      = if p.child = i then
          carried (entriesAt children p.child p.port : Multiset Terminal) (fun t => t)
            (fun _ => x) ⟨a, q⟩
        else 0 := by
  rw [entriesOf, ← Multiset.map_coe, carried_map]
  exact carried_below _ p.child i a q

/-- Across one internal coupling: what the ways out before it send together is
carried along each way in behind it. -/
theorem carried_crossing {sent : Terminal → Multiset μ} {d : Terminal}
    (children : List (Model τ σ)) (p q : Place) :
    carried (((exitsOf children p).flatMap fun o => (entriesOf children q).map fun t => (o, t) :
        List (Terminal × Terminal)) : Multiset (Terminal × Terminal)) Prod.snd
        (fun c => sent c.1) d
      = carried (entriesOf children q : Multiset Terminal) (fun t => t)
          (fun _ => (exitsOf children p : Multiset Terminal).bind sent) d := by
  rw [← Multiset.coe_bind, carried_bind, carried_load_bind]
  refine Multiset.bind_congr fun o _ => ?_
  rw [← Multiset.map_coe, carried_map]

/-- No chain of later children ends at an earlier one. -/
theorem carried_crossingsFrom_of_lt {load : Terminal × Terminal → Multiset μ} {a : List Nat}
    {q : Nat} (children : List (Model τ σ)) :
    ∀ {k j : Nat}, j < k →
      carried (crossingsFrom k children : Multiset (Terminal × Terminal)) Prod.snd load
        ⟨j :: a, q⟩ = 0 := by
  induction children with
  | nil => exact fun _ => rfl
  | cons m rest ih =>
      intro k j hjk
      rw [crossingsFrom, ← Multiset.coe_add, carried_add, ← Multiset.map_coe, carried_map,
        carried_below, if_neg (by omega), ih (by omega), add_zero]

/-- The chains inside of one child, among those of all children. -/
theorem carried_crossingsFrom (load : Terminal × Terminal → Multiset μ) {a : List Nat} {q : Nat}
    (children : List (Model τ σ)) :
    ∀ {k i : Nat} {m : Model τ σ}, children[i]? = some m →
      carried (crossingsFrom k children : Multiset (Terminal × Terminal)) Prod.snd load
          ⟨(k + i) :: a, q⟩
        = carried (m.crossings : Multiset (Terminal × Terminal)) Prod.snd
            (fun c => load (c.1.below (k + i), c.2.below (k + i))) ⟨a, q⟩ := by
  induction children with
  | nil => exact fun h => nomatch h
  | cons m' rest ih =>
      intro k i m hm
      rw [crossingsFrom, ← Multiset.coe_add, carried_add, ← Multiset.map_coe, carried_map,
        carried_below]
      cases i with
      | zero =>
          cases hm
          rw [Nat.add_zero, if_pos rfl, carried_crossingsFrom_of_lt rest (Nat.lt_succ_self k),
            add_zero]
      | succ i =>
          have hk : k + (i + 1) = k + 1 + i := by omega
          rw [if_neg (by omega), zero_add, hk]
          exact ih hm

end Model

end DiscreteEvent
