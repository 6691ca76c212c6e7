/-
Walks along the couplings of a tree.

A model tree is a multigraph. Its nodes are the pins, which are the ports of all models in the
tree, and its edges are the wires, which are the couplings of all networks in it. A wire is
known by the address of its network, its kind and its place among the couplings of that kind, so
two couplings that are declared alike are two wires. A walk is a list of wires of which each
begins where the one before it ends (`Model.Leads`).

An external output coupling leads from an output to an output, an internal one from an output to
an input, and an external input coupling from an input to an input. So a walk from an output to an
input goes up, crosses once and goes down (`Leads.shape`).

Nothing is said here of how walks are found. A walk from below a child stays there, or it
leaves the child by its output and goes on along a wire of the network
(`Leads.inside_or_out`). This gives the walks of a network from those of its children: the ways
in (`descends_coupled`), the ways out (`ascends_coupled`), and the chains (`crosses_coupled`).
-/
import DiscreteEvent.Proofs.Model.Chain

set_option autoImplicit false

namespace DiscreteEvent

/-! ## Pins and wires -/

/-- A port of a model in a tree, by the address of the model. -/
structure Pin where
  address : List Nat
  direction : Direction
  port : Nat
deriving DecidableEq

/-- A pin below child number `i`, seen from the parent. -/
def Pin.below (i : Nat) (x : Pin) : Pin := ⟨i :: x.address, x.direction, x.port⟩

theorem Pin.below_inj {i j : Nat} {x y : Pin} : x.below i = y.below j ↔ i = j ∧ x = y := by
  cases x
  cases y
  simp only [below, mk.injEq, List.cons.injEq, and_assoc]

/-- The port of a leaf as a pin. -/
def Terminal.pin (direction : Direction) (t : Terminal) : Pin := ⟨t.address, direction, t.port⟩

theorem Terminal.pin_below (direction : Direction) (i : Nat) (t : Terminal) :
    (t.below i).pin direction = (t.pin direction).below i := rfl

/-- The three kinds of couplings. -/
inductive LinkKind
  | eic
  | eoc
  | ic
deriving DecidableEq

/-- The side on which a coupling begins. -/
def LinkKind.source : LinkKind → Direction
  | .eic => .input
  | .eoc | .ic => .output

/-- The side on which a coupling ends. -/
def LinkKind.target : LinkKind → Direction
  | .eic | .ic => .input
  | .eoc => .output

/-- **A coupling in a tree**: the address of its network, and where it is declared there. -/
structure Wire where
  address : List Nat
  kind : LinkKind
  place : Nat
deriving DecidableEq

/-- A wire below child number `i`, seen from the parent. -/
def Wire.below (i : Nat) (w : Wire) : Wire := ⟨i :: w.address, w.kind, w.place⟩

theorem Wire.below_injective (i : Nat) : Function.Injective (Wire.below i) := by
  intro w w' h
  cases w
  cases w'
  simp only [below, mk.injEq, List.cons.injEq, true_and] at h
  simp only [mk.injEq]
  exact h

variable {τ σ : Type}

/-- The ends of a coupling of a network. -/
def Coupled.ends? (c : Coupled τ) (k : Nat) : LinkKind → Option (Pin × Pin)
  | .eic => c.eic[k]?.map fun l =>
    (⟨[], .input, l.source.place⟩,
      ⟨[l.destination.place.child], .input, l.destination.place.port⟩)
  | .eoc => c.eoc[k]?.map fun l =>
    (⟨[l.source.place.child], .output, l.source.place.port⟩, ⟨[], .output, l.destination.place⟩)
  | .ic => c.ic[k]?.map fun l =>
    (⟨[l.source.place.child], .output, l.source.place.port⟩,
      ⟨[l.destination.place.child], .input, l.destination.place.port⟩)

/-- What kind a coupling has tells the sides of its ends. -/
theorem Coupled.direction_ends {c : Coupled τ} {k : Nat} {kind : LinkKind} {x z : Pin}
    (h : c.ends? k kind = some (x, z)) :
    x.direction = kind.source ∧ z.direction = kind.target := by
  cases kind <;>
  · obtain ⟨l, -, heq⟩ := Option.map_eq_some_iff.mp h
    obtain ⟨rfl, rfl⟩ := Prod.mk.inj heq
    exact ⟨rfl, rfl⟩

/-- A coupling that begins at a child begins at an output. -/
theorem Coupled.source_of_ends_below {c : Coupled τ} {k i : Nat} {kind : LinkKind} {x z : Pin}
    (h : c.ends? k kind = some (x.below i, z)) : ∃ p, x = ⟨[], .output, p⟩ := by
  cases kind with
  | eic =>
      obtain ⟨l, -, heq⟩ := Option.map_eq_some_iff.mp h
      cases (Prod.mk.inj heq).1
  | eoc | ic =>
      obtain ⟨l, -, heq⟩ := Option.map_eq_some_iff.mp h
      have hsource := (Prod.mk.inj heq).1
      cases x
      rw [Pin.below, Pin.mk.injEq, List.cons.injEq] at hsource
      obtain ⟨⟨-, rfl⟩, rfl, rfl⟩ := hsource
      exact ⟨_, rfl⟩

namespace Model

/-- The ends of coupling number `k` of a kind in the network at an address. -/
def endsAt? (kind : LinkKind) (k : Nat) : List Nat → Model τ σ → Option (Pin × Pin)
  | [], .coupled c _ => c.ends? k kind
  | i :: a, .coupled _ children =>
    (children[i]?.bind (endsAt? kind k a)).map (Prod.map (.below i) (.below i))
  | _, .atomic _ => none

/-- **The pins that a wire joins.** -/
def ends? (m : Model τ σ) (w : Wire) : Option (Pin × Pin) := m.endsAt? w.kind w.place w.address

/-- **Walks**: the wires lead from the first pin to the second one. -/
def Leads (m : Model τ σ) : Pin → List Wire → Pin → Prop
  | x, [], y => x = y
  | x, w :: ws, y => ∃ z, m.ends? w = some (x, z) ∧ m.Leads z ws y

theorem ends?_atomic (a : Atomic τ σ) (w : Wire) : (Model.atomic a).ends? w = none := by
  cases w with
  | mk address kind k => cases address <;> rfl

variable {c : Coupled τ} {ms : List (Model τ σ)}

theorem ends?_root (kind : LinkKind) (k : Nat) :
    (Model.coupled c ms).ends? ⟨[], kind, k⟩ = c.ends? k kind := rfl

theorem ends?_below (i : Nat) (w : Wire) :
    (Model.coupled c ms).ends? (w.below i)
      = (ms[i]?.bind (·.ends? w)).map (Prod.map (.below i) (.below i)) := rfl

/-- A wire below a child joins pins below the child. -/
theorem exists_of_ends_below {i : Nat} {w : Wire} {x z : Pin}
    (h : (Model.coupled c ms).ends? (w.below i) = some (x, z)) :
    ∃ m x' z', ms[i]? = some m ∧ m.ends? w = some (x', z') ∧ x = x'.below i ∧ z = z'.below i := by
  rw [ends?_below] at h
  obtain ⟨⟨x', z'⟩, hends, heq⟩ := Option.map_eq_some_iff.mp h
  obtain ⟨m, hm, hends⟩ := Option.bind_eq_some_iff.mp hends
  obtain ⟨rfl, rfl⟩ := Prod.mk.inj heq
  exact ⟨m, x', z', hm, hends, rfl, rfl⟩

theorem direction_ends {w : Wire} :
    ∀ {m : Model τ σ} {x z : Pin}, m.ends? w = some (x, z) →
      x.direction = w.kind.source ∧ z.direction = w.kind.target := by
  obtain ⟨a, kind, k⟩ := w
  induction a with
  | nil =>
      intro m x z h
      cases m with
      | atomic => cases h
      | coupled c ms => exact Coupled.direction_ends h
  | cons i a ih =>
      intro m x z h
      cases m with
      | atomic => cases h
      | coupled c ms =>
          obtain ⟨m, x', z', -, hends, rfl, rfl⟩ := exists_of_ends_below (w := ⟨a, kind, k⟩) h
          exact (ih hends :)

/-! ## The course of a walk -/

theorem leads_append {m : Model τ σ} {ws ws' : List Wire} {y : Pin} :
    ∀ {x : Pin}, m.Leads x (ws ++ ws') y ↔ ∃ z, m.Leads x ws z ∧ m.Leads z ws' y := by
  induction ws with
  | nil =>
      intro x
      exact ⟨fun h => ⟨x, rfl, h⟩, fun ⟨_, hz, h⟩ => hz ▸ h⟩
  | cons w ws ih =>
      intro x
      constructor
      · rintro ⟨z, hw, h⟩
        obtain ⟨z', hz, h⟩ := ih.mp h
        exact ⟨z', ⟨z, hw, hz⟩, h⟩
      · rintro ⟨z', ⟨z, hw, hz⟩, h⟩
        exact ⟨z, hw, ih.mpr ⟨z', hz, h⟩⟩

/-- **A walk from an input goes down.** -/
theorem Leads.down {m : Model τ σ} {ws : List Wire} {y : Pin} :
    ∀ {x : Pin}, m.Leads x ws y → x.direction = .input →
      y.direction = .input ∧ ∀ w ∈ ws, w.kind = .eic := by
  induction ws with
  | nil =>
      intro x h hx
      cases h
      exact ⟨hx, fun _ hw => absurd hw List.not_mem_nil⟩
  | cons w ws ih =>
      rintro x ⟨z, hw, h⟩ hx
      obtain ⟨hsource, htarget⟩ := direction_ends hw
      have hkind : w.kind = .eic := by
        cases hk : w.kind <;> rw [hk, hx] at hsource <;> first | rfl | cases hsource
      rw [hkind] at htarget
      obtain ⟨hy, hall⟩ := ih h htarget
      exact ⟨hy, List.forall_mem_cons.mpr ⟨hkind, hall⟩⟩

/-- **A walk to an output goes up.** -/
theorem Leads.up {m : Model τ σ} {ws : List Wire} {y : Pin} :
    ∀ {x : Pin}, m.Leads x ws y → y.direction = .output →
      x.direction = .output ∧ ∀ w ∈ ws, w.kind = .eoc := by
  induction ws with
  | nil =>
      intro x h hy
      cases h
      exact ⟨hy, fun _ hw => absurd hw List.not_mem_nil⟩
  | cons w ws ih =>
      rintro x ⟨z, hw, h⟩ hy
      obtain ⟨hz, hall⟩ := ih h hy
      obtain ⟨hsource, htarget⟩ := direction_ends hw
      have hkind : w.kind = .eoc := by
        cases hk : w.kind <;> rw [hk, hz] at htarget <;> first | rfl | cases htarget
      rw [hkind] at hsource
      exact ⟨hsource, List.forall_mem_cons.mpr ⟨hkind, hall⟩⟩

/-- **A walk from an output to an input** goes up, crosses once and goes down. -/
theorem Leads.shape {m : Model τ σ} {ws : List Wire} {y : Pin} :
    ∀ {x : Pin}, m.Leads x ws y → x.direction = .output → y.direction = .input →
      ∃ up w down, ws = up ++ w :: down ∧ (∀ v ∈ up, v.kind = .eoc) ∧ w.kind = .ic ∧
        ∀ v ∈ down, v.kind = .eic := by
  induction ws with
  | nil =>
      intro x h hx hy
      cases h
      rw [hx] at hy
      cases hy
  | cons w ws ih =>
      rintro x ⟨z, hw, h⟩ hx hy
      obtain ⟨hsource, htarget⟩ := direction_ends hw
      cases hkind : w.kind with
      | eic =>
          rw [hkind, hx] at hsource
          cases hsource
      | ic =>
          rw [hkind] at htarget
          exact ⟨[], w, ws, rfl, fun _ hv => absurd hv List.not_mem_nil, hkind,
            (h.down htarget).2⟩
      | eoc =>
          rw [hkind] at htarget
          obtain ⟨up, v, down, rfl, hup, hv, hdown⟩ := ih h htarget hy
          exact ⟨w :: up, v, down, rfl, List.forall_mem_cons.mpr ⟨hkind, hup⟩, hv, hdown⟩

/-! ## Walks of a network and of its children -/

/-- A walk of a child is one of the network. -/
theorem leads_below {i : Nat} {m : Model τ σ} (hm : ms[i]? = some m) {ws : List Wire} {y : Pin} :
    ∀ {x : Pin}, m.Leads x ws y →
      (Model.coupled c ms).Leads (x.below i) (ws.map (.below i)) (y.below i) := by
  induction ws with
  | nil => exact fun h => congrArg _ h
  | cons w ws ih =>
      rintro x ⟨z, hw, h⟩
      refine ⟨z.below i, ?_, ih h⟩
      rw [ends?_below, hm, Option.bind_some, hw]
      rfl

/-- **A walk from below a child** stays there, or it goes up to an output of the child and leaves
it along a wire of the network. -/
theorem Leads.inside_or_out {i : Nat} {ws : List Wire} {y : Pin} :
    ∀ {x : Pin}, (Model.coupled c ms).Leads (x.below i) ws y →
      (∃ ws' y', ws = ws'.map (.below i) ∧ y = y'.below i ∧
        ∀ m, ms[i]? = some m → m.Leads x ws' y') ∨
      ∃ up p kind k rest z, ws = up.map (.below i) ++ ⟨[], kind, k⟩ :: rest ∧
        x.direction = .output ∧ (∀ m, ms[i]? = some m → m.Leads x up ⟨[], .output, p⟩) ∧
        c.ends? k kind = some (⟨[i], .output, p⟩, z) ∧ (Model.coupled c ms).Leads z rest y := by
  induction ws with
  | nil => exact fun {x} h => .inl ⟨[], x, rfl, h.symm, fun _ _ => rfl⟩
  | cons w ws ih =>
      rintro x ⟨z, hw, h⟩
      obtain ⟨a, kind, k⟩ := w
      cases a with
      | nil =>
          -- The first wire belongs to the network, so the walk has been at the output of the child.
          obtain ⟨p, rfl⟩ := Coupled.source_of_ends_below hw
          exact .inr ⟨[], p, kind, k, ws, z, rfl, rfl, fun _ _ => rfl, hw, h⟩
      | cons j a =>
          obtain ⟨m, x', z', hm, hends, hx, rfl⟩ := exists_of_ends_below (w := ⟨a, kind, k⟩) hw
          obtain ⟨rfl, rfl⟩ := Pin.below_inj.mp hx
          rcases ih h with ⟨ws', y', rfl, rfl, hleads⟩ |
            ⟨up, p, kind', k', rest, z, rfl, hz', hup, hz⟩
          · refine .inl ⟨⟨a, kind, k⟩ :: ws', y', rfl, rfl, fun m' hm' => ?_⟩
            cases hm.symm.trans hm'
            exact ⟨z', hends, hleads m hm⟩
          · have hfirst : m.Leads x [⟨a, kind, k⟩] z' := ⟨z', hends, rfl⟩
            refine .inr ⟨⟨a, kind, k⟩ :: up, p, kind', k', rest, z, rfl, (hfirst.up hz').1,
              fun m' hm' => ?_, hz⟩
            cases hm.symm.trans hm'
            exact ⟨z', hends, hup m hm⟩

/-- No wire begins at an output of the root. -/
theorem Leads.of_root_output {m : Model τ σ} {p : Nat} {ws : List Wire} {y : Pin}
    (h : m.Leads ⟨[], .output, p⟩ ws y) : ws = [] ∧ y = ⟨[], .output, p⟩ := by
  cases ws with
  | nil => exact ⟨rfl, h.symm⟩
  | cons w ws =>
      obtain ⟨z, hw, -⟩ := h
      cases m with
      | atomic a =>
          rw [ends?_atomic] at hw
          cases hw
      | coupled c ms =>
          obtain ⟨a, kind, k⟩ := w
          cases a with
          | cons j a =>
              obtain ⟨_, _, _, -, -, hx, -⟩ := exists_of_ends_below (w := ⟨a, kind, k⟩) hw
              cases hx
          | nil =>
              cases kind <;>
              · obtain ⟨l, -, heq⟩ := Option.map_eq_some_iff.mp hw
                cases (Prod.mk.inj heq).1

/-- A walk from an input of a network begins with an external input coupling. -/
theorem Leads.of_root_input {p : Nat} {ws : List Wire} {y : Pin}
    (h : (Model.coupled c ms).Leads ⟨[], .input, p⟩ ws y) :
    (ws = [] ∧ y = ⟨[], .input, p⟩) ∨ ∃ k l rest, c.eic[k]? = some l ∧ l.source.place = p ∧
      ws = ⟨[], .eic, k⟩ :: rest ∧ (Model.coupled c ms).Leads
        ⟨[l.destination.place.child], .input, l.destination.place.port⟩ rest y := by
  cases ws with
  | nil => exact .inl ⟨rfl, h.symm⟩
  | cons w ws =>
      obtain ⟨z, hw, h⟩ := h
      obtain ⟨a, kind, k⟩ := w
      cases a with
      | cons j a =>
          obtain ⟨_, _, _, -, -, hx, -⟩ := exists_of_ends_below (w := ⟨a, kind, k⟩) hw
          cases hx
      | nil =>
          obtain ⟨hsource, -⟩ := direction_ends hw
          cases kind with
          | eoc => cases hsource
          | ic => cases hsource
          | eic =>
              obtain ⟨l, hl, heq⟩ := Option.map_eq_some_iff.mp hw
              obtain ⟨hx, rfl⟩ := Prod.mk.inj heq
              exact .inr ⟨k, l, ws, hl, congrArg Pin.port hx, rfl, h⟩

/-! ## Walks from leaf to leaf -/

/-- **A way in**: a walk from an input of the root to an input of a leaf. -/
def Descends (m : Model τ σ) (p : Nat) (t : Terminal) (ws : List Wire) : Prop :=
  (m.atomAt? t.address).isSome ∧ m.Leads ⟨[], .input, p⟩ ws (t.pin .input)

/-- **A way out**: a walk from an output of a leaf to an output of the root. -/
def Ascends (m : Model τ σ) (t : Terminal) (p : Nat) (ws : List Wire) : Prop :=
  (m.atomAt? t.address).isSome ∧ m.Leads (t.pin .output) ws ⟨[], .output, p⟩

/-- **A chain inside**: a walk from an output of a leaf to an input of a leaf. -/
def Crosses (m : Model τ σ) (t t' : Terminal) (ws : List Wire) : Prop :=
  (m.atomAt? t.address).isSome ∧ (m.atomAt? t'.address).isSome ∧
    m.Leads (t.pin .output) ws (t'.pin .input)

/-- A way in behind an input of a child. -/
def DescendsAt (ms : List (Model τ σ)) (p : Place) (t : Terminal) (ws : List Wire) : Prop :=
  ∃ m t' ws', ms[p.child]? = some m ∧ m.Descends p.port t' ws' ∧ t = t'.below p.child ∧
    ws = ws'.map (.below p.child)

/-- A way out before an output of a child. -/
def AscendsAt (ms : List (Model τ σ)) (t : Terminal) (p : Place) (ws : List Wire) : Prop :=
  ∃ m t' ws', ms[p.child]? = some m ∧ m.Ascends t' p.port ws' ∧ t = t'.below p.child ∧
    ws = ws'.map (.below p.child)

/-- There is no wire in an atomic model. -/
theorem leads_atomic {a : Atomic τ σ} {x y : Pin} {ws : List Wire} :
    (Model.atomic a).Leads x ws y ↔ x = y ∧ ws = [] := by
  cases ws with
  | nil => exact (and_iff_left rfl).symm
  | cons w ws =>
      refine ⟨fun ⟨z, hw, _⟩ => ?_, fun h => nomatch h.2⟩
      rw [ends?_atomic] at hw
      cases hw

theorem descends_atomic {a : Atomic τ σ} {p : Nat} {t : Terminal} {ws : List Wire} :
    (Model.atomic a).Descends p t ws ↔ t = ⟨[], p⟩ ∧ ws = [] := by
  rw [Descends, leads_atomic]
  constructor
  · rintro ⟨-, hpin, rfl⟩
    obtain ⟨hb, -, rfl⟩ := Pin.mk.inj hpin
    exact ⟨Terminal.ext hb.symm rfl, rfl⟩
  · rintro ⟨rfl, rfl⟩
    exact ⟨rfl, rfl, rfl⟩

theorem ascends_atomic {a : Atomic τ σ} {p : Nat} {t : Terminal} {ws : List Wire} :
    (Model.atomic a).Ascends t p ws ↔ t = ⟨[], p⟩ ∧ ws = [] := by
  rw [Ascends, leads_atomic]
  constructor
  · rintro ⟨-, hpin, rfl⟩
    obtain ⟨hb, -, rfl⟩ := Pin.mk.inj hpin
    exact ⟨Terminal.ext hb rfl, rfl⟩
  · rintro ⟨rfl, rfl⟩
    exact ⟨rfl, rfl, rfl⟩

theorem not_crosses_atomic {a : Atomic τ σ} {t t' : Terminal} {ws : List Wire} :
    ¬ (Model.atomic a).Crosses t t' ws := by
  rintro ⟨-, -, h⟩
  cases congrArg Pin.direction (leads_atomic.mp h).1

/-- A leaf of a network is a leaf of a child. -/
theorem exists_of_leaf {t : Terminal} (h : ((Model.coupled c ms).atomAt? t.address).isSome) :
    ∃ (i : Nat) (m : Model τ σ) (t' : Terminal), ms[i]? = some m ∧
      (m.atomAt? t'.address).isSome ∧ t = t'.below i := by
  obtain ⟨a, q⟩ := t
  obtain ⟨x, hx⟩ := Option.isSome_iff_exists.mp h
  cases a with
  | nil => cases hx
  | cons i a =>
      obtain ⟨m, hm, hx⟩ := Option.bind_eq_some_iff.mp hx
      exact ⟨i, m, ⟨a, q⟩, hm, Option.isSome_iff_exists.mpr ⟨x, hx⟩, rfl⟩

theorem isSome_atomAt_below {i : Nat} {m : Model τ σ} (hm : ms[i]? = some m) (t : Terminal) :
    ((Model.coupled c ms).atomAt? (t.below i).address).isSome = (m.atomAt? t.address).isSome := by
  rw [Terminal.below, atomAt?, hm, Option.bind_some]

/-- Behind an input of a child there is nothing but the ways in of the child. -/
theorem descendsAt_iff {p : Place} {t : Terminal} {ws : List Wire} :
    DescendsAt ms p t ws ↔ ((Model.coupled c ms).atomAt? t.address).isSome ∧
      (Model.coupled c ms).Leads ⟨[p.child], .input, p.port⟩ ws (t.pin .input) := by
  constructor
  · rintro ⟨m, t', ws', hm, ⟨hleaf, h⟩, rfl, rfl⟩
    exact ⟨(isSome_atomAt_below hm t').trans hleaf, leads_below hm h⟩
  · rintro ⟨hleaf, h⟩
    obtain ⟨i, m, t', hm, ht, rfl⟩ := exists_of_leaf hleaf
    rcases Leads.inside_or_out (x := ⟨[], .input, p.port⟩) h with
      ⟨ws', y', rfl, hy, hleads⟩ | ⟨_, _, _, _, _, _, -, hx, -⟩
    · rw [Terminal.pin_below] at hy
      obtain ⟨rfl, rfl⟩ := Pin.below_inj.mp hy
      exact ⟨m, t', ws', hm, ⟨ht, hleads m hm⟩, rfl, rfl⟩
    · cases hx

/-- **The ways in of a network** begin with one of its couplings. -/
theorem descends_coupled {p : Nat} {t : Terminal} {ws : List Wire} :
    (Model.coupled c ms).Descends p t ws ↔ ∃ k l ws', c.eic[k]? = some l ∧ l.source.place = p ∧
      DescendsAt ms l.destination.place t ws' ∧ ws = ⟨[], .eic, k⟩ :: ws' := by
  constructor
  · rintro ⟨hleaf, h⟩
    rcases h.of_root_input with ⟨-, ht⟩ | ⟨k, l, rest, hl, hp, rfl, hrest⟩
    · -- The root itself is no leaf.
      obtain ⟨i, _, t', -, -, rfl⟩ := exists_of_leaf hleaf
      cases ht
    · exact ⟨k, l, rest, hl, hp, descendsAt_iff.mpr ⟨hleaf, hrest⟩, rfl⟩
  · rintro ⟨k, l, ws', hl, rfl, hat, rfl⟩
    obtain ⟨hleaf, h⟩ := descendsAt_iff (c := c).mp hat
    refine ⟨hleaf, _, ?_, h⟩
    rw [ends?_root, Coupled.ends?, hl, Option.map_some]

/-- **From a leaf to an output of a child**, and on along a coupling of the network. -/
theorem leads_out {i p : Nat} {t : Terminal} {up rest : List Wire} {kind : LinkKind} {k : Nat}
    {z y : Pin} (hat : AscendsAt ms t ⟨i, p⟩ up)
    (hw : c.ends? k kind = some (⟨[i], .output, p⟩, z)) (h : (Model.coupled c ms).Leads z rest y) :
    ((Model.coupled c ms).atomAt? t.address).isSome ∧
      (Model.coupled c ms).Leads (t.pin .output) (up ++ ⟨[], kind, k⟩ :: rest) y := by
  obtain ⟨m, t', up', hm, ⟨hleaf, hup⟩, rfl, rfl⟩ := hat
  exact ⟨(isSome_atomAt_below hm t').trans hleaf,
    leads_append.mpr ⟨_, leads_below hm hup, z, hw, h⟩⟩

/-- **The ways out of a network** end with one of its couplings. -/
theorem ascends_coupled {p : Nat} {t : Terminal} {ws : List Wire} :
    (Model.coupled c ms).Ascends t p ws ↔ ∃ k l ws', c.eoc[k]? = some l ∧
      l.destination.place = p ∧ AscendsAt ms t l.source.place ws' ∧
      ws = ws' ++ [⟨[], .eoc, k⟩] := by
  constructor
  · rintro ⟨hleaf, h⟩
    obtain ⟨i, m, t', hm, ht, rfl⟩ := exists_of_leaf hleaf
    rw [Terminal.pin_below] at h
    rcases h.inside_or_out with ⟨_, y', -, hy, -⟩ | ⟨up, q, kind, k, rest, z, rfl, -, hup, hw, h⟩
    · cases hy
    · -- The walk ends at an output, so it has left the child by an external output coupling.
      have hz := (Coupled.direction_ends hw).2
      rw [(h.up rfl).1] at hz
      cases kind with
      | eic => cases hz
      | ic => cases hz
      | eoc =>
          obtain ⟨l, hl, heq⟩ := Option.map_eq_some_iff.mp hw
          obtain ⟨hx, rfl⟩ := Prod.mk.inj heq
          obtain ⟨rfl, hp⟩ := h.of_root_output
          rw [Pin.mk.injEq, List.cons.injEq] at hx
          obtain ⟨⟨rfl, -⟩, -, rfl⟩ := hx
          exact ⟨k, l, _, hl, (congrArg Pin.port hp).symm, ⟨m, t', up, hm, ⟨ht, hup m hm⟩, rfl,
            rfl⟩, rfl⟩
  · rintro ⟨k, l, ws', hl, rfl, hat, rfl⟩
    refine leads_out hat ?_ rfl
    rw [Coupled.ends?, hl, Option.map_some]

/-- **The chains inside of a network** are inside of one child, or they cross once between two. -/
theorem crosses_coupled {t t' : Terminal} {ws : List Wire} :
    (Model.coupled c ms).Crosses t t' ws ↔
      (∃ (i : Nat) (m : Model τ σ) (o d : Terminal) (ws' : List Wire), ms[i]? = some m ∧
        m.Crosses o d ws' ∧ t = o.below i ∧ t' = d.below i ∧ ws = ws'.map (.below i)) ∨
      ∃ k l up down, c.ic[k]? = some l ∧ AscendsAt ms t l.source.place up ∧
        DescendsAt ms l.destination.place t' down ∧ ws = up ++ ⟨[], .ic, k⟩ :: down := by
  constructor
  · rintro ⟨hleaf, hleaf', h⟩
    obtain ⟨i, m, o, hm, ho, rfl⟩ := exists_of_leaf hleaf
    rw [Terminal.pin_below] at h
    rcases h.inside_or_out with
      ⟨ws', y', rfl, hy, hleads⟩ | ⟨up, q, kind, k, rest, z, rfl, -, hup, hw, hrest⟩
    · obtain ⟨j, m', d, hm', hd, rfl⟩ := exists_of_leaf hleaf'
      rw [Terminal.pin_below] at hy
      obtain ⟨rfl, rfl⟩ := Pin.below_inj.mp hy
      cases hm.symm.trans hm'
      exact .inl ⟨_, m, o, d, ws', hm, ⟨ho, hd, hleads m hm⟩, rfl, rfl, rfl⟩
    · have hsource := (Coupled.direction_ends hw).1
      cases kind with
      | eic => cases hsource
      | eoc =>
          -- From an output of the network there is no way to a leaf.
          obtain ⟨l, hl, heq⟩ := Option.map_eq_some_iff.mp hw
          obtain ⟨-, rfl⟩ := Prod.mk.inj heq
          cases congrArg Pin.direction hrest.of_root_output.2
      | ic =>
          obtain ⟨l, hl, heq⟩ := Option.map_eq_some_iff.mp hw
          obtain ⟨hx, rfl⟩ := Prod.mk.inj heq
          rw [Pin.mk.injEq, List.cons.injEq] at hx
          obtain ⟨⟨rfl, -⟩, -, rfl⟩ := hx
          exact .inr ⟨k, l, _, rest, hl, ⟨m, o, up, hm, ⟨ho, hup m hm⟩, rfl, rfl⟩,
            descendsAt_iff.mpr ⟨hleaf', hrest⟩, rfl⟩
  · rintro (⟨i, m, o, d, ws', hm, ⟨ho, hd, h⟩, rfl, rfl, rfl⟩ | ⟨k, l, up, down, hl, hup, hdown, rfl⟩)
    · exact ⟨(isSome_atomAt_below hm o).trans ho, (isSome_atomAt_below hm d).trans hd,
        leads_below hm h⟩
    · obtain ⟨hleaf', h⟩ := descendsAt_iff (c := c).mp hdown
      have hw : c.ends? k .ic = some (⟨[l.source.place.child], .output, l.source.place.port⟩,
          ⟨[l.destination.place.child], .input, l.destination.place.port⟩) := by
        rw [Coupled.ends?, hl, Option.map_some]
      obtain ⟨hleaf, h⟩ := leads_out hup hw h
      exact ⟨hleaf, hleaf', h⟩

end Model

end DiscreteEvent
