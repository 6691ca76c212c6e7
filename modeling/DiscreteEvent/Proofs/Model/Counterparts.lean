/-
Counterparts: two trees with one net.

In two trees with the same net there are the same leaves, at other addresses; the ids on the
way say which of them belong together (`Model.SameLeaf`). That there is exactly one of them is
because siblings have different ids (`Model.Identified`). The chains belong together as well,
one by one, but nothing says in which order. So a leaf gets the same as its counterpart, and
the same leaves the root, as multisets (`Counterparts.receives_alike`,
`Counterparts.outflow_eq`).
-/
import DiscreteEvent.Proofs.Flat.Routes
import DiscreteEvent.Proofs.Model.FlatStep
import DiscreteEvent.Proofs.Model.Net

set_option autoImplicit false

namespace DiscreteEvent

variable {τ σ : Type}

/-! ## Leaves by their ids -/

namespace Model

/-- **Siblings have different ids**, in every network. -/
inductive Identified : Model τ σ → Prop
  | atomic {a : Atomic τ σ} : Identified (.atomic a)
  | coupled {c : Coupled τ} {children : List (Model τ σ)} (ids : (children.map Model.id).Nodup)
      (each : ∀ m ∈ children, Identified m) : Identified (.coupled c children)

/-- Accepted trees are identified. -/
theorem Accepted.identified [MessageType τ] [AtomicModel τ σ] {m : Model τ σ} (h : m.Accepted) :
    m.Identified := by
  induction h with
  | atomic h =>
      obtain ⟨rfl, -⟩ := ofState_ok h
      exact .atomic
  | @coupled b m hchildren h ih =>
      obtain ⟨c, rfl, -⟩ := Blueprint.build_ok h
      have hw := (Blueprint.exists_build_iff fun m hm => (hchildren m hm).wired).mp ⟨_, h⟩
      exact .coupled hw.children ih

theorem exists_idsAt_eq_cons (m : Model τ σ) (a : List Nat) : ∃ ids, m.idsAt a = m.id :: ids := by
  cases a with
  | nil => exact ⟨[], rfl⟩
  | cons i a => cases m <;> exact ⟨_, rfl⟩

/-- **The ids on the way to a leaf say which one it is.** -/
theorem Identified.address_eq {a : List Nat} {atom : Atomic τ σ} :
    ∀ {m : Model τ σ} {a' : List Nat} {atom' : Atomic τ σ}, m.Identified →
      m.atomAt? a = some atom → m.atomAt? a' = some atom' → m.idsAt a = m.idsAt a' → a = a' := by
  induction a with
  | nil =>
      intro m a' atom' _ ha ha' _
      cases m with
      | coupled => cases ha
      | atomic =>
          cases a' with
          | nil => rfl
          | cons => cases ha'
  | cons i a ih =>
      intro m a' atom' h ha ha' hids
      cases h with
      | atomic => cases ha
      | @coupled c children ids each =>
          cases a' with
          | nil => cases ha'
          | cons j b =>
              obtain ⟨x, hx, ha⟩ := Option.bind_eq_some_iff.mp ha
              obtain ⟨y, hy, hb⟩ := Option.bind_eq_some_iff.mp ha'
              rw [idsAt_cons hx, idsAt_cons hy] at hids
              have hrest := (List.cons.inj hids).2
              -- The child is the one with the next id on the way.
              obtain ⟨_, hxs⟩ := x.exists_idsAt_eq_cons a
              obtain ⟨_, hys⟩ := y.exists_idsAt_eq_cons b
              have hid : x.id = y.id := (List.cons.inj (hxs.symm.trans (hrest.trans hys))).1
              have hplace : (children.map Model.id)[i]? = (children.map Model.id)[j]? := by
                rw [List.getElem?_map, List.getElem?_map, hx, hy, Option.map_some, Option.map_some,
                  hid]
              have hlt : i < (children.map Model.id).length := by
                rw [List.length_map]
                exact (List.getElem?_eq_some_iff.mp hx).1
              obtain rfl := (List.getElem?_inj hlt ids).mp hplace
              cases hx.symm.trans hy
              rw [ih (each x (List.mem_of_getElem? hx)) ha hb hrest]

/-- **The same leaf in two trees**: the same ids lead to it from the root. -/
structure SameLeaf (m m' : Model τ σ) (a a' : List Nat) (atom : Atomic τ σ) : Prop where
  here : m.atomAt? a = some atom
  there : m'.atomAt? a' = some atom
  ids : m.idsAt a = m'.idsAt a'

/-- The same port of the same leaf. -/
structure SameTerminal (m m' : Model τ σ) (t t' : Terminal) : Prop where
  leaf : ∃ atom, m.SameLeaf m' t.address t'.address atom
  port : t.port = t'.port

/-- **Two trees with one net**, in which names say what is meant. -/
structure Counterparts (m m' : Model τ σ) : Prop where
  net : m.net = m'.net
  wired : m.Wired
  wired' : m'.Wired
  identified : m.Identified
  identified' : m'.Identified

end Model

open Model

/-! ## Sums over chains that belong together -/

section

variable {α β μ : Type} {R : α → β → Prop} {s : Multiset α} {t : Multiset β}

theorem bind_congr_rel {f : α → Multiset μ} {g : β → Multiset μ} (h : Multiset.Rel R s t)
    (hfg : ∀ a b, R a b → f a = g b) : s.bind f = t.bind g := by
  refine Multiset.rel_eq.mp (Multiset.rel_bind (fun a b hab => ?_) h)
  rw [hfg a b hab]
  exact Multiset.rel_eq.mpr rfl

/-- **Chains that belong together carry the same** to terminals that belong together. -/
theorem carried_congr_rel {target : α → Terminal} {target' : β → Terminal}
    {load : α → Multiset μ} {load' : β → Multiset μ} {d d' : Terminal} (h : Multiset.Rel R s t)
    (htarget : ∀ a b, R a b → (target a = d ↔ target' b = d'))
    (hload : ∀ a b, R a b → load a = load' b) :
    carried s target load d = carried t target' load' d' := by
  refine bind_congr_rel h fun a b hab => ?_
  by_cases ha : target a = d
  · rw [if_pos ha, if_pos ((htarget a b hab).mp ha), hload a b hab]
  · rw [if_neg ha, if_neg (mt (htarget a b hab).mpr ha)]

/-- Entries that are the same belong together, in lists of which one is a permutation of the
other. -/
theorem rel_range_of_perm {xs ys : List α} (h : xs.Perm ys) :
    Multiset.Rel (fun i j => ∃ x, xs[i]? = some x ∧ ys[j]? = some x)
      (Multiset.range xs.length) (Multiset.range ys.length) := by
  have hentries : ∀ zs : List α,
      (Multiset.range zs.length).map (zs[·]?) = (zs.map some : List (Option α)) := by
    intro zs
    rw [← Multiset.coe_range, Multiset.map_coe, Multiset.coe_eq_coe]
    refine List.Perm.of_eq (List.ext_getElem? fun i => ?_)
    rw [List.getElem?_map, List.getElem?_map]
    by_cases hi : i < zs.length
    · rw [List.getElem?_range hi, List.getElem?_eq_getElem hi, Option.map_some, Option.map_some,
        List.getElem?_eq_getElem hi]
    · rw [List.getElem?_eq_none (by simpa using hi), List.getElem?_eq_none (by simpa using hi),
        Option.map_none, Option.map_none]
  have hsame : (Multiset.range xs.length).map (xs[·]?)
      = (Multiset.range ys.length).map (ys[·]?) := by
    rw [hentries, hentries]
    exact Multiset.coe_eq_coe.mpr (h.map some)
  refine (Multiset.rel_map.mp (Multiset.rel_eq.mpr hsame)).mono fun i hi j _ hij => ?_
  have hlt := Multiset.mem_range.mp hi
  exact ⟨xs[i], List.getElem?_eq_getElem hlt, hij ▸ List.getElem?_eq_getElem hlt⟩

end

namespace Model

variable {m m' : Model τ σ} {a a' : List Nat} {atom : Atomic τ σ} {t t' d d' : Terminal}

theorem SameLeaf.symm (h : m.SameLeaf m' a a' atom) : m'.SameLeaf m a' a atom :=
  ⟨h.there, h.here, h.ids.symm⟩

/-- The ways through a port of the root lead to leaves. -/
theorem exists_atom_of_mem_ways (hm : m.Wired) {direction : Direction} {q : Nat} {x : Port τ}
    (hq : (m.interface.ports direction)[q]? = some x) (ht : t ∈ m.ways direction q) :
    ∃ atom, m.atomAt? t.address = some atom := by
  cases direction with
  | input =>
      obtain ⟨_, _, -, hy, -⟩ := joined_entries m hm hq t ht
      exact (exists_atom hy).imp fun _ hat => hat.1
  | output =>
      obtain ⟨_, _, hy, -, -⟩ := joined_exits m hm hq t ht
      exact (exists_atom hy).imp fun _ hat => hat.1

namespace Counterparts

theorem symm (h : m.Counterparts m') : m'.Counterparts m :=
  ⟨h.net.symm, h.wired', h.wired, h.identified', h.identified⟩

/-- **Every leaf has a counterpart.** -/
theorem exists_leaf (h : m.Counterparts m') (ha : m.atomAt? a = some atom) :
    ∃ a', m.SameLeaf m' a a' atom := by
  have hmem : (m.idsAt a, atom) ∈ m.net.leaves := ⟨a, ha, rfl⟩
  rw [h.net] at hmem
  obtain ⟨a', ha', hids⟩ := hmem
  exact ⟨a', ha, ha', hids.symm⟩

/-- Leaves to which the same ids lead are the same. -/
theorem sameLeaf (h : m.Counterparts m') {atom' : Atomic τ σ} (ha : m.atomAt? a = some atom)
    (ha' : m'.atomAt? a' = some atom') (hids : m.idsAt a = m'.idsAt a') :
    m.SameLeaf m' a a' atom := by
  obtain ⟨a'', hleaf⟩ := h.exists_leaf ha
  cases h.identified'.address_eq hleaf.there ha' (hleaf.ids.symm.trans hids)
  exact hleaf

/-- **There is one counterpart only.** -/
theorem unique (h : m.Counterparts m') {a'' : List Nat} {atom' : Atomic τ σ}
    (hleaf : m.SameLeaf m' a a' atom) (hleaf' : m.SameLeaf m' a a'' atom') : a' = a'' :=
  h.identified'.address_eq hleaf.there hleaf'.there (hleaf.ids.symm.trans hleaf'.ids)

/-- Terminals with one spot are the same, if both are ports of leaves. -/
theorem sameTerminal (h : m.Counterparts m') {atom' : Atomic τ σ}
    (ht : m.atomAt? t.address = some atom) (ht' : m'.atomAt? t'.address = some atom')
    (hspot : m.spot t = m'.spot t') : m.SameTerminal m' t t' := by
  obtain ⟨hids, hport⟩ := Spot.mk.inj hspot
  exact ⟨⟨atom, h.sameLeaf ht ht' hids⟩, hport⟩

theorem terminal_iff (h : m.Counterparts m') (ht : m.SameTerminal m' t t')
    (hd : m.SameTerminal m' d d') : t = d ↔ t' = d' := by
  obtain ⟨⟨atom, hleaf⟩, hport⟩ := ht
  obtain ⟨⟨atom', hleaf'⟩, hport'⟩ := hd
  constructor
  · rintro rfl
    exact Terminal.ext (h.unique hleaf hleaf') (hport.symm.trans hport')
  · rintro rfl
    exact Terminal.ext (h.symm.unique hleaf.symm hleaf'.symm) (hport.trans hport'.symm)

/-! ## Chains -/

/-- **The chains inside** belong together. -/
theorem rel_crossings (h : m.Counterparts m') :
    Multiset.Rel (fun c c' => m.SameTerminal m' c.1 c'.1 ∧ m.SameTerminal m' c.2 c'.2)
      (m.crossings : Multiset (Terminal × Terminal))
      (m'.crossings : Multiset (Terminal × Terminal)) := by
  have hlinks : (m.crossings : Multiset (Terminal × Terminal)).map
        (fun c => (m.spot c.1, m.spot c.2))
      = (m'.crossings : Multiset (Terminal × Terminal)).map
        (fun c => (m'.spot c.1, m'.spot c.2)) :=
    congrArg Net.links h.net
  refine (Multiset.rel_map.mp (Multiset.rel_eq.mpr hlinks)).mono fun c hc c' hc' hspots => ?_
  obtain ⟨hsource, hdestination⟩ := Prod.mk.inj hspots
  obtain ⟨x, y, hx, hy, -⟩ := joined_crossings m h.wired c (Multiset.mem_coe.mp hc)
  obtain ⟨x', y', hx', hy', -⟩ := joined_crossings m' h.wired' c' (Multiset.mem_coe.mp hc')
  obtain ⟨_, hatx, -⟩ := exists_atom hx
  obtain ⟨_, haty, -⟩ := exists_atom hy
  obtain ⟨_, hatx', -⟩ := exists_atom hx'
  obtain ⟨_, haty', -⟩ := exists_atom hy'
  exact ⟨h.sameTerminal hatx hatx' hsource, h.sameTerminal haty haty' hdestination⟩

/-- **The ways through a port of the root** belong together, wherever the port is. -/
theorem rel_ways (h : m.Counterparts m') (direction : Direction) {q q' : Nat} {x : Port τ}
    (hq : (m.interface.ports direction)[q]? = some x)
    (hq' : (m'.interface.ports direction)[q']? = some x) :
    Multiset.Rel (m.SameTerminal m') (m.ways direction q : Multiset Terminal)
      (m'.ways direction q' : Multiset Terminal) := by
  have hways := congrFun (congrFun (congrArg Net.ways h.net) direction) x.name
  rw [net_ways (h.wired.distinct.onlyAt hq), net_ways (h.wired'.distinct.onlyAt hq')] at hways
  refine (Multiset.rel_map.mp (Multiset.rel_eq.mpr hways)).mono fun t ht t' ht' hspot => ?_
  obtain ⟨_, hat⟩ := exists_atom_of_mem_ways h.wired hq (Multiset.mem_coe.mp ht)
  obtain ⟨_, hat'⟩ := exists_atom_of_mem_ways h.wired' hq' (Multiset.mem_coe.mp ht')
  exact h.sameTerminal hat hat' hspot

variable {μ : Type} {sent sent' : Terminal → Multiset μ} {waiting waiting' : Nat → Multiset μ}

/-- **What reaches a port of a leaf** is what reaches its counterpart, if the same is sent and
the same waits. -/
theorem inflow_eq (h : m.Counterparts m')
    (hsent : ∀ o o', m.SameTerminal m' o o' → sent o = sent' o')
    (hwaiting : ∀ q q' x, m.interface.inputs[q]? = some x → m'.interface.inputs[q']? = some x →
      waiting q = waiting' q')
    (hd : m.SameTerminal m' d d') : m.inflow sent waiting d = m'.inflow sent' waiting' d' := by
  have hinside := carried_congr_rel h.rel_crossings
    (fun _ _ hc => h.terminal_iff hc.2 hd) (fun _ _ hc => hsent _ _ hc.1)
  have hports := rel_range_of_perm (ports_perm_of_net_eq h.net .input)
  refine congrArg₂ (· + ·) hinside (bind_congr_rel hports ?_)
  rintro q q' ⟨x, hq, hq'⟩
  exact carried_congr_rel (h.rel_ways .input hq hq')
    (fun _ _ ht => h.terminal_iff ht hd) (fun _ _ _ => hwaiting q q' x hq hq')

/-- **What is sent out at a port of the root** is the same, wherever the port is. -/
theorem outflow_eq (h : m.Counterparts m')
    (hsent : ∀ o o', m.SameTerminal m' o o' → sent o = sent' o') {q q' : Nat} {x : Port τ}
    (hq : m.interface.outputs[q]? = some x) (hq' : m'.interface.outputs[q']? = some x) :
    (m.exits q : Multiset Terminal).bind sent = (m'.exits q' : Multiset Terminal).bind sent' :=
  bind_congr_rel (h.rel_ways .output hq hq') hsent

end Counterparts

end Model

/-! ## Messages -/

variable [MessageType τ]

/-- **The same messages on every port** that is in both lists, at whatever places it is there. -/
def Bags.AlikeBy (x x' : Bags τ) (ports ports' : List (Port τ)) : Prop :=
  ∀ q q' port, ports[q]? = some port → ports'[q']? = some port →
    (x.messagesAt q).Perm (x'.messagesAt q')

namespace Model.Counterparts

section

variable [AtomicModel τ σ] {m m' : Model τ σ} {cells cells' : List Nat → Option (Cell σ)}
  {t : Instant}

/-- The same cells emit the same. -/
theorem emitted_eq
    (hcells : ∀ {a a' atom}, m.SameLeaf m' a a' atom → cells a = cells' a') (o o' : Terminal)
    (ho : m.SameTerminal m' o o') : m.emitted t cells o = m'.emitted t cells' o' := by
  obtain ⟨⟨atom, hleaf⟩, hport⟩ := ho
  rw [emitted, emitted, hleaf.here, hleaf.there, hcells hleaf, hport]

/-- **A leaf receives what its counterpart receives**, perhaps in another order. -/
theorem receives_alike (h : m.Counterparts m')
    (hcells : ∀ {a a' atom}, m.SameLeaf m' a a' atom → cells a = cells' a') {x x' : Bags τ}
    (hx : x.AlikeBy x' m.interface.inputs m'.interface.inputs) {a a' : List Nat}
    {atom : Atomic τ σ} (hleaf : m.SameLeaf m' a a' atom) {y y' : Bags τ}
    (hy : m.Receives t x cells a atom.interface y)
    (hy' : m'.Receives t x' cells' a' atom.interface y') : y.Alike y' := by
  refine hy.fits.alike hy'.fits fun q hq => ?_
  rw [hy.content q hq, hy'.content q hq]
  exact h.inflow_eq (emitted_eq hcells)
    (fun q q' port hq hq' => Multiset.coe_eq_coe.mpr (hx q q' port hq hq')) ⟨⟨atom, hleaf⟩, rfl⟩

end

end Model.Counterparts

/-! ## Good models and rearranged drafts -/

section

variable {good : Interface τ → Stage → σ → Prop}

omit [MessageType τ] in
/-- A tree is good if all its leaves are. -/
theorem Model.allGood_iff (m : Model τ σ) :
    m.AllGood good ↔
      ∀ a atom, m.atomAt? a = some atom → good atom.interface .due atom.state := by
  induction m using Model.induction with
  | atomic x =>
      constructor
      · rintro ⟨hx⟩ (_ | ⟨i, a⟩) atom ha
        · cases ha
          exact hx
        · cases ha
      · exact fun h => .atomic (h [] x rfl)
  | coupled c children ih =>
      constructor
      · rintro (_ | ⟨heach⟩) (_ | ⟨i, a⟩) atom ha
        · cases ha
        · obtain ⟨m, hm, ha⟩ := Option.bind_eq_some_iff.mp ha
          have hmem := List.mem_of_getElem? hm
          exact (ih m hmem).mp (heach m hmem) a atom ha
      · intro h
        refine .coupled fun m hm => (ih m hm).mpr fun a atom ha => ?_
        obtain ⟨i, hi⟩ := List.getElem?_of_mem hm
        exact h (i :: a) atom (Option.bind_eq_some_iff.mpr ⟨m, hi, ha⟩)

omit [MessageType τ] in
/-- Counterparts of good leaves are good. -/
theorem Model.Counterparts.allGood {m m' : Model τ σ} (h : m.Counterparts m')
    (hg : m.AllGood good) : m'.AllGood good := by
  refine m'.allGood_iff.mpr fun a' atom ha' => ?_
  obtain ⟨a, hleaf⟩ := h.symm.exists_leaf ha'
  exact m.allGood_iff.mp hg a atom hleaf.there

end

/-- **Drafts that are rearranged are built to counterparts.** -/
theorem Draft.Rearranged.exists_counterpart [AtomicModel τ σ] {d d' : Draft τ σ} {m : Model τ σ}
    (h : d.Rearranged d') (hm : d.build = .ok m) :
    ∃ m', d'.build = .ok m' ∧ m.Counterparts m' := by
  obtain ⟨m', hm', hnet⟩ := h.exists_net hm
  have hacc := d.accepted hm
  have hacc' := d'.accepted hm'
  exact ⟨m', hm', hnet.symm, hacc.wired, hacc'.wired, hacc.identified, hacc'.identified⟩

end DiscreteEvent
