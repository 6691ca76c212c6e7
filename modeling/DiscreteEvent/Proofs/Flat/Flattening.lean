/-
Flattening finds every coupling chain, once for each way to form it.

A chain is a walk along the couplings of a tree that leads from the beginning of a route to its
end (`Model.Chain`). There may be several for one route, since couplings may be
declared twice and ways may part and meet again. The routes of a flattened tree are counted by
these walks: a route is in the list as often as there are chains for it.

That a list of keys counts some things (`Tallies`) is put together like the lists themselves. The
ways in and out and the chains inside are built by concatenation, by relabelling, and by pairing
ways out with ways in, and each of these steps keeps the count if nothing is counted twice
(`Tallies.append`, `Tallies.flatMap`, `Tallies.map`, `Tallies.pairs`). A walk shows by its
wires which step it came from: by the place of a coupling of the network, or by the child below
which all of its wires are.
-/
import DiscreteEvent.Proofs.Components.Doubler
import DiscreteEvent.Proofs.Flat.Naming
import DiscreteEvent.Proofs.Flat.Sound
import DiscreteEvent.Proofs.Model.Walk
import Mathlib.Data.List.ProdSigma
import Mathlib.Data.List.Sigma
import Mathlib.Data.Set.Card

set_option autoImplicit false

namespace DiscreteEvent

/-! ## Keys that count -/

section Tallies

variable {α β κ κ' β' : Type}

/-- **A list that counts**: it has each key as often as there are things for the key. -/
def Tallies (keys : List κ) (P : κ → β → Prop) : Prop :=
  ∃ entries : List (κ × β), entries.Nodup ∧ (∀ k b, (k, b) ∈ entries ↔ P k b) ∧
    entries.map Prod.fst = keys

variable {keys : List κ} {P : κ → β → Prop}

theorem Tallies.congr {P' : κ → β → Prop} (h : Tallies keys P) (hP : ∀ k b, P' k b ↔ P k b) :
    Tallies keys P' := by
  obtain ⟨entries, hnodup, hmem, hkeys⟩ := h
  exact ⟨entries, hnodup, fun k b => (hmem k b).trans (hP k b).symm, hkeys⟩

theorem Tallies.nil (h : ∀ k b, ¬ P k b) : Tallies [] P :=
  ⟨[], List.nodup_nil, fun k b => ⟨fun hb => absurd hb List.not_mem_nil, fun hb => (h k b hb).elim⟩,
    rfl⟩

theorem Tallies.single {k : κ} {b : β} (h : ∀ k' b', P k' b' ↔ k' = k ∧ b' = b) :
    Tallies [k] P := by
  refine ⟨[(k, b)], List.nodup_singleton _, fun k' b' => ?_, rfl⟩
  rw [List.mem_singleton, Prod.mk.injEq, h]

/-- Two lists one after the other count what either of them counts. -/
theorem Tallies.append {keys' : List κ} {P' : κ → β → Prop} (h : Tallies keys P)
    (h' : Tallies keys' P') (hdisjoint : ∀ k b, P k b → ¬ P' k b) :
    Tallies (keys ++ keys') fun k b => P k b ∨ P' k b := by
  obtain ⟨entries, hnodup, hmem, rfl⟩ := h
  obtain ⟨entries', hnodup', hmem', rfl⟩ := h'
  refine ⟨entries ++ entries', List.nodup_append.mpr ⟨hnodup, hnodup', ?_⟩, fun k b => ?_,
    List.map_append⟩
  · rintro ⟨k, b⟩ he _ he' rfl
    exact hdisjoint k b ((hmem k b).mp he) ((hmem' k b).mp he')
  · rw [List.mem_append, hmem, hmem']

/-- **The lists for the members of another list**, one after the other. -/
theorem Tallies.flatMap {xs : List α} {keysOf : α → List κ} {P : α → κ → β → Prop}
    (hxs : xs.Nodup) (h : ∀ x ∈ xs, Tallies (keysOf x) (P x))
    (hdisjoint : ∀ x ∈ xs, ∀ y ∈ xs, ∀ k b, P x k b → P y k b → x = y) :
    Tallies (xs.flatMap keysOf) fun k b => ∃ x ∈ xs, P x k b := by
  induction xs with
  | nil => exact .nil fun _ _ ⟨_, hx, _⟩ => absurd hx List.not_mem_nil
  | cons x xs ih =>
      obtain ⟨hx, hxs⟩ := List.nodup_cons.mp hxs
      have hrest := ih hxs (fun y hy => h y (by simp [hy]))
        fun y hy z hz => hdisjoint y (by simp [hy]) z (by simp [hz])
      rw [List.flatMap_cons]
      refine ((h x (by simp)).append hrest fun k b hb ⟨y, hy, hb'⟩ => hx ?_).congr fun k b => ?_
      · rwa [hdisjoint x (by simp) y (by simp [hy]) k b hb hb']
      · simp only [List.mem_cons, exists_eq_or_imp]

/-- **The lists for the places of another list**, one after the other. -/
theorem Tallies.zipIdx (xs : List α) (keysOf : Nat → α → List κ) {P : Nat → α → κ → β → Prop}
    (h : ∀ i x, xs[i]? = some x → Tallies (keysOf i x) (P i x))
    (hdisjoint : ∀ i j x y k b, xs[i]? = some x → xs[j]? = some y → P i x k b → P j y k b →
      i = j) :
    Tallies (xs.zipIdx.flatMap fun x => keysOf x.2 x.1) fun k b =>
      ∃ i x, xs[i]? = some x ∧ P i x k b := by
  have hnodup : xs.zipIdx.Nodup := List.Nodup.of_map _ (List.nodup_zipIdx_map_snd xs)
  refine (flatMap hnodup (P := fun x => P x.2 x.1) (fun x hx => ?_) ?_).congr fun k b => ?_
  · exact h x.2 x.1 (List.mem_zipIdx_iff_getElem?.mp hx)
  · rintro ⟨x, i⟩ hx ⟨y, j⟩ hy k b hb hb'
    rw [List.mem_zipIdx_iff_getElem?] at hx hy
    obtain rfl := hdisjoint i j x y k b hx hy hb hb'
    cases hx.symm.trans hy
    rfl
  · constructor
    · rintro ⟨i, x, hx, hb⟩
      exact ⟨(x, i), List.mem_zipIdx_iff_getElem?.mpr hx, hb⟩
    · rintro ⟨⟨x, i⟩, hx, hb⟩
      exact ⟨i, x, List.mem_zipIdx_iff_getElem?.mp hx, hb⟩

/-- Other names for the keys, and other things for them. -/
theorem Tallies.map {f : κ → κ'} {g : β → β'} (h : Tallies keys P)
    (hinj : ∀ k b k' b', P k b → P k' b' → f k = f k' → g b = g b' → k = k' ∧ b = b') :
    Tallies (keys.map f) fun k' b' => ∃ k b, P k b ∧ k' = f k ∧ b' = g b := by
  obtain ⟨entries, hnodup, hmem, rfl⟩ := h
  refine ⟨entries.map (Prod.map f g), hnodup.map_on ?_, fun k' b' => ?_, ?_⟩
  · rintro ⟨k, b⟩ he ⟨k', b'⟩ he' heq
    obtain ⟨hk, hb⟩ := Prod.mk.inj heq
    obtain ⟨rfl, rfl⟩ := hinj k b k' b' ((hmem k b).mp he) ((hmem k' b').mp he') hk hb
    rfl
  · rw [List.mem_map]
    constructor
    · rintro ⟨⟨k, b⟩, he, heq⟩
      obtain ⟨rfl, rfl⟩ := Prod.mk.inj heq
      exact ⟨k, b, (hmem k b).mp he, rfl, rfl⟩
    · rintro ⟨k, b, hb, rfl, rfl⟩
      exact ⟨(k, b), (hmem k b).mpr hb, rfl⟩
  · rw [List.map_map, List.map_map]
    rfl

/-- **Pairs** of what two lists count. -/
theorem Tallies.pairs {γ : Type} {keys' : List κ'} {P' : κ' → β' → Prop} {g : β → β' → γ}
    (h : Tallies keys P) (h' : Tallies keys' P')
    (hinj : ∀ k k' a b a' b', P k a → P' k' b → P k a' → P' k' b' → g a b = g a' b' →
      a = a' ∧ b = b') :
    Tallies (keys.flatMap fun k => keys'.map fun k' => (k, k')) fun k c =>
      ∃ a b, P k.1 a ∧ P' k.2 b ∧ c = g a b := by
  obtain ⟨entries, hnodup, hmem, rfl⟩ := h
  obtain ⟨entries', hnodup', hmem', rfl⟩ := h'
  refine ⟨(entries ×ˢ entries').map fun e => ((e.1.1, e.2.1), g e.1.2 e.2.2),
    (hnodup.product hnodup').map_on ?_, fun k c => ?_, ?_⟩
  · rintro ⟨⟨k, a⟩, k', b⟩ he ⟨⟨l, a'⟩, l', b'⟩ he' heq
    rw [List.mem_product, hmem, hmem'] at he he'
    obtain ⟨hk, hg⟩ := Prod.mk.inj heq
    obtain ⟨rfl, rfl⟩ := Prod.mk.inj hk
    obtain ⟨rfl, rfl⟩ := hinj k k' a b a' b' he.1 he.2 he'.1 he'.2 hg
    rfl
  · rw [List.mem_map]
    constructor
    · rintro ⟨⟨⟨l, a⟩, l', b⟩, he, heq⟩
      rw [List.mem_product, hmem, hmem'] at he
      obtain ⟨rfl, rfl⟩ := Prod.mk.inj heq
      exact ⟨a, b, he.1, he.2, rfl⟩
    · rintro ⟨a, b, ha, hb, rfl⟩
      refine ⟨((k.1, a), k.2, b), ?_, rfl⟩
      rw [List.mem_product, hmem, hmem']
      exact ⟨ha, hb⟩
  · show ((entries.flatMap fun e => entries'.map (Prod.mk e)).map _).map _ = _
    rw [List.map_map, List.map_flatMap, List.flatMap_map]
    simp only [List.map_map]
    rfl

/-- Other names for the keys of the same things. -/
theorem Tallies.rename {f : κ → κ'} (h : Tallies keys P)
    (hinj : ∀ k k' b, P k b → P k' b → f k = f k' → k = k') :
    Tallies (keys.map f) fun k' b => ∃ k, P k b ∧ k' = f k := by
  have hmap := h.map (f := f) (g := fun b => b) fun k b k' b' hb hb' hk hg => by
    subst hg
    exact ⟨hinj k k' b hb hb' hk, rfl⟩
  refine hmap.congr fun k' b => ⟨fun ⟨k, hb, hk⟩ => ⟨k, b, hb, hk, rfl⟩, ?_⟩
  rintro ⟨k, _, hb, hk, rfl⟩
  exact ⟨k, hb, hk⟩

/-- Other things for the same keys. -/
theorem Tallies.image {g : β → β'} (h : Tallies keys P)
    (hinj : ∀ k b b', P k b → P k b' → g b = g b' → b = b') :
    Tallies keys fun k b' => ∃ b, P k b ∧ b' = g b := by
  have hmap := h.map (f := fun k => k) (g := g) fun k b k' b' hb hb' hk hg => by
    subst hk
    exact ⟨rfl, hinj k b b' hb hb' hg⟩
  rw [List.map_id'] at hmap
  refine hmap.congr fun k b' => ⟨fun ⟨b, hb, hg⟩ => ⟨k, b, hb, rfl, hg⟩, ?_⟩
  rintro ⟨_, b, hb, rfl, hg⟩
  exact ⟨b, hb, hg⟩

/-- **A list that counts** has a key as often as there are things for it. -/
theorem Tallies.encard [DecidableEq κ] (h : Tallies keys P) (k : κ) :
    {b | P k b}.encard = keys.count k := by
  obtain ⟨entries, hnodup, hmem, rfl⟩ := h
  classical
  have hthings : {b | P k b} = ((entries.filter (·.1 = k)).map Prod.snd).toFinset := by
    ext b
    rw [Set.mem_ofPred_eq, ← hmem, List.coe_toFinset, Set.mem_ofPred_eq, List.mem_map]
    constructor
    · exact fun hb => ⟨(k, b), List.mem_filter.mpr ⟨hb, by simp⟩, rfl⟩
    · rintro ⟨⟨k', b'⟩, hkept, rfl⟩
      obtain ⟨he, hk⟩ := List.mem_filter.mp hkept
      rw [decide_eq_true_eq] at hk
      exact hk ▸ he
  have hcount : ((entries.filter (·.1 = k)).map Prod.snd).Nodup := by
    refine (hnodup.filter _).map_on ?_
    rintro ⟨k₁, b₁⟩ he₁ ⟨k₂, b₂⟩ he₂ rfl
    have hk₁ : k₁ = k := of_decide_eq_true (List.mem_filter.mp he₁).2
    have hk₂ : k₂ = k := of_decide_eq_true (List.mem_filter.mp he₂).2
    rw [hk₁, hk₂]
  rw [hthings, Set.encard_coe_eq_coe_finsetCard, List.toFinset_card_of_nodup hcount,
    List.length_map, List.count_eq_countP, List.countP_map, List.countP_eq_length_filter]
  congr 2

end Tallies

/-! ## Walks are counted -/

/-- Parts for the entries of a list are parts for its places. -/
theorem flatMap_eq_zipIdx {α β : Type} (f : α → List β) (xs : List α) :
    xs.flatMap f = xs.zipIdx.flatMap fun x => f x.1 := by
  conv_lhs => rw [← List.zipIdx_map_fst 0 xs, List.flatMap_map]

/-- An entry that is left out has no part. -/
theorem flatMap_filter_eq {α β : Type} (p : α → Bool) (f : α → List β) (xs : List α) :
    (xs.filter p).flatMap f = xs.flatMap fun x => if p x then f x else [] := by
  induction xs with
  | nil => rfl
  | cons x xs ih =>
      rw [List.filter_cons, List.flatMap_cons]
      split
      · rw [List.flatMap_cons, ih]
      · rw [ih, List.nil_append]

/-- **What couplings make a route**: from leaf to leaf external output couplings, one internal
coupling and external input couplings, and from or to the root one kind only. -/
def Route.Shape (r : Route) (ws : List Wire) : Prop :=
  match r.source, r.target with
  | .leaf _, .leaf _ => ∃ up w down, ws = up ++ w :: down ∧ (∀ v ∈ up, v.kind = .eoc) ∧
      w.kind = .ic ∧ ∀ v ∈ down, v.kind = .eic
  | .rootInput _, .leaf _ => ∀ v ∈ ws, v.kind = .eic
  | .leaf _, .rootOutput _ => ∀ v ∈ ws, v.kind = .eoc
  | .rootInput _, .rootOutput _ => False

namespace Model

variable {τ σ : Type} {c : Coupled τ} {ms : List (Model τ σ)}

theorem below_injective (i : Nat) : Function.Injective (List.map (Wire.below i)) :=
  List.map_injective_iff.mpr (Wire.below_injective i)

/-- **The ways through one port of a child**, seen from the network. -/
theorem tallies_child {ways : Model τ σ → Nat → List Terminal}
    {W : Model τ σ → Nat → Terminal → List Wire → Prop}
    (h : ∀ m ∈ ms, ∀ p, Tallies (ways m p) (W m p)) (p : Place) :
    Tallies (((ms[p.child]?.map fun m => ways m p.port).getD []).map (Terminal.below p.child))
      fun t ws => ∃ m t' ws', ms[p.child]? = some m ∧ W m p.port t' ws' ∧
        t = t'.below p.child ∧ ws = ws'.map (Wire.below p.child) := by
  cases hm : ms[p.child]? with
  | none => exact .nil fun _ _ ⟨_, _, _, hm', _⟩ => nomatch hm'
  | some m =>
      have hways := (h m (List.mem_of_getElem? hm) p.port).map (f := Terminal.below p.child)
        (g := List.map (Wire.below p.child)) fun t ws t' ws' _ _ ht hws =>
          ⟨(Terminal.below_eq_iff.mp ht).2, below_injective _ hws⟩
      refine hways.congr fun t ws => ?_
      simp only [Option.some_inj, exists_and_left, exists_eq_left']

theorem tallies_entriesOf (h : ∀ m ∈ ms, ∀ p, Tallies (m.entries p) (m.Descends p)) (p : Place) :
    Tallies (entriesOf ms p) (DescendsAt ms p) := by
  rw [entriesOf, entriesAt_eq]
  exact tallies_child h p

theorem tallies_exitsOf (h : ∀ m ∈ ms, ∀ p, Tallies (m.exits p) fun t => m.Ascends t p)
    (p : Place) : Tallies (exitsOf ms p) fun t => AscendsAt ms t p := by
  rw [exitsOf, exitsAt_eq]
  exact tallies_child (W := fun m p t => m.Ascends t p) h p

/-- **The ways through one boundary port of a network**, by the coupling that they take there. -/
theorem tallies_boundary {α : Type} (links : List α) (key : α → Nat) (place : α → Place)
    {waysOf : Place → List Terminal} {W : Place → Terminal → List Wire → Prop}
    (h : ∀ p, Tallies (waysOf p) (W p)) (extend : Nat → List Wire → List Wire)
    (hextend : ∀ k k' ws ws', extend k ws = extend k' ws' → k = k' ∧ ws = ws') (p : Nat) :
    Tallies ((links.filter (key · == p)).flatMap fun l => waysOf (place l)) fun t ws =>
      ∃ k l ws', links[k]? = some l ∧ key l = p ∧ W (place l) t ws' ∧ ws = extend k ws' := by
  rw [flatMap_filter_eq, flatMap_eq_zipIdx]
  have hlinks := Tallies.zipIdx links
    (fun _ l => if key l == p then waysOf (place l) else [])
    (P := fun k l t ws => key l = p ∧ ∃ ws', W (place l) t ws' ∧ ws = extend k ws')
    (fun k l _ => ?_) ?_
  · refine hlinks.congr fun t ws => ?_
    simp only [exists_and_left]
  · by_cases hp : key l = p
    · rw [if_pos (by simpa using hp)]
      refine ((h (place l)).image fun _ ws ws' _ _ hws => ?_).congr fun t ws => and_iff_right hp
      exact (hextend k k ws ws' hws).2
    · rw [if_neg (by simpa using hp)]
      exact .nil fun _ _ hb => hp hb.1
  · rintro k k' l l' t _ - - ⟨-, ws, -, rfl⟩ ⟨-, ws', -, hws⟩
    exact (hextend k k' ws ws' hws).1

/-- **The ways in are counted.** -/
theorem tallies_entries (m : Model τ σ) : ∀ p, Tallies (m.entries p) (m.Descends p) := by
  induction m using Model.induction with
  | atomic a => exact fun p => .single fun t ws => descends_atomic
  | coupled c ms ih =>
      intro p
      rw [entries_coupled]
      refine (tallies_boundary c.eic (·.source.place) (·.destination.place) (tallies_entriesOf ih)
        (fun k ws => ⟨[], .eic, k⟩ :: ws) (fun k k' ws ws' h => ?_) p).congr
        fun t ws => descends_coupled
      obtain ⟨hw, hws⟩ := List.cons.inj h
      exact ⟨congrArg Wire.place hw, hws⟩

/-- **The ways out are counted.** -/
theorem tallies_exits (m : Model τ σ) : ∀ p, Tallies (m.exits p) fun t => m.Ascends t p := by
  induction m using Model.induction with
  | atomic a => exact fun p => .single fun t ws => ascends_atomic
  | coupled c ms ih =>
      intro p
      rw [exits_coupled]
      refine (tallies_boundary c.eoc (·.destination.place) (·.source.place) (tallies_exitsOf ih)
        (fun k ws => ws ++ [⟨[], .eoc, k⟩]) (fun k k' ws ws' h => ?_) p).congr
        fun t ws => ascends_coupled
      obtain ⟨hws, hw⟩ := List.append_inj' h rfl
      exact ⟨congrArg Wire.place (List.cons.inj hw).1, hws⟩

theorem crossingsFrom_eq (ms : List (Model τ σ)) (k : Nat) :
    crossingsFrom k ms = (ms.zipIdx k).flatMap fun x =>
      x.1.crossings.map fun c => (c.1.below x.2, c.2.below x.2) := by
  induction ms generalizing k with
  | nil => rfl
  | cons m ms ih => rw [crossingsFrom, List.zipIdx_cons, List.flatMap_cons, ih]

/-- No wire below a child belongs to the network. -/
theorem address_ne_nil {i : Nat} {w : Wire} {ws : List Wire} (h : w ∈ ws.map (Wire.below i)) :
    w.address ≠ [] := by
  obtain ⟨v, -, rfl⟩ := List.mem_map.mp h
  exact List.cons_ne_nil _ _

theorem AscendsAt.address_ne_nil {t : Terminal} {p : Place} {ws : List Wire}
    (h : AscendsAt ms t p ws) : ∀ w ∈ ws, w.address ≠ [] := by
  obtain ⟨_, _, _, -, -, -, rfl⟩ := h
  exact fun _ => Model.address_ne_nil

theorem DescendsAt.address_ne_nil {t : Terminal} {p : Place} {ws : List Wire}
    (h : DescendsAt ms p t ws) : ∀ w ∈ ws, w.address ≠ [] := by
  obtain ⟨_, _, _, -, -, -, rfl⟩ := h
  exact fun _ => Model.address_ne_nil

/-- **A chain across shows where it crosses.** -/
theorem across_inj {up up' down down' : List Wire} {k k' : Nat} (hup : ∀ w ∈ up, w.address ≠ [])
    (hdown : ∀ w ∈ down, w.address ≠ [])
    (h : up ++ ⟨[], .ic, k⟩ :: down = up' ++ ⟨[], .ic, k'⟩ :: down') :
    up = up' ∧ k = k' ∧ down = down' := by
  obtain ⟨hups, hw, hdowns⟩ := (List.append_cons_inj_of_notMem (fun hmem => hup _ hmem rfl)
    fun hmem => hdown _ hmem rfl).mp h
  exact ⟨hups, congrArg Wire.place hw, hdowns⟩

/-- The chains inside of the children are counted. -/
theorem tallies_crossingsFrom
    (h : ∀ m ∈ ms, Tallies m.crossings fun t ws => m.Crosses t.1 t.2 ws) :
    Tallies (crossingsFrom 0 ms) fun t ws => ∃ (i : Nat) (m : Model τ σ), ms[i]? = some m ∧
      ∃ (t' : Terminal × Terminal) (ws' : List Wire), m.Crosses t'.1 t'.2 ws' ∧
        t = (t'.1.below i, t'.2.below i) ∧ ws = ws'.map (Wire.below i) := by
  rw [crossingsFrom_eq]
  refine Tallies.zipIdx ms (fun i m => m.crossings.map fun t => (t.1.below i, t.2.below i))
    (fun i m hm => ?_) ?_
  · refine (h m (List.mem_of_getElem? hm)).map fun t ws t' ws' _ _ ht hws => ?_
    obtain ⟨ho, hd⟩ := Prod.mk.inj ht
    exact ⟨Prod.ext (Terminal.below_eq_iff.mp ho).2 (Terminal.below_eq_iff.mp hd).2,
      below_injective i hws⟩
  · rintro i j m m' t ws - - ⟨u, _, -, rfl, -⟩ ⟨u', _, -, ht, -⟩
    exact (Terminal.below_eq_iff.mp (Prod.mk.inj ht).1).1

/-- The chains across one internal coupling, or another, are counted. -/
theorem tallies_across (links : List (Link ChildSlot ChildSlot))
    (hout : ∀ p, Tallies (exitsOf ms p) fun t => AscendsAt ms t p)
    (hin : ∀ p, Tallies (entriesOf ms p) (DescendsAt ms p)) :
    Tallies (links.flatMap fun l => (exitsOf ms l.source.place).flatMap fun o =>
        (entriesOf ms l.destination.place).map fun d => (o, d)) fun t ws =>
      ∃ (k : Nat) (l : Link ChildSlot ChildSlot), links[k]? = some l ∧ ∃ up down,
        AscendsAt ms t.1 l.source.place up ∧ DescendsAt ms l.destination.place t.2 down ∧
        ws = up ++ ⟨[], .ic, k⟩ :: down := by
  rw [flatMap_eq_zipIdx]
  refine Tallies.zipIdx links (fun _ l => (exitsOf ms l.source.place).flatMap fun o =>
    (entriesOf ms l.destination.place).map fun d => (o, d)) (fun k l _ => ?_) ?_
  · refine (hout _).pairs (hin _) (g := fun up down => up ++ ⟨[], .ic, k⟩ :: down)
      fun o d up down up' down' hup hdown _ _ heq => ?_
    obtain ⟨hups, -, hdowns⟩ := across_inj hup.address_ne_nil hdown.address_ne_nil heq
    exact ⟨hups, hdowns⟩
  · rintro k k' l l' t _ - - ⟨up, down, hup, hdown, rfl⟩ ⟨_, _, -, -, heq⟩
    exact (across_inj hup.address_ne_nil hdown.address_ne_nil heq).2.1

/-- **The chains inside are counted.** -/
theorem tallies_crossings (m : Model τ σ) :
    Tallies m.crossings fun t ws => m.Crosses t.1 t.2 ws := by
  induction m using Model.induction with
  | atomic a => exact .nil fun t ws => not_crosses_atomic
  | coupled c ms ih =>
      rw [crossings]
      refine ((tallies_crossingsFrom ih).append (tallies_across c.ic
        (tallies_exitsOf fun m _ => m.tallies_exits)
        (tallies_entriesOf fun m _ => m.tallies_entries)) fun t ws => ?_).congr fun t ws => ?_
      · -- A chain inside of a child takes no coupling of the network.
        rintro ⟨i, m, -, _, ws', -, -, rfl⟩ ⟨k, l, -, up, down, -, -, heq⟩
        have hmem : (⟨[], .ic, k⟩ : Wire) ∈ ws'.map (.below i) := by
          rw [heq]
          simp
        exact address_ne_nil hmem rfl
      · rw [crosses_coupled]
        refine or_congr ⟨?_, ?_⟩ ⟨?_, ?_⟩
        · rintro ⟨i, m, o, d, ws', hm, h, ho, hd, rfl⟩
          exact ⟨i, m, hm, (o, d), ws', h, Prod.ext ho hd, rfl⟩
        · rintro ⟨i, m, hm, ⟨o, d⟩, ws', h, rfl, rfl⟩
          exact ⟨i, m, o, d, ws', hm, h, rfl, rfl, rfl⟩
        · rintro ⟨k, l, up, down, hl, h⟩
          exact ⟨k, l, hl, up, down, h⟩
        · rintro ⟨k, l, hl, up, down, h⟩
          exact ⟨k, l, up, down, hl, h⟩

/-! ## Chains -/

/-- **Where a route begins** in the tree: at an output of the leaf that has the number, or at an
input of the root. -/
def Origin (m : Model τ σ) : RouteSource → Pin → Prop
  | .leaf p, x => ∃ t : Terminal, (m.atomAt? t.address).isSome ∧ m.leafPort 0 t = p ∧
    x = t.pin .output
  | .rootInput p, x => p < m.interface.inputs.length ∧ x = ⟨[], .input, p⟩

/-- **Where a route ends**: at an input of a leaf, or at an output of the root. -/
def Goal (m : Model τ σ) : RouteTarget → Pin → Prop
  | .leaf p, x => ∃ t : Terminal, (m.atomAt? t.address).isSome ∧ m.leafPort 0 t = p ∧
    x = t.pin .input
  | .rootOutput p, x => p < m.interface.outputs.length ∧ x = ⟨[], .output, p⟩

/-- **A coupling chain for a route**: a walk from its beginning to its end. -/
def Chain (m : Model τ σ) (r : Route) (ws : List Wire) : Prop :=
  ∃ x y, m.Origin r.source x ∧ m.Goal r.target y ∧ m.Leads x ws y

/-- A leaf is known by its number. -/
theorem leafPort_inj {m : Model τ σ} {t t' : Terminal} (h : (m.atomAt? t.address).isSome)
    (h' : (m.atomAt? t'.address).isSome) (heq : m.leafPort 0 t = m.leafPort 0 t') : t = t' := by
  obtain ⟨a, ha⟩ := Option.isSome_iff_exists.mp h
  obtain ⟨a', ha'⟩ := Option.isSome_iff_exists.mp h'
  rw [leafPort, leafPort, LeafPort.mk.injEq, Nat.zero_add, Nat.zero_add] at heq
  exact Terminal.ext (number_inj ha ha' heq.1) heq.2

/-- **The chains of a tree**, by the kind of their route. -/
theorem chain_iff {m : Model τ σ} {r : Route} {ws : List Wire} : m.Chain r ws ↔
    ((∃ t, m.Crosses t.1 t.2 ws ∧ r = m.innerRoute 0 t) ∨
      ∃ p < m.interface.inputs.length, ∃ t, m.Descends p t ws ∧
        r = ⟨.rootInput p, .leaf (m.leafPort 0 t)⟩) ∨
      ∃ p < m.interface.outputs.length, ∃ t, m.Ascends t p ws ∧
        r = ⟨.leaf (m.leafPort 0 t), .rootOutput p⟩ := by
  constructor
  · obtain ⟨source, target⟩ := r
    rintro ⟨x, y, hx, hy, h⟩
    cases source with
    | leaf p =>
        obtain ⟨t, ht, rfl, rfl⟩ := hx
        cases target with
        | leaf q =>
            obtain ⟨t', ht', rfl, rfl⟩ := hy
            exact .inl (.inl ⟨(t, t'), ⟨ht, ht', h⟩, rfl⟩)
        | rootOutput q =>
            obtain ⟨hq, rfl⟩ := hy
            exact .inr ⟨q, hq, t, ⟨ht, h⟩, rfl⟩
    | rootInput p =>
        obtain ⟨hp, rfl⟩ := hx
        cases target with
        | leaf q =>
            obtain ⟨t, ht, rfl, rfl⟩ := hy
            exact .inl (.inr ⟨p, hp, t, ⟨ht, h⟩, rfl⟩)
        | rootOutput q =>
            -- From an input of the root there is no way to an output.
            obtain ⟨-, rfl⟩ := hy
            cases (h.down rfl).1
  · rintro ((⟨t, ⟨ho, hd, h⟩, rfl⟩ | ⟨p, hp, t, ⟨ht, h⟩, rfl⟩) | ⟨p, hp, t, ⟨ht, h⟩, rfl⟩)
    · exact ⟨_, _, ⟨t.1, ho, rfl, rfl⟩, ⟨t.2, hd, rfl, rfl⟩, h⟩
    · exact ⟨_, _, ⟨hp, rfl⟩, ⟨t, ht, rfl, rfl⟩, h⟩
    · exact ⟨_, _, ⟨t, ht, rfl, rfl⟩, ⟨hp, rfl⟩, h⟩

/-- **The routes of a tree count its chains.** -/
theorem tallies_routes (m : Model τ σ) : Tallies m.routes m.Chain := by
  have hinside := m.tallies_crossings.rename (f := m.innerRoute 0) fun t t' ws h h' hr => by
    obtain ⟨hsource, htarget⟩ := Route.mk.inj hr
    exact Prod.ext (leafPort_inj h.1 h'.1 (RouteSource.leaf.inj hsource))
      (leafPort_inj h.2.1 h'.2.1 (RouteTarget.leaf.inj htarget))
  have hin : Tallies ((List.range m.interface.inputs.length).flatMap fun p =>
      (m.entries p).map fun t => (⟨.rootInput p, .leaf (m.leafPort 0 t)⟩ : Route)) fun r ws =>
        ∃ p ∈ List.range m.interface.inputs.length, ∃ t, m.Descends p t ws ∧
          r = ⟨.rootInput p, .leaf (m.leafPort 0 t)⟩ := by
    refine .flatMap List.nodup_range (fun p _ => ?_) ?_
    · refine (m.tallies_entries p).rename fun t t' ws h h' hr => ?_
      exact leafPort_inj h.1 h'.1 (RouteTarget.leaf.inj (Route.mk.inj hr).2)
    · rintro p - q - r ws ⟨t, -, rfl⟩ ⟨t', -, hr⟩
      exact RouteSource.rootInput.inj (Route.mk.inj hr).1
  have hout : Tallies ((List.range m.interface.outputs.length).flatMap fun p =>
      (m.exits p).map fun t => (⟨.leaf (m.leafPort 0 t), .rootOutput p⟩ : Route)) fun r ws =>
        ∃ p ∈ List.range m.interface.outputs.length, ∃ t, m.Ascends t p ws ∧
          r = ⟨.leaf (m.leafPort 0 t), .rootOutput p⟩ := by
    refine .flatMap List.nodup_range (fun p _ => ?_) ?_
    · refine (m.tallies_exits p).rename fun t t' ws h h' hr => ?_
      exact leafPort_inj h.1 h'.1 (RouteSource.leaf.inj (Route.mk.inj hr).1)
    · rintro p - q - r ws ⟨t, -, rfl⟩ ⟨t', -, hr⟩
      exact RouteTarget.rootOutput.inj (Route.mk.inj hr).2
  -- The three parts have routes of different kinds.
  refine ((hinside.append hin ?_).append hout ?_).congr fun r ws => ?_
  · rintro r ws ⟨t, -, rfl⟩ ⟨p, -, t', -, hr⟩
    cases (Route.mk.inj hr).1
  · rintro r ws (⟨t, -, rfl⟩ | ⟨p, -, t, -, rfl⟩) ⟨q, -, t', -, hr⟩
    · cases (Route.mk.inj hr).2
    · cases (Route.mk.inj hr).2
  · simp only [List.mem_range]
    exact chain_iff

/-- **A chain shows the kind of its route** by the couplings that it takes. -/
theorem Chain.shape {m : Model τ σ} {r : Route} {ws : List Wire} (h : m.Chain r ws) :
    r.Shape ws := by
  rcases chain_iff.mp h with (⟨t, ⟨-, -, hwalk⟩, rfl⟩ | ⟨p, -, t, ⟨-, hwalk⟩, rfl⟩) |
    ⟨p, -, t, ⟨-, hwalk⟩, rfl⟩
  · exact hwalk.shape rfl rfl
  · exact (hwalk.down rfl).2
  · exact (hwalk.up rfl).2

/-! ## Leaves in the order of the tree -/

/-- **Leaves are numbered depth first**, the children of a network in their order. -/
theorem number_lt_iff {a : List Nat} :
    ∀ {m : Model τ σ} {b : List Nat} {x y : Atomic τ σ}, m.atomAt? a = some x →
      m.atomAt? b = some y → (m.number a < m.number b ↔ a < b) := by
  induction a with
  | nil =>
      intro m b x y ha hb
      cases m with
      | coupled => cases ha
      | atomic =>
          cases b with
          | nil => exact ⟨fun h => absurd h (lt_irrefl _), fun h => absurd h (lt_irrefl _)⟩
          | cons => cases hb
  | cons i a ih =>
      intro m b x y ha hb
      cases m with
      | atomic => cases ha
      | coupled c ms =>
          cases b with
          | nil => cases hb
          | cons j b =>
              obtain ⟨m, hm, ha⟩ := Option.bind_eq_some_iff.mp ha
              obtain ⟨m', hm', hb⟩ := Option.bind_eq_some_iff.mp hb
              -- All leaves below one child come before all leaves below a later one.
              have hlt := number_lt ha
              have hlt' := number_lt hb
              rw [number_cons hm, number_cons hm', List.cons_lt_cons_iff]
              rcases Nat.lt_trichotomy i j with hij | rfl | hij
              · have hle : offset atoms ms (i + 1) ≤ offset atoms ms j := offset_le hij
                rw [offset_succ hm] at hle
                exact ⟨fun _ => .inl hij, fun _ => by omega⟩
              · cases hm.symm.trans hm'
                rw [Nat.add_lt_add_iff_left, ih ha hb]
                exact ⟨fun h => .inr ⟨rfl, h⟩, fun h => h.elim (absurd · (Nat.lt_irrefl i)) (·.2)⟩
              · have hle : offset atoms ms (j + 1) ≤ offset atoms ms i := offset_le hij
                rw [offset_succ hm'] at hle
                exact ⟨fun _ => by omega, fun h => by omega⟩

/-- The two leaves of a chain inside are apart. -/
theorem crossings_apart (m : Model τ σ) : m.Wired → ∀ t ∈ m.crossings,
    t.1.address ≠ t.2.address := by
  induction m using Model.induction with
  | atomic a => exact fun _ t ht => absurd ht List.not_mem_nil
  | coupled c ms ih =>
      intro hm t ht
      rw [crossings, List.mem_append] at ht
      rcases ht with ht | ht
      · obtain ⟨i, m, t', hmi, ht', rfl⟩ := exists_of_mem_crossingsFrom ms ht
        have hmem := List.mem_of_getElem? hmi
        exact fun heq => ih m hmem (hm.child hmem) t' ht' (List.cons.inj heq).2
      · obtain ⟨l, hl, ht⟩ := List.mem_flatMap.mp ht
        obtain ⟨o, ho, ht⟩ := List.mem_flatMap.mp ht
        obtain ⟨d, hd, rfl⟩ := List.mem_map.mp ht
        obtain ⟨o, -, rfl⟩ := List.mem_map.mp ho
        obtain ⟨d, -, rfl⟩ := List.mem_map.mp hd
        exact fun heq => hm.self.apart l hl (List.cons.inj heq).1

/-- **No route leads from a leaf to itself.** -/
theorem leaf_ne_of_mem_routes {m : Model τ σ} (hm : m.Wired) {p q : LeafPort}
    (h : ⟨.leaf p, .leaf q⟩ ∈ m.routes) : p.leaf ≠ q.leaf := by
  rw [routes, List.mem_append, List.mem_append] at h
  rcases h with (h | h) | h
  · obtain ⟨t, ht, heq⟩ := List.mem_map.mp h
    obtain ⟨rfl, rfl⟩ : m.leafPort 0 t.1 = p ∧ m.leafPort 0 t.2 = q := by
      obtain ⟨hsource, htarget⟩ := Route.mk.inj heq
      exact ⟨RouteSource.leaf.inj hsource, RouteTarget.leaf.inj htarget⟩
    obtain ⟨x, y, hx, hy, -⟩ := joined_crossings m hm t ht
    obtain ⟨a, ha, -⟩ := exists_atom hx
    obtain ⟨b, hb, -⟩ := exists_atom hy
    intro hnumber
    rw [leafPort, leafPort, Nat.zero_add, Nat.zero_add] at hnumber
    exact crossings_apart m hm t ht (number_inj ha hb hnumber)
  · obtain ⟨_, -, h⟩ := List.mem_flatMap.mp h
    obtain ⟨_, -, heq⟩ := List.mem_map.mp h
    cases heq
  · obtain ⟨_, -, h⟩ := List.mem_flatMap.mp h
    obtain ⟨_, -, heq⟩ := List.mem_map.mp h
    cases heq

/-- The routes of a single leaf join its ports and those of the root. -/
theorem routes_atomic (a : Atomic τ σ) : (Model.atomic a).routes
    = ((List.range a.interface.inputs.length).map fun p => ⟨.rootInput p, .leaf ⟨0, p⟩⟩) ++
        (List.range a.interface.outputs.length).map fun p => ⟨.leaf ⟨0, p⟩, .rootOutput p⟩ := by
  rw [List.map_eq_flatMap, List.map_eq_flatMap]
  rfl

end Model

/-- **The leaf of a new engine at an address** is made of the atomic model there. -/
theorem Engine.exists_ofAtomic {τ σ : Type} [MessageType τ] {a : List Nat} :
    ∀ {m : Model τ σ} (parent : Option String) {x : Atomic τ σ}, m.atomAt? a = some x →
      ∃ parent', (ofModelBelow parent m).leafAt? a = some (.ofAtomic parent' x) := by
  induction a with
  | nil =>
      intro m parent x h
      cases m with
      | coupled => cases h
      | atomic =>
          cases h
          exact ⟨parent, rfl⟩
  | cons i a ih =>
      intro m parent x h
      cases m with
      | atomic => cases h
      | coupled c ms =>
          obtain ⟨m, hm, h⟩ := Option.bind_eq_some_iff.mp h
          obtain ⟨parent', hleaf⟩ := ih (some (childPath parent c.id)) h
          refine ⟨parent', ?_⟩
          rw [ofModelBelow, leafAt?, getElem?_ofModelsBelow, hm]
          exact hleaf

/-- **Flattening is exact.** The leaves of a crew are those of the engine of the tree, each under
its number, which are given out depth first. A route is in the list as often as there are
coupling chains for it; these go up, cross once and go down, or only go down, or only go up,
according to where the route begins and ends. Every route joins two bags that are there, for
messages of one type, and none leads from a leaf to itself. In the crew of a single leaf each port
of the leaf has one route. -/
theorem Crew.flattening_exact {τ σ : Type} [MessageType τ] [AtomicModel τ σ] {m : Model τ σ}
    (h : m.Accepted) (wished : Nat) :
    let c := ofModel wished m
    (c.leaves = (Engine.ofModel m).leaves ∧
      (∀ i < c.leaves.length, ∃ a x, m.atomAt? a = some x ∧ m.number a = i) ∧
      (∀ a x, m.atomAt? a = some x → ∃ parent,
        (Engine.ofModel m).leafAt? a = some (.ofAtomic parent x) ∧
        c.leaves[m.number a]? = some (.ofAtomic parent x)) ∧
      ∀ a b x y, m.atomAt? a = some x → m.atomAt? b = some y →
        (m.number a < m.number b ↔ a < b)) ∧
    (∀ r, {ws | m.Chain r ws}.encard = c.routes.count r) ∧
    (∀ r ws, m.Chain r ws → r.Shape ws) ∧
    c.Connected ∧
    (∀ p q, ⟨.leaf p, .leaf q⟩ ∈ c.routes → p.leaf ≠ q.leaf) ∧
    ∀ a, m = .atomic a → c.routes
      = ((List.range a.interface.inputs.length).map fun p => ⟨.rootInput p, .leaf ⟨0, p⟩⟩) ++
          (List.range a.interface.outputs.length).map fun p =>
            ⟨.leaf ⟨0, p⟩, .rootOutput p⟩ := by
  intro c
  have hroutes : c.routes = m.routes := Model.allRoutes_eq h.wired
  have hsound := Engine.sound_ofModelBelow m.allGood_trivial none
  have hleaves : c.leaves = (Engine.ofModel m).leaves := FlatPart.leaves_eq m
  refine ⟨⟨hleaves, fun i hi => ?_, fun a x ha => ?_, fun a b x y => Model.number_lt_iff⟩,
    fun r => ?_, fun r ws => Model.Chain.shape,
    (sound_ofModel h.wired m.allGood_trivial wished).connected h.wired, fun p q hr => ?_,
    fun a ha => ?_⟩
  · refine m.exists_number ?_
    rw [← hsound.length_leaves]
    exact hi.trans_eq (congrArg List.length hleaves)
  · obtain ⟨parent, hleaf⟩ := Engine.exists_ofAtomic none ha
    refine ⟨parent, hleaf, ?_⟩
    rw [hleaves]
    exact hsound.getElem?_leaves hleaf
  · rw [hroutes]
    exact m.tallies_routes.encard r
  · rw [hroutes] at hr
    exact Model.leaf_ne_of_mem_routes h.wired hr
  · rw [hroutes, ha, Model.routes_atomic]

/-- In a tower the input of the root reaches the first leaf on two ways, since one coupling is
declared twice, and the first leaf reaches the third one by leaving the pair. -/
theorem Crew.flattening_exact_tower :
    let c : Crew Payload Doubler := ofModel 2 Doubler.tower
    let twice : Route := ⟨.rootInput 0, .leaf ⟨0, 0⟩⟩
    let across : Route := ⟨.leaf ⟨0, 0⟩, .leaf ⟨2, 0⟩⟩
    let walk : List Wire := [⟨[0], .eoc, 0⟩, ⟨[], .ic, 0⟩]
    (Doubler.tower.Accepted ∧ Doubler.tower.Chain across walk ∧ across ∈ c.routes) ∧
    {ws | Doubler.tower.Chain twice ws}.encard = 2 ∧
    {ws | Doubler.tower.Chain across ws}.encard = 1 ∧
    across.Shape walk ∧ c.Connected ∧ (0 : Nat) ≠ 2 ∧
    c.leaves = (Engine.ofModel Doubler.tower).leaves ∧
    (c.leaves.map (·.path) = ["tower.pair.first", "tower.pair.second", "tower.third"] ∧
      c.routes.length = 7) := by
  intro c twice across walk
  have haccepted : Doubler.tower.Accepted := Doubler.accepted_tower
  obtain ⟨⟨hleaves, -⟩, hcount, hshape, hconnected, hapart, -⟩ := flattening_exact haccepted 2
  have hchain : Doubler.tower.Chain across walk :=
    ⟨_, _, ⟨⟨[0, 0], 0⟩, rfl, rfl, rfl⟩, ⟨⟨[1], 0⟩, rfl, rfl, rfl⟩, _, rfl, _, rfl, rfl⟩
  have hmem : across ∈ c.routes := by decide +kernel
  have htwice : c.routes.count twice = 2 := by decide +kernel
  have hacross : c.routes.count across = 1 := by decide +kernel
  refine ⟨⟨haccepted, hchain, hmem⟩, ?_, ?_, hshape _ _ hchain, hconnected, hapart _ _ hmem,
    hleaves, by decide +kernel, by decide +kernel⟩
  · exact (hcount twice).trans (congrArg Nat.cast htwice)
  · exact (hcount across).trans ((congrArg Nat.cast hacross).trans Nat.cast_one)

end DiscreteEvent
