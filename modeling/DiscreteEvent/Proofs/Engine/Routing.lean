/-
What the routes of a hub carry.

`Hub.gather` and `Hub.deliveries` look at every place before they use it, and
fault where something is missing. For a hub whose couplings are wired
nothing ever is, and what they compute can be said without a word on faults:
`Hub.gathered` and `Hub.posted`. `gather_eq` and `deliveries_eq` are the two
equations.

A hub keeps its couplings in an order of its own, grouped by the children
that they serve. The groups hold every coupling exactly as often as the
description does (`sortBelow_perm`, `groupBy_perm`): the order of messages in
a bag depends on the grouping, and nothing else does.
-/
import DiscreteEvent.Proofs.Model.Accepted
import DiscreteEvent.Proofs.Ports.Typed

set_option autoImplicit false

namespace DiscreteEvent

/-! ## Regrouped lists -/

section Grouping

variable {α κ : Type} [BEq κ] [LawfulBEq κ]

/-- Groups by different keys hold what has one of the keys, each entry once. -/
theorem flatMap_filter_perm (key : α → κ) (entries : List α) {keys : List κ} (hk : keys.Nodup) :
    (keys.flatMap fun k => entries.filter (key · == k)).Perm
      (entries.filter fun a => keys.contains (key a)) := by
  induction keys with
  | nil =>
      rw [List.flatMap_nil, List.filter_eq_nil_iff.mpr (by simp)]
  | cons k ks ih =>
      obtain ⟨hnot, hks⟩ := List.nodup_cons.mp hk
      rw [List.flatMap_cons]
      refine ((ih hks).append_left _).trans ?_
      -- The entries with a key among `k :: ks`, split by whether the key is `k`.
      have hsplit := List.filter_append_perm (key · == k)
        (entries.filter fun a => (k :: ks).contains (key a))
      rw [List.filter_filter, List.filter_filter] at hsplit
      refine List.Perm.trans (List.Perm.of_eq ?_) hsplit
      congr 1
      · refine List.filter_congr fun a _ => ?_
        cases h : key a == k <;> simp [h]
      · refine List.filter_congr fun a _ => ?_
        cases h : key a == k with
        | true =>
            rw [beq_iff_eq] at h
            subst h
            simpa using hnot
        | false => simp [h]

omit [LawfulBEq κ] in
theorem eraseDups_induction {motive : List κ → Prop} (nil : motive [])
    (cons : ∀ k ks, motive (ks.filter fun b => !b == k) → motive (k :: ks)) (ks : List κ) :
    motive ks := by
  induction h : ks.length using Nat.strongRecOn generalizing ks with
  | ind n ih =>
      cases ks with
      | nil => exact nil
      | cons k ks =>
          refine cons k ks (ih _ ?_ _ rfl)
          rw [← h, List.length_cons]
          exact Nat.lt_succ_of_le (List.length_filter_le _ _)

theorem nodup_eraseDups (ks : List κ) : ks.eraseDups.Nodup := by
  induction ks using eraseDups_induction with
  | nil => rw [List.eraseDups_nil]; exact List.nodup_nil
  | cons k ks ih =>
      rw [List.eraseDups_cons, List.nodup_cons]
      refine ⟨fun hk => ?_, ih⟩
      rw [List.mem_eraseDups, List.mem_filter] at hk
      simp at hk

/-- **Grouping by a key** only changes the order. -/
theorem groupBy_perm (key : α → κ) (entries : List α) : (groupBy key entries).Perm entries := by
  refine (flatMap_filter_perm key entries (nodup_eraseDups _)).trans (List.Perm.of_eq ?_)
  rw [List.filter_eq_self]
  intro a ha
  rw [List.contains_iff_mem, List.mem_eraseDups]
  exact List.mem_map_of_mem ha

/-- **Sorting by keys below a bound** only changes the order, if all keys are below it. -/
theorem sortBelow_perm {n : Nat} {key : α → Nat} {entries : List α}
    (h : ∀ a ∈ entries, key a < n) : (sortBelow n key entries).Perm entries := by
  refine (flatMap_filter_perm key entries List.nodup_range).trans (List.Perm.of_eq ?_)
  rw [List.filter_eq_self]
  intro a ha
  rw [List.contains_iff_mem, List.mem_range]
  exact h a ha

omit [BEq κ] [LawfulBEq κ] in
/-- Nothing is added by sorting, whatever the bound is. -/
theorem mem_of_mem_sortBelow {n : Nat} {key : α → Nat} {entries : List α} {a : α}
    (h : a ∈ sortBelow n key entries) : a ∈ entries := by
  obtain ⟨_, -, ha⟩ := List.mem_flatMap.mp h
  exact (List.mem_filter.mp ha).1

end Grouping

/-! ## Computations that cannot fail -/

theorem foldlM_eq_ok {ε α β : Type} {f : β → α → Except ε β} {g : β → α → β} {P : β → Prop}
    {as : List α} (h : ∀ a ∈ as, ∀ b, P b → f b a = .ok (g b a) ∧ P (g b a)) :
    ∀ {b : β}, P b → as.foldlM f b = .ok (as.foldl g b) ∧ P (as.foldl g b) := by
  induction as with
  | nil => exact fun hb => ⟨rfl, hb⟩
  | cons a as ih =>
      intro b hb
      obtain ⟨hf, hg⟩ := h a (by simp) b hb
      rw [List.foldlM_cons, hf, List.foldl_cons]
      exact ih (fun a' ha' => h a' (by simp [ha'])) hg

theorem mapM_eq_ok {ε α β : Type} {f : α → Except ε β} {g : α → β} {as : List α}
    (h : ∀ a ∈ as, f a = .ok (g a)) : as.mapM f = .ok (as.map g) := by
  induction as with
  | nil => rfl
  | cons a as ih =>
      rw [List.mapM_cons, h a (by simp), ih fun a' ha' => h a' (by simp [ha'])]
      rfl

/-! ## Routes that can be followed -/

namespace Hub

variable {τ σ : Type} [MessageType τ]

/-- The messages in an output bag of a child. -/
def messagesOut (children : List (Node τ)) (p : Place) : List (Message τ) :=
  match children[p.child]? with
  | none => []
  | some n => n.outbox.messagesAt p.port

/-- **What leaves the network**, where every route can be followed. -/
def gathered (h : Hub τ) (children : List (Node τ)) : Bags τ :=
  h.eoc.foldl (fun b l => b.append l.destination (messagesOut children l.source)) h.outbox

/-- **What enters the children**, where every route can be followed. -/
def posted (h : Hub τ) (children : List (Node τ)) : List (Delivery τ) :=
  (h.ic.map fun l => ⟨l.destination.child, l.destination.port, messagesOut children l.source⟩) ++
    h.eic.map fun l => ⟨l.destination.child, l.destination.port, h.inbox.messagesAt l.source⟩

/-- **A hub of `c`**: its couplings are those of the model, and its bags fit. -/
structure Sound (c : Coupled τ) (n : Nat) (h : Hub τ) : Prop where
  eic : h.eic = (ofCoupled none c n).eic
  eoc : h.eoc = (ofCoupled none c n).eoc
  ic : h.ic = (ofCoupled none c n).ic
  inbox : h.inbox.Fits c.interface.inputs
  outbox : h.outbox.Fits c.interface.outputs

/-- Children with bags that fit the interfaces of their models. -/
structure Furnished (models : List (Model τ σ)) (children : List (Node τ)) : Prop where
  length_eq : models.length = children.length
  fits : ∀ (i : Nat) (m : Model τ σ) (node : Node τ), models[i]? = some m →
    children[i]? = some node →
    node.inbox.Fits m.interface.inputs ∧ node.outbox.Fits m.interface.outputs

variable {c : Coupled τ} {models : List (Model τ σ)} {children : List (Node τ)} {n : Nat}
  {h : Hub τ}

theorem Sound.of_mem_eic (hs : h.Sound c n) {l : Link Nat Place} (hl : l ∈ h.eic) :
    ∃ d ∈ c.eic, l = ⟨d.source.place, d.destination.place⟩ := by
  rw [hs.eic] at hl
  obtain ⟨d, hd, rfl⟩ := List.mem_map.mp hl
  exact ⟨d, hd, rfl⟩

theorem Sound.of_mem_eoc (hs : h.Sound c n) {l : Link Place Nat} (hl : l ∈ h.eoc) :
    ∃ d ∈ c.eoc, l = ⟨d.source.place, d.destination.place⟩ := by
  rw [hs.eoc] at hl
  obtain ⟨d, hd, rfl⟩ := List.mem_map.mp (mem_of_mem_sortBelow hl)
  exact ⟨d, hd, rfl⟩

theorem Sound.of_mem_ic (hs : h.Sound c n) {l : Link Place Place} (hl : l ∈ h.ic) :
    ∃ d ∈ c.ic, l = ⟨d.source.place, d.destination.place⟩ := by
  rw [hs.ic] at hl
  obtain ⟨d, hd, rfl⟩ := List.mem_map.mp ((groupBy_perm _ _).mem_iff.mp hl)
  exact ⟨d, hd, rfl⟩

theorem Sound.eic_eq (hs : h.Sound c n) :
    h.eic = c.eic.map fun d => ⟨d.source.place, d.destination.place⟩ := hs.eic

/-- The hub has every external output coupling of its model, as often as declared. -/
theorem Sound.eoc_perm (hw : c.Wired models) (hs : h.Sound c models.length) :
    h.eoc.Perm (c.eoc.map fun d => ⟨d.source.place, d.destination.place⟩) := by
  rw [hs.eoc]
  refine sortBelow_perm fun l hl => ?_
  obtain ⟨d, hd, rfl⟩ := List.mem_map.mp hl
  obtain ⟨x, _, hx, -, -⟩ := hw.eoc d hd
  obtain ⟨m, hm, -⟩ := Option.bind_eq_some_iff.mp hx
  exact (List.getElem?_eq_some_iff.mp hm).1

/-- And every internal one. -/
theorem Sound.ic_perm (hs : h.Sound c n) :
    h.ic.Perm (c.ic.map fun d => ⟨d.source.place, d.destination.place⟩) := by
  rw [hs.ic]
  exact groupBy_perm _ _

/-- Where a model has a port, its engine has bags. -/
theorem Furnished.exists_node (hf : Furnished models children) {direction : Direction}
    {p : Place} {x : Port τ} (hp : portAt models direction p = some x) :
    ∃ m ∈ models, ∃ node, children[p.child]? = some node ∧
      (m.interface.ports direction)[p.port]? = some x ∧
      node.inbox.Fits m.interface.inputs ∧ node.outbox.Fits m.interface.outputs := by
  obtain ⟨m, hm, hx⟩ := Option.bind_eq_some_iff.mp hp
  have hlt : p.child < children.length := by
    rw [← hf.length_eq]
    exact (List.getElem?_eq_some_iff.mp hm).1
  have hn := List.getElem?_eq_getElem hlt
  obtain ⟨hin, hout⟩ := hf.fits p.child m _ hm hn
  exact ⟨m, List.mem_of_getElem? hm, _, hn, hx, hin, hout⟩

/-- Messages that leave a port have its type. -/
theorem Furnished.type_eq (hf : Furnished models children) {p : Place} {x : Port τ}
    (hp : portAt models .output p = some x) {m : Message τ} (hm : m ∈ messagesOut children p) :
    m.type = x.type := by
  obtain ⟨_, _, node, hn, hx, -, hout⟩ := hf.exists_node hp
  rw [messagesOut, hn] at hm
  exact hout.type_eq hx hm

/-- **An external output coupling can be followed**, and its outbox goes on fitting. -/
theorem gatherOne_eq (hf : Furnished models children) {l : Link Place Nat} {b : Bags τ}
    (hj : Joined (portAt models .output l.source) (c.interface.outputs[l.destination]?))
    (hb : b.Fits c.interface.outputs) :
    gatherOne children b l = .ok (b.append l.destination (messagesOut children l.source)) ∧
      (b.append l.destination (messagesOut children l.source)).Fits c.interface.outputs := by
  obtain ⟨x, y, hx, hy, htype⟩ := hj
  obtain ⟨_, _, node, hn, hp, -, hout⟩ := hf.exists_node hx
  constructor
  · rw [gatherOne, outputAt, messagesOut, hn, Option.bind_some, hout.transfer hb hp hy htype]
    rfl
  · refine hb.append fun q hq m hm => ?_
    rw [hy] at hq
    cases hq
    rw [hf.type_eq hx hm, htype]

/-- **Gathering.** Every external output coupling of a wired network can be
followed, and the outbox goes on fitting. -/
theorem gather_eq (hw : c.Wired models) (hs : h.Sound c n) (hf : Furnished models children) :
    h.gather children = .ok (h.gathered children) ∧
      (h.gathered children).Fits c.interface.outputs := by
  refine foldlM_eq_ok (P := fun b : Bags τ => b.Fits c.interface.outputs)
    (fun l hl b hb => ?_) hs.outbox
  obtain ⟨d, hd, rfl⟩ := hs.of_mem_eoc hl
  exact gatherOne_eq hf (hw.eoc d hd) hb

/-- **Delivering.** Every coupling into a child of a wired network can be followed. -/
theorem deliveries_eq (hw : c.Wired models) (hs : h.Sound c n) (hf : Furnished models children) :
    h.deliveries children = .ok (h.posted children) := by
  have hic : h.ic.mapM (deliverInternal children) = .ok (h.ic.map fun l =>
      ⟨l.destination.child, l.destination.port, messagesOut children l.source⟩) := by
    refine mapM_eq_ok fun l hl => ?_
    obtain ⟨d, hd, rfl⟩ := hs.of_mem_ic hl
    obtain ⟨x, y, hx, hy, htype⟩ := hw.ic d hd
    obtain ⟨_, _, source, hsn, hp, -, hout⟩ := hf.exists_node hx
    obtain ⟨_, _, target, htn, hq, hin, -⟩ := hf.exists_node hy
    rw [deliverInternal, if_neg (hw.apart d hd), outputAt, inputAt, messagesOut, hsn, htn,
      Option.bind_some, Option.bind_some, hout.transfer hin hp hq htype]
    rfl
  have heic : h.eic.mapM (h.deliverInput children) = .ok (h.eic.map fun l =>
      ⟨l.destination.child, l.destination.port, h.inbox.messagesAt l.source⟩) := by
    refine mapM_eq_ok fun l hl => ?_
    obtain ⟨d, hd, rfl⟩ := hs.of_mem_eic hl
    obtain ⟨x, y, hx, hy, htype⟩ := hw.eic d hd
    obtain ⟨_, _, target, htn, hq, hin, -⟩ := hf.exists_node hy
    rw [deliverInput, inputAt, htn, Option.bind_some, hs.inbox.transfer hin hx hq htype]
    rfl
  rw [deliveries, hic, heic]
  rfl

/-! ## Mail -/

/-- Messages of the types of the ports that they are for. -/
def Addressed (ports : List (Port τ)) (mail : List (Delivery τ)) : Prop :=
  ∀ d ∈ mail, ∀ p, ports[d.port]? = some p → ∀ m ∈ d.messages, m.type = p.type

theorem Addressed.receive {ports : List (Port τ)} {mail : List (Delivery τ)}
    (hm : Addressed ports mail) :
    ∀ {b : Bags τ}, b.Fits ports →
      (mail.foldl (fun b d => b.append d.port d.messages) b).Fits ports := by
  induction mail with
  | nil => exact fun hb => hb
  | cons d mail ih =>
      intro b hb
      rw [List.foldl_cons]
      exact ih (fun d' hd' => hm d' (by simp [hd'])) (hb.append (hm d (by simp)))

/-- **What is posted to a child** has the types of the ports there. -/
theorem addressed_posted (hw : c.Wired models) (hs : h.Sound c n)
    (hf : Furnished models children) {i : Nat} {m : Model τ σ} (hm : models[i]? = some m) :
    Addressed m.interface.inputs (mailFor (h.posted children) i) := by
  intro d hd p hp msg hmsg
  obtain ⟨hd, hi⟩ := List.mem_filter.mp hd
  rw [beq_iff_eq] at hi
  rcases List.mem_append.mp hd with hd | hd
  · obtain ⟨l, hl, rfl⟩ := List.mem_map.mp hd
    obtain ⟨k, hk, rfl⟩ := hs.of_mem_ic hl
    obtain rfl : k.destination.place.child = i := hi
    obtain ⟨x, y, hx, hy, htype⟩ := hw.ic k hk
    rw [portAt, hm, Option.bind_some] at hy
    cases hy.symm.trans hp
    rw [hf.type_eq hx hmsg, htype]
  · obtain ⟨l, hl, rfl⟩ := List.mem_map.mp hd
    obtain ⟨k, hk, rfl⟩ := hs.of_mem_eic hl
    obtain rfl : k.destination.place.child = i := hi
    obtain ⟨x, y, hx, hy, htype⟩ := hw.eic k hk
    rw [portAt, hm, Option.bind_some] at hy
    cases hy.symm.trans hp
    rw [hs.inbox.type_eq hx hmsg, htype]

end Hub

variable {τ : Type} [MessageType τ]

/-- **What mail leaves in empty bags**: on each port the messages for it, in the order in which
they came. -/
theorem Bags.messagesAt_mail {x : Bags τ} (hx : x.isEmpty = true) (mail : List (Delivery τ))
    {q : Nat} (hq : q < x.list.length) :
    (mail.foldl (fun b d => b.append d.port d.messages) x).messagesAt q
      = (mail.filter (·.port == q)).flatMap (·.messages) := by
  rw [messagesAt_foldl_append (fun d : Delivery τ => d.port) (·.messages) mail x hq,
    isEmpty_iff.mp hx q, List.nil_append]

/-- The contents of bags as mail, port by port. -/
def Bags.asMail (x : Bags τ) : List (Delivery τ) :=
  (List.range x.list.length).map fun p => ⟨0, p, x.messagesAt p⟩

/-- Mail of one's own contents. -/
theorem Bags.Fits.addressed_asMail {x : Bags τ} {ports : List (Port τ)} (hx : x.Fits ports) :
    Hub.Addressed ports x.asMail := by
  intro d hd p hp m hm
  obtain ⟨q, -, rfl⟩ := List.mem_map.mp hd
  exact hx.type_eq hp hm

/-- **Putting the contents back** into empty bags. -/
theorem Bags.Fits.foldl_asMail {x : Bags τ} {ports : List (Port τ)} (hx : x.Fits ports) :
    x.asMail.foldl (fun b d => b.append d.port d.messages) (.ofPorts ports) = x := by
  have hempty := Bags.fits_ofPorts ports
  refine (hx.addressed_asMail.receive hempty).ext hx fun q hq => ?_
  rw [Bags.messagesAt_mail (Bags.isEmpty_ofPorts ports) _ (by rw [hempty.length_eq]; exact hq),
    asMail, List.filter_map, List.flatMap_map]
  have hone : (List.range x.list.length).filter (· == q) = [q] := by
    rw [List.filter_beq, List.count_range, if_pos (by rw [hx.length_eq]; exact hq)]
    rfl
  show ((List.range x.list.length).filter (· == q)).flatMap x.messagesAt = _
  rw [hone, List.flatMap_singleton]

end DiscreteEvent
