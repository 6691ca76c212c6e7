/-
Where the messages of a step go.

Messages climb while outputs are collected, and they cross and descend while the
tree advances, hub by hub, as siblings elsewhere are already firing. This file
proves that all of that amounts to following the coupling chains of the model,
once for each chain.

On the way up the invariant is `Gathered`: the outbox of every hub holds exactly
what the leaves behind it send. On the way down, `exists_turnAt` says what a leaf
finds in its inbox when its turn comes, for a tree that is advanced with any mail:
what the chains inside of the tree carry to it, and what the ways in carry of the
mail. It is an induction over the tree in which the mail of a child is what its
parent has posted to it, so routing at every level is over before anything below
it moves.
-/
import DiscreteEvent.Proofs.Engine.Live
import DiscreteEvent.Proofs.Model.Chain

set_option autoImplicit false

namespace DiscreteEvent

variable {τ σ ω : Type} [MessageType τ]

namespace Engine

/-! ## Leaves by their addresses -/

/-- The leaf at an address. -/
def leafAt? : List Nat → Engine τ σ → Option (Leaf τ σ)
  | [], .leaf l => some l
  | i :: a, .hub _ es => es[i]?.bind (leafAt? a)
  | _, _ => none

/-- What a tree hands on to its children reaches the leaves. -/
theorem leafAt_of_child {P : Engine τ σ → Prop}
    (child : ∀ (h : Hub τ) (es : List (Engine τ σ)) (c : Engine τ σ), c ∈ es → P (.hub h es) → P c)
    {a : List Nat} {l : Leaf τ σ} :
    ∀ {e : Engine τ σ}, P e → e.leafAt? a = some l → P (.leaf l) := by
  induction a with
  | nil =>
      intro e hp hl
      cases e with
      | leaf =>
          cases hl
          exact hp
      | hub => cases hl
  | cons i a ih =>
      intro e hp hl
      cases e with
      | leaf => cases hl
      | hub h es =>
          obtain ⟨c, hc, hl⟩ := Option.bind_eq_some_iff.mp hl
          exact ih (child h es c (List.mem_of_getElem? hc) hp) hl

/-- **What a leaf sends**: the messages on one of its output ports. -/
def sent (e : Engine τ σ) (o : Terminal) : Multiset (Message τ) :=
  match e.leafAt? o.address with
  | some l => (l.outbox.messagesAt o.port : Multiset (Message τ))
  | none => 0

theorem sent_leaf (l : Leaf τ σ) (p : Nat) :
    sent (.leaf l) ⟨[], p⟩ = (l.outbox.messagesAt p : Multiset (Message τ)) := rfl

theorem sent_below {h : Hub τ} {es : List (Engine τ σ)} {i : Nat} {e : Engine τ σ}
    (he : es[i]? = some e) (o : Terminal) : sent (.hub h es) (o.below i) = sent e o := by
  rw [sent, sent, Terminal.below, leafAt?, he, Option.bind_some]

/-! ## Trees without messages -/

/-- **No message anywhere** in the tree. -/
inductive Quiet : Engine τ σ → Prop
  | leaf {l : Leaf τ σ} (inbox : l.inbox.isEmpty = true) (outbox : l.outbox.isEmpty = true) :
      Quiet (.leaf l)
  | hub {h : Hub τ} {es : List (Engine τ σ)} (inbox : h.inbox.isEmpty = true)
      (outbox : h.outbox.isEmpty = true) (each : ∀ c ∈ es, Quiet c) : Quiet (.hub h es)

theorem Quiet.inbox {e : Engine τ σ} (h : e.Quiet) : e.node.inbox.isEmpty = true := by
  cases h with
  | leaf inbox => exact inbox
  | hub inbox => exact inbox

theorem Quiet.outbox {e : Engine τ σ} (h : e.Quiet) : e.node.outbox.isEmpty = true := by
  cases h with
  | leaf _ outbox => exact outbox
  | hub _ outbox => exact outbox

theorem Quiet.child {h : Hub τ} {es : List (Engine τ σ)} (hq : Quiet (.hub h es))
    {c : Engine τ σ} (hc : c ∈ es) : c.Quiet := by
  cases hq with
  | hub _ _ each => exact each c hc

/-- In a quiet tree nothing is sent. -/
theorem Quiet.sent_eq_zero {a : List Nat} :
    ∀ {e : Engine τ σ}, e.Quiet → ∀ p, e.sent ⟨a, p⟩ = 0 := by
  induction a with
  | nil =>
      intro e he p
      cases he with
      | leaf _ outbox =>
          rw [sent_leaf, Bags.isEmpty_iff.mp outbox]
          rfl
      | hub => rfl
  | cons i a ih =>
      intro e he p
      cases he with
      | leaf => rfl
      | @hub h es _ _ each =>
          cases hi : es[i]? with
          | none => rw [sent, leafAt?, hi]; rfl
          | some c =>
              have hbelow := sent_below (h := h) hi ⟨a, p⟩
              rw [Terminal.below] at hbelow
              rw [hbelow]
              exact ih (each c (List.mem_of_getElem? hi)) p

/-! ## The way up -/

/-- What the ways out of a child send, seen from the parent. -/
theorem sent_exitsOf {h : Hub τ} {es : List (Engine τ σ)} {models : List (Model τ σ)}
    {p : Place} {m : Model τ σ} {e : Engine τ σ} (hm : models[p.child]? = some m)
    (he : es[p.child]? = some e) :
    (Model.exitsOf models p : Multiset Terminal).bind (sent (.hub h es))
      = (m.exits p.port : Multiset Terminal).bind e.sent := by
  rw [Model.exitsOf_eq hm, ← Multiset.map_coe, Multiset.bind_map]
  exact Multiset.bind_congr fun o _ => sent_below he o

/-- **Outputs are collected**: the outbox of every hub holds what the leaves
behind it send, once for each way out. No message has entered a child yet. -/
inductive Gathered : Model τ σ → Engine τ σ → Prop
  | leaf {a : Atomic τ σ} {l : Leaf τ σ} (inbox : l.inbox.isEmpty = true) :
      Gathered (.atomic a) (.leaf l)
  | hub {c : Coupled τ} {models : List (Model τ σ)} {h : Hub τ} {es : List (Engine τ σ)}
      (inbox : h.inbox.isEmpty = true)
      (outbox : ∀ p < c.interface.outputs.length, (h.outbox.messagesAt p : Multiset (Message τ))
        = ((Model.coupled c models).exits p : Multiset Terminal).bind (sent (.hub h es)))
      (each : ∀ (i : Nat) (m : Model τ σ) (e : Engine τ σ), models[i]? = some m →
        es[i]? = some e → Gathered m e) : Gathered (.coupled c models) (.hub h es)

theorem Gathered.inbox {m : Model τ σ} {e : Engine τ σ} (h : Gathered m e) :
    e.node.inbox.isEmpty = true := by
  cases h with
  | leaf inbox => exact inbox
  | hub inbox => exact inbox

/-- **The outbox of any node** holds what the leaves behind it send. -/
theorem Gathered.outbox {m : Model τ σ} {e : Engine τ σ} (h : Gathered m e) {p : Nat}
    (hp : p < m.interface.outputs.length) :
    (e.node.outbox.messagesAt p : Multiset (Message τ))
      = (m.exits p : Multiset Terminal).bind e.sent := by
  cases h with
  | @leaf _ l =>
      rw [Model.exits, Multiset.coe_singleton, Multiset.singleton_bind]
      exact (sent_leaf l p).symm
  | hub _ outbox => exact outbox p hp

theorem Gathered.child {c : Coupled τ} {models : List (Model τ σ)} {h : Hub τ}
    {es : List (Engine τ σ)} (hg : Gathered (.coupled c models) (.hub h es)) {i : Nat}
    {m : Model τ σ} {e : Engine τ σ} (hm : models[i]? = some m) (he : es[i]? = some e) :
    Gathered m e := by
  cases hg with
  | hub _ _ each => exact each i m e hm he

variable {good : Interface τ → Stage → σ → Prop} {c : Coupled τ} {models : List (Model τ σ)}

/-- A tree without messages has collected its outputs: there are none. -/
theorem Quiet.gathered (e : Engine τ σ) :
    ∀ {m : Model τ σ}, Sound good m e → e.Quiet → Gathered m e := by
  induction e using Engine.induction with
  | leaf l =>
      intro m hs hq
      cases hs with
      | leaf => exact .leaf hq.inbox
  | hub h es ih =>
      intro m hs hq
      obtain ⟨c, models, rfl, hself⟩ := hs.of_hub
      refine .hub hq.inbox (fun p _ => ?_) fun i m e hm he => ?_
      · have hempty : h.outbox.messagesAt p = [] := Bags.isEmpty_iff.mp hq.outbox p
        rw [hempty, Multiset.bind_congr (fun o _ => hq.sent_eq_zero (a := o.address) o.port),
          Multiset.bind_zero]
        rfl
      · obtain ⟨m', hm', -, hsound⟩ := hs.child he
        cases hm.symm.trans hm'
        exact ih e (List.mem_of_getElem? he) hsound (hq.child (List.mem_of_getElem? he))

/-- What a hub reads at a port of a child that has collected its outputs. -/
theorem messagesOut_eq {h : Hub τ} {es : List (Engine τ σ)} {p : Place} {x : Port τ}
    (hlen : models.length = es.length)
    (hg : ∀ (i : Nat) (m : Model τ σ) (e : Engine τ σ), models[i]? = some m →
      es[i]? = some e → Gathered m e) (hp : portAt models .output p = some x) :
    (Hub.messagesOut (es.map node) p : Multiset (Message τ))
      = (Model.exitsOf models p : Multiset Terminal).bind (sent (.hub h es)) := by
  obtain ⟨m, hm, hx⟩ := Option.bind_eq_some_iff.mp hp
  have hlt : p.child < es.length := by
    rw [← hlen]
    exact (List.getElem?_eq_some_iff.mp hm).1
  have he := List.getElem?_eq_getElem hlt
  rw [sent_exitsOf hm he, Hub.messagesOut, List.getElem?_map, he, Option.map_some]
  exact (hg p.child m _ hm he).outbox (List.getElem?_eq_some_iff.mp hx).1

/-- **A hub gathers** what the leaves behind it send, if its children have. -/
theorem gathered_outbox {h h' : Hub τ} {es : List (Engine τ σ)} (hw : c.Wired models)
    (hself : h.Sound c models.length) (hlen : models.length = es.length)
    (hg : ∀ (i : Nat) (m : Model τ σ) (e : Engine τ σ), models[i]? = some m →
      es[i]? = some e → Gathered m e) (he : h.outbox.isEmpty = true) {p : Nat}
    (hp : p < c.interface.outputs.length) :
    ((h.gathered (es.map node)).messagesAt p : Multiset (Message τ))
      = ((Model.coupled c models).exits p : Multiset Terminal).bind (sent (.hub h' es)) := by
  have hlt : p < h.outbox.list.length := by
    rw [hself.outbox.length_eq]
    exact hp
  rw [Hub.gathered, Bags.messagesAt_foldl_append (fun l : Link Place Nat => l.destination)
    (fun l => Hub.messagesOut (es.map node) l.source) h.eoc h.outbox hlt,
    Bags.isEmpty_iff.mp he, List.nil_append, Model.exits_coupled, ← Multiset.coe_bind,
    ← Multiset.coe_bind, Multiset.bind_assoc,
    Multiset.coe_eq_coe.mpr ((hself.eoc_perm hw).filter _), List.filter_map, ← Multiset.map_coe,
    Multiset.bind_map]
  refine Multiset.bind_congr fun l hl => ?_
  rw [Multiset.mem_coe, List.mem_filter] at hl
  obtain ⟨x, _, hx, -, -⟩ := hw.eoc l hl.1
  exact messagesOut_eq hlen hg hx

variable [AtomicModel τ σ]

/-- **Collecting outputs** leaves every hub with what the leaves behind it send, also
where outputs have been collected before. -/
theorem Gathered.shown (t : Instant) (e : Engine τ σ) :
    ∀ {m : Model τ σ}, m.Wired → Sound good m e → Gathered m e → Gathered m (e.shown t) := by
  induction e using Engine.induction with
  | leaf l =>
      intro m _ hs hg
      cases hs with
      | leaf =>
          refine .leaf ?_
          unfold Leaf.shown
          split
          · exact hg.inbox
          · exact hg.inbox
  | hub h es ih =>
      intro m hm hs hg
      by_cases hdue : h.isImminent t = true
      · obtain ⟨c, models, rfl, hself⟩ := hs.of_hub
        -- The children have gathered what they send before the hub gathers from them.
        have hlen : models.length = (es.mapIdx fun _ => Engine.shown t).length := by
          cases hs with
          | hub _ length_eq => rw [List.length_mapIdx, length_eq]
        have hchild : ∀ (i : Nat) (m : Model τ σ) (e : Engine τ σ), models[i]? = some m →
            (es.mapIdx fun _ => Engine.shown t)[i]? = some e → Gathered m e := by
          intro i m e' hmi he'
          rw [List.getElem?_mapIdx, Option.map_eq_some_iff] at he'
          obtain ⟨e, he, rfl⟩ := he'
          obtain ⟨m', hm', hmem, hsound⟩ := hs.child he
          cases hmi.symm.trans hm'
          exact ih e (List.mem_of_getElem? he) (hm.child hmem) hsound (hg.child hmi he)
        have hclear : Hub.Sound c models.length { h with outbox := h.outbox.clear } :=
          ⟨hself.eic, hself.eoc, hself.ic, hself.inbox, hself.outbox.clear ▸ Bags.fits_ofPorts _⟩
        rw [Engine.shown, if_pos hdue, shownAll_eq]
        refine .hub hg.inbox (fun p hp => ?_) hchild
        refine gathered_outbox hm.self hclear hlen hchild ?_ hp
        show h.outbox.clear.isEmpty = true
        rw [hself.outbox.clear, Bags.isEmpty_ofPorts]
      · -- Where no event is due nothing is touched.
        rw [Engine.shown, if_neg hdue]
        exact hg

theorem gathered_shown (t : Instant) (e : Engine τ σ) {m : Model τ σ} (hm : m.Wired)
    (hs : Sound good m e) (hq : e.Quiet) : Gathered m (e.shown t) :=
  (hq.gathered e hs).shown t e hm hs

/-! ## The way down -/

/-- What mail carries to a port of a leaf, along the ways in. -/
def arriving (m : Model τ σ) (mail : List (Delivery τ)) (d : Terminal) : Multiset (Message τ) :=
  (mail : Multiset (Delivery τ)).bind fun x =>
    carried (m.entries x.port : Multiset Terminal) (fun t => t)
      (fun _ => (x.messages : Multiset (Message τ))) d

omit [AtomicModel τ σ] in
/-- The mail for one child, among all that a hub has posted. -/
theorem arriving_mailFor {i : Nat} {m : Model τ σ} (hm : models[i]? = some m)
    (ds : List (Delivery τ)) (a : List Nat) (q : Nat) :
    arriving m (Hub.mailFor ds i) ⟨a, q⟩
      = (ds : Multiset (Delivery τ)).bind fun x =>
          carried (Model.entriesOf models ⟨x.child, x.port⟩ : Multiset Terminal) (fun t => t)
            (fun _ => (x.messages : Multiset (Message τ))) ⟨i :: a, q⟩ := by
  rw [arriving, Hub.mailFor, bind_filter_key (fun x : Delivery τ => x.child)]
  refine Multiset.bind_congr fun x _ => ?_
  rw [Model.carried_entriesOf]
  by_cases hx : x.child = i
  · simp only [hx, if_true, Model.entriesAt_eq, hm, Option.map_some, Option.getD_some]
  · simp only [hx, if_false]

omit [AtomicModel τ σ] in
/-- What the internal couplings of a hub bring is what the chains carry that cross there. -/
theorem carried_internal {h h' : Hub τ} {es : List (Engine τ σ)} (hw : c.Wired models)
    (hself : h.Sound c models.length) (hlen : models.length = es.length)
    (hg : ∀ (i : Nat) (m : Model τ σ) (e : Engine τ σ), models[i]? = some m →
      es[i]? = some e → Gathered m e) (d : Terminal) :
    ((h.ic : Multiset (Link Place Place)).bind fun l =>
        carried (Model.entriesOf models l.destination : Multiset Terminal) (fun t => t)
          (fun _ => (Hub.messagesOut (es.map node) l.source : Multiset (Message τ))) d)
      = carried ((c.ic.flatMap fun l => (Model.exitsOf models l.source.place).flatMap fun o =>
          (Model.entriesOf models l.destination.place).map fun t => (o, t) :
          List (Terminal × Terminal)) : Multiset (Terminal × Terminal)) Prod.snd
          (fun x => sent (.hub h' es) x.1) d := by
  rw [Multiset.coe_eq_coe.mpr hself.ic_perm, ← Multiset.map_coe, Multiset.bind_map,
    ← Multiset.coe_bind, carried_bind]
  refine Multiset.bind_congr fun l hl => ?_
  obtain ⟨x, _, hx, -, -⟩ := hw.ic l hl
  rw [Model.carried_crossing]
  exact carried_congr fun _ _ => messagesOut_eq hlen hg hx

omit [AtomicModel τ σ] in
/-- What the external input couplings of a hub bring is what the mail of the hub
carries along the ways in. -/
theorem carried_external {h : Hub τ} (hw : c.Wired models) (hself : h.Sound c models.length)
    (he : h.inbox.isEmpty = true) (mail : List (Delivery τ)) (d : Terminal) :
    ((h.eic : Multiset (Link Nat Place)).bind fun l =>
        carried (Model.entriesOf models l.destination : Multiset Terminal) (fun t => t)
          (fun _ => ((h.receive mail).inbox.messagesAt l.source : Multiset (Message τ))) d)
      = arriving (.coupled c models) mail d := by
  have hinbox : ∀ l ∈ c.eic, (h.receive mail).inbox.messagesAt l.source.place
      = (mail.filter (·.port == l.source.place)).flatMap (·.messages) := by
    intro l hl
    obtain ⟨x, _, hx, -, -⟩ := hw.eic l hl
    refine Bags.messagesAt_mail he mail ?_
    rw [hself.inbox.length_eq]
    exact (List.getElem?_eq_some_iff.mp hx).1
  rw [hself.eic_eq, ← Multiset.map_coe, Multiset.bind_map, arriving]
  -- Both sides are sums over couplings and mail, in either order.
  have hleft : ∀ l ∈ (c.eic : Multiset (Link BoundarySlot ChildSlot)),
      carried (Model.entriesOf models l.destination.place : Multiset Terminal) (fun t => t)
          (fun _ => ((h.receive mail).inbox.messagesAt l.source.place : Multiset (Message τ))) d
        = (mail : Multiset (Delivery τ)).bind fun x =>
            if l.source.place = x.port then
              carried (Model.entriesOf models l.destination.place : Multiset Terminal) (fun t => t)
                (fun _ => (x.messages : Multiset (Message τ))) d
            else 0 := by
    intro l hl
    rw [hinbox l hl, ← Multiset.coe_bind, carried_load_bind,
      bind_filter_key (fun x : Delivery τ => x.port)]
    simp only [eq_comm]
  rw [Multiset.bind_congr hleft, Multiset.bind_bind]
  refine Multiset.bind_congr fun x _ => ?_
  rw [Model.entries_coupled, ← Multiset.coe_bind, carried_bind,
    bind_filter_key (fun l : Link BoundarySlot ChildSlot => l.source.place)]

/-- **What reaches a port of a leaf** when a tree is advanced with mail: what the
chains inside carry, and what the ways in carry of the mail. -/
def reaching (m : Model τ σ) (e : Engine τ σ) (mail : List (Delivery τ)) (d : Terminal) :
    Multiset (Message τ) :=
  carried (m.crossings : Multiset (Terminal × Terminal)) Prod.snd (fun c => e.sent c.1) d +
    arriving m mail d

omit [AtomicModel τ σ] in
/-- **One level of routing.** What reaches a leaf from below its parent, and by
the mail that its parent has posted, is what reaches it in the whole. -/
theorem reaching_child {h : Hub τ} {es : List (Engine τ σ)} {mail : List (Delivery τ)}
    (hw : c.Wired models) (hs : Sound good (.coupled c models) (.hub h es))
    (hg : Gathered (.coupled c models) (.hub h es)) {i : Nat} {m : Model τ σ} {e : Engine τ σ}
    (hm : models[i]? = some m) (he : es[i]? = some e) (a : List Nat) (q : Nat) :
    reaching m e (Hub.mailFor ((h.receive mail).posted (es.map node)) i) ⟨a, q⟩
      = reaching (.coupled c models) (.hub h es) mail ⟨i :: a, q⟩ := by
  cases hs with
  | hub hself hlen _ =>
      have hinside : carried (Model.crossingsFrom 0 models : Multiset (Terminal × Terminal))
          Prod.snd (fun c => sent (.hub h es) c.1) ⟨i :: a, q⟩
          = carried (m.crossings : Multiset (Terminal × Terminal)) Prod.snd
              (fun c => e.sent c.1) ⟨a, q⟩ := by
        have hfrom := Model.carried_crossingsFrom (fun c => sent (.hub h es) c.1)
          (a := a) (q := q) models (k := 0) hm
        rw [Nat.zero_add] at hfrom
        rw [hfrom]
        exact carried_congr fun c _ => sent_below he c.1
      rw [reaching, reaching, arriving_mailFor hm, Hub.posted, ← Multiset.coe_add,
        Multiset.add_bind, ← Multiset.map_coe, ← Multiset.map_coe, Multiset.bind_map,
        Multiset.bind_map, ← carried_external hw hself hg.inbox, ← hinside, Model.crossings,
        ← Multiset.coe_add, carried_add,
        ← carried_internal (h := h) hw hself hlen fun _ _ _ hm he => hg.child hm he, add_assoc]
      rfl

/-- **A leaf when its turn comes**: with the mail that has reached it by then in
its inbox. -/
def turnAt : List (Delivery τ) → List Nat → Engine τ σ → Option (Leaf τ σ)
  | mail, [], .leaf l => some (l.receive mail)
  | mail, i :: a, .hub h es =>
    es[i]?.bind (turnAt (Hub.mailFor ((h.receive mail).posted (es.map node)) i) a)
  | _, _, _ => none

/-- Every leaf moves when its turn comes. -/
theorem moved_leafAt (t : Instant) {a : List Nat} :
    ∀ {mail : List (Delivery τ)} {e : Engine τ σ},
      (e.moved t mail).leafAt? a = (turnAt mail a e).map (Leaf.moved t) := by
  induction a with
  | nil =>
      intro mail e
      cases e <;> rfl
  | cons i a ih =>
      intro mail e
      cases e with
      | leaf => rfl
      | hub h es =>
          rw [moved, leafAt?, turnAt, movedAll_eq]
          simp only [List.getElem?_mapIdx, Nat.zero_add]
          cases es[i]? with
          | none => rfl
          | some c => exact ih

omit [AtomicModel τ σ] in
/-- A turn is the turn of a leaf. -/
theorem exists_leafAt_of_turnAt {a : List Nat} {l : Leaf τ σ} :
    ∀ {mail : List (Delivery τ)} {e : Engine τ σ}, turnAt mail a e = some l →
      ∃ l', e.leafAt? a = some l' := by
  induction a with
  | nil =>
      intro mail e hl
      cases e with
      | leaf l' => exact ⟨l', rfl⟩
      | hub => cases hl
  | cons i a ih =>
      intro mail e hl
      cases e with
      | leaf => cases hl
      | hub h es =>
          obtain ⟨c, hc, hl⟩ := Option.bind_eq_some_iff.mp hl
          obtain ⟨l', hl'⟩ := ih hl
          refine ⟨l', ?_⟩
          rw [leafAt?, hc, Option.bind_some, hl']

omit [AtomicModel τ σ] in
/-- **What a leaf fires on.** In a tree that has collected its outputs and is
advanced with mail, every leaf has in its inbox what reaches it when its turn
comes, and is as it was otherwise. -/
theorem exists_turnAt (e : Engine τ σ) :
    ∀ {m : Model τ σ} {mail : List (Delivery τ)}, m.Wired → Sound good m e → Gathered m e →
      Hub.Addressed m.interface.inputs mail → ∀ {a : List Nat} {l : Leaf τ σ} {atom : Atomic τ σ},
      m.atomAt? a = some atom → e.leafAt? a = some l →
      ∃ x : Bags τ, turnAt mail a e = some { l with inbox := x } ∧
        x.Fits atom.interface.inputs ∧
        ∀ q < atom.interface.inputs.length,
          (x.messagesAt q : Multiset (Message τ)) = reaching m e mail ⟨a, q⟩ := by
  induction e using Engine.induction with
  | leaf l =>
      intro m mail _ hs hg hmail a l' atom ha hl
      cases hs with
      | leaf self =>
          cases a with
          | cons i a => cases hl
          | nil =>
              cases hl
              cases ha
              refine ⟨(l.receive mail).inbox, rfl, hmail.receive self.inbox, fun q hq => ?_⟩
              -- Nothing waits at a leaf that was quiet, so all it fires on is the mail.
              have hlt : q < l.inbox.list.length := by
                rw [self.inbox.length_eq]
                exact hq
              have hinbox : (l.receive mail).inbox.messagesAt q
                  = (mail.filter (·.port == q)).flatMap (·.messages) :=
                Bags.messagesAt_mail hg.inbox mail hlt
              rw [hinbox, reaching, ← Multiset.coe_bind,
                bind_filter_key (fun x : Delivery τ => x.port)]
              refine Eq.trans ?_ (zero_add _).symm
              refine Multiset.bind_congr fun x _ => ?_
              rw [Model.entries, carried, Multiset.coe_singleton, Multiset.singleton_bind]
              simp only [Terminal.mk.injEq, true_and]
  | hub h es ih =>
      intro m mail hm hs hg hmail a l atom ha hl
      obtain ⟨c, models, rfl, hself⟩ := hs.of_hub
      cases a with
      | nil => cases hl
      | cons i a =>
          obtain ⟨e, he, hl⟩ := Option.bind_eq_some_iff.mp hl
          obtain ⟨m, hmi, ha⟩ := Option.bind_eq_some_iff.mp ha
          obtain ⟨m', hm', hmem, hsound⟩ := hs.child he
          cases hmi.symm.trans hm'
          -- A child fires on the mail that the hub posts for it. What this brings to a leaf below
          -- the child is what the mail of the hub brings there.
          have hself' : Hub.Sound c models.length (h.receive mail) :=
            ⟨hself.eic, hself.eoc, hself.ic, hmail.receive hself.inbox, hself.outbox⟩
          obtain ⟨x, hturn, hx, hsum⟩ := ih e (List.mem_of_getElem? he) (hm.child hmem) hsound
            (hg.child hmi he) (Hub.addressed_posted hm.self hself' hs.furnished hmi) ha hl
          refine ⟨x, ?_, hx, fun q hq => ?_⟩
          · rw [turnAt, he, Option.bind_some]
            exact hturn
          · rw [hsum q hq]
            exact reaching_child hm.self hs hg hmi he a q

end Engine

end DiscreteEvent
