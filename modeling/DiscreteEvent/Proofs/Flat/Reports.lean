/-
Twins report the same.

The reports of a step, and of the initialization, are alike in the engine tree and in
the crew of a model (`Twin.step_alike`, `Twin.start_alike`). Leaf by leaf this follows
from what a leaf has in front of it when its turn comes. The root of the crew reports for
all inner nodes of the tree; it says what the root of the tree says, if that is a
network.
-/
import DiscreteEvent.Proofs.Flat.Twin

set_option autoImplicit false

namespace DiscreteEvent

variable {τ σ ω : Type} [MessageType τ] [AtomicModel τ σ]
variable {good : Interface τ → Stage → σ → Prop} {m : Model τ σ} {e : Engine τ σ} {c : Crew τ σ}

/-! ## Paths -/

namespace Crew

/-- The leaves keep their paths when messages are routed. -/
theorem pathAt_routed (t : Instant) (routes : List Route) (c : Crew τ σ) (b : List Nat) :
    (c.routed t routes).pathAt? b = c.pathAt? b := by
  match b with
  | [] =>
      rw [pathAt?, pathAt?, routed, deposited_eq]
      rfl
  | [i] =>
      rw [pathAt?, pathAt?, leaves_routed, List.getElem?_mapIdx, List.getElem?_map]
      cases c.leaves[i]? with
      | none => rfl
      | some l => exact congrArg (some ·.path) (l.toNode_shown t)
  | _ :: _ :: _ => rfl

theorem pathAt_stepped (t : Instant) (routes : List Route) (c : Crew τ σ) (b : List Nat) :
    (c.stepped t routes).pathAt? b = c.pathAt? b := by
  rw [← pathAt_routed t routes c b]
  match b with
  | [] => rfl
  | [i] =>
      rw [pathAt?, pathAt?, stepped, List.getElem?_map]
      cases (c.routed t routes).leaves[i]? with
      | none => rfl
      | some l => exact congrArg some (l.path_moved t)
  | _ :: _ :: _ => rfl

end Crew

namespace LeafCall

/-- The parts of a crew of `m` are those of its leaves. -/
theorem exists_of_part {call : LeafCall} {leaves : List (Leaf τ σ)}
    (hlength : leaves.length = m.atoms.length) {b : List Nat} {z : Effect}
    (hz : call.part leaves b = some z) : ∃ a atom, m.atomAt? a = some atom ∧ b = [m.number a] := by
  match b with
  | [] => cases hz
  | [i] =>
      obtain ⟨l, hl, -⟩ := Option.map_eq_some_iff.mp hz
      have hlt : i < m.atoms.length := by
        rw [← hlength]
        exact (List.getElem?_eq_some_iff.mp hl).1
      obtain ⟨a, atom, ha, hnumber⟩ := m.exists_number hlt
      exact ⟨a, atom, ha, by rw [hnumber]⟩
  | _ :: _ :: _ => cases hz

end LeafCall

namespace Engine

omit [AtomicModel τ σ] in
/-- The leaves of an engine of `m` are where `m` has atomic models. -/
theorem Sound.exists_atom (h : Sound good m e) {a : List Nat} {l : Leaf τ σ}
    (hl : e.leafAt? a = some l) : ∃ atom, m.atomAt? a = some atom := by
  cases ha : m.atomAt? a with
  | none => exact nomatch (h.exists_leaf.2 ha).symm.trans hl
  | some atom => exact ⟨atom, rfl⟩

omit [AtomicModel τ σ] in
/-- Every leaf of an engine of `m` is at an address. -/
theorem Sound.exists_leafAt (h : Sound good m e) {l : Leaf τ σ} (hl : l ∈ e.leaves) :
    ∃ a atom, m.atomAt? a = some atom ∧ e.leafAt? a = some l ∧ l.Sound good atom.interface := by
  obtain ⟨n, hn, rfl⟩ := List.getElem_of_mem hl
  obtain ⟨a, atom, ha, rfl⟩ := m.exists_number (h.length_leaves ▸ hn)
  obtain ⟨l, hl, hsound⟩ := h.exists_leaf.1 ha
  have hget := h.getElem?_leaves hl
  rw [List.getElem?_eq_getElem hn, Option.some_inj] at hget
  exact ⟨a, atom, ha, hget ▸ hl, hget ▸ hsound⟩

end Engine

/-! ## The reports of one hub -/

namespace Engine

/-- A hub that is due reports its outputs. -/
theorem recordsAt_showEffect {h : Hub τ} (es : List (Engine τ σ)) {t : Instant}
    (hdue : h.isImminent t = true) :
    (showEffect t (.hub h es)).recordsAt []
      = [⟨.collect, h.path, t, h.last, h.next, none,
          Record.bagsOf .output (shown t (.hub h es)).node.outbox⟩] := by
  rw [showEffect, if_pos hdue, showEffects_eq, shown, if_pos hdue]
  exact Effect.recordsAt_each_ofRecord _ es _

/-- Every hub reports its transition. -/
theorem recordsAt_moveEffect (h : Hub τ) (es : List (Engine τ σ)) (t : Instant)
    (mail : List (Delivery τ)) :
    (moveEffect t mail (.hub h es)).recordsAt []
      = [⟨.advance, h.path, t, t, (moved t mail (.hub h es)).next, none,
          Record.bagsOf .input (h.receive mail).inbox⟩] := by
  rw [moveEffect, moveEffects_eq]
  exact Effect.recordsAt_each_ofRecord _ es _

end Engine

/-! ## The reports of the leaves -/

namespace Twin

/-- **The leaves report their outputs alike.** -/
theorem collect_alike (h : Twin good m e c) {t : Instant} (ht : t ≤ c.next) {order : List Nat}
    (horder : order.Perm (List.range c.leaves.length)) :
    Effect.AlikeLeaves m (e.showEffect t)
      (.all (order.map (LeafCall.effectAt (.collect t) c.leaves))) := by
  refine Effect.alikeLeaves_of_parts
    (Engine.attributed_showEffect t e h.engine.windowed (h.next_eq ▸ ht))
    (LeafCall.attributed_calls (.collect t) horder c.pathAt? fun _ => rfl)
    (fun a atom ha => ?_) (fun a z hz => ?_)
    fun b z hz => LeafCall.exists_of_part h.crew.sound.length_eq hz
  · obtain ⟨l, hl, hcl, -⟩ := h.exists_leaf ha
    refine ⟨l.showEffect t, l.showEffect t, by rw [hl]; rfl, ?_, ?_, rfl⟩
    · rw [LeafCall.part, hcl]
      rfl
    · exact List.forall₂_same.mpr fun r _ => r.alike_refl
  · obtain ⟨l, hl, -⟩ := Option.map_eq_some_iff.mp hz
    exact h.engine.sound.exists_atom hl

/-- **The leaves report their transitions alike.** -/
theorem advance_alike (hc : Contract good) (ho : OrderFree good) (hm : m.Wired)
    (h : Twin good m e c) {t : Instant} (ht : t ≤ c.next) {routes : List Route}
    (hr : routes.Perm c.routes) {order : List Nat}
    (horder : order.Perm (List.range c.leaves.length)) :
    Effect.AlikeLeaves m ((e.shown t).moveEffect t c.inbox.asMail)
      (.all (order.map (LeafCall.effectAt (.advance t) (c.routed t routes).leaves))) := by
  have hsound := h.crew.sound_routed hc hm ht hr
  have hlength : (c.routed t routes).leaves.length = c.leaves.length :=
    hsound.length_eq.trans h.crew.sound.length_eq.symm
  refine Effect.alikeLeaves_of_parts (Engine.attributed_moveEffect t (e.shown t))
    (LeafCall.attributed_calls (.advance t) (hlength ▸ horder)
      (c.routed t routes).pathAt? fun _ => rfl)
    (fun a atom ha => ?_) (fun a z hz => ?_)
    fun b z hz => LeafCall.exists_of_part hsound.length_eq hz
  · obtain ⟨l, x, y, -, hi, -, hturn, hrouted, hleaf, hy, halike⟩ := h.exists_turn hc hm ht hr ha
    have hinit : (l.shown t).initialized = true := by
      rw [Leaf.toNode_shown]
      exact hi
    -- The two inboxes differ only in the order of messages, to which the model pays no regard.
    obtain ⟨hrecords, hinterrupts⟩ := Leaf.moveEffect_congr (t := t) hc ho hleaf hinit hy halike
    refine ⟨_, _, by rw [hturn]; rfl, ?_, hrecords, hinterrupts⟩
    rw [LeafCall.part, hrouted]
    rfl
  · have hte : t ≤ e.next := h.next_eq ▸ ht
    obtain ⟨-, hshown, -⟩ := h.engine.collect hc (attended_unobserved good) hm hte ⟨⟨⟩, false⟩
    obtain ⟨l, hl, -⟩ := Option.map_eq_some_iff.mp hz
    obtain ⟨l', hl'⟩ := Engine.exists_leafAt_of_turnAt hl
    exact hshown.sound.exists_atom hl'

/-! ## The reports of the root -/

/-- **What leaves the root is the same**: in the tree it has climbed up to its outbox, and
in the crew the routes have brought it there. -/
theorem outbox_alike (hc : Contract good) (hm : m.Wired) (h : Twin good m e c) {t : Instant}
    (ht : t ≤ c.next) {routes : List Route} (hr : routes.Perm c.routes) :
    (e.shown t).node.outbox.Fits m.interface.outputs ∧
      (c.routed t routes).outbox.Fits m.interface.outputs ∧
      (e.shown t).node.outbox.Alike (c.routed t routes).outbox := by
  have hte : t ≤ e.next := h.next_eq ▸ ht
  obtain ⟨-, hshown, -⟩ := h.engine.collect hc (attended_unobserved good) hm hte ⟨⟨⟩, false⟩
  have hout := (h.crew.sound_routed hc hm ht hr).outbox
  refine ⟨hshown.sound.outbox, hout, hshown.sound.outbox.alike hout fun p hp => ?_⟩
  have hgathered := Engine.gathered_shown t e hm h.engine.sound h.quiet
  have hroutes : routes.Perm m.routes := hr.trans (List.Perm.of_eq h.crew.sound.routes)
  have hsent := Crew.mailOut_eq_sent hm hshown.sound (h.leaves_shown hc hm ht) hroutes hp
  have hmail : (c.routed t routes).outbox.messagesAt p
      = (((c.shown t).mailOut routes).filter (·.port == p)).flatMap (·.messages) := by
    rw [Crew.routed, Crew.deposited_eq]
    have hlt : p < (c.shown t).outbox.list.length := by
      show p < c.outbox.list.length
      rw [h.crew.sound.outbox.length_eq]
      exact hp
    exact Bags.messagesAt_mail h.outbox _ hlt
  rw [hgathered.outbox hp, ← hsent, hmail]

/-- **The root of a network reports the same** in a step at its next event. -/
theorem root_alike (hc : Contract good) (ho : OrderFree good) (hm : m.Wired)
    (h : Twin good m e c) (hmax : c.next ≠ .max) {routes : List Route}
    (hr : routes.Perm c.routes) {k : Coupled τ} {models : List (Model τ σ)}
    (hk : m = .coupled k models) :
    List.Forall₂ Record.Alike
      ((e.showEffect c.next ++ (e.shown c.next).moveEffect c.next c.inbox.asMail).recordsAt [])
      [c.collectRecord c.next routes, c.advanceRecord c.next routes] := by
  have hlast := h.last_eq
  have hpath := h.path_eq
  have hnext := (h.stepped hc ho hm hmax hr).next_eq
  obtain ⟨hfits, hfits', hout⟩ := h.outbox_alike hc hm (le_refl _) hr
  have hin := (Engine.gathered_shown c.next e hm h.engine.sound h.quiet).inbox
  rw [Effect.recordsAt_append]
  cases e with
  | leaf l =>
      subst hk
      exact nomatch h.engine.sound
  | hub n es =>
      have hdue : n.isImminent c.next = true := (Node.isImminent_iff hmax).mpr h.next_eq.symm
      obtain ⟨x, es', hhub⟩ : ∃ x es',
          (Engine.hub n es).shown c.next = .hub { n with outbox := x } es' := by
        rw [Engine.shown, if_pos hdue]
        exact ⟨_, _, rfl⟩
      have hshow := Engine.recordsAt_showEffect es hdue
      rw [hhub] at hshow hout hfits hin hnext
      have hmail : (Hub.receive { n with outbox := x } c.inbox.asMail).inbox = c.inbox := by
        have hfold := h.crew.sound.inbox.foldl_asMail
        rw [← (h.engine.sound.inbox.eq_ofPorts hin : n.inbox = _)] at hfold
        exact hfold
      rw [hshow, hhub, Engine.recordsAt_moveEffect, hmail]
      refine .cons ⟨rfl, hpath.symm, rfl, hlast.symm, h.next_eq.symm, rfl, ?_⟩
        (.cons ⟨rfl, hpath.symm, rfl, rfl, hnext.symm, rfl, ?_⟩ .nil)
      · exact Record.bagsOf_alike .output hout hfits hfits'
      · exact BagRecord.alike_refl _

/-! ## All reports -/

end Twin

/-- The reports of the root of a crew in a step. -/
theorem Course.recordsAt_effect (x : Course) (t : Instant) (c : Crew τ σ) :
    (x.effect t c).recordsAt [] = [c.collectRecord t x.routed, c.advanceRecord t x.routed] := by
  rw [effect, Effect.recordsAt_append, Effect.recordsAt_append, LeafCall.recordsAt_calls_nil,
    LeafCall.recordsAt_calls_nil]
  rfl

namespace Twin

/-- **A step is reported alike** by both engines. What waits at the root is in the inbox
of the tree, as it is in that of the crew. -/
theorem step_alike (hc : Contract good) (ho : OrderFree good) (hm : m.Wired)
    (h : Twin good m e c) (hmax : c.next ≠ .max) {x : Course} (hx : x.Covers c) :
    Effect.Alike m (fun a => e.pathAt? a) c.pathAt?
      ((e.withInbox c.inbox).showEffect c.next ++
        ((e.shown c.next).withInbox c.inbox).moveEffect c.next [])
      (x.effect c.next c) := by
  have hin := (Engine.gathered_shown c.next e hm h.engine.sound h.quiet).inbox
  have hbag : (e.shown c.next).node.inbox = .ofPorts m.interface.inputs := by
    obtain ⟨-, hshown, -⟩ := h.engine.collect hc (attended_unobserved good) hm
      (le_of_eq h.next_eq) ⟨⟨⟩, false⟩
    exact hshown.sound.inbox.eq_ofPorts hin
  rw [Engine.showEffect_withInbox, Engine.moveEffect_withInbox hbag h.crew.sound.inbox]
  have hle : c.next ≤ e.next := le_of_eq h.next_eq
  have hshow := Engine.attributed_showEffect c.next e h.engine.windowed hle
  have hmove : (Engine.moveEffect c.next c.inbox.asMail (e.shown c.next)).Attributed _ _ :=
    Engine.attributed_moveEffect c.next (e.shown c.next)
  have hcollect := LeafCall.attributed_calls (.collect c.next) hx.collected c.pathAt?
    fun _ => rfl
  have hlength : (c.routed c.next x.routed).leaves.length = c.leaves.length :=
    (h.crew.sound_routed hc hm (le_refl _) hx.routed).length_eq.trans
      h.crew.sound.length_eq.symm
  have hadvance := LeafCall.attributed_calls (.advance c.next) (hlength ▸ hx.advanced)
    (c.routed c.next x.routed).pathAt? fun _ => rfl
  have hown : (Effect.ofRecord (c.collectRecord c.next x.routed) ++
      Effect.ofRecord (c.advanceRecord c.next x.routed)).Own c.path :=
    (Effect.own_ofRecord _).append (Effect.own_ofRecord _)
  refine ⟨((h.collect_alike (le_refl _) hx.collected).append
    (h.advance_alike hc ho hm (le_refl _) hx.routed hx.advanced)).append_own hown rfl,
    fun n hn => ?_, fun n hn => ?_, fun {k models} hk => ?_⟩
  · rcases List.mem_append.mp hn with hn | hn
    · exact hshow.signed n hn
    · rw [← hmove.signed n hn, Engine.pathAt_shown]
  · rcases List.mem_append.mp hn with hn | hn
    · rcases List.mem_append.mp hn with hn | hn
      · exact hcollect.signed n hn
      · rw [← hadvance.signed n hn, Crew.pathAt_routed]
    · rw [(hown n hn).1, (hown n hn).2]
      rfl
  · rw [x.recordsAt_effect]
    exact h.root_alike hc ho hm hmax hx.routed hk

end Twin

/-- **The initialization is reported alike** by both engines of a model. -/
theorem start_alike (hc : Contract good) (hm : m.Wired) (hg : m.AllGood good) (wished : Nat)
    (t : Instant) :
    Effect.Alike m (fun a => (Engine.ofModel m).pathAt? a) (Crew.ofModel wished m).pathAt?
      ((Engine.ofModel m).startEffect t) ((Crew.ofModel wished m).startEffect t) := by
  have hsound := Engine.sound_ofModelBelow hg none
  have hcrew := Crew.sound_ofModel hm hg wished
  have hleaves : (Crew.ofModel wished m).leaves = (Engine.ofModel m).leaves :=
    FlatPart.leaves_eq m
  have htree := Engine.attributed_startEffect t (Engine.ofModel m)
  have hcalls := LeafCall.attributed_calls (.init t) (List.Perm.refl _)
    (Crew.ofModel wished m).pathAt? fun _ => rfl
  have hown := Effect.own_ofRecord ⟨.init, (Crew.ofModel wished m).path, t, t,
    ((Crew.ofModel wished m).started t).next, none, []⟩
  refine ⟨Effect.AlikeLeaves.append_own (Effect.alikeLeaves_of_parts htree hcalls
    (fun a atom ha => ?_) (fun a z hz => ?_)
    fun b z hz => LeafCall.exists_of_part hcrew.length_eq hz) hown rfl,
    htree.signed, fun n hn => ?_, fun {k models} hk => ?_⟩
  · obtain ⟨l, hl, -⟩ := hsound.exists_leaf.1 ha
    refine ⟨l.startEffect t, l.startEffect t, ?_, ?_, ?_, rfl⟩
    · exact congrArg (Option.map (Leaf.startEffect t)) hl
    · rw [LeafCall.part, hleaves]
      exact congrArg (Option.map (Leaf.startEffect t)) (hsound.getElem?_leaves hl)
    · exact List.forall₂_same.mpr fun r _ => r.alike_refl
  · obtain ⟨l, hl, -⟩ := Option.map_eq_some_iff.mp hz
    exact hsound.exists_atom hl
  · rcases List.mem_append.mp hn with hn | hn
    · exact hcalls.signed n hn
    · rw [(hown n hn).1, (hown n hn).2]
      rfl
  · subst hk
    have hnext := (Twin.started hc hm hg wished t).next_eq
    rw [Crew.startEffect, Effect.recordsAt_append, LeafCall.recordsAt_calls_nil, List.nil_append,
      Effect.recordsAt_ofRecord_nil, Engine.ofModel, Engine.ofModelBelow, Engine.startEffect,
      Engine.startEffects_eq, Node.noted, Effect.recordsAt_each_ofRecord]
    exact .cons ⟨rfl, rfl, rfl, rfl, hnext.symm, rfl, .nil⟩ .nil

end DiscreteEvent
