/-
What happens to a simulation in service, and what comes of it.

Whoever holds a simulation may let it take steps, and may put messages into the inbox of
its root between them. The `Occurrence`s of a while, in their order, are a history, and
`Backend.Unfolds` says that an engine of either kind goes through one. How the steps were
asked for, one by one or many in a run, does not show in it.

When the messages are put in at the same places, between the same steps, there is only one
history up to a limit, and it leads to one engine, with the same reports (`Unfolds.unique`):
an engine says itself at what time its next step is, and a step leaves nothing open but in
which order the workers of a crew do it (`Step.unique`).

What waits at the root stays there until a step is taken, and then goes along the
coupling chains into the input of the leaves, once (`Model.Tells`, `Unfolds.tells`).
-/
import DiscreteEvent.Execution.Runner
import DiscreteEvent.Proofs.Flat.Runs

set_option autoImplicit false

namespace DiscreteEvent

variable {τ σ ω : Type} [MessageType τ]

/-! ## Histories -/

/-- Messages for a port of the root. -/
structure Injection (τ : Type) [MessageType τ] where
  port : Port τ
  values : List (MessageType.Value port.type)

/-- **What happens to a simulation in service.** -/
inductive Occurrence (τ : Type) [MessageType τ]
  /-- The step at `t` is taken. -/
  | step (t : Instant)
  /-- Messages are put into the inbox of the root. -/
  | inject (i : Injection τ)

/-- The messages that were put in after exactly `n` steps, in their order. -/
def injectedAfter : List (Occurrence τ) → Nat → List (Injection τ)
  | [], _ => []
  | .inject i :: h, 0 => i :: injectedAfter h 0
  | .inject _ :: h, n + 1 => injectedAfter h (n + 1)
  | .step _ :: _, 0 => []
  | .step _ :: h, n + 1 => injectedAfter h n

/-- Where messages are put in at the beginning only. -/
theorem injectedAfter_inject (i : Injection τ) (ts : List Instant) (n : Nat) :
    injectedAfter (.inject i :: ts.map .step) n = if n = 0 then [i] else [] := by
  have hsteps : ∀ n, injectedAfter (ts.map (.step : Instant → Occurrence τ)) n = [] := by
    induction ts with
    | nil => exact fun _ => rfl
    | cons t ts ih =>
        intro n
        cases n with
        | zero => rfl
        | succ n => exact ih n
  cases n with
  | zero => exact congrArg (i :: ·) (hsteps 0)
  | succ n => exact hsteps (n + 1)

variable [AtomicModel τ σ]

/-- **One step of a leaf after the other**: on what is delivered to it, every cell steps. -/
def Model.Delivers (m : Model τ σ) (t : Instant) (x : Bags τ)
    (before after : List Nat → Option (Cell σ)) : Prop :=
  ∀ (a : List Nat) (atom : Atomic τ σ), m.atomAt? a = some atom →
    ∃ c y, before a = some c ∧ m.Receives t x before a atom.interface y ∧
      after a = some (c.step t y)

/-- **What a history tells of the leaves**, and of the messages that wait at the root. A step
delivers these to the leaves, each on the chains from its port, and then none of them waits
any more. -/
inductive Model.Tells (m : Model τ σ) : (List Nat → Option (Cell σ)) → Bags τ →
    List (Occurrence τ) → (List Nat → Option (Cell σ)) → Bags τ → Prop
  | nothing {cells : List Nat → Option (Cell σ)} {x : Bags τ} : Tells m cells x [] cells x
  | inject {cells cells' : List Nat → Option (Cell σ)} {x y z : Bags τ} {i : Injection τ}
      {h : List (Occurrence τ)} (extended : x.extend i.port i.values = .ok y)
      (rest : Tells m cells y h cells' z) : Tells m cells x (.inject i :: h) cells' z
  | step {cells cells₁ cells' : List Nat → Option (Cell σ)} {x z : Bags τ} {t : Instant}
      {h : List (Occurrence τ)} (delivered : m.Delivers t x cells cells₁)
      (rest : Tells m cells₁ (.ofPorts m.interface.inputs) h cells' z) :
      Tells m cells x (.step t :: h) cells' z

namespace Backend

/-- **One step at the next event**, with its effect. The workers of a crew call the leaves
and follow the routes in some order. -/
inductive Step : Backend τ σ → Effect → Backend τ σ → Prop
  | sequential {e : Engine τ σ} (event : e.next ≠ .max) :
      Step (.sequential e)
        (e.showEffect e.next ++ (e.shown e.next).moveEffect e.next [])
        (.sequential ((e.shown e.next).moved e.next []))
  | parallel {c : Crew τ σ} (event : c.next ≠ .max) {x : Course} (hx : x.Covers c) :
      Step (.parallel c) (x.effect c.next c) (.parallel (c.stepped c.next x.routed))

/-- **An engine goes through a history**, with the effect of its steps. -/
inductive Unfolds (m : Model τ σ) :
    Backend τ σ → List (Occurrence τ) → Effect → Backend τ σ → Prop
  | nothing {b : Backend τ σ} : Unfolds m b [] {} b
  | inject {b b' : Backend τ σ} {i : Injection τ} {x : Bags τ} {h : List (Occurrence τ)}
      {y : Effect} (declared : i.port ∈ m.interface.inputs)
      (extended : b.inbox.extend i.port i.values = .ok x)
      (rest : Unfolds m (b.withInbox x) h y b') : Unfolds m b (.inject i :: h) y b'
  | step {b b₁ b' : Backend τ σ} {h : List (Occurrence τ)} {x y : Effect} (first : b.Step x b₁)
      (rest : Unfolds m b₁ h y b') : Unfolds m b (.step b.next :: h) (x ++ y) b'

/-- The path of the engine at an address; in a crew the root has the empty one, and a leaf its
number. -/
def pathAt? : Backend τ σ → List Nat → Option String
  | .sequential e, a => e.pathAt? a
  | .parallel c, a => c.pathAt? a

/-- The same reports of two runs: of a tree they are equal, and of a crew every part reports
the same, up to the order of messages within a bag. -/
def Matches : Backend τ σ → Effect → Effect → Prop
  | .sequential _, x, y => x = y
  | .parallel _, x, y => ∀ a, List.Forall₂ Record.Alike (x.recordsAt a) (y.recordsAt a)

/-- **The same reports of two runs**, in which every note says truly which engine made the
record. -/
structure SameReports (b : Backend τ σ) (x y : Effect) : Prop where
  signed : ∀ n ∈ x.notes, b.pathAt? n.address = some n.record.path
  signed' : ∀ n ∈ y.notes, b.pathAt? n.address = some n.record.path
  same : b.Matches x y

/-- The cells of an engine of `m`. -/
def cells (m : Model τ σ) : Backend τ σ → List Nat → Option (Cell σ)
  | .sequential e, a => e.cells a
  | .parallel c, a => (m.atomAt? a).bind fun _ => c.leaves[m.number a]?.map Leaf.cell

/-- **An engine of `m` in service, between two steps.** Messages wait only at its root. -/
def Serves (good : Interface τ → Stage → σ → Prop) (m : Model τ σ) : Backend τ σ → Prop
  | .sequential e => ∃ e₀ x, Engine.Live good m e₀ ∧ e₀.Quiet ∧ x.Fits m.interface.inputs ∧
      e = e₀.withInbox x
  | .parallel c => OrderFree good ∧ ∃ e, Twin good m e c

end Backend

/-! ## One step -/

variable {good : Interface τ → Stage → σ → Prop} {m : Model τ σ}

/-- A tree with messages at its root steps as the tree without them does when it gets them
as mail. -/
theorem Engine.Live.moved_mail {e : Engine τ σ} {x : Bags τ} (hc : Contract good) (hm : m.Wired)
    (h : Live good m e) (hq : e.Quiet) (hx : x.Fits m.interface.inputs) :
    ((e.withInbox x).shown e.next).moved e.next []
        = (e.shown e.next).moved e.next x.asMail ∧
      Live good m (e.shown e.next) ∧ Live good m ((e.shown e.next).moved e.next x.asMail) := by
  obtain ⟨-, -, hshown, hmoved, -⟩ := h.collect_advance hc (attended_unobserved good) hm hq hx
    h.windowed.last_le_next (le_refl _) ⟨⟨⟩, false⟩ ⟨⟨⟩, false⟩
  have hin : (e.shown e.next).node.inbox = .ofPorts m.interface.inputs :=
    hshown.sound.inbox.eq_ofPorts (gathered_shown e.next e hm h.sound hq).inbox
  rw [shown_withInbox, moved_withInbox hin hx]
  exact ⟨rfl, hshown, hmoved⟩

omit [AtomicModel τ σ] in
/-- Crews with one twin are the same, but for what waits at the root. -/
theorem Twin.crew_eq {e : Engine τ σ} {c c' : Crew τ σ} (h : Twin good m e c)
    (h' : Twin good m e c') (hworkers : c.workers = c'.workers) (hinbox : c.inbox = c'.inbox) :
    c = c' := by
  have hpath := h.path_eq.trans h'.path_eq.symm
  have hleaves := h.leaves_eq.trans h'.leaves_eq.symm
  have hroutes := h.crew.sound.routes.trans h'.crew.sound.routes.symm
  have hlast := h.last_eq.trans h'.last_eq.symm
  have hnext := h.next_eq.trans h'.next_eq.symm
  have hinitialized := h.crew.initialized.trans h'.crew.initialized.symm
  have houtbox := (h.crew.sound.outbox.eq_ofPorts h.outbox).trans
    (h'.crew.sound.outbox.eq_ofPorts h'.outbox).symm
  obtain ⟨⟩ := c
  obtain ⟨⟩ := c'
  simp only at hpath hleaves hroutes hworkers hlast hnext hinitialized hinbox houtbox
  subst hpath hleaves hroutes hworkers hlast hnext hinitialized hinbox houtbox
  rfl

/-- The steps of a crew lead to one crew, in whatever order its routes are followed. -/
theorem Twin.stepped_eq {e : Engine τ σ} {c : Crew τ σ} (hc : Contract good) (ho : OrderFree good)
    (hm : m.Wired) (h : Twin good m e c) (hmax : c.next ≠ .max) {routes routes' : List Route}
    (hr : routes.Perm c.routes) (hr' : routes'.Perm c.routes) :
    c.stepped c.next routes = c.stepped c.next routes' := by
  refine (h.stepped hc ho hm hmax hr).crew_eq (h.stepped hc ho hm hmax hr') ?_ ?_
  · rw [Crew.stepped, Crew.stepped, Crew.routed, Crew.routed, Crew.deposited_eq,
      Crew.deposited_eq]
  · rw [Crew.stepped, Crew.stepped, Crew.routed, Crew.routed, Crew.deposited_eq,
      Crew.deposited_eq]

/-- Two lists whose entries are each related to those of a third one, entry by entry. -/
theorem forall₂_euclid {α β : Type} {R : α → β → Prop} {S : β → β → Prop}
    (hRS : ∀ {a b b'}, R a b → R a b' → S b b') {xs : List α} {ys zs : List β}
    (hy : List.Forall₂ R xs ys) (hz : List.Forall₂ R xs zs) : List.Forall₂ S ys zs := by
  induction hy generalizing zs with
  | nil =>
      cases hz
      exact .nil
  | cons hab _ ih =>
      cases hz with
      | cons hab' hrest => exact .cons (hRS hab hab') (ih hrest)

/-- Two records that are like a third one are alike. -/
theorem Record.Alike.euclid {r s s' : Record} (h : r.Alike s) (h' : r.Alike s') : s.Alike s' :=
  ⟨h.phase.symm.trans h'.phase, h.path.symm.trans h'.path, h.time.symm.trans h'.time,
    h.last.symm.trans h'.last, h.next.symm.trans h'.next, h.state.symm.trans h'.state,
    forall₂_euclid (fun hb hb' => ⟨hb.direction.symm.trans hb'.direction,
      hb.port.symm.trans hb'.port, hb.messages.symm.trans hb'.messages⟩) h.bags h'.bags⟩

namespace Twin

variable {e : Engine τ σ} {c : Crew τ σ}

omit [AtomicModel τ σ] in
/-- A crew has the cells of its twin. -/
theorem cells_eq (h : Twin good m e c) (a : List Nat) :
    (Backend.parallel c).cells m a = e.cells a := by
  rw [Backend.cells, Engine.cells]
  cases ha : m.atomAt? a with
  | none => rw [h.engine.sound.exists_leaf.2 ha, Option.bind_none, Option.map_none]
  | some atom =>
      obtain ⟨l, hl, hcl, -⟩ := h.exists_leaf ha
      rw [hl, hcl, Option.bind_some]

/-- In a step only the root and the leaves report. -/
theorem recordsAt_eq_nil (hc : Contract good) (ho : OrderFree good) (hm : m.Wired)
    (h : Twin good m e c) (hmax : c.next ≠ .max) {x : Course} (hx : x.Covers c) {b : List Nat}
    (hroot : b ≠ []) (hleaf : ∀ a atom, m.atomAt? a = some atom → b ≠ [m.number a]) :
    (x.effect c.next c).recordsAt b = [] := by
  rw [Effect.recordsAt, List.map_eq_nil_iff, List.filter_eq_nil_iff]
  intro n hn hb
  have hpath := (h.step_alike hc ho hm hmax hx).signed' n hn
  rw [beq_iff_eq.mp hb] at hpath
  rcases b with _ | ⟨i, _ | ⟨j, b⟩⟩
  · exact hroot rfl
  · obtain ⟨l, hl, -⟩ := Option.map_eq_some_iff.mp hpath
    have hlt : i < m.atoms.length := by
      rw [← h.crew.sound.length_eq]
      exact (List.getElem?_eq_some_iff.mp hl).1
    obtain ⟨a, atom, ha, hnumber⟩ := m.exists_number hlt
    exact hleaf a atom ha (by rw [hnumber])
  · cases hpath

/-- **Two courses of a step are reported alike**, by every leaf and by the root. -/
theorem courses_alike (hc : Contract good) (ho : OrderFree good) (hm : m.Wired)
    (h : Twin good m e c) (hmax : c.next ≠ .max) {x y : Course} (hx : x.Covers c)
    (hy : y.Covers c) (b : List Nat) :
    List.Forall₂ Record.Alike ((x.effect c.next c).recordsAt b)
      ((y.effect c.next c).recordsAt b) := by
  by_cases hroot : b = []
  · obtain ⟨-, hfits, halike⟩ := h.outbox_alike hc hm (le_refl _) hx.routed
    obtain ⟨-, hfits', halike'⟩ := h.outbox_alike hc hm (le_refl _) hy.routed
    have hout : (c.routed c.next x.routed).outbox.Alike (c.routed c.next y.routed).outbox :=
      fun q => (halike q).symm.trans (halike' q)
    subst hroot
    rw [x.recordsAt_effect, y.recordsAt_effect]
    refine .cons ⟨rfl, rfl, rfl, rfl, rfl, rfl, Record.bagsOf_alike .output hout hfits hfits'⟩
      (.cons ?_ .nil)
    rw [Crew.advanceRecord, h.stepped_eq hc ho hm hmax hx.routed hy.routed]
    exact Record.alike_refl _
  · by_cases hleaf : ∃ a atom, m.atomAt? a = some atom ∧ b = [m.number a]
    · obtain ⟨a, atom, ha, rfl⟩ := hleaf
      exact forall₂_euclid (fun hr hr' => hr.euclid hr') ((h.step_alike hc ho hm hmax hx).leaf ha)
        ((h.step_alike hc ho hm hmax hy).leaf ha)
    · have hnot : ∀ a atom, m.atomAt? a = some atom → b ≠ [m.number a] :=
        fun a atom ha hb => hleaf ⟨a, atom, ha, hb⟩
      rw [h.recordsAt_eq_nil hc ho hm hmax hx hroot hnot,
        h.recordsAt_eq_nil hc ho hm hmax hy hroot hnot]
      exact .nil

end Twin

namespace Backend

/-! ### An engine in service stays so -/

section

omit [AtomicModel τ σ]

@[simp] theorem last_withInbox (b : Backend τ σ) (x : Bags τ) :
    (b.withInbox x).last = b.last := by
  cases b with
  | sequential e => exact Engine.last_withInbox e x
  | parallel c => rfl

@[simp] theorem next_withInbox (b : Backend τ σ) (x : Bags τ) :
    (b.withInbox x).next = b.next := by
  cases b with
  | sequential e => exact Engine.next_withInbox e x
  | parallel c => rfl

@[simp] theorem inbox_withInbox (b : Backend τ σ) (x : Bags τ) :
    (b.withInbox x).inbox = x := by
  cases b with
  | sequential e => exact congrArg Node.inbox (e.node_withInbox x)
  | parallel c => rfl

end

omit [AtomicModel τ σ] in
theorem cells_withInbox (b : Backend τ σ) (x : Bags τ) (a : List Nat) :
    (b.withInbox x).cells m a = b.cells m a := by
  cases b with
  | sequential e => exact congrFun (Engine.cells_withInbox x e) a
  | parallel c => rfl

/-- What waits at the root of an engine in service fits there. -/
theorem Serves.inbox {b : Backend τ σ} (h : b.Serves good m) :
    b.inbox.Fits m.interface.inputs := by
  cases b with
  | sequential e =>
      obtain ⟨e₀, x, -, -, hx, rfl⟩ := h
      rw [Backend.inbox, Engine.node_withInbox]
      exact hx
  | parallel c =>
      obtain ⟨-, e, htwin⟩ := h
      exact htwin.crew.sound.inbox

/-- Messages may be put in at any time. -/
theorem Serves.withInbox {b : Backend τ σ} (h : b.Serves good m) {x : Bags τ}
    (hx : x.Fits m.interface.inputs) : (b.withInbox x).Serves good m := by
  cases b with
  | sequential e =>
      obtain ⟨e₀, y, hlive, hquiet, -, rfl⟩ := h
      exact ⟨e₀, x, hlive, hquiet, hx, Engine.withInbox_withInbox y x e₀⟩
  | parallel c =>
      obtain ⟨ho, e, htwin⟩ := h
      exact ⟨ho, e, htwin.withInbox hx⟩

/-- **An injection is accepted** at a port that the root has. -/
theorem Serves.extend {b : Backend τ σ} (hm : m.Wired) (h : b.Serves good m) {i : Injection τ}
    (hi : i.port ∈ m.interface.inputs) {x : Bags τ}
    (hx : b.inbox.extend i.port i.values = .ok x) : x.Fits m.interface.inputs := by
  obtain ⟨_, hx', hfits⟩ := h.inbox.extend hm.distinct.inputs hi i.values
  cases hx.symm.trans hx'
  exact hfits

/-- **After a step** an engine is in service again, and nothing waits at its root. -/
theorem Step.serves {b b' : Backend τ σ} {x : Effect} (hc : Contract good) (hm : m.Wired)
    (h : b.Serves good m) (hs : b.Step x b') :
    b'.Serves good m ∧ b'.inbox = .ofPorts m.interface.inputs := by
  cases hs with
  | sequential event =>
      obtain ⟨e₀, x, hlive, hquiet, hx, rfl⟩ := h
      obtain ⟨hmail, -, hmoved⟩ := hlive.moved_mail hc hm hquiet hx
      have hfits := hmoved.sound.inbox
      have hnothing : ((e₀.shown e₀.next).moved e₀.next x.asMail).Quiet := Engine.quiet_moved _ _
      rw [Engine.next_withInbox, hmail]
      exact ⟨⟨_, _, hmoved, hnothing, hfits, (Engine.withInbox_self _).symm⟩,
        hfits.eq_ofPorts hnothing.inbox⟩
  | @parallel c event x hx =>
      obtain ⟨ho, e, htwin⟩ := h
      have hstepped := htwin.stepped hc ho hm event hx.routed
      exact ⟨⟨ho, _, hstepped⟩,
        hstepped.crew.sound.inbox.eq_ofPorts (htwin.isEmpty_stepped hc hm hx.routed)⟩

/-- **A step is reported** by the engines whose addresses the notes have. -/
theorem Step.signed {b b' : Backend τ σ} {x : Effect} (hc : Contract good) (hm : m.Wired)
    (h : b.Serves good m) (hs : b.Step x b') :
    ∀ n ∈ x.notes, b.pathAt? n.address = some n.record.path := by
  intro n hn
  cases hs with
  | sequential event =>
      obtain ⟨e₀, x, hlive, -, -, rfl⟩ := h
      rcases List.mem_append.mp hn with hn | hn
      · exact (Engine.attributed_showEffect _ _ hlive.windowed.withInbox (le_refl _)).signed n hn
      · have hsigned := (Engine.attributed_moveEffect _ _).signed n hn
        rw [Engine.pathAt_shown] at hsigned
        exact hsigned
  | @parallel c event x hx =>
      obtain ⟨ho, e, htwin⟩ := h
      exact (htwin.step_alike hc ho hm event hx).signed' n hn

/-- A step changes no path. -/
theorem Step.pathAt_eq {b b' : Backend τ σ} {x : Effect} (hs : b.Step x b') :
    b'.pathAt? = b.pathAt? := by
  funext a
  cases hs with
  | sequential event =>
      exact (Engine.pathAt_moved _).trans (Engine.pathAt_shown _)
  | @parallel c event x hx => exact Crew.pathAt_stepped _ _ c a

/-- **A step leads to one engine only**, with the same reports. -/
theorem Step.unique {b b' b'' : Backend τ σ} {x y : Effect} (hc : Contract good) (hm : m.Wired)
    (h : b.Serves good m) (hs : b.Step x b') (hs' : b.Step y b'') :
    b' = b'' ∧ b.SameReports x y := by
  have hsigned := hs.signed hc hm h
  have hsigned' := hs'.signed hc hm h
  cases hs with
  | sequential event =>
      cases hs'
      exact ⟨rfl, hsigned, hsigned', rfl⟩
  | @parallel c event x hx =>
      obtain ⟨ho, e, htwin⟩ := h
      cases hs' with
      | @parallel _ _ y hy =>
          exact ⟨congrArg _ (htwin.stepped_eq hc ho hm event hx.routed hy.routed),
            hsigned, hsigned', htwin.courses_alike hc ho hm event hx hy⟩

/-- **A step delivers what waits at the root** to the leaves, together with what they emit. -/
theorem Step.delivers {b b' : Backend τ σ} {x : Effect} (hc : Contract good) (hm : m.Wired)
    (h : b.Serves good m) (hs : b.Step x b') :
    m.Delivers b.next b.inbox (b.cells m) (b'.cells m) := by
  -- Every leaf steps as it does in the tree that has the messages of the root as mail.
  have hdelivers : ∀ {e : Engine τ σ} {x : Bags τ}, Engine.Live good m e → e.Quiet →
      x.Fits m.interface.inputs → e.next ≠ .max →
      m.Delivers e.next x e.cells ((e.shown e.next).moved e.next x.asMail).cells := by
    intro e x hlive hquiet hx hmax a atom ha
    obtain ⟨-, hshown, -⟩ := hlive.moved_mail hc hm hquiet hx
    obtain ⟨l, y, hl, -, hreceives, hafter⟩ :=
      hlive.exists_received hm hshown.sound hquiet hx (le_refl _) hmax ha
    exact ⟨l.cell, y, by rw [Engine.cells, hl, Option.map_some], hreceives, hafter⟩
  cases hs with
  | sequential event =>
      obtain ⟨e₀, x, hlive, hquiet, hx, rfl⟩ := h
      rw [Engine.next_withInbox] at event
      have hcells : (Backend.sequential (e₀.withInbox x)).cells m = e₀.cells :=
        Engine.cells_withInbox x e₀
      rw [hcells, Backend.inbox, Engine.node_withInbox, Backend.next, Engine.next_withInbox,
        (hlive.moved_mail hc hm hquiet hx).1]
      exact hdelivers hlive hquiet hx event
  | @parallel c event x hx =>
      obtain ⟨ho, e, htwin⟩ := h
      have hstepped := htwin.stepped hc ho hm event hx.routed
      rw [funext htwin.cells_eq, funext hstepped.cells_eq, Backend.next, htwin.next_eq]
      exact hdelivers htwin.engine htwin.quiet htwin.crew.sound.inbox (htwin.next_eq ▸ event)

/-! ## Histories as a whole -/

/-- **One history after the other.** -/
theorem Unfolds.append {b b₁ b₂ : Backend τ σ} {h h' : List (Occurrence τ)} {x y : Effect}
    (u : Unfolds m b h x b₁) (u' : Unfolds m b₁ h' y b₂) : Unfolds m b (h ++ h') (x ++ y) b₂ := by
  induction u with
  | nothing => exact u'
  | inject declared extended _ ih => exact .inject declared extended (ih u')
  | step first _ ih =>
      rw [Effect.append_assoc]
      exact .step first (ih u')

/-- An engine stays in service. -/
theorem Unfolds.serves {b b' : Backend τ σ} {h : List (Occurrence τ)} {x : Effect}
    (hc : Contract good) (hm : m.Wired) (u : Unfolds m b h x b') (hb : b.Serves good m) :
    b'.Serves good m := by
  induction u with
  | nothing => exact hb
  | inject declared extended _ ih => exact ih (hb.withInbox (hb.extend hm declared extended))
  | step first _ ih => exact ih (first.serves hc hm hb).1

/-- **What an engine goes through is what its history tells**: every message that waits at the
root is delivered in the next step. -/
theorem Unfolds.tells {b b' : Backend τ σ} {h : List (Occurrence τ)} {x : Effect}
    (hc : Contract good) (hm : m.Wired) (u : Unfolds m b h x b') (hb : b.Serves good m) :
    m.Tells (b.cells m) b.inbox h (b'.cells m) b'.inbox := by
  induction u with
  | nothing => exact .nothing
  | @inject b _ _ x _ _ declared extended _ ih =>
      have hrest := ih (hb.withInbox (hb.extend hm declared extended))
      rw [funext (b.cells_withInbox x), inbox_withInbox] at hrest
      exact .inject extended hrest
  | step first _ ih =>
      -- After the step nothing waits any more, so no message is delivered twice.
      obtain ⟨hserves, hinbox⟩ := first.serves hc hm hb
      have hrest := ih hserves
      rw [hinbox] at hrest
      exact .step (first.delivers hc hm hb) hrest

section

omit [AtomicModel τ σ]

theorem sameReports_nothing (b : Backend τ σ) : b.SameReports {} {} where
  signed _ hn := nomatch hn
  signed' _ hn := nomatch hn
  same := by
    cases b with
    | sequential e => exact rfl
    | parallel c => exact fun _ => .nil

theorem SameReports.append {b : Backend τ σ} {x x' y y' : Effect} (h : b.SameReports x y)
    (h' : b.SameReports x' y') : b.SameReports (x ++ x') (y ++ y') where
  signed n hn := (List.mem_append.mp hn).elim (h.signed n) (h'.signed n)
  signed' n hn := (List.mem_append.mp hn).elim (h.signed' n) (h'.signed' n)
  same := by
    cases b with
    | sequential e => exact congrArg₂ (· ++ ·) h.same h'.same
    | parallel c =>
        intro a
        rw [Effect.recordsAt_append, Effect.recordsAt_append]
        exact List.rel_append (h.same a) (h'.same a)

theorem pathAt_withInbox (b : Backend τ σ) (x : Bags τ) (a : List Nat) :
    (b.withInbox x).pathAt? a = b.pathAt? a := by
  cases b with
  | sequential e => exact Engine.pathAt_withInbox x e a
  | parallel c => rfl

/-- Reports are the same whatever waits at the root. -/
theorem SameReports.of_withInbox {b : Backend τ σ} {x : Bags τ} {y y' : Effect}
    (h : (b.withInbox x).SameReports y y') : b.SameReports y y' where
  signed n hn := (b.pathAt_withInbox x _).symm.trans (h.signed n hn)
  signed' n hn := (b.pathAt_withInbox x _).symm.trans (h.signed' n hn)
  same := by
    cases b with
    | sequential e => exact h.same
    | parallel c => exact h.same

end

/-- Nor does it matter whether they are compared before a step or after it. -/
theorem SameReports.of_step {b b' : Backend τ σ} {x y y' : Effect} (h : b'.SameReports y y')
    (hs : b.Step x b') : b.SameReports y y' where
  signed n hn := hs.pathAt_eq ▸ h.signed n hn
  signed' n hn := hs.pathAt_eq ▸ h.signed' n hn
  same := by
    cases hs with
    | sequential event => exact h.same
    | parallel event hx => exact h.same

/-- **There is one history up to a limit**, and it leads to one engine. Two courses that begin
with the same engine, take no step from the limit on, end before an event from the limit on,
and in which the same messages are put in between the same steps, are the same. -/
theorem Unfolds.unique {b b₁ b₂ : Backend τ σ} {h h' : List (Occurrence τ)} {x y : Effect}
    {limit : Instant} (hc : Contract good) (hm : m.Wired) (u : Unfolds m b h x b₁)
    (u' : Unfolds m b h' y b₂) (hb : b.Serves good m)
    (hbefore : ∀ t, .step t ∈ h → t < limit) (hbefore' : ∀ t, .step t ∈ h' → t < limit)
    (hend : limit ≤ b₁.next) (hend' : limit ≤ b₂.next)
    (hsame : ∀ n, injectedAfter h n = injectedAfter h' n) :
    h = h' ∧ b₁ = b₂ ∧ b.SameReports x y := by
  -- Both histories must go on in the same way: a message is put in at the same place, a step is
  -- determined by the engine, and neither history can end before a step below the limit.
  induction u generalizing h' y b₂ with
  | nothing =>
      cases u' with
      | nothing => exact ⟨rfl, rfl, sameReports_nothing _⟩
      | inject => exact nomatch hsame 0
      | step => exact absurd (hbefore' _ (by simp)) (not_lt.mpr hend)
  | @inject b _ i x h y declared extended rest ih =>
      cases u' with
      | nothing => exact nomatch hsame 0
      | step => exact nomatch hsame 0
      | @inject _ _ i' x' h' y' declared' extended' rest' =>
          obtain ⟨rfl, hfirst⟩ := List.cons.inj (hsame 0)
          cases extended.symm.trans extended'
          have hrest : ∀ n, injectedAfter h n = injectedAfter h' n := by
            intro n
            cases n with
            | zero => exact hfirst
            | succ n => exact hsame (n + 1)
          obtain ⟨rfl, rfl, hreports⟩ := ih rest' (hb.withInbox (hb.extend hm declared extended))
            (fun t ht => hbefore t (by simp [ht])) (fun t ht => hbefore' t (by simp [ht])) hend
            hend' hrest
          exact ⟨rfl, rfl, hreports.of_withInbox⟩
  | @step b b₁ _ h x y first rest ih =>
      cases u' with
      | nothing => exact absurd (hbefore _ (by simp)) (not_lt.mpr hend')
      | inject => exact nomatch hsame 0
      | step first' rest' =>
          obtain ⟨rfl, hnow⟩ := first.unique hc hm hb first'
          obtain ⟨rfl, rfl, hreports⟩ := ih rest' (first.serves hc hm hb).1
            (fun t ht => hbefore t (by simp [ht])) (fun t ht => hbefore' t (by simp [ht])) hend
            hend' fun n => hsame (n + 1)
          exact ⟨rfl, rfl, hnow.append (hreports.of_step first)⟩

end Backend

end DiscreteEvent
