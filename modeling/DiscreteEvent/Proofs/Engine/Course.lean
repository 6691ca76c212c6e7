/-
The record of a whole run.

An observer that always wants records is given one for every call that had an effect, and
none besides. A `Course` is what happens to an engine from its initialization on: messages
are put into the root, and there are steps at any times inside of the window, in one and the
same world, so that the records of all of them pile up in one observer. Each step is a
`Passage` from one tree over another to a third.

`Passage.Logged` says what a step adds: the collections first, then the advances, each of them
as in the tables of `Records`; and the leaves that report an advance because of their input
are those to which messages lead along the couplings. `Course.log` puts the blocks in a
row, by induction on the course, and `Course.run` says that a run under a supervisor only
makes a course longer.
-/
import DiscreteEvent.Proofs.Engine.Ledger
import DiscreteEvent.Proofs.Engine.Records
import DiscreteEvent.Proofs.Flat.Runs

set_option autoImplicit false

namespace DiscreteEvent

variable {τ σ ω π : Type} [MessageType τ]

/-! ## Observers that always want records -/

namespace Observer

variable [Observer ω]

/-- The observer is enabled whenever it is asked. -/
def AlwaysOn (ω : Type) [Observer ω] : Prop := ∀ o : ω, (Observer.enabled o).1 = true

/-- **The observer after records were given to it**, one after the other. -/
def given (o : ω) (records : List Record) : ω :=
  records.foldl (fun o r => (Observer.observe r (Observer.enabled o).2).1) o

theorem given_append (o : ω) (rs rs' : List Record) :
    given o (rs ++ rs') = given (given o rs) rs' := List.foldl_append

/-- An effect gives its records to an observer that always wants them. -/
theorem given_after (hon : AlwaysOn ω) (w : World ω) (x : Effect) :
    (w.after x).observer = given w.observer (x.notes.map (·.record)) := by
  show x.notes.foldl (fun o n => take o n.record) w.observer = _
  rw [given, List.foldl_map]
  congr 1
  funext o n
  rw [take, if_pos (hon o)]

end Observer

theorem Recorder.alwaysOn : Observer.AlwaysOn Recorder := fun _ => rfl

/-- A recorder appends what it is given. -/
theorem Recorder.records_given (o : Recorder) (rs : List Record) :
    (Observer.given o rs).records = o.records ++ rs.toArray := by
  induction rs generalizing o with
  | nil => simp [Observer.given]
  | cons r rs ih =>
      have h := ih (Observer.observe r (Observer.enabled o).2).1
      rw [Observer.given, List.foldl_cons]
      refine h.trans ?_
      show o.records.push r ++ rs.toArray = _
      simp

/-! ## Courses -/

/-- A step, with the trees before it, between its two calls, and after it. -/
structure Passage (τ σ : Type) [MessageType τ] where
  time : Instant
  before : Engine τ σ
  between : Engine τ σ
  after : Engine τ σ

namespace Engine

variable [AtomicModel τ σ] [Observer ω]

/-- **What happens to an engine of `m`** that is initialized at `t₀` in the world `w₀`. The
indices are the tree that the initialization leads to, the steps since then, the tree they
lead to, and the world there. -/
inductive Course (m : Model τ σ) (t₀ : Instant) (w₀ : World ω) (start : Engine τ σ) :
    List (Passage τ σ) → Engine τ σ → World ω → Prop
  | init {x : Bags τ} (hx : x.Fits m.interface.inputs)
      (hstart : (((ofModel m).withInbox x).init t₀ w₀).state = start) :
      Course m t₀ w₀ start [] start (((ofModel m).withInbox x).init t₀ w₀).world
  | inject {ps : List (Passage τ σ)} {e : Engine τ σ} {w : World ω} {port : Port τ}
      (values : List (MessageType.Value port.type)) (h : Course m t₀ w₀ start ps e w)
      (hd : port ∈ m.interface.inputs) :
      Course m t₀ w₀ start ps (e.perform w (.inject port values)).state
        (e.perform w (.inject port values)).world
  /-- The signal to interrupt a run comes and goes. -/
  | signal {ps : List (Passage τ σ)} {e : Engine τ σ} {w w' : World ω}
      (h : Course m t₀ w₀ start ps e w) (hw : w'.observer = w.observer) :
      Course m t₀ w₀ start ps e w'
  | step {ps : List (Passage τ σ)} {e : Engine τ σ} {w : World ω} {t : Instant}
      {o o' : Outcome (Engine τ σ) ω} (h : Course m t₀ w₀ start ps e w) (hl : e.last ≤ t)
      (ht : t ≤ e.next) (hmax : t ≠ .max) (hcollect : e.collect t w = o)
      (hadvance : o.state.advance t o.world = o') :
      Course m t₀ w₀ start (ps ++ [⟨t, e, o.state, o'.state⟩]) o'.state o'.world

/-! ## What is written down of a step -/

end Engine

/-- **A note that makes sense**: the window of the record is not empty, and it has a text of
a state just if the engine is that of an atomic model of `m`. -/
structure Note.Proper (m : Model τ σ) (n : Note) : Prop where
  window : n.record.last ≤ n.record.next
  text : n.record.state.isSome = (m.atomAt? n.address).isSome

/-- **What is written down of a passage**: its collections, and after them its advances. A
leaf advances on the messages that are led to it. -/
structure Passage.Logged [AtomicModel τ σ] (m : Model τ σ) (p : Passage τ σ)
    (collects advances : List Note) : Prop where
  first : Reported (Engine.showEntry p.time p.before p.between) collects
  second : Reported (Engine.moveEntry p.time [] p.between p.after) advances
  received : ∀ {a : List Nat} {atom : Atomic τ σ}, m.atomAt? a = some atom →
    ∃ l, p.between.metAt? [] a = some (.leaf l) ∧
      m.Receives p.time p.before.node.inbox p.before.cells a atom.interface l.inbox
  proper : ∀ n ∈ collects ++ advances, n.Proper m

/-! ### Notes that make sense -/

omit [MessageType τ] in
/-- The notes of a table make sense if its entries do. -/
theorem Reported.proper {m : Model τ σ} {entry : List Nat → Option Record} {notes : List Note}
    (h : Reported entry notes)
    (hentry : ∀ {a : List Nat} {r : Record}, entry a = some r → Note.Proper m ⟨a, r⟩) :
    ∀ n ∈ notes, n.Proper m := fun _ hn => hentry (h.entry_eq hn)

namespace Engine

variable [AtomicModel τ σ] {good : Interface τ → Stage → σ → Prop} {m : Model τ σ}

/-- The leaves of a sound tree have texts, and its hubs have none. -/
theorem Sound.isSome_text [Observer ω] (ha : Attended ω good) (hon : Observer.AlwaysOn ω)
    (o : ω) {e c : Engine τ σ} {a : List Nat} (hs : Sound good m e)
    (hc : e.engineAt? a = some c) : c.text?.isSome = (m.atomAt? a).isSome := by
  cases hatom : m.atomAt? a with
  | none =>
      have hleaf := hs.exists_leaf.2 hatom
      cases c with
      | leaf l => cases hleaf.symm.trans (leafAt_eq_some_iff.mpr hc)
      | hub h es => rfl
  | some atom =>
      obtain ⟨l, hl, hsound⟩ := hs.exists_leaf.1 hatom
      cases hc.symm.trans (leafAt_eq_some_iff.mp hl)
      obtain ⟨_, hg⟩ := hsound.exists_good
      obtain ⟨text, htext⟩ := ha.legible o (hon o) hg
      rw [text?, htext]
      rfl

variable [Observer ω] {e : Engine τ σ} {t : Instant}

theorem proper_startEntry (ha : Attended ω good) (hon : Observer.AlwaysOn ω) (o : ω)
    (hs : Sound good m e) (hat : At t e) {a : List Nat} {r : Record}
    (hr : startEntry t e a = some r) : Note.Proper m ⟨a, r⟩ := by
  obtain ⟨s, hs', rfl⟩ := Option.map_eq_some_iff.mp hr
  exact ⟨le_trans hat.le_next (hat.windowed.engineAt hs').2, hs.isSome_text ha hon o hs'⟩

theorem proper_showEntry (ha : Attended ω good) (hon : Observer.AlwaysOn ω) (o : ω)
    {e' : Engine τ σ} (hw : e.Windowed) (hs : Sound good m e') {a : List Nat} {r : Record}
    (hr : showEntry t e e' a = some r) : Note.Proper m ⟨a, r⟩ := by
  unfold showEntry at hr
  split at hr
  · rename_i b s hb hs'
    split at hr
    · rename_i hdue
      cases hr
      refine ⟨?_, hs.isSome_text ha hon o hs'⟩
      show b.last ≤ t
      rw [← hdue]
      exact (hw.engineAt hb).1.last_le_next
    · cases hr
  · cases hr

theorem proper_moveEntry (ha : Attended ω good) (hon : Observer.AlwaysOn ω) (o : ω)
    {e' : Engine τ σ} {mail : List (Delivery τ)} (hat : At t e') (hs : Sound good m e')
    {a : List Nat} {r : Record} (hr : moveEntry t mail e e' a = some r) :
    Note.Proper m ⟨a, r⟩ := by
  unfold moveEntry at hr
  split at hr
  · rename_i b s _ hs'
    split at hr
    · cases hr
      exact ⟨le_trans hat.le_next (hat.windowed.engineAt hs').2, hs.isSome_text ha hon o hs'⟩
    · cases hr
  · cases hr

/-! ### Messages that are led to a leaf -/

omit [AtomicModel τ σ] [Observer ω] in
/-- Mail for the root is as good as messages in its inbox. -/
theorem metAt_receive (mail : List (Delivery τ)) (a : List Nat) (e : Engine τ σ) :
    (e.receive mail).metAt? [] a = e.metAt? mail a := by
  cases a with
  | nil => cases e <;> rfl
  | cons i a => cases e <;> rfl

omit [AtomicModel τ σ] [Observer ω] in
/-- An engine without messages that receives what is in some bags has it in its inbox. -/
theorem receive_asMail {x : Bags τ} {ports : List (Port τ)} (hin : e.node.inbox = .ofPorts ports)
    (hx : x.Fits ports) : e.receive x.asMail = e.withInbox x := by
  have hmail := hx.foldl_asMail
  rw [← hin] at hmail
  cases e with
  | leaf l =>
      rw [receive, Leaf.receive, Node.receive, show l.toNode = (leaf l).node from rfl, hmail]
      rfl
  | hub h es =>
      rw [receive, Hub.receive, Node.receive, show h.toNode = (hub h es).node from rfl, hmail]
      rfl

omit [Observer ω] in
/-- **A leaf finds in its inbox what is led to it**, when messages were at the root only. -/
theorem Live.received (hm : m.Wired) (h : Live good m e) (h' : Sound good m (e.shown t))
    (hq : e.Quiet) {x : Bags τ} (hx : x.Fits m.interface.inputs) (ht : t ≤ e.next)
    (hmax : t ≠ .max) {a : List Nat} {atom : Atomic τ σ} (hatom : m.atomAt? a = some atom) :
    ∃ l, ((e.withInbox x).shown t).metAt? [] a = some (.leaf l) ∧
      m.Receives t x e.cells a atom.interface l.inbox := by
  obtain ⟨l, hl, -⟩ := h.sound.exists_leaf.1 hatom
  have hshown : (e.shown t).leafAt? a = some (l.shown t) := by
    rw [shown_leafAt h.windowed ht, hl, Option.map_some]
  have hg := gathered_shown t e hm h.sound hq
  obtain ⟨y, hturn, hy, hsum⟩ := exists_turnAt _ hm h' hg hx.addressed_asMail hatom hshown
  refine ⟨{ l.shown t with inbox := y }, ?_, hy, fun q hlt => ?_⟩
  · rw [shown_withInbox, ← receive_asMail (h'.inbox.eq_ofPorts hg.inbox) hx, metAt_receive]
    exact turnAt_eq_some_iff.mp hturn
  · rw [hsum q hlt]
    exact reaching_eq_inflow h.sound h.windowed hq ht hmax hx _

/-! ## One step -/

/-- **No messages but at the root** of a live tree. -/
def AtRest (good : Interface τ → Stage → σ → Prop) (m : Model τ σ) (e : Engine τ σ) : Prop :=
  ∃ e₀ x, Live good m e₀ ∧ e₀.Quiet ∧ x.Fits m.interface.inputs ∧ e = e₀.withInbox x

omit [AtomicModel τ σ] [Observer ω] in
theorem AtRest.live (h : AtRest good m e) : Live good m e := by
  obtain ⟨e₀, x, hlive, -, hx, rfl⟩ := h
  exact hlive.withInbox hx

omit [AtomicModel τ σ] [Observer ω] in
theorem AtRest.withInbox (h : AtRest good m e) {x : Bags τ} (hx : x.Fits m.interface.inputs) :
    AtRest good m (e.withInbox x) := by
  obtain ⟨e₀, y, hlive, hq, -, rfl⟩ := h
  exact ⟨e₀, x, hlive, hq, hx, withInbox_withInbox y x e₀⟩

/-- **A step and what is written down of it.** -/
theorem AtRest.step (hc : Contract good) (ha : Attended ω good) (hon : Observer.AlwaysOn ω)
    (hm : m.Wired) (h : AtRest good m e) (hl : e.last ≤ t) (ht : t ≤ e.next) (hmax : t ≠ .max)
    (w : World ω) :
    ∃ c e' w' w'', e.collect t w = .done c w' ∧ c.advance t w' = .done e' w'' ∧
      AtRest good m e' ∧
      ∃ collects advances, Passage.Logged m ⟨t, e, c, e'⟩ collects advances ∧
        w''.observer = Observer.given w.observer ((collects ++ advances).map (·.record)) := by
  obtain ⟨hcollect, hshown, hsame⟩ := h.live.collect hc ha hm ht w
  have hl' : (e.shown t).last ≤ t := by
    rw [hsame.last]
    exact hl
  have ht' : t ≤ (e.shown t).next := by
    rw [hsame.next]
    exact ht
  obtain ⟨hadvance, hmoved, hat⟩ := hshown.advance hc ha hm hl' ht' (w.after (e.showEffect t))
  refine ⟨_, _, _, _, hcollect, hadvance, ?_, (e.showEffect t).notes,
    ((e.shown t).moveEffect t []).notes, ?_, ?_⟩
  · exact ⟨_, _, hmoved, quiet_moved _ _, hmoved.sound.inbox, (withInbox_self _).symm⟩
  · -- The tables are those of the trees before, between and after the two calls.
    have hfirst := reported_showEffect hmax e h.live.windowed ht
    have hsecond : Reported (moveEntry t [] (e.shown t) ((e.shown t).moved t []))
        ((e.shown t).moveEffect t []).notes := reported_moveEffect hmax _
    refine ⟨hfirst, hsecond, fun hatom => ?_, fun n hn => ?_⟩
    · obtain ⟨e₀, x, hlive, hq, hx, rfl⟩ := h
      rw [next_withInbox] at ht
      obtain ⟨-, hshown₀, -⟩ := hlive.collect hc ha hm ht w
      obtain ⟨l, hmet, hreceives⟩ := hlive.received hm hshown₀.sound hq hx ht hmax hatom
      refine ⟨l, hmet, ?_⟩
      rw [node_withInbox, cells_withInbox]
      exact hreceives
    · rcases List.mem_append.mp hn with hn | hn
      · exact hfirst.proper
          (proper_showEntry ha hon w.observer h.live.windowed hshown.sound) n hn
      · exact hsecond.proper (proper_moveEntry ha hon w.observer hat hmoved.sound) n hn
  · rw [Observer.given_after hon, Observer.given_after hon, List.map_append,
      Observer.given_append]

/-! ## Whole courses -/

variable {t₀ : Instant} {w₀ : World ω} {start : Engine τ σ} {ps : List (Passage τ σ)}
  {w : World ω}

/-- **What is written down of an initialization** at `t₀` that leads to `start`. -/
structure Opened (m : Model τ σ) (t₀ : Instant) (start : Engine τ σ) (opening : List Note) :
    Prop where
  everybody : Reported (startEntry t₀ start) opening
  proper : ∀ n ∈ opening, n.Proper m

/-- **The log of a course**, block by block. -/
theorem Course.log (hc : Contract good) (ha : Attended ω good) (hon : Observer.AlwaysOn ω)
    (hm : m.Wired) (hg : m.AllGood good) (h : Course m t₀ w₀ start ps e w) :
    AtRest good m e ∧ ∃ (opening : List Note) (blocks : List (List Note × List Note)),
      Opened m t₀ start opening ∧
      List.Forall₂ (fun p b => Passage.Logged m p b.1 b.2) ps blocks ∧
      w.observer = Observer.given w₀.observer
        ((opening ++ blocks.flatMap fun b => b.1 ++ b.2).map (·.record)) := by
  induction h with
  | @init x hx hstart =>
      obtain ⟨heq, hlive, hat⟩ := ((sound_ofModelBelow hg none).withInbox hx).init hc ha t₀ w₀
      rw [ofModel, heq] at hstart ⊢
      subst hstart
      have hfirst := reported_startEffect t₀ ((ofModelBelow none m).withInbox x)
      refine ⟨?_, _, [], ⟨hfirst, hfirst.proper (proper_startEntry ha hon w₀.observer
        hlive.sound hat)⟩, .nil, ?_⟩
      · obtain ⟨-, hlive₀, -⟩ := (sound_ofModelBelow hg none).init hc ha t₀ w₀
        exact ⟨_, x, hlive₀, (quiet_ofModelBelow hg none).started t₀, hx, started_withInbox t₀ x _⟩
      · rw [List.flatMap_nil, List.append_nil]
        exact Observer.given_after hon w₀ _
  | @inject ps e w port values h hd ih =>
      obtain ⟨hrest, hlog⟩ := ih
      obtain ⟨x, hx, hfits⟩ := hrest.live.sound.inbox.extend hm.distinct.inputs hd values
      simp only [Engine.perform, hx]
      exact ⟨hrest.withInbox hfits, hlog⟩
  | signal h hw ih =>
      rw [hw]
      exact ih
  | @step ps e w t o o' h hl ht hmax hcollect hadvance ih =>
      obtain ⟨hrest, opening, blocks, hopened, hblocks, hobserver⟩ := ih
      -- The step adds a block to the log, and no other block changes.
      obtain ⟨c, e', w', w'', hcollect', hadvance', hrest', collects, advances, hlogged, hgiven⟩ :=
        hrest.step hc ha hon hm hl ht hmax w
      cases hcollect.symm.trans hcollect'
      cases hadvance.symm.trans hadvance'
      refine ⟨hrest', opening, blocks ++ [(collects, advances)], hopened,
        List.rel_append hblocks (.cons hlogged .nil), ?_⟩
      show w''.observer = _
      rw [hgiven, hobserver, ← Observer.given_append, ← List.map_append, List.flatMap_append,
        List.flatMap_singleton, List.append_assoc]

/-- **A run only makes a course longer**, by a step for each decision to go on. -/
theorem Course.run [Supervisor π] (hc : Contract good) (ha : Attended ω good)
    (hon : Observer.AlwaysOn ω) (hm : m.Wired) (hg : m.AllGood good) (hp : Supervisor.Calm π)
    (hh : Supervisor.Halting π) {n : Nat} :
    ∀ {ps : List (Passage τ σ)} {e : Engine τ σ} {p : π} {w : World ω}
      {o : Outcome (Engine τ σ × π) ω}, Course m t₀ w₀ start ps e w → e.run n p w = some o →
      ∃ more, Course m t₀ w₀ start (ps ++ more) o.state.1 o.world := by
  induction n with
  | zero => exact fun _ ho => nomatch ho
  | succ n ih =>
      intro ps e p w o h ho
      have hasked := h.signal (w.observer_heed (Supervisor.proceed e.next w.interrupted p))
      simp only [Engine.run, hp.proceed, hp.completed] at ho
      split at ho
      · rename_i hgo
        have hmax : e.next ≠ .max := by
          intro hmax
          rw [hmax, hh.halt] at hgo
          cases hgo
        -- The step comes to its end, so the run goes on from where it leads.
        obtain ⟨hrest, -⟩ := h.log hc ha hon hm hg
        obtain ⟨c, e', w', w'', hcollect, hadvance, -⟩ := hrest.step hc ha hon hm
          hrest.live.windowed.last_le_next (le_refl _) hmax
          (w.heed (Supervisor.proceed e.next w.interrupted p))
        have hstep := hasked.step hrest.live.windowed.last_le_next (le_refl _) hmax hcollect
          hadvance
        simp only [Engine.step, hcollect, Outcome.andThen_done, hadvance] at ho
        obtain ⟨more, hcourse⟩ := ih (hstep.signal (World.observer_heed _ _)) ho
        rw [List.append_assoc] at hcourse
        exact ⟨_, hcourse⟩
      · cases ho
        refine ⟨[], ?_⟩
        rw [List.append_nil]
        exact hasked

/-- **The log is the list of effective calls.** An observer that always wants records is
given, in this order, one record by every engine of its initialization; and then for each
step the collections of the engines whose next event is at that time, and the advances of
all hubs and of the leaves that are due or have input. In each of these groups an engine
reports after those below it. And however long a run goes on from there, what it adds are
steps of this kind. -/
theorem log_effective_calls (hacc : m.Accepted) (hc : Contract good) (ha : Attended ω good)
    (hon : Observer.AlwaysOn ω) (hg : m.AllGood good) (h : Course m t₀ w₀ start ps e w) :
    (∃ (opening : List Note) (blocks : List (List Note × List Note)),
      Opened m t₀ start opening ∧
      List.Forall₂ (fun p b => Passage.Logged m p b.1 b.2) ps blocks ∧
      w.observer = Observer.given w₀.observer
        ((opening ++ blocks.flatMap fun b => b.1 ++ b.2).map (·.record))) ∧
    ∀ {π : Type} [Supervisor π], Supervisor.Calm π → Supervisor.Halting π →
      ∀ (n : Nat) (p : π) (o : Outcome (Engine τ σ × π) ω), e.run n p w = some o →
        ∃ more, Course m t₀ w₀ start (ps ++ more) o.state.1 o.world :=
  ⟨(h.log hc ha hon hacc.wired hg).2,
    fun hp hh _ _ _ ho => h.run hc ha hon hacc.wired hg hp hh ho⟩

/-- A tower of doublers makes its first step, with a message at the root that reaches two
doublers at the time of their events. -/
theorem log_effective_calls_tower :
    let w₀ : World Recorder := ⟨{}, false⟩
    let o := ((ofModel Doubler.tower).withInbox (.ofPorts [Doubler.add])).init .epoch w₀
    let o₁ := o.state.perform o.world (.inject Doubler.add [(5 : UInt64)])
    let t : Instant := ⟨2, 0, by decide⟩
    let o₂ := o₁.state.collect t o₁.world
    let o₃ := o₂.state.advance t o₂.world
    let p : Passage Payload Doubler := ⟨t, o₁.state, o₂.state, o₃.state⟩
    (Doubler.tower.Accepted ∧ Doubler.tower.AllGood Doubler.Good ∧ Observer.AlwaysOn Recorder ∧
      Course Doubler.tower .epoch w₀ o.state [p] o₃.state o₃.world) ∧
    ∃ (opening : List Note) (blocks : List (List Note × List Note)),
      Opened Doubler.tower .epoch o.state opening ∧
      List.Forall₂ (fun p b => Passage.Logged Doubler.tower p b.1 b.2) [p] blocks ∧
      o₃.world.observer.records
        = ((opening ++ blocks.flatMap fun b => b.1 ++ b.2).map (·.record)).toArray := by
  intro w₀ o o₁ t o₂ o₃ p
  have hl : o₁.state.last ≤ t := by decide +kernel
  have ht : t ≤ o₁.state.next := by decide +kernel
  have hmax : t ≠ .max := by decide +kernel
  have hinit : Course Doubler.tower .epoch w₀ o.state [] o.state o.world :=
    .init (Bags.fits_ofPorts _) rfl
  have hinject : Course Doubler.tower .epoch w₀ o.state [] o₁.state o₁.world :=
    .inject _ hinit (List.mem_singleton_self _)
  have hstep : Course Doubler.tower .epoch w₀ o.state [p] o₃.state o₃.world :=
    .step hinject hl ht hmax rfl rfl
  obtain ⟨opening, blocks, hopening, hblocks, hobserver⟩ :=
    (log_effective_calls Doubler.accepted_tower Doubler.contract Doubler.attended_recorder
      Recorder.alwaysOn Doubler.allGood_tower hstep).1
  refine ⟨⟨Doubler.accepted_tower, Doubler.allGood_tower, Recorder.alwaysOn, hstep⟩, opening,
    blocks, hopening, hblocks, ?_⟩
  rw [hobserver, Recorder.records_given]
  exact Array.empty_append

end Engine

end DiscreteEvent
