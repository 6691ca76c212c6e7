/-
Records and refusals: what comes out of a call.

An engine says something in two ways: it makes a record, or it refuses a call. There is a path
in both. `Outcome.Utters` says what a call has brought out since it began, and
`Outcome.Signed` that all of it is said under one path. To see which records are made, the
observer is one that files what it is given and passes all of it on to another one (`Filed`).

When one call follows another, each of them brings out its part (`Outcome.utters_then`), and
what is said on a walk is said in one of its calls (`Outcome.each_utters`). A leaf says
everything under its own path (`Leaf.signed_advance` and its like), wherever the model faults.
-/
import DiscreteEvent.Proofs.Engine.Paths

set_option autoImplicit false

namespace DiscreteEvent

variable {τ σ ω ε δ : Type}

/-! ## Records and refusals -/

/-- **What an engine says** of a call. -/
inductive Utterance
  | record (r : Record)
  | refusal (v : Violation)

/-- The path in it. -/
def Utterance.path : Utterance → String
  | record r => r.path
  | refusal v => v.model

/-- **An observer that files all records** it is given. -/
structure Filed (ω : Type) where
  self : ω
  records : List Record := []

instance [Observer ω] : Observer (Filed ω) where
  enabled o := ((Observer.enabled o.self).1, { o with self := (Observer.enabled o.self).2 })
  observe r o :=
    (⟨(Observer.observe r o.self).1, o.records ++ [r]⟩, (Observer.observe r o.self).2)
  announce e o := { o with self := Observer.announce e o.self }

/-- **Between two worlds** these records were made. -/
def World.Filing (w w' : World (Filed ω)) (rs : List Record) : Prop :=
  w'.observer.records = w.observer.records ++ rs

namespace World.Filing

variable {w w' w'' : World (Filed ω)} {rs rs' : List Record}

theorem nil (h : w'.observer = w.observer) : w.Filing w' [] := by
  rw [Filing, h, List.append_nil]

theorem trans (h : w.Filing w' rs) (h' : w'.Filing w'' rs') : w.Filing w'' (rs ++ rs') := by
  rw [Filing, h', h, List.append_assoc]

/-- The file is in the observer. -/
theorem congr (h : w.Filing w' rs) (hw : w.observer = w''.observer) : w''.Filing w' rs := by
  rw [Filing, ← hw]
  exact h

theorem eq (h : w.Filing w' rs) (h' : w.Filing w' rs') : rs = rs' :=
  List.append_cancel_left (h.symm.trans h')

end World.Filing

/-- A call that came to its end was not refused, -/
theorem Stop.none_ne_violation (v : Violation) : (none : Option Stop) ≠ some (.violation v) := nofun

/-- nor was one that was broken off. -/
theorem Stop.fault_ne_violation {f : Fault} (v : Violation) :
    some (Stop.fault f) ≠ some (.violation v) := nofun

namespace Outcome

variable {p : String} {w : World (Filed ω)} {o : Outcome ε (Filed ω)} {x : Utterance}

/-- **What a call has brought out** that began in `w`: the records made since then, and the
refusal with which it stopped. -/
inductive Utters (w : World (Filed ω)) (o : Outcome ε (Filed ω)) : Utterance → Prop
  | record {rs : List Record} {r : Record} (since : w.Filing o.world rs) (h : r ∈ rs) :
      Utters w o (.record r)
  | refusal {v : Violation} (h : o.stop = some (.violation v)) : Utters w o (.refusal v)

/-- **One call after another**: the first one came to its end, and what it has brought out is
part of what both of them have. -/
theorem utters_then {o' : Outcome δ (Filed ω)} {v : World (Filed ω)} {rs rs' : List Record}
    (hs : o.stop = none) (h : w.Filing o.world rs) (hv : v.observer = o.world.observer)
    (h' : v.Filing o'.world rs') : o'.Utters w x ↔ o.Utters w x ∨ o'.Utters v x := by
  have hfiled : w.Filing v rs := by
    rw [World.Filing, hv]
    exact h
  constructor
  · rintro (⟨since, hr⟩ | hstop)
    · rcases List.mem_append.mp (since.eq (hfiled.trans h') ▸ hr) with hr | hr
      · exact .inl (.record h hr)
      · exact .inr (.record h' hr)
    · exact .inr (.refusal hstop)
  · rintro ((⟨since, hr⟩ | hstop) | (⟨since, hr⟩ | hstop))
    · exact .record (hfiled.trans h') (List.mem_append_left _ (since.eq h ▸ hr))
    · exact absurd (hs.symm.trans hstop) (Option.some_ne_none _).symm
    · exact .record (hfiled.trans since) (List.mem_append_right _ hr)
    · exact .refusal hstop

theorem utters_congr {v : World (Filed ω)} (h : v.observer = w.observer) :
    o.Utters v x ↔ o.Utters w x := by
  constructor <;> rintro (⟨since, hr⟩ | hv)
  · exact .record (since.congr h) hr
  · exact .refusal hv
  · exact .record (since.congr h.symm) hr
  · exact .refusal hv

theorem utters_map {f : ε → δ} : (o.map f).Utters w x ↔ o.Utters w x := by
  constructor <;> rintro (⟨since, hr⟩ | hv)
  · exact .record since hr
  · exact .refusal hv
  · exact .record since hr
  · exact .refusal hv

/-- **All is said under one path**, in a call that began in `w`. -/
structure Signed (p : String) (w : World (Filed ω)) (o : Outcome ε (Filed ω)) : Prop where
  records : ∃ rs, w.Filing o.world rs ∧ ∀ r ∈ rs, r.path = p
  refusal : ∀ v, o.stop = some (.violation v) → v.model = p

theorem Signed.exists_filing (h : o.Signed p w) : ∃ rs, w.Filing o.world rs :=
  h.records.imp fun _ h => h.1

theorem Signed.path_eq (h : o.Signed p w) (hx : o.Utters w x) : x.path = p := by
  cases hx with
  | record since hr =>
      obtain ⟨rs, hrs, hpath⟩ := h.records
      exact hpath _ (since.eq hrs ▸ hr)
  | refusal hv => exact h.refusal _ hv

theorem Signed.map (h : o.Signed p w) (f : ε → δ) : (o.map f).Signed p w := ⟨h.records, h.refusal⟩

theorem Signed.andThen (h : o.Signed p w) {next : ε → World (Filed ω) → Outcome ε (Filed ω)}
    (hnext : (next o.state o.world).Signed p o.world) : (o.andThen next).Signed p w := by
  cases hs : o.stop with
  | some stop =>
      rw [andThen_of_stop hs]
      exact h
  | none =>
      rw [andThen_of_done hs]
      obtain ⟨rs, hrs, hpath⟩ := h.records
      obtain ⟨rs', hrs', hpath'⟩ := hnext.records
      exact ⟨⟨rs ++ rs', hrs.trans hrs',
        fun r hr => (List.mem_append.mp hr).elim (hpath r) (hpath' r)⟩, hnext.refusal⟩

/-- Where nothing is observed and nothing refused, nothing is said. -/
theorem not_utters_of_silent (hw : o.world.observer = w.observer)
    (hs : ∀ v, o.stop ≠ some (.violation v)) : ¬o.Utters w x := by
  rintro (⟨since, hr⟩ | hv)
  · exact absurd (since.eq (.nil hw) ▸ hr) List.not_mem_nil
  · exact hs _ hv

/-- A call that was refused says so, and nothing else. -/
theorem utters_refused {s : ε} {v : Violation} :
    (refused s w v).Utters w x ↔ x = .refusal v := by
  constructor
  · rintro (⟨since, hr⟩ | hv)
    · exact absurd (since.eq (.nil rfl) ▸ hr) List.not_mem_nil
    · cases hv
      rfl
  · rintro rfl
    exact .refusal rfl

theorem signed_of_silent (hw : o.world.observer = w.observer)
    (hs : ∀ v, o.stop ≠ some (.violation v)) : o.Signed p w :=
  ⟨⟨[], .nil hw, fun _ h => absurd h List.not_mem_nil⟩, fun v h => absurd h (hs v)⟩

theorem signed_done (s : ε) (w : World (Filed ω)) : (done s w).Signed p w :=
  signed_of_silent rfl Stop.none_ne_violation

theorem signed_refused (s : ε) (w : World (Filed ω)) {v : Violation} (h : v.model = p) :
    (refused s w v).Signed p w := by
  refine ⟨⟨[], .nil rfl, fun _ hr => absurd hr List.not_mem_nil⟩, fun v' hv => ?_⟩
  cases hv
  exact h

/-- **A report** is made under the path it is given. -/
theorem signed_report [Observer ω] (s : ε) (w : World (Filed ω)) (phase : Phase) (p : String)
    (t last next : Instant) (state : Option (Except Fault String)) (bags : List BagRecord) :
    Signed p w (⟨s, (w.report phase p t last next state bags).1,
      (w.report phase p t last next state bags).2.map .fault⟩ : Outcome ε (Filed ω)) := by
  refine ⟨?_, fun v hv => ?_⟩
  · have hsame : (Observer.enabled w.observer).2.records = w.observer.records := rfl
    have hnone : ∀ r ∈ ([] : List Record), r.path = p := fun _ h => absurd h List.not_mem_nil
    have hone : ∀ {r r' : Record}, r' ∈ [r] → r.path = p → r'.path = p := by
      intro r r' h hp
      rw [List.mem_singleton.mp h]
      exact hp
    unfold World.report
    generalize Observer.enabled w.observer = wanted at hsame
    obtain ⟨enabled, o⟩ := wanted
    cases enabled with
    | false => exact ⟨[], hsame.trans (List.append_nil _).symm, hnone⟩
    | true =>
        cases state with
        | none => exact ⟨_, congrArg (· ++ _) hsame, fun r hr => hone hr rfl⟩
        | some state =>
            cases state with
            | ok text => exact ⟨_, congrArg (· ++ _) hsame, fun r hr => hone hr rfl⟩
            | error fault => exact ⟨[], hsame.trans (List.append_nil _).symm, hnone⟩
  · obtain ⟨_, -, hf⟩ := Option.map_eq_some_iff.mp hv
    cases hf

end Outcome

/-! ## What is said on a walk -/

namespace Outcome

variable {call : Nat → ε → World (Filed ω) → Outcome ε (Filed ω)} {es : List ε} {x : Utterance}

theorem eq_done {o : Outcome ε ω} (h : o.stop = none) : o = done o.state o.world := by
  rw [done, ← h]

theorem map_eq_done {f : ε → δ} {o : Outcome ε ω} {s : δ} {w : World ω} :
    o.map f = done s w ↔ ∃ s', o = done s' w ∧ f s' = s := by
  constructor
  · obtain ⟨s', w', stop⟩ := o
    intro h
    cases h
    exact ⟨s', rfl, rfl⟩
  · rintro ⟨s', rfl, rfl⟩
    rfl

theorem andThen_eq_resume (o : Outcome ε ω) (next : ε → World ω → Outcome ε ω) :
    o.andThen next = o.resume id next := by
  obtain ⟨s, w, stop⟩ := o
  cases stop <;> rfl

/-- A walk ends with the first call that stops, -/
theorem each_of_stop {rest : Nat → List ε → List ε} {i : Nat} {e : ε} {w : World (Filed ω)}
    {stop : Stop} (hs : (call i e w).stop = some stop) :
    each call rest i (e :: es) w = (call i e w).map (· :: rest (i + 1) es) := by
  simp only [each, hs]

/-- and goes on behind one that comes to its end. -/
theorem each_of_go {rest : Nat → List ε → List ε} {i : Nat} {e : ε} {w : World (Filed ω)}
    (hs : (call i e w).stop = none) :
    each call rest i (e :: es) w
      = (each call rest (i + 1) es (call i e w).world).map ((call i e w).state :: ·) := by
  simp only [each, hs]

/-- What follows a call files more, or nothing if there was a stop. -/
theorem exists_filing_resume {o : Outcome ε (Filed ω)} {w : World (Filed ω)} {wrap : ε → δ}
    {next : ε → World (Filed ω) → Outcome δ (Filed ω)} (h : ∃ rs, w.Filing o.world rs)
    (h' : ∃ rs, o.world.Filing (next o.state o.world).world rs) :
    ∃ rs, w.Filing (o.resume wrap next).world rs := by
  obtain ⟨rs, hrs⟩ := h
  obtain ⟨rs', hrs'⟩ := h'
  unfold resume
  split
  · exact ⟨rs, hrs⟩
  · exact ⟨rs ++ rs', hrs.trans hrs'⟩

/-- A walk files what its calls do. -/
theorem exists_filing_each (rest : Nat → List ε → List ε)
    (hcall : ∀ j, ∀ e ∈ es, ∀ w : World (Filed ω), ∃ rs, w.Filing (call j e w).world rs) :
    ∀ (i : Nat) (w : World (Filed ω)), ∃ rs, w.Filing (each call rest i es w).world rs := by
  induction es with
  | nil => exact fun _ _ => ⟨[], .nil rfl⟩
  | cons e es ih =>
      intro i w
      obtain ⟨rs, hrs⟩ := hcall i e (by simp) w
      obtain ⟨rs', hrs'⟩ := ih (fun j e he => hcall j e (List.mem_cons_of_mem _ he)) (i + 1)
        (call i e w).world
      cases hs : (call i e w).stop with
      | some stop =>
          rw [each_of_stop hs]
          exact ⟨rs, hrs⟩
      | none =>
          rw [each_of_go hs]
          exact ⟨rs ++ rs', hrs.trans hrs'⟩

/-- **Behind a walk** something follows, which has more to say if the walk comes to its end. -/
theorem utters_resume {o : Outcome ε (Filed ω)} {w : World (Filed ω)} {rs rs' : List Record}
    {wrap : ε → δ} {next : ε → World (Filed ω) → Outcome δ (Filed ω)} (h : w.Filing o.world rs)
    (h' : o.world.Filing (next o.state o.world).world rs') :
    (o.resume wrap next).Utters w x
      ↔ o.Utters w x ∨ o.stop = none ∧ (next o.state o.world).Utters o.world x := by
  unfold resume
  cases hs : o.stop with
  | some stop =>
      rw [utters_map]
      exact ⟨.inl, fun hx => hx.elim id fun hx => absurd hx.1 (Option.some_ne_none _)⟩
  | none =>
      rw [utters_then hs h rfl h']
      exact or_congr_right (and_iff_right rfl).symm

/-- What becomes of those behind a call that stops is no matter where none does. -/
theorem each_of_done {rest : Nat → List ε → List ε} (rest' : Nat → List ε → List ε) :
    ∀ {i : Nat} {w : World (Filed ω)}, (each call rest i es w).stop = none →
      each call rest' i es w = each call rest i es w := by
  induction es with
  | nil => exact fun _ => rfl
  | cons e es ih =>
      intro i w h
      cases hs : (call i e w).stop with
      | some stop =>
          rw [each_of_stop hs] at h
          exact absurd (hs.symm.trans h) (Option.some_ne_none _)
      | none =>
          rw [each_of_go hs] at h ⊢
          rw [each_of_go hs, ih h]

/-- **What is said on a walk** is said in a call on one of the elements, when those in front of
it have been called. -/
theorem each_utters {rest : Nat → List ε → List ε}
    (hcall : ∀ j, ∀ e ∈ es, ∀ w : World (Filed ω), ∃ rs, w.Filing (call j e w).world rs) :
    ∀ {i : Nat} {w : World (Filed ω)}, (each call rest i es w).Utters w x ↔
      ∃ j e es' w', es[j]? = some e ∧ each call (fun _ => id) i (es.take j) w = done es' w' ∧
        (call (i + j) e w').Utters w' x := by
  induction es with
  | nil =>
      intro i w
      constructor
      · rintro (⟨since, hr⟩ | hv)
        · exact absurd (since.eq (.nil rfl) ▸ hr) List.not_mem_nil
        · cases hv
      · rintro ⟨j, e, -, -, he, -⟩
        cases he
  | cons e es ih =>
      intro i w
      obtain ⟨rs, hrs⟩ := hcall i e (by simp) w
      obtain ⟨rs', hrs'⟩ := exists_filing_each rest
        (fun j e he => hcall j e (List.mem_cons_of_mem _ he)) (i + 1) (call i e w).world
      have ih := ih (fun j e he => hcall j e (List.mem_cons_of_mem _ he)) (i := i + 1)
        (w := (call i e w).world)
      cases hs : (call i e w).stop with
      | some stop =>
          -- The walk is over, so nobody else is called.
          rw [each_of_stop hs, utters_map]
          refine ⟨fun hx => ⟨0, e, [], w, rfl, rfl, hx⟩, ?_⟩
          rintro ⟨j, e', es', w', he', hwalk, hx⟩
          cases j with
          | zero =>
              cases he'
              cases hwalk
              exact hx
          | succ j =>
              rw [List.take_succ_cons, each_of_stop hs] at hwalk
              have hdone : (call i e w).stop = none := congrArg Outcome.stop hwalk
              exact absurd (hs.symm.trans hdone) (Option.some_ne_none _)
      | none =>
          rw [each_of_go hs, utters_map, utters_then hs hrs rfl hrs', ih]
          constructor
          · rintro (hx | ⟨j, e', es', w', he', hwalk, hx⟩)
            · exact ⟨0, e, [], w, rfl, rfl, hx⟩
            · refine ⟨j + 1, e', (call i e w).state :: es', w', he', ?_, ?_⟩
              · rw [List.take_succ_cons, each_of_go hs, hwalk]
                rfl
              · rwa [Nat.add_assoc, Nat.add_comm 1] at hx
          · rintro ⟨j, e', es', w', he', hwalk, hx⟩
            cases j with
            | zero =>
                cases he'
                cases hwalk
                exact .inl hx
            | succ j =>
                rw [List.take_succ_cons, each_of_go hs] at hwalk
                obtain ⟨es'', hwalk, -⟩ := map_eq_done.mp hwalk
                rw [Nat.add_comm j, ← Nat.add_assoc] at hx
                exact .inr ⟨j, e', es'', w', he', hwalk, hx⟩

end Outcome

/-! ## What a leaf says -/

theorem Node.model_refuseCollect [MessageType τ] {n : Node τ} {t : Instant} {v : Violation}
    (h : n.refuseCollect t = some v) : v.model = n.path := by
  unfold refuseCollect at h
  split at h
  · cases h
    rfl
  · split at h <;> cases h
    rfl

theorem Node.model_refuseAdvance [MessageType τ] {n : Node τ} {t : Instant} {v : Violation}
    (h : n.refuseAdvance t = some v) : v.model = n.path := by
  unfold refuseAdvance at h
  split at h
  · cases h
    rfl
  · split at h <;> cases h
    rfl

namespace Leaf

variable [MessageType τ] {p : String} {l : Leaf τ σ}

theorem signed_absorb {α : Type} (l : Leaf τ σ) (r : Reply σ α) (w : World (Filed ω)) :
    (l.absorb r w).Signed p w := by
  refine Outcome.signed_of_silent (World.observer_heed w r) fun v hv => ?_
  obtain ⟨_, -, hf⟩ := Option.map_eq_some_iff.mp hv
  cases hf

variable [AtomicModel τ σ]

theorem signed_reschedule (l : Leaf τ σ) (t : Instant) (w : World (Filed ω)) :
    (l.reschedule t w).Signed p w := by
  unfold reschedule
  exact Outcome.Signed.andThen (signed_absorb _ _ w) (Outcome.signed_done _ _)

theorem signed_fireExternal (h : l.path = p) (t since : Instant) (w : World (Filed ω)) :
    (l.fireExternal t since w).Signed p w := by
  unfold fireExternal
  split
  · exact Outcome.signed_refused _ _ h
  · split
    · exact Outcome.signed_of_silent rfl Stop.fault_ne_violation
    · exact signed_absorb _ _ w

theorem signed_fire (h : l.path = p) (t : Instant) (w : World (Filed ω)) :
    (l.fire t w).Signed p w := by
  unfold fire
  split
  · split
    · exact signed_absorb _ _ w
    · refine Outcome.Signed.andThen (signed_absorb _ _ w) (signed_fireExternal ?_ t t _)
      exact h
  · exact signed_fireExternal h t _ w

variable [Observer ω]

theorem signed_report (h : l.path = p) (phase : Phase) (t : Instant) (bags : List BagRecord)
    (w : World (Filed ω)) : (l.report phase t bags w).Signed p w := by
  subst h
  exact Outcome.signed_report l w phase l.path t _ _ _ bags

theorem signed_init (h : l.path = p) (t : Instant) (w : World (Filed ω)) :
    (l.init t w).Signed p w := by
  refine Outcome.Signed.andThen (signed_reschedule l t w) (signed_report ?_ .init t [] _)
  exact (l.path_reschedule t w).trans h

theorem signed_collect (h : l.path = p) (t : Instant) (w : World (Filed ω)) :
    (l.collect t w).Signed p w := by
  unfold collect
  split
  · rename_i v hv
    exact Outcome.signed_refused _ _ ((Node.model_refuseCollect hv).trans h)
  · split
    · rename_i hdue
      unfold emit
      rw [if_pos hdue]
      refine Outcome.Signed.andThen (signed_absorb _ _ w) (signed_report ?_ .collect t _ _)
      exact h
    · exact Outcome.signed_done _ _

theorem signed_advance (h : l.path = p) (t : Instant) (w : World (Filed ω)) :
    (l.advance t w).Signed p w := by
  unfold advance
  split
  · rename_i v hv
    exact Outcome.signed_refused _ _ ((Node.model_refuseAdvance hv).trans h)
  · dsimp only
    split
    · exact Outcome.signed_done _ _
    · refine Outcome.Signed.andThen (signed_fire ?_ t w) ?_
      · exact h
      refine Outcome.Signed.andThen (signed_reschedule _ t _) ?_
      refine Outcome.Signed.andThen (signed_report ?_ .advance t _ _) (Outcome.signed_done _ _)
      exact ((path_reschedule _ t _).trans (kept_fire _ t w).path).trans h

end Leaf

end DiscreteEvent
