/-
Workers who fail.

A worker who fails, in a duty or as the leader, makes a note of it before it goes to the next
barrier. So when all have passed that barrier everybody knows: from then on no duty is begun,
and the leader, who still closes the step, decides about no other (`Hall.Halted`). Until then
other workers may be doing the same duty, and those who have not looked yet may begin it.

Nothing gets lost: what a worker has noted is how it has failed (`Moves.captured`), and the
reason for which the run ends is the first fault that was noted, or the first refusal
(`Failure.stop_foldl`).
-/
import DiscreteEvent.Proofs.Flat.Barrier

set_option autoImplicit false

namespace DiscreteEvent

section

variable {δ κ : Type} {trade : Trade δ κ} {h h' : Hall δ κ} {deed : Option Deed}

/-! ## After a failure -/

theorem Failure.isSet_note (f : Failure) (stop : Stop) : (f.note stop).isSet = true := by
  cases stop with
  | violation v => cases hv : f.violation <;> simp [note, isSet, hv]
  | fault fault => cases hf : f.fault <;> simp [note, isSet, hf]

/-- What a worker may still do when somebody has failed after `g` barriers. -/
def Worker.Stopped (g : Nat) (w : Worker κ) : Prop :=
  match w.point with
  | .work _ _ => w.passed = g
  | .complete | .ask => False
  | .publish step => step = none
  | _ => True

/-- **Somebody has failed** after `g` barriers. It is noted, or will be before the next barrier,
and until then only the duty that was begun is done. -/
structure Hall.Halted (g : Nat) (h : Hall δ κ) : Prop where
  known : h.site.failure.isSet = true ∨
    ∃ (j : Nat) (v : Worker κ) (stop : Stop) (duty : Option Duty),
      h.workers[j]? = some v ∧ v.point = .caught stop duty ∧ v.passed = g
  each : ∀ (k : Nat) (w : Worker κ), h.workers[k]? = some w → w.Stopped g

/-- Whether only the leader is ever at a point, and only at the beginning of a round. -/
def Point.leads : Point κ → Bool
  | .report | .check | .complete | .ask | .publish _ => true
  | _ => false

theorem Worker.InPlace.of_leads {s : Site δ} {k : Nat} {w : Worker κ} (h : w.InPlace s k)
    (hleads : w.point.leads = true) : k = 0 ∧ w.passed % 4 = 0 ∧ w.passed = s.generation := by
  obtain ⟨point, p, t⟩ := w
  cases point <;> first | exact h | cases hleads

/-- Where a worker who has failed is. -/
theorem Worker.InPlace.of_caught {s : Site δ} {k : Nat} {w : Worker κ} {stop : Stop}
    {duty : Option Duty} (h : w.InPlace s k) (hpoint : w.point = .caught stop duty) :
    w.passed = s.generation ∧ (k = 0 ∨ w.passed % 4 ≠ 0) := by
  rw [InPlace, hpoint] at h
  cases duty with
  | none => exact ⟨h.2.2, .inl h.1⟩
  | some duty =>
      refine ⟨h.2.1, .inr ?_⟩
      rw [h.1]
      cases duty <;> decide

/-- While a failure is about to be noted the leader decides nothing. -/
theorem Hall.Ordered.not_leads (ho : h.Ordered) {j k : Nat} {v w : Worker κ} {stop : Stop}
    {duty : Option Duty} (hv : h.workers[j]? = some v) (hpoint : v.point = .caught stop duty)
    (hw : h.workers[k]? = some w) : w.point.leads = false := by
  by_contra hleads
  rw [Bool.not_eq_false] at hleads
  obtain ⟨rfl, hzero, hpassed⟩ := (ho.each k w hw).of_leads hleads
  obtain ⟨hsame, rfl | hduty⟩ := (ho.each j v hv).of_caught hpoint
  · rw [Option.some_inj.mp (hw.symm.trans hv), hpoint] at hleads
    cases hleads
  · omega

/-- **A worker fails**: from now on nobody begins anything. -/
theorem Hall.Ordered.halted (ho : h.Ordered) {j : Nat} {v : Worker κ} {stop : Stop}
    {duty : Option Duty} (hv : h.workers[j]? = some v) (hpoint : v.point = .caught stop duty) :
    h.Halted v.passed where
  known := .inr ⟨j, v, stop, duty, hv, hpoint, rfl⟩
  each k w hw := by
    have hleads := ho.not_leads hv hpoint hw
    have hplace := ho.each k w hw
    have hpassed := ((ho.each j v hv).of_caught hpoint).1
    obtain ⟨point, p, t⟩ := w
    cases point with
    | work duty rest => exact hplace.2.1.trans hpassed.symm
    | complete => cases hleads
    | ask => cases hleads
    | publish step => cases hleads
    | _ => trivial

theorem Gate.stopped_next (gate : Gate) (g k p : Nat) (t : Instant) :
    (⟨gate.next k, p, t⟩ : Worker κ).Stopped g := by
  rcases gate.next_cases (κ := κ) k with h | ⟨duty, h⟩ | h | h <;> rw [h] <;> trivial

section

variable {n k : Nat} {s s' : Site δ} {w w' : Worker κ}

/-- What is noted once stays noted. -/
theorem Act.isSet (ha : Act trade n k s w deed s' w') (hset : s.failure.isSet = true) :
    s'.failure.isSet = true := by
  cases ha with
  | note => exact s.failure.isSet_note _
  | _ => exact hset

/-- A worker who has failed makes a note of it, and does nothing else. -/
theorem Act.isSet_of_caught (ha : Act trade n k s w deed s' w') {stop : Stop}
    {duty : Option Duty} (hpoint : w.point = .caught stop duty) : s'.failure.isSet = true := by
  cases ha with
  | note => exact s.failure.isSet_note _
  | _ => cases hpoint

end

/-- What may be done when somebody has failed after `g` barriers: failures are noted, the step
is closed, and a duty that was begun before may be done to its end. -/
def Deed.Trailing (g : Nat) (d : Deed) : Prop :=
  d.kind = .capture ∨ d.kind = .report ∨ ∃ duty, d.kind = .duty duty ∧ d.passed = g

/-- What a worker does when somebody has failed, and what it may do next. -/
theorem Act.stopped {g k : Nat} {w w' : Worker κ} {s : Site δ}
    (ha : Act trade h.workers.length k h.site w deed s w') (ho : h.Ordered) (hh : h.Halted g)
    (hw : h.workers[k]? = some w) : w'.Stopped g ∧ ∀ d ∈ deed, d.Trailing g := by
  have hplace := ho.each k w hw
  have hstopped := hh.each k w hw
  cases ha with
  | @report p t d stop _ =>
      refine ⟨by cases stop <;> trivial, fun d hd => ?_⟩
      cases hd
      exact .inr (.inl rfl)
  | check =>
      -- The leader looks only when all others have made their notes.
      have hset : h.site.failure.isSet = true := by
        refine hh.known.resolve_right fun ⟨j, v, stop, duty, hv, hpoint, _⟩ => ?_
        cases ho.not_leads hv hpoint hw
      refine ⟨?_, nofun⟩
      rw [if_pos hset]
      rfl
  | complete _ => exact hstopped.elim
  | ask _ => exact hstopped.elim
  | publish => exact ⟨trivial, nofun⟩
  | arrive _ => exact ⟨trivial, nofun⟩
  | meet _ => exact ⟨Gate.stopped_next _ _ _ _ _, nofun⟩
  | resume _ => exact ⟨Gate.stopped_next _ _ _ _ _, nofun⟩
  | leave _ => exact ⟨trivial, nofun⟩
  | read _ => exact ⟨trivial, nofun⟩
  | skip _ => exact ⟨trivial, nofun⟩
  | enter hset =>
      -- The failure is not noted yet, so nobody has passed another barrier since.
      obtain ⟨j, v, stop, duty, hv, hpoint, hpassed⟩ :=
        hh.known.resolve_left (Bool.eq_false_iff.mp hset)
      have hsame := ((ho.each j v hv).of_caught hpoint).1
      exact ⟨hplace.2.1.trans (hsame.symm.trans hpassed), nofun⟩
  | turn _ =>
      refine ⟨hstopped, fun d hd => ?_⟩
      cases hd
      exact .inr (.inr ⟨_, rfl, hstopped⟩)
  | @finish p t duty rest d stop _ =>
      refine ⟨by cases stop <;> trivial, fun d hd => ?_⟩
      cases hd
      exact .inr (.inr ⟨_, rfl, hstopped⟩)
  | @note p t stop duty =>
      refine ⟨by cases duty <;> trivial, fun d hd => ?_⟩
      cases hd
      exact .inl rfl

/-- **Every move keeps what holds after a failure.** -/
theorem Move.halted {g : Nat} (hm : Move trade h deed h') (ho : h.Ordered) (hh : h.Halted g) :
    h'.Halted g ∧ ∀ d ∈ deed, d.Trailing g := by
  cases hm with
  | @act k w _ s w' hw ha =>
      obtain ⟨hself, htrailing⟩ := ha.stopped ho hh hw
      refine ⟨⟨?_, fun _ _ hv => ?_⟩, htrailing⟩
      · -- A failure that is not noted yet is still to be noted, unless this was the move.
        rcases hh.known with hset | ⟨j, v, stop, duty, hv, hpoint, hpassed⟩
        · exact .inl (ha.isSet hset)
        · by_cases hjk : k = j
          · subst hjk
            obtain rfl := Option.some_inj.mp (hw.symm.trans hv)
            exact .inl (ha.isSet_of_caught hpoint)
          · exact .inr ⟨j, v, stop, duty, (List.getElem?_set_ne hjk).trans hv, hpoint, hpassed⟩
      · exact of_getElem?_set (P := fun _ v => v.Stopped g) hself (fun j v _ => hh.each j v) hv

theorem Deed.exists_stop (d : Deed) (h : d.failure? ≠ none) : ∃ stop, d.stop = some stop := by
  rw [failure?] at h
  split at h
  · exact absurd rfl h
  · exact Option.ne_none_iff_exists'.mp h

/-- Something fails, and its worker is going to make a note of it. -/
theorem Move.halted_of_failure {d : Deed} (hm : Move trade h (some d) h') (ho : h.Ordered)
    (hfailure : d.failure? ≠ none) : h'.Halted d.passed := by
  have ho' := hm.ordered ho
  cases hm with
  | @act k w _ s w' hw ha =>
      have hk := (List.getElem?_eq_some_iff.mp hw).1
      have hself := List.getElem?_set_self (a := w') hk
      have hcaught : w'.passed = d.passed ∧ ∃ stop duty, w'.point = .caught stop duty := by
        obtain ⟨stop, hstop⟩ := d.exists_stop hfailure
        cases ha with
        | turn _ => cases hstop
        | note => exact absurd rfl hfailure
        | _ =>
            cases hstop
            exact ⟨rfl, stop, _, rfl⟩
      obtain ⟨hpassed, stop, duty, hpoint⟩ := hcaught
      exact hpassed ▸ ho'.halted hself hpoint

/-- **After a failure** nothing is done but what may be. -/
theorem Moves.after_failure {h₀ : Hall δ κ} {deeds : List Deed} (hm : Moves trade h₀ deeds h)
    (ho : h₀.Ordered) :
    ∀ {before after : List Deed} {d : Deed}, deeds = before ++ d :: after → d.failure? ≠ none →
      h.Halted d.passed ∧ ∀ e ∈ after, e.Trailing d.passed := by
  induction hm with
  | begin => exact fun hnil => by simp at hnil
  | @move deeds deed h h' hbefore last ih =>
      intro before after d hsplit hfailure
      have hordered := hbefore.ordered ho
      cases deed with
      | none =>
          rw [Option.toList_none, List.append_nil] at hsplit
          obtain ⟨hhalted, hafter⟩ := ih hsplit hfailure
          exact ⟨(last.halted hordered hhalted).1, hafter⟩
      | some x =>
          rcases List.eq_nil_or_concat after with rfl | ⟨after, y, rfl⟩
          · -- The last deed is the one that failed.
            obtain ⟨-, hx⟩ := List.append_inj' hsplit rfl
            obtain rfl := List.singleton_inj.mp hx
            exact ⟨last.halted_of_failure hordered hfailure, nofun⟩
          · rw [List.concat_eq_append, ← List.cons_append, ← List.append_assoc] at hsplit
            obtain ⟨hdeeds, hx⟩ := List.append_inj' hsplit rfl
            obtain rfl := List.singleton_inj.mp hx
            obtain ⟨hhalted, hafter⟩ := ih hdeeds hfailure
            obtain ⟨hhalted', htrailing⟩ := last.halted hordered hhalted
            refine ⟨hhalted', fun e he => ?_⟩
            rw [List.concat_eq_append, List.mem_append, List.mem_singleton] at he
            rcases he with he | rfl
            · exact hafter e he
            · exact htrailing _ rfl

/-! ## What is noted -/

/-- How a worker has failed, and has not yet noted. -/
def Worker.pending (w : Worker κ) : List Stop :=
  match w.point with
  | .caught stop _ => [stop]
  | _ => []

theorem Gate.pending_next (gate : Gate) (k p : Nat) (t : Instant) :
    (⟨gate.next k, p, t⟩ : Worker κ).pending = [] := by
  rcases gate.next_cases (κ := κ) k with h | ⟨duty, h⟩ | h | h <;> rw [h] <;> rfl

/-- All failures that were noted, in this order. -/
def noted (deeds : List Deed) : List Stop := deeds.filterMap Deed.capture?

/-- The failures of a worker. -/
def failedBy (k : Nat) (deeds : List Deed) : List Stop :=
  (deeds.filter (·.worker == k)).filterMap Deed.failure?

/-- The failures that a worker has noted. -/
def notedBy (k : Nat) (deeds : List Deed) : List Stop :=
  noted (deeds.filter (·.worker == k))

section

variable {n k : Nat} {s s' : Site δ} {w w' : Worker κ}

theorem Act.worker_eq {d : Deed} (ha : Act trade n k s w (some d) s' w') : d.worker = k := by
  cases ha <;> rfl

/-- A worker who fails has something to note until it has done so. -/
theorem Act.pending (ha : Act trade n k s w deed s' w') :
    w.pending ++ deed.toList.filterMap Deed.failure? = noted deed.toList ++ w'.pending := by
  cases ha with
  | @report p t d stop _ => cases stop <;> rfl
  | @complete p t d stop _ => cases stop <;> rfl
  | @ask p t d stop _ _ => cases stop <;> rfl
  | @finish p t duty rest d stop _ => cases stop <;> rfl
  | check => split <;> rfl
  | @meet p t gate _ | @resume p t gate _ _ =>
      rw [gate.pending_next]
      rfl
  | @note p t stop duty => cases duty <;> rfl
  | _ => rfl

end

/-- **A worker notes all its failures**, each before it does anything else. -/
theorem Moves.captured {h₀ : Hall δ κ} {deeds : List Deed} (hm : Moves trade h₀ deeds h)
    (hpending : ∀ w ∈ h₀.workers, w.pending = []) {k : Nat} {w : Worker κ}
    (hw : h.workers[k]? = some w) : failedBy k deeds = notedBy k deeds ++ w.pending := by
  induction hm generalizing w with
  | begin => rw [hpending w (List.mem_of_getElem? hw)]; rfl
  | @move deeds deed h h' hbefore last ih =>
      cases last with
      | @act j v _ s v' hv ha =>
          -- A deed is one of the worker who moves, and of no other.
          by_cases hjk : j = k
          · subst hjk
            rw [List.getElem?_set_self (List.getElem?_eq_some_iff.mp hv).1, Option.some_inj] at hw
            subst hw
            have hown : deed.toList.filter (·.worker == j) = deed.toList :=
              List.filter_eq_self.mpr fun d hd =>
                beq_iff_eq.mpr (Act.worker_eq (Option.mem_toList.mp hd ▸ ha))
            have hmine := ih hv
            rw [failedBy, notedBy] at hmine ⊢
            rw [List.filter_append, hown, List.filterMap_append, hmine, List.append_assoc,
              ha.pending, noted, noted, noted, List.filterMap_append, List.append_assoc]
          · rw [List.getElem?_set_ne hjk] at hw
            have hother : deed.toList.filter (·.worker == k) = [] := by
              refine List.filter_eq_nil_iff.mpr fun d hd => ?_
              rw [beq_iff_eq, Act.worker_eq (Option.mem_toList.mp hd ▸ ha)]
              exact hjk
            have hmine := ih hw
            rw [failedBy, notedBy] at hmine ⊢
            rw [List.filter_append, hother, List.append_nil]
            exact hmine

/-- **The record of failures** is what was noted. -/
theorem Moves.failure {h₀ : Hall δ κ} {deeds : List Deed} (hm : Moves trade h₀ deeds h) :
    h.site.failure = (noted deeds).foldl Failure.note h₀.site.failure := by
  induction hm with
  | begin => rfl
  | @move deeds deed h h' hbefore last ih =>
      rw [noted, List.filterMap_append, List.foldl_append]
      cases last with
      | act hw ha =>
          rw [noted] at ih
          rw [← ih]
          cases ha <;> rfl

/-- Whether a reason is a fault. -/
def Stop.isFault : Stop → Bool
  | .fault _ => true
  | .violation _ => false

/-- **The reason that counts** among several: the first fault, or if there is none the first
refusal. -/
def Stop.foremost (stops : List Stop) : Option Stop := stops.find? isFault <|> stops.head?

theorem Failure.fault_foldl (stops : List Stop) (f : Failure) :
    ((stops.foldl note f).fault.map Stop.fault)
      = (f.fault.map Stop.fault <|> stops.find? Stop.isFault) := by
  induction stops generalizing f with
  | nil => cases hf : f.fault <;> simp [hf]
  | cons stop stops ih =>
      rw [List.foldl_cons, ih]
      cases stop <;> cases hf : f.fault <;> simp [note, hf, List.find?_cons, Stop.isFault]

theorem Failure.violation_foldl (stops : List Stop) (f : Failure)
    (hstops : stops.find? Stop.isFault = none) :
    (stops.foldl note f).violation.map Stop.violation
      = (f.violation.map Stop.violation <|> stops.head?) := by
  induction stops generalizing f with
  | nil => cases hf : f.violation <;> simp [hf]
  | cons stop stops ih =>
      cases stop with
      | fault fault => cases hstops
      | violation v =>
          rw [List.foldl_cons, ih _ hstops]
          cases hf : f.violation <;> simp [note, hf]

/-- The reason for which a run ends is the one that counts among all that were noted. -/
theorem Failure.stop_foldl (stops : List Stop) :
    (stops.foldl note {}).stop = Stop.foremost stops := by
  have hfault := fault_foldl stops {}
  rw [stop, Stop.foremost]
  cases hfind : stops.find? Stop.isFault with
  | some stop =>
      rw [hfind] at hfault
      cases hf : (stops.foldl note {}).fault with
      | none =>
          rw [hf] at hfault
          cases hfault
      | some fault =>
          rw [hf] at hfault
          exact hfault
  | none =>
      rw [hfind] at hfault
      have hviolation := violation_foldl stops {} hfind
      cases hf : (stops.foldl note {}).fault with
      | none => exact hviolation
      | some fault =>
          rw [hf] at hfault
          cases hfault

/-! ## All workers together -/

/-- **What holds of the workers after any number of moves**, on the way and at the end. -/
structure Hall.InStep (trade : Trade δ κ) (deeds : List Deed) (h : Hall δ κ) : Prop where
  /-- There is no deadlock. -/
  progress : h.AllLeft ∨ ∃ deed h', Move trade h deed h'
  /-- Nobody passes more barriers than one who has left, and all who have left have passed
  equally many. -/
  barriers : ∀ v ∈ h.workers, ∀ w ∈ h.workers, w.point = .left →
    v.passed ≤ w.passed ∧ (v.point = .left → v.passed = w.passed)
  /-- After a failure the supervisor is not asked or told anything, and no duty is done but the
  one in which somebody failed, in its round. -/
  halted : ∀ (before after : List Deed) (d : Deed), deeds = before ++ d :: after →
    d.failure? ≠ none → ∀ e ∈ after, e.kind = .capture ∨ e.kind = .report ∨
      ∃ duty, d.kind = .duty duty ∧ e.kind = .duty duty ∧ e.round = d.round
  /-- Of all that is done in the run, before or after a failure, nothing belongs to a later round,
  or to a later duty of the round, but the notes of failures and the report of the step. -/
  latest : ∀ d ∈ deeds, d.failure? ≠ none → ∀ e ∈ deeds,
    e.kind = .capture ∨ e.kind = .report ∨ e.round < d.round ∨
      e.round = d.round ∧ ∀ duty, e.kind = .duty duty →
        ∃ duty', d.kind = .duty duty' ∧ duty.number ≤ duty'.number
  /-- A worker notes its failures, each before anything else. -/
  captured : ∀ (k : Nat) (w : Worker κ), h.workers[k]? = some w →
    failedBy k deeds = notedBy k deeds ++ w.pending
  /-- At the end the first fault counts that was noted, and if there is none the first
  refusal. Nothing is told only if nothing failed. -/
  told : h.AllLeft → h.site.failure.stop = Stop.foremost (noted deeds) ∧
    (h.site.failure.stop = none ↔ ∀ d ∈ deeds, d.failure? = none)

/-- What is done belongs to one of the workers, at its place in the round. -/
def Deed.InPlace (n : Nat) (d : Deed) : Prop :=
  d.worker < n ∧ match d.kind with
    | .duty duty => d.passed % 4 = duty.number
    | .capture => True
    | .report | .completed | .proceed => d.passed % 4 = 0

theorem Move.deed_inPlace {d : Deed} (hm : Move trade h (some d) h') (ho : h.Ordered) :
    d.InPlace h.workers.length := by
  cases hm with
  | @act k w _ s w' hw ha =>
      have hk := (List.getElem?_eq_some_iff.mp hw).1
      have hplace := ho.each k w hw
      cases ha with
      | report _ => exact ⟨hk, hplace.2.1⟩
      | complete _ => exact ⟨hk, hplace.2.1⟩
      | ask _ => exact ⟨hk, hplace.2.1⟩
      | turn _ => exact ⟨hk, hplace.1⟩
      | finish _ => exact ⟨hk, hplace.1⟩
      | note => exact ⟨hk, trivial⟩

theorem Moves.length {h₀ : Hall δ κ} {deeds : List Deed} (hm : Moves trade h₀ deeds h) :
    h.workers.length = h₀.workers.length := by
  induction hm with
  | begin => rfl
  | move _ last ih =>
      cases last with
      | act => exact List.length_set.trans ih

theorem Moves.deed_inPlace {h₀ : Hall δ κ} {deeds : List Deed} (hm : Moves trade h₀ deeds h)
    (ho : h₀.Ordered) : ∀ d ∈ deeds, d.InPlace h₀.workers.length := by
  induction hm with
  | begin => exact nofun
  | move hbefore last ih =>
      intro d hd
      rcases List.mem_append.mp hd with hd | hd
      · exact ih d hd
      · obtain rfl := Option.mem_toList.mp hd
        exact hbefore.length ▸ last.deed_inPlace (hbefore.ordered ho)

/-- Whoever does something has passed all barriers that were passed. -/
theorem Move.passed_eq {d : Deed} (hm : Move trade h (some d) h') (ho : h.Ordered) :
    d.passed = h.site.generation := by
  cases hm with
  | @act k w _ s w' hw ha =>
      have hplace := ho.each k w hw
      cases ha <;> exact hplace.passed_eq nofun

theorem Move.generation_le (hm : Move trade h deed h') :
    h.site.generation ≤ h'.site.generation := by
  cases hm with
  | act hw ha => cases ha <;> simp

/-- **Things are done in the order of the barriers.** -/
theorem Moves.pairwise_passed {h₀ : Hall δ κ} {deeds : List Deed} (hm : Moves trade h₀ deeds h)
    (ho : h₀.Ordered) : deeds.Pairwise (fun e d => e.passed ≤ d.passed) ∧
      ∀ e ∈ deeds, e.passed ≤ h.site.generation := by
  induction hm with
  | begin => exact ⟨.nil, nofun⟩
  | @move deeds deed h h' hbefore last ih =>
      obtain ⟨hpairwise, hle⟩ := ih
      have hgeneration := last.generation_le
      cases deed with
      | none =>
          rw [Option.toList_none, List.append_nil]
          exact ⟨hpairwise, fun e he => Nat.le_trans (hle e he) hgeneration⟩
      | some d =>
          -- The last thing is done in the present generation.
          have hpassed := last.passed_eq (hbefore.ordered ho)
          refine ⟨List.pairwise_append.mpr ⟨hpairwise, List.pairwise_singleton _ _,
            fun e he x hx => ?_⟩, fun e he => ?_⟩
          · rw [List.mem_singleton.mp hx, hpassed]
            exact hle e he
          · rcases List.mem_append.mp he with he | he
            · exact Nat.le_trans (hle e he) hgeneration
            · rw [List.mem_singleton.mp he, hpassed]
              exact hgeneration

/-- What is done after as many barriers as a failure, or after fewer, belongs to no later round,
and to no later duty. -/
theorem Deed.InPlace.not_later {n : Nat} {d e : Deed} (hd : d.InPlace n) (he : e.InPlace n)
    (hfailure : d.failure? ≠ none) (hpassed : e.passed ≤ d.passed) :
    e.round < d.round ∨ e.round = d.round ∧ ∀ duty, e.kind = .duty duty →
      ∃ duty', d.kind = .duty duty' ∧ duty.number ≤ duty'.number := by
  have hround : e.round ≤ d.round := Nat.div_le_div_right hpassed
  refine (Nat.lt_or_eq_of_le hround).imp_right fun hsame => ⟨hsame, fun duty hduty => ?_⟩
  have hplace := hd.2
  have hplace' := he.2
  have hpositive : duty.number ≠ 0 := by cases duty <;> decide
  rw [hduty] at hplace'
  rw [Deed.round, Deed.round] at hsame
  cases hkind : d.kind with
  | duty duty' =>
      rw [hkind] at hplace
      exact ⟨duty', rfl, by omega⟩
  | capture => rw [Deed.failure?, if_pos hkind] at hfailure; exact absurd rfl hfailure
  | report => rw [hkind] at hplace; omega
  | completed => rw [hkind] at hplace; omega
  | proceed => rw [hkind] at hplace; omega

theorem Stop.foremost_eq_none {stops : List Stop} : foremost stops = none ↔ stops = [] := by
  cases stops with
  | nil => exact ⟨fun _ => rfl, fun _ => rfl⟩
  | cons stop stops =>
      rw [foremost, List.head?_cons]
      cases (stop :: stops).find? isFault <;> simp

/-- If all have left and something had failed, it is told. -/
theorem Hall.Halted.told {g : Nat} (hh : h.Halted g) (hleft : h.AllLeft) :
    h.site.failure.stop ≠ none := by
  have hset : h.site.failure.isSet = true := by
    refine hh.known.resolve_right fun ⟨j, v, stop, duty, hv, hpoint, _⟩ => ?_
    rw [hleft v (List.mem_of_getElem? hv)] at hpoint
    cases hpoint
  generalize h.site.failure = f at hset
  obtain ⟨fault, violation⟩ := f
  cases fault with
  | some fault => exact nofun
  | none =>
      cases violation with
      | some violation => exact nofun
      | none => cases hset

/-- After a failure nothing is done but to note failures, to close the step, and the duty in which
somebody failed, in its round. -/
theorem Moves.halted {h₀ : Hall δ κ} {deeds : List Deed} (hm : Moves trade h₀ deeds h)
    (ho : h₀.Ordered) {before after : List Deed} {d : Deed} (hsplit : deeds = before ++ d :: after)
    (hd : d.failure? ≠ none) : ∀ e ∈ after, e.kind = .capture ∨ e.kind = .report ∨
      ∃ duty, d.kind = .duty duty ∧ e.kind = .duty duty ∧ e.round = d.round := by
  intro e he
  rcases (hm.after_failure ho hsplit hd).2 e he with hcapture | hreport | ⟨duty, hduty, hpassed⟩
  · exact .inl hcapture
  · exact .inr (.inl hreport)
  · -- As many barriers were passed, so both belong to one duty of one round.
    have hsame := hm.deed_inPlace ho
    have hde := (hsame e (hsplit ▸ List.mem_append_right _ (List.mem_cons_of_mem _ he))).2
    have hdd := (hsame d (hsplit ▸ List.mem_append_right _ (List.mem_cons_self ..))).2
    rw [hduty, hpassed] at hde
    refine .inr (.inr ⟨duty, ?_, hduty, congrArg (· / 4) hpassed⟩)
    have hnumber : duty.number ≠ 0 := by cases duty <;> decide
    cases hkind : d.kind with
    | duty x =>
        rw [hkind] at hdd
        exact congrArg Deed.Kind.duty (Duty.number_inj (hdd.symm.trans hde))
    | capture => rw [Deed.failure?, if_pos hkind] at hd; exact absurd rfl hd
    | report => rw [hkind] at hdd; exact absurd (hde.symm.trans hdd) hnumber
    | completed => rw [hkind] at hdd; exact absurd (hde.symm.trans hdd) hnumber
    | proceed => rw [hkind] at hdd; exact absurd (hde.symm.trans hdd) hnumber

/-- Of all that is done in a run, nothing is later than a failure but the notes and the report. -/
theorem Moves.latest {h₀ : Hall δ κ} {deeds : List Deed} (hm : Moves trade h₀ deeds h)
    (ho : h₀.Ordered) {d e : Deed} (hd : d ∈ deeds) (hfailure : d.failure? ≠ none)
    (he : e ∈ deeds) : e.kind = .capture ∨ e.kind = .report ∨ e.round < d.round ∨
      e.round = d.round ∧ ∀ duty, e.kind = .duty duty →
        ∃ duty', d.kind = .duty duty' ∧ duty.number ≤ duty'.number := by
  have hplaces := hm.deed_inPlace ho
  obtain ⟨before, after, hsplit⟩ := List.append_of_mem hd
  have horder := (hm.pairwise_passed ho).1
  rw [hsplit, List.pairwise_append] at horder
  have hcases : e ∈ before ∨ e = d ∨ e ∈ after := by simpa [hsplit] using he
  rcases hcases with hbefore | rfl | hafter
  · exact .inr (.inr ((hplaces d hd).not_later (hplaces e he) hfailure
      (horder.2.2 e hbefore d (List.mem_cons_self ..))))
  · exact .inr (.inr ((hplaces e hd).not_later (hplaces e he) hfailure (Nat.le_refl _)))
  · rcases hm.halted ho hsplit hfailure e hafter with h | h | ⟨duty, hdd, hde, hround⟩
    · exact .inl h
    · exact .inr (.inl h)
    · refine .inr (.inr (.inr ⟨hround, fun duty' hduty' => ⟨duty, hdd, ?_⟩⟩))
      cases hde.symm.trans hduty'
      exact Nat.le_refl _

/-- **Whatever the workers do, they stay in step.** -/
theorem Moves.inStep {h₀ : Hall δ κ} {deeds : List Deed} (hm : Moves trade h₀ deeds h)
    (ho : h₀.Ordered) (hpending : ∀ w ∈ h₀.workers, w.pending = [])
    (hfailure : h₀.site.failure = {}) : h.InStep trade deeds where
  progress := (hm.ordered ho).progress
  barriers v hv w hw hleft := by
    obtain ⟨j, hj⟩ := List.getElem?_of_mem hv
    obtain ⟨k, hk⟩ := List.getElem?_of_mem hw
    exact (hm.ordered ho).passed_left hj hk hleft
  halted _ _ _ hsplit hd := hm.halted ho hsplit hd
  latest _ hd hfailure _ he := hm.latest ho hd hfailure he
  captured k w hw := hm.captured hpending hw
  told hleft := by
    have hstop : h.site.failure.stop = Stop.foremost (noted deeds) := by
      rw [hm.failure, hfailure, Failure.stop_foldl]
    refine ⟨hstop, fun hnone d hd => ?_, fun hnone => ?_⟩
    · by_contra hfailed
      obtain ⟨before, after, hsplit⟩ := List.append_of_mem hd
      exact (hm.after_failure ho hsplit hfailed).1.told hleft hnone
    · rw [hstop, Stop.foremost_eq_none, noted, List.filterMap_eq_nil_iff]
      intro d hd
      -- What a worker has noted is how it has failed.
      have hk : d.worker < h.workers.length := hm.length ▸ (hm.deed_inPlace ho d hd).1
      have hmine := hm.captured hpending (List.getElem?_eq_getElem hk)
      have hfailed : failedBy d.worker deeds = [] :=
        List.filterMap_eq_nil_iff.mpr fun e he => hnone e (List.mem_filter.mp he).1
      rw [hfailed, eq_comm, List.append_eq_nil_iff, notedBy, noted,
        List.filterMap_eq_nil_iff] at hmine
      exact hmine.1 d (List.mem_filter.mpr ⟨hd, beq_self_eq_true _⟩)

end

end DiscreteEvent
