/-
Scheduling, whatever the arithmetic of time is made of.

An engine schedules with a checked sum, an instant and a span giving an instant or nothing, and
tells its model the time that has gone by since the last transition. Who provides these two
operations promises that they are exact: a sum or a difference is given with its exact count, and
it is refused only where there is none (`ChecksSums`, `MeasuresElapsed`). Nothing else is used
of them, and everything about scheduling follows (`schedule_exact`): the time of the next event
is the exact sum, cut off at the last instant.

The promises can be kept on the words that instants and spans consist of. A span may have more
seconds than a signed word can hold; as a signed word these are negative, and a sum may wrap on
its way to a result that is right. `sumOnWords?` tells the sums that leave the range by the
seconds having gone back, since no span goes round the whole circle of words.
`differenceOnWords?` borrows a second where the nanoseconds want it, and lets the difference of
the seconds wrap: read without a sign, it is right for any two instants, the two ends of the
range included.
-/
import DiscreteEvent.Proofs.Time.Order
import Mathlib.Algebra.Order.Ring.Int

set_option autoImplicit false

namespace DiscreteEvent

/-! ## Words with and without a sign -/

theorem toInt_toInt64 (n : UInt64) : n.toInt64.toInt = (n.toNat : Int).bmod (2 ^ 64) := by
  rw [Int64.toInt, UInt64.toBitVec_toInt64, BitVec.toInt_eq_toNat_bmod]
  rfl

theorem toNat_toUInt64 (n : Int64) : (n.toUInt64.toNat : Int) = n.toInt % 2 ^ 64 := by
  have hmod : (n.toUInt64.toNat : Int).bmod (2 ^ 64) % ((2 ^ 64 : Nat) : Int)
      = (n.toUInt64.toNat : Int) % ((2 ^ 64 : Nat) : Int) := Int.bmod_emod
  have hsigned : n.toInt = (n.toUInt64.toNat : Int).bmod (2 ^ 64) :=
    BitVec.toInt_eq_toNat_bmod n.toBitVec
  have hlt := n.toUInt64.toNat_lt
  rw [← hsigned] at hmod
  omega

/-- **A sum of words** is the exact one, or it is smaller by the whole circle. -/
theorem toInt_add_toInt64 (a : Int64) (n : UInt64) :
    (a + n.toInt64).toInt
      = if a.toInt + n.toNat < 2 ^ 63 then a.toInt + n.toNat else a.toInt + n.toNat - 2 ^ 64 := by
  have hlow := a.le_toInt
  have hhigh := a.toInt_lt
  have hn := n.toNat_lt
  rw [Int64.toInt_add, toInt_toInt64, Int.add_bmod_bmod, Int.bmod]
  split <;> split <;> omega

/-- **A difference of words** is exact when it is read without a sign. -/
theorem toNat_toUInt64_sub {a b : Int64} (h : b ≤ a) :
    ((a - b).toUInt64.toNat : Int) = a.toInt - b.toInt := by
  have ha := a.toInt_lt
  have hb := b.le_toInt
  have hle := Int64.le_iff_toInt_le.mp h
  have hmod : (a.toInt - b.toInt).bmod (2 ^ 64) % ((2 ^ 64 : Nat) : Int)
      = (a.toInt - b.toInt) % ((2 ^ 64 : Nat) : Int) := Int.bmod_emod
  rw [toNat_toUInt64, Int64.toInt_sub]
  omega

/-- The next word, where there is one. -/
theorem toInt_add_one {a : Int64} (h : a.toInt ≠ 2 ^ 63 - 1) : (a + 1).toInt = a.toInt + 1 := by
  have hhigh := a.toInt_lt
  have hnext := toInt_add_toInt64 a 1
  rw [if_pos (by simp only [UInt64.toNat_one]; omega)] at hnext
  exact hnext

/-- The word before, where there is one. -/
theorem toInt_sub_one {a : Int64} (h : a ≠ Int64.minValue) : (a - 1).toInt = a.toInt - 1 := by
  have hlow := a.le_toInt
  have hhigh := a.toInt_lt
  rw [ne_eq, ← Int64.toInt_inj, Int64.toInt_minValue] at h
  rw [Int64.toInt_sub, Int64.toInt_one, Int.bmod]
  split <;> omega

namespace Instant

/-! ## Exact counts -/

/-- The instant with a given count. -/
theorem ofTicks?_eq_some {n : Int} {t : Instant} (h : t.ticks = n) : ofTicks? n = some t := by
  have hb := t.ticks_bounds
  rw [h] at hb
  rw [ofTicks?, if_pos hb, Option.some_inj]
  exact ticks_injective ((ticks_ofTicks hb.1 hb.2).trans h.symm)

theorem add?_eq_some_iff {t r : Instant} {d : Span} :
    t.add? d = some r ↔ r.ticks = t.ticks + d.ticks := by
  refine ⟨fun h => ?_, ofTicks?_eq_some⟩
  rw [add?, ofTicks?] at h
  split at h
  case isTrue hr =>
    rw [← Option.some_inj.mp h, ticks_ofTicks hr.1 hr.2]
  case isFalse => cases h

/-- The time that has gone by is the span of its exact count. -/
theorem since?_eq_some {s t : Instant} {d : Span} (h : t.ticks = s.ticks + d.ticks) :
    t.since? s = some d := by
  have hle : s ≤ t := by
    rw [le_def]
    omega
  have hticks := ticks_elapsed hle
  rw [since?_of_le hle, Option.some_inj]
  exact Span.ticks_injective (by omega)

theorem since?_eq_none_iff {s t : Instant} : t.since? s = none ↔ t < s := by
  rw [since?]
  split
  case isTrue h => exact ⟨nofun, fun hlt => absurd h (not_le.mpr hlt)⟩
  case isFalse h => exact ⟨fun _ => not_le.mp h, fun _ => rfl⟩

/-! ## What is promised of the arithmetic -/

/-- **What is promised of a checked sum**: it has the exact count, and it is refused only where
no instant has. -/
structure ChecksSums (checkedAdd : Instant → Span → Option Instant) : Prop where
  sum : ∀ {t r : Instant} {d : Span}, checkedAdd t d = some r → r.ticks = t.ticks + d.ticks
  overflow : ∀ {t : Instant} {d : Span}, checkedAdd t d = none →
    ∀ r : Instant, r.ticks ≠ t.ticks + d.ticks

/-- **What is promised of the time since an instant**: it has the exact count, and it is refused
only where that instant is the later one, or no span has this count. -/
structure MeasuresElapsed (durationSince : Instant → Instant → Option Span) : Prop where
  difference : ∀ {t s : Instant} {d : Span}, durationSince t s = some d →
    t.ticks = s.ticks + d.ticks
  refused : ∀ {t s : Instant}, durationSince t s = none →
    t < s ∨ ∀ d : Span, t.ticks ≠ s.ticks + d.ticks

variable {checkedAdd : Instant → Span → Option Instant}
  {durationSince : Instant → Instant → Option Span}

/-- The promise leaves nothing open: the sum is the one that the engines use. -/
theorem ChecksSums.eq_add? (h : ChecksSums checkedAdd) (t : Instant) (d : Span) :
    checkedAdd t d = t.add? d := by
  cases hsum : checkedAdd t d with
  | some r => exact (add?_eq_some_iff.mpr (h.sum hsum)).symm
  | none =>
      cases hexact : t.add? d with
      | none => rfl
      | some r => exact absurd (add?_eq_some_iff.mp hexact) (h.overflow hsum r)

theorem ChecksSums.scheduleBy_eq (h : ChecksSums checkedAdd) (last : Instant)
    (ta : Option Span) : last.scheduleBy checkedAdd ta = last.schedule ta := by
  rw [schedule, scheduleBy, scheduleBy, funext (h.eq_add? last)]

/-- **No difference of two instants is too long for a span**, so it is refused only where they
are the other way round. -/
theorem MeasuresElapsed.eq_elapsed (h : MeasuresElapsed durationSince) {s t : Instant}
    (hle : s ≤ t) : durationSince t s = some (s.elapsed t) := by
  have hticks := ticks_elapsed hle
  cases hsince : durationSince t s with
  | some d =>
      have hd := h.difference hsince
      exact congrArg some (Span.ticks_injective (by omega))
  | none =>
      rcases h.refused hsince with hlt | hnone
      · exact absurd hle (not_le.mpr hlt)
      · exact absurd (by omega) (hnone (s.elapsed t))

/-! ## Sums on words -/

/-- **The sum on words.** The carry of the nanoseconds is added last. -/
def sumOnWords? (t : Instant) (d : Span) : Option Instant :=
  let seconds := t.seconds + d.seconds.toInt64
  if seconds < t.seconds then none
  else if h : t.nanos + d.nanos < 1000000000 then some ⟨seconds, t.nanos + d.nanos, h⟩
  else if seconds = Int64.maxValue then none
  else
    some
      { seconds := seconds + 1
        nanos := t.nanos + d.nanos - 1000000000
        nanos_lt := by
          have ht := t.nanos_lt
          have hd := d.nanos_lt
          omega }

/-- **The sum on words is the exact sum.** -/
theorem sumOnWords?_eq (t : Instant) (d : Span) : t.sumOnWords? d = t.add? d := by
  have ht := t.nanos_lt
  have hd := d.nanos_lt
  have hlow := t.seconds.le_toInt
  have hhigh := t.seconds.toInt_lt
  have hsum := toInt_add_toInt64 t.seconds d.seconds
  have hn := d.seconds.toNat_lt
  have hexact : t.ticks + d.ticks = (t.seconds.toInt + d.seconds.toNat) * 1000000000
      + (t.nanos + d.nanos) := by
    simp only [ticks, Span.ticks]
    omega
  unfold sumOnWords?
  simp only [Int64.lt_iff_toInt_lt, ← Int64.toInt_inj, Int64.toInt_maxValue]
  generalize hword : t.seconds + d.seconds.toInt64 = word at hsum ⊢
  by_cases hwrap : t.seconds.toInt + d.seconds.toNat < 2 ^ 63
  case neg =>
    -- The seconds wrap just when they leave the range, and then they have gone back.
    rw [if_neg hwrap] at hsum
    rw [if_pos (by omega), add?, hexact, ofTicks?, if_neg (by simp only [maxTicks]; omega)]
  case pos =>
    rw [if_pos hwrap] at hsum
    rw [if_neg (by omega), add?, hexact]
    by_cases hcarry : t.nanos + d.nanos < 1000000000
    · rw [dif_pos hcarry]
      refine (ofTicks?_eq_some ?_).symm
      simp only [ticks, hsum]
      omega
    · rw [dif_neg hcarry]
      by_cases hlast : word.toInt = 2 ^ 63 - 1
      · rw [if_pos hlast, ofTicks?, if_neg (by simp only [maxTicks]; omega)]
      · have hone := toInt_add_one hlast
        rw [if_neg hlast]
        refine (ofTicks?_eq_some ?_).symm
        simp only [ticks, hone, hsum]
        omega

/-- **The sum on words keeps the promise.** -/
theorem checksSums_sumOnWords? : ChecksSums sumOnWords? where
  sum h := add?_eq_some_iff.mp ((sumOnWords?_eq _ _).symm.trans h)
  overflow h _ hr :=
    nomatch h.symm.trans ((sumOnWords?_eq _ _).trans (add?_eq_some_iff.mpr hr))

/-! ## Differences on words -/

/-- **The difference on words.** -/
def differenceOnWords? (t s : Instant) : Option Span :=
  if h : s.nanos ≤ t.nanos then
    if t.seconds < s.seconds then none
    else some ⟨(t.seconds - s.seconds).toUInt64, t.nanos - s.nanos, by
      have ht := t.nanos_lt
      omega⟩
  else if t.seconds = Int64.minValue then none
  else if t.seconds - 1 < s.seconds then none
  else some ⟨(t.seconds - 1 - s.seconds).toUInt64, t.nanos + 1000000000 - s.nanos, by omega⟩

/-- **The difference on words is the exact difference.** -/
theorem differenceOnWords?_eq (t s : Instant) : t.differenceOnWords? s = t.since? s := by
  have ht := t.nanos_lt
  have hs := s.nanos_lt
  unfold differenceOnWords?
  by_cases hborrow : s.nanos ≤ t.nanos
  · rw [dif_pos hborrow]
    by_cases hlt : t.seconds < s.seconds
    · have hseconds := Int64.lt_iff_toInt_lt.mp hlt
      rw [if_pos hlt, eq_comm, since?_eq_none_iff, lt_def]
      simp only [ticks]
      omega
    · have hsub := toNat_toUInt64_sub (Int64.not_lt.mp hlt)
      rw [if_neg hlt]
      refine (since?_eq_some ?_).symm
      simp only [ticks, Span.ticks]
      omega
  · rw [dif_neg hborrow]
    by_cases hfirst : t.seconds = Int64.minValue
    · -- There is no second to borrow, and no instant in an earlier second.
      have hseconds := s.seconds.le_toInt
      rw [if_pos hfirst, eq_comm, since?_eq_none_iff, lt_def]
      simp only [ticks, hfirst, Int64.toInt_minValue]
      omega
    · have hone := toInt_sub_one hfirst
      rw [if_neg hfirst]
      by_cases hlt : t.seconds - 1 < s.seconds
      · have hseconds := Int64.lt_iff_toInt_lt.mp hlt
        rw [if_pos hlt, eq_comm, since?_eq_none_iff, lt_def]
        simp only [ticks]
        omega
      · have hsub := toNat_toUInt64_sub (Int64.not_lt.mp hlt)
        rw [if_neg hlt]
        refine (since?_eq_some ?_).symm
        simp only [ticks, Span.ticks]
        omega

/-- **The difference on words keeps the promise.** -/
theorem measuresElapsed_differenceOnWords? : MeasuresElapsed differenceOnWords? where
  difference {t s d} h := by
    rw [differenceOnWords?_eq] at h
    have hle : s ≤ t := by
      by_contra hlt
      rw [since?_eq_none_iff.mpr (not_le.mp hlt)] at h
      cases h
    have hticks := ticks_elapsed hle
    rw [since?_of_le hle, Option.some_inj] at h
    rw [← h]
    omega
  refused {t s} h := .inl (since?_eq_none_iff.mp ((differenceOnWords?_eq t s).symm.trans h))

/-! ## Schedules -/

/-- An instant is scheduled again after the time that has gone by since then. -/
theorem schedule_elapsed {s t : Instant} (h : s ≤ t) : s.schedule (some (s.elapsed t)) = t := by
  have hticks := ticks_elapsed h
  have hsum : s.add? (s.elapsed t) = some t := add?_eq_some_iff.mpr (by omega)
  rw [schedule, scheduleBy, Option.bind_some, hsum, Option.getD_some]

/-- **A schedule moves with its beginning and with the time advance**, where no time advance is
the longest of all. -/
theorem schedule_mono {last last' : Instant} {ta ta' : Option Span} (h : last ≤ last')
    (hta : ∀ d' ∈ ta', ∃ d ∈ ta, d ≤ d') : last.schedule ta ≤ last'.schedule ta' := by
  cases ta' with
  | none => exact le_max _
  | some d' =>
      obtain ⟨d, rfl, hd⟩ := hta d' rfl
      have hspan : d.ticks ≤ d'.ticks := hd
      rw [le_def] at h
      rw [le_def, ticks_schedule, ticks_schedule]
      omega

/-- **Scheduling is exact saturation**, by whatever sum and whatever difference that keep their
promises. The time of the next event is the exact sum or the last instant, whichever is earlier,
and the last instant if there is no next event. It does not lie before its beginning, and it moves
with it and with the time advance. The time that has gone by between any two instants is a span, and
scheduling undoes it. So the engines schedule and measure in this way. -/
theorem schedule_exact (hadd : ChecksSums checkedAdd) (hsince : MeasuresElapsed durationSince) :
    (∀ (last : Instant) (ta : Span),
      (last.scheduleBy checkedAdd (some ta)).ticks = Min.min (last.ticks + ta.ticks) max.ticks) ∧
    (∀ last : Instant, last.scheduleBy checkedAdd none = max) ∧
    (∀ (last : Instant) (ta : Option Span), last ≤ last.scheduleBy checkedAdd ta) ∧
    (∀ (last last' : Instant) (ta ta' : Option Span), last ≤ last' →
      (∀ d' ∈ ta', ∃ d ∈ ta, d ≤ d') →
      last.scheduleBy checkedAdd ta ≤ last'.scheduleBy checkedAdd ta') ∧
    (∀ s t : Instant, s ≤ t → ∃ d, durationSince t s = some d ∧
      (d.ticks : Int) = t.ticks - s.ticks ∧ s.scheduleBy checkedAdd (some d) = t) ∧
    (∀ (last : Instant) (ta : Option Span),
      last.scheduleBy checkedAdd ta = last.schedule ta) ∧
    ∀ s t : Instant, s ≤ t → durationSince t s = t.since? s := by
  simp only [hadd.scheduleBy_eq]
  refine ⟨fun last ta => ?_, schedule_none, le_schedule, fun _ _ _ _ h hta => schedule_mono h hta,
    fun s t h => ⟨s.elapsed t, hsince.eq_elapsed h, ticks_elapsed h, schedule_elapsed h⟩,
    fun _ _ => trivial, fun s t h => (hsince.eq_elapsed h).trans (since?_of_le h).symm⟩
  rw [ticks_schedule, ticks_max]

/-- From one end of the range to the other, on words. The longest span has more seconds than a
signed word, and from the last nanosecond of the first second its carry leads out of the range;
from the first instant on it leads to the last one. -/
theorem schedule_exact_ends :
    let early : Instant := ⟨Int64.minValue, 999999999, by decide⟩
    let long : Span := ⟨18446744073709551615, 999999999, by decide⟩
    (ChecksSums sumOnWords? ∧ MeasuresElapsed differenceOnWords? ∧ min ≤ early ∧ min ≤ max ∧
      ∀ d' ∈ (none : Option Span), ∃ d ∈ some long, d ≤ d') ∧
    (min.scheduleBy sumOnWords? (some long)).ticks = Min.min (min.ticks + long.ticks) max.ticks ∧
    min.sumOnWords? long = some max ∧
    (early.scheduleBy sumOnWords? (some long)).ticks
      = Min.min (early.ticks + long.ticks) max.ticks ∧
    early.sumOnWords? long = none ∧ max.ticks < early.ticks + long.ticks ∧
    min.scheduleBy sumOnWords? (some long) ≤ early.scheduleBy sumOnWords? none ∧
    ∃ d, max.differenceOnWords? min = some d ∧ (d.ticks : Int) = max.ticks - min.ticks ∧
      min.scheduleBy sumOnWords? (some d) = max := by
  intro early long
  obtain ⟨hsum, -, -, hmono, hinverse, -, -⟩ :=
    schedule_exact checksSums_sumOnWords? measuresElapsed_differenceOnWords?
  have hfirst : min ≤ early := by decide +kernel
  have hnothing : ∀ d' ∈ (none : Option Span), ∃ d ∈ some long, d ≤ d' := nofun
  exact ⟨⟨checksSums_sumOnWords?, measuresElapsed_differenceOnWords?, hfirst, min.le_max,
      hnothing⟩, hsum min long, by decide +kernel, hsum early long, by decide +kernel,
    by decide +kernel, hmono _ _ _ _ hfirst hnothing, hinverse min max min.le_max⟩

end Instant

end DiscreteEvent
