/-
The order of instants, and what scheduling does to it.

`Instant` compares by the exact count of nanoseconds, and the count tells
instants apart, so the order is linear. `Instant.max` is its greatest element.

The two facts that the engines live on are `le_schedule` -- a next event never
lies before the transition it was scheduled at, saturation included -- and
`ticks_le_of_le_schedule`, its converse for the time that has passed: up to the
scheduled event no more time goes by than the model asked for. The second one
is why an elapsed time handed to a model never exceeds its time advance.
-/
import DiscreteEvent.Time.Instant
import Mathlib.Order.Defs.LinearOrder

set_option autoImplicit false

namespace DiscreteEvent

namespace Instant

/-- Instants are ordered as their counts are. -/
instance : LinearOrder Instant where
  le_refl a := Int.le_refl a.ticks
  le_trans a b c := Int.le_trans (a := a.ticks) (b := b.ticks) (c := c.ticks)
  lt_iff_le_not_ge a b := Int.lt_iff_le_and_not_ge (a := a.ticks) (b := b.ticks)
  le_antisymm _ _ h₁ h₂ := ticks_injective (Int.le_antisymm h₁ h₂)
  le_total a b := Int.le_total a.ticks b.ticks
  min_def _ _ := rfl
  toDecidableLE := inferInstance
  toDecidableEq := inferInstance
  toDecidableLT := inferInstance
  max a b := if a ≤ b then b else a
  max_def _ _ := rfl

theorem max_le_iff {t : Instant} : Instant.max ≤ t ↔ t = .max :=
  ⟨fun h => le_antisymm t.le_max h, fun h => h ▸ le_refl _⟩

@[simp] theorem isInfinite_iff (t : Instant) : t.isInfinite = true ↔ t = .max := by
  rw [isInfinite, beq_iff_eq]

/-! ## Scheduling -/

/-- **Scheduling never goes back.** Where the sum is an instant it is the exact
one, and where it is none the event is at the last instant. -/
theorem le_schedule (last : Instant) (ta : Option Span) : last ≤ last.schedule ta := by
  cases ta with
  | none =>
      rw [schedule, scheduleBy, Option.bind_none, Option.getD_none]
      exact last.le_max
  | some d =>
      have hb := last.ticks_bounds.2
      rw [le_def, ticks_schedule]
      omega

/-- Up to the scheduled event at most the asked-for time goes by. -/
theorem ticks_le_of_le_schedule {last t : Instant} {d : Span}
    (h : t ≤ last.schedule (some d)) : t.ticks ≤ last.ticks + d.ticks := by
  rw [le_def, ticks_schedule] at h
  omega

/-- A model that has no event of its own is never due. -/
@[simp] theorem schedule_none (last : Instant) : last.schedule none = .max := rfl

/-! ## Elapsed time -/

/-- The time from `s` to `t`, for `s` not later than `t`. -/
def elapsed (s t : Instant) : Span := Span.ofTicks (t.ticks - s.ticks).toNat

theorem since?_of_le {s t : Instant} (h : s ≤ t) : t.since? s = some (s.elapsed t) :=
  if_pos h

/-- Every difference of two instants is a span, that of the two ends included. -/
theorem ticks_elapsed {s t : Instant} (h : s ≤ t) :
    ((s.elapsed t).ticks : Int) = t.ticks - s.ticks := by
  have hs := s.ticks_bounds
  have ht := t.ticks_bounds
  rw [le_def] at h
  simp only [minTicks, maxTicks] at hs ht
  rw [elapsed, Span.ticks_ofTicks (by simp only [Span.maxTicks]; omega)]
  omega

theorem elapsed_self (t : Instant) : t.elapsed t = .zero := by
  rw [elapsed, Int.sub_self]
  rfl

/-- The elapsed time at an instant inside of the window is at most the time advance. -/
theorem elapsed_le_of_le_schedule {s t : Instant} {d : Span} (hs : s ≤ t)
    (h : t ≤ s.schedule (some d)) : s.elapsed t ≤ d := by
  have he := ticks_elapsed hs
  have hd := ticks_le_of_le_schedule h
  show (s.elapsed t).ticks ≤ d.ticks
  omega

end Instant

end DiscreteEvent
