/-
Instants of simulated time, and when the next event is due.

An instant is a signed 64-bit count of seconds since the epoch and the
nanoseconds within the second, so `-0.5 s` is the pair `(-1, 500000000)`.
As with spans, arithmetic is exact: it is done on `Instant.ticks`, and a
result outside of the range is no instant.

The last instant `Instant.max` doubles as infinity. `schedule` therefore
saturates there: a model without a time advance and a model whose next event
would lie past the range are both passive. What the scheduling laws of the
engines rest on is `ticks_schedule`: the scheduled time is the exact sum, cut
off at infinity.
-/
import DiscreteEvent.Time.Span

set_option autoImplicit false

namespace DiscreteEvent

/-- An instant: whole seconds since the epoch and the nanoseconds beyond them. -/
@[ext]
structure Instant where
  seconds : Int64
  nanos : Nat
  nanos_lt : nanos < 1000000000 := by decide

namespace Instant

/-- Two instants are the same when both parts are. -/
instance : DecidableEq Instant := fun a b =>
  decidable_of_iff (a.seconds.toInt = b.seconds.toInt ∧ a.nanos = b.nanos)
    (by rw [Instant.ext_iff, Int64.toInt_inj])

/-! ## The exact count -/

/-- **The view.** Nanoseconds since the epoch. -/
def ticks (t : Instant) : Int := t.seconds.toInt * 1000000000 + t.nanos

/-- The nanoseconds of the first instant. -/
def minTicks : Int := -9223372036854775808 * 1000000000

/-- The nanoseconds of the last instant. -/
def maxTicks : Int := 9223372036854775808 * 1000000000 - 1

/-- The instant `n` nanoseconds after the epoch, for `n` in the range. -/
def ofTicks (n : Int) : Instant where
  seconds := Int64.ofInt (n / 1000000000)
  nanos := (n % 1000000000).toNat
  nanos_lt := by omega

/-- The instant `n` nanoseconds after the epoch, if there is one. -/
def ofTicks? (n : Int) : Option Instant :=
  if minTicks ≤ n ∧ n ≤ maxTicks then some (ofTicks n) else none

instance : LE Instant := ⟨fun a b => a.ticks ≤ b.ticks⟩
instance : LT Instant := ⟨fun a b => a.ticks < b.ticks⟩

instance (a b : Instant) : Decidable (a ≤ b) := inferInstanceAs (Decidable (a.ticks ≤ b.ticks))
instance (a b : Instant) : Decidable (a < b) := inferInstanceAs (Decidable (a.ticks < b.ticks))

instance : Min Instant := ⟨fun a b => if a ≤ b then a else b⟩

/-- The start of the calendar year 1970. -/
def epoch : Instant := ofTicks 0

/-- The first instant. -/
def min : Instant := ofTicks minTicks

/-- The last instant, which stands for "never". -/
def max : Instant := ofTicks maxTicks

/-- Whether this is the instant that stands for "never". -/
def isInfinite (t : Instant) : Bool := t == max

theorem le_def {a b : Instant} : a ≤ b ↔ a.ticks ≤ b.ticks := Iff.rfl

theorem lt_def {a b : Instant} : a < b ↔ a.ticks < b.ticks := Iff.rfl

theorem ticks_bounds (t : Instant) : minTicks ≤ t.ticks ∧ t.ticks ≤ maxTicks := by
  have hl := t.seconds.le_toInt
  have hu := t.seconds.toInt_lt
  have hn := t.nanos_lt
  simp only [ticks, minTicks, maxTicks]
  omega

theorem ticks_ofTicks {n : Int} (hl : minTicks ≤ n) (hu : n ≤ maxTicks) :
    (ofTicks n).ticks = n := by
  simp only [minTicks, maxTicks] at hl hu
  have hs : (Int64.ofInt (n / 1000000000)).toInt = n / 1000000000 :=
    Int64.toInt_ofInt_of_le (by omega) (by omega)
  simp only [ticks, ofTicks, hs]
  omega

/-- The view tells instants apart. -/
theorem ticks_injective {a b : Instant} (h : a.ticks = b.ticks) : a = b := by
  have ha := a.nanos_lt
  have hb := b.nanos_lt
  simp only [ticks] at h
  have hs : a.seconds.toInt = b.seconds.toInt := by omega
  have hn : a.nanos = b.nanos := by omega
  exact Instant.ext (Int64.toInt_inj.mp hs) hn

theorem ticks_max : max.ticks = maxTicks := ticks_ofTicks (by decide) (by decide)

theorem le_max (t : Instant) : t ≤ max := by
  rw [le_def, ticks_max]
  exact t.ticks_bounds.2

/-! ## Arithmetic -/

/-- The instant `d` after `t`, if there is one. -/
def add? (t : Instant) (d : Span) : Option Instant := ofTicks? (t.ticks + d.ticks)

/-- The instant `d` before `t`, if there is one. -/
def sub? (t : Instant) (d : Span) : Option Instant := ofTicks? (t.ticks - d.ticks)

/-- The time from `s` to `t`, unless `s` is the later one. -/
def since? (t s : Instant) : Option Span :=
  if s ≤ t then some (Span.ofTicks (t.ticks - s.ticks).toNat) else none

/-- **Scheduling** by a checked sum. The time of the event that is `ta` away from the
transition at `last`: the last instant, "never", when there is no such event
or when it lies out of the range. -/
def scheduleBy (checkedAdd : Instant → Span → Option Instant) (last : Instant)
    (ta : Option Span) : Instant :=
  (ta.bind (checkedAdd last)).getD max

/-- Scheduling by the exact sum. -/
def schedule (last : Instant) (ta : Option Span) : Instant := last.scheduleBy add? ta

theorem ticks_schedule (last : Instant) (ta : Span) :
    (last.schedule (some ta)).ticks = Min.min (last.ticks + ta.ticks) maxTicks := by
  have hb := last.ticks_bounds
  simp only [schedule, scheduleBy, Option.bind_some, add?, ofTicks?]
  split
  case isTrue h =>
    rw [Option.getD_some, ticks_ofTicks h.1 h.2]
    omega
  case isFalse h =>
    rw [Option.getD_none, ticks_max]
    omega

/-! ## Text -/

/-- Seconds with all nine decimals; the second is the one below the instant,
so half a second before the epoch is `-1.500000000`. -/
def plain (t : Instant) : String := s!"{t.seconds.toInt}." ++ Text.zeroPadded 9 t.nanos

/-- The two fields, as they are kept. -/
def inspect (t : Instant) : String :=
  s!"TaiTime \x7b secs: {t.seconds.toInt}, nanos: {t.nanos} \x7d"

end Instant

end DiscreteEvent
