/-
Lengths of time, exact to the nanosecond.

A span is a count of whole seconds in a 64-bit word and the nanoseconds
within the last second. All arithmetic goes through the exact count
`Span.ticks` and comes back through `Span.ofTicks?`, which says `none` when
the result has no representation. So nothing wraps, and every law about
spans is a law about natural numbers.
-/
import DiscreteEvent.Text.Digits

set_option autoImplicit false

namespace DiscreteEvent

/-- A length of time: whole seconds and the nanoseconds beyond them. -/
@[ext]
structure Span where
  seconds : UInt64
  nanos : Nat
  nanos_lt : nanos < 1000000000 := by decide
deriving DecidableEq

namespace Span

/-! ## The exact count -/

/-- **The view.** The length in nanoseconds. -/
def ticks (d : Span) : Nat := d.seconds.toNat * 1000000000 + d.nanos

/-- The number of nanoseconds in the longest span. -/
def maxTicks : Nat := 18446744073709551616 * 1000000000 - 1

/-- The span of `n` nanoseconds, for `n` up to `maxTicks`. -/
def ofTicks (n : Nat) : Span where
  seconds := UInt64.ofNat (n / 1000000000)
  nanos := n % 1000000000
  nanos_lt := Nat.mod_lt _ (by decide)

/-- The span of `n` nanoseconds, if there is one. -/
def ofTicks? (n : Nat) : Option Span :=
  if n ≤ maxTicks then some (ofTicks n) else none

instance : LE Span := ⟨fun a b => a.ticks ≤ b.ticks⟩
instance : LT Span := ⟨fun a b => a.ticks < b.ticks⟩

instance (a b : Span) : Decidable (a ≤ b) := inferInstanceAs (Decidable (a.ticks ≤ b.ticks))
instance (a b : Span) : Decidable (a < b) := inferInstanceAs (Decidable (a.ticks < b.ticks))

/-- No time at all. -/
def zero : Span := ⟨0, 0, by decide⟩

theorem ticks_le_maxTicks (d : Span) : d.ticks ≤ maxTicks := by
  have hs := d.seconds.toNat_lt
  have hn := d.nanos_lt
  simp only [ticks, maxTicks]
  omega

theorem ticks_ofTicks {n : Nat} (h : n ≤ maxTicks) : (ofTicks n).ticks = n := by
  have hlt : n / 1000000000 < 2 ^ 64 := by
    simp only [maxTicks] at h
    omega
  simp only [ticks, ofTicks, UInt64.toNat_ofNat_of_lt' hlt]
  omega

/-- The view tells spans apart. -/
theorem ticks_injective {a b : Span} (h : a.ticks = b.ticks) : a = b := by
  have ha := a.nanos_lt
  have hb := b.nanos_lt
  simp only [ticks] at h
  have hs : a.seconds.toNat = b.seconds.toNat := by omega
  have hn : a.nanos = b.nanos := by omega
  exact Span.ext (UInt64.toNat_inj.mp hs) hn

theorem ofTicks_ticks (d : Span) : ofTicks d.ticks = d :=
  ticks_injective (ticks_ofTicks d.ticks_le_maxTicks)

/-! ## Arithmetic -/

/-- The sum, if it can be represented. -/
def add? (a b : Span) : Option Span := ofTicks? (a.ticks + b.ticks)

/-- What is left of `a` after `b`; nothing is left when `b` is the longer one. -/
def monus (a b : Span) : Span := ofTicks (a.ticks - b.ticks)

theorem ticks_monus (a b : Span) : (a.monus b).ticks = a.ticks - b.ticks :=
  ticks_ofTicks (Nat.le_trans (Nat.sub_le _ _) a.ticks_le_maxTicks)

/-! ## Text -/

/-- Seconds with all nine decimals: `1.500000000`. -/
def plain (d : Span) : String := s!"{d.seconds.toNat}." ++ Text.zeroPadded 9 d.nanos

/-- **Scaled text.** The largest of the units second, millisecond, microsecond
and nanosecond of which there is at least one, with the decimals that are
needed: `1.5s`, `100.000001ms`, `1.5µs`, `0ns`. -/
def inspect (d : Span) : String :=
  if d.seconds ≠ 0 then
    toString d.seconds.toNat ++ Text.fraction 9 d.nanos ++ "s"
  else if 1000000 ≤ d.nanos then
    toString (d.nanos / 1000000) ++ Text.fraction 6 (d.nanos % 1000000) ++ "ms"
  else if 1000 ≤ d.nanos then
    toString (d.nanos / 1000) ++ Text.fraction 3 (d.nanos % 1000) ++ "µs"
  else
    toString d.nanos ++ "ns"

end Span

end DiscreteEvent
