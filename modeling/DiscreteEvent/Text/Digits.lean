/-
Decimal digits of natural numbers, as the fixed-point texts of times need them:
padded to a width, or as a fraction without its trailing zeros.

A fraction is given by a numerator and a width, `fraction 6 1500 = ".0015"`,
so that no text of this library ever goes through a floating-point number.
-/
set_option autoImplicit false

namespace DiscreteEvent.Text

/-- **Zero padding.** The decimal digits of `n`, with zeros in front up to
`width` digits. A number that is already wider keeps all its digits. -/
def zeroPadded (width n : Nat) : String :=
  let digits := toString n
  String.ofList (List.replicate (width - digits.length) '0') ++ digits

/-- The digits without the zeros at their end. -/
def dropTrailingZeros (digits : List Char) : List Char :=
  (digits.reverse.dropWhile (· == '0')).reverse

/-- **Fractions.** `n` counts units of `10 ^ -width`; its text is a point and
the digits up to the last one that is not zero. Nothing at all is written
for zero, so that a whole number has no point. -/
def fraction (width n : Nat) : String :=
  if n = 0 then "" else "." ++ String.ofList (dropTrailingZeros (zeroPadded width n).toList)

end DiscreteEvent.Text
