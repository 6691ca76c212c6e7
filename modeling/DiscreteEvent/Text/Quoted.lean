/-
Quoted text.

A quoted text stands between double quotes and has no character in it that a
reader could not see: quotes and backslashes are preceded by a backslash, tab,
carriage return, line feed and the null character have a letter of their own,
and every other control character is written by its number, `\u{7f}`. The
single quote needs no protection between double quotes and has none.
-/
import DiscreteEvent.Text.Printable

set_option autoImplicit false

namespace DiscreteEvent.Text

/-- The number of a character in lower-case hexadecimal digits. -/
def hexadecimal (n : Nat) : String := String.ofList (Nat.toDigits 16 n)

/-- How one character is written between double quotes. -/
def escape (c : Char) : String :=
  if c = '"' then "\\\""
  else if c = '\\' then "\\\\"
  else if c = '\t' then "\\t"
  else if c = '\r' then "\\r"
  else if c = '\n' then "\\n"
  else if c = Char.ofNat 0 then "\\0"
  else if isPrintable c then c.toString
  else "\\u\x7b" ++ hexadecimal c.toNat ++ "\x7d"

/-- **Quoting.** The text between double quotes, each character escaped. -/
def quoted (s : String) : String :=
  "\"" ++ String.join (s.toList.map escape) ++ "\""

end DiscreteEvent.Text
