/-
How the inside of a value is shown.

One notation serves every type of the library: records `Name { a: x, b: y }`,
records of which only a part is shown `Name { a: x, .. }`, tagged values
`Name(x)`, lists `[x, y]` and dictionaries `{"k": v}`. The functions here take
the texts of the parts, so that a type only says which parts it shows.
-/
import DiscreteEvent.Text.Quoted

set_option autoImplicit false

namespace DiscreteEvent.Text

/-- The texts of named parts: `a: x, b: y`. -/
def fields (parts : List (String × String)) : String :=
  ", ".intercalate (parts.map fun p => p.1 ++ ": " ++ p.2)

/-- A record that shows all its parts. -/
def record (name : String) (parts : List (String × String)) : String :=
  if parts.isEmpty then name else name ++ " \x7b " ++ fields parts ++ " \x7d"

/-- A record that keeps some of its parts to itself. -/
def openRecord (name : String) (parts : List (String × String)) : String :=
  if parts.isEmpty then name ++ " \x7b .. \x7d"
  else name ++ " \x7b " ++ fields parts ++ ", .. \x7d"

/-- A value with a tag in front. -/
def tagged (name part : String) : String := name ++ "(" ++ part ++ ")"

/-- A list. -/
def list (items : List String) : String := "[" ++ ", ".intercalate items ++ "]"

/-- A dictionary; its keys are quoted. -/
def dictionary (entries : List (String × String)) : String :=
  "\x7b" ++ ", ".intercalate (entries.map fun e => quoted e.1 ++ ": " ++ e.2) ++ "\x7d"

/-- A value that may be absent. -/
def optional (part : Option String) : String :=
  match part with
  | none => "None"
  | some text => tagged "Some" text

/-- A truth value. -/
def truth (b : Bool) : String := if b then "true" else "false"

end DiscreteEvent.Text
