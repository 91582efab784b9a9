/-
The values of TOML that are written without quotes and brackets.

* `Toml.scalar?` — truth values, dates and numbers, from their characters;
* `Toml.scalar` — takes such a value from the front of a text.
-/
import Rebuild.Toml.Date
import Rebuild.Toml.Number
import Rebuild.Toml.Text

set_option autoImplicit false

namespace Rebuild.Toml

def scalar? (cs : List Char) : Option Value :=
  if cs == ['t', 'r', 'u', 'e'] then some (.bool true)
  else if cs == ['f', 'a', 'l', 's', 'e'] then some (.bool false)
  else if isDate cs then some .date
  else number? cs

/-- The characters that end such a value. -/
def delimiters : List Char := ['=', ',', '[', ']', '{', '}', ' ', '\t', '#', '\r', '\n']

def isScalarChar (c : Char) : Bool := !delimiters.contains c

/-- A blank may stand between a date and a time of day. -/
def scalarChars (cs : List Char) : List Char × List Char :=
  let (a, rest) := cs.span isScalarChar
  match rest with
  | ' ' :: d :: more =>
    if d.isDigit && (dateFrom? a) == some [] then
      let (b, rest) := (d :: more).span isScalarChar
      (a ++ ' ' :: b, rest)
    else (a, rest)
  | _ => (a, rest)

def scalar : Reader Value := fun cs =>
  let (a, rest) := scalarChars cs
  match scalar? a with
  | some v => .ok (v, rest)
  | none => .error .invalidValue

end Rebuild.Toml
