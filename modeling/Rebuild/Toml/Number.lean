/-
Numbers in TOML.

A number is checked twice.  Its form is checked where it stands: signs, leading zeros, underscores and
the parts around a point.  Whether it can be stored shows only when it is read, and a number that cannot
be is `Value.unreadable`, which does no harm where nobody looks at it.

* `Toml.underscoresFit` — **an underscore stands between two digits**, or between the sign and a digit;
* `Toml.floatFits` — the form of a number with a point or an exponent;
* `Toml.number?` — numbers, from their characters.
-/
import Rebuild.Decimal.Reading
import Rebuild.Decimal.Shortest
import Rebuild.Text.Utf8
import Rebuild.Value

set_option autoImplicit false

namespace Rebuild.Toml

/-! ### Digits -/

def withoutUnderscores (cs : List Char) : List Char := cs.filter (· ≠ '_')

/-- Whether each underscore among the characters after `before` has a digit on both sides. -/
def underscoresFitAfter (isDigit : Char → Bool) (before : Char) : List Char → Bool
  | [] => before ≠ '_'
  | c :: cs =>
    (if c = '_' then isDigit before else before ≠ '_' || isDigit c) && underscoresFitAfter isDigit c cs

/-- Whether the underscores of a number without its sign stand where they may. -/
def underscoresFit (isDigit : Char → Bool) (signed : Bool) : List Char → Bool
  | [] => true
  | c :: cs => (c ≠ '_' || signed) && underscoresFitAfter isDigit c cs

/-! ### Whole numbers -/

/-- Whole numbers of a sign and 127 bits can be stored, and those of 128 bits without a sign. -/
def canStore (n : Int) : Bool := -(1 <<< 127 : Nat) ≤ n && n < (1 <<< 128 : Nat)

/-- The whole number that the digits stand for, if they are digits and it can be stored. -/
def readInt (radix : Nat) (isDigit : Char → Bool) (negative : Bool) (ds : List Char) : Value :=
  let n : Int := if negative then -(Text.ofDigits radix ds : Int) else Text.ofDigits radix ds
  if !ds.isEmpty && ds.all isDigit && canStore n then .int n else .unreadable

/-- Digits after a mark for another base than ten; there may be none. -/
def radixInt? (radix : Nat) (isDigit : Char → Bool) (cs : List Char) : Option Value :=
  if (withoutUnderscores cs).all isDigit && underscoresFit Text.isHexDigit false cs then
    some (readInt radix isDigit false (withoutUnderscores cs))
  else none

/-! ### Numbers with a point or an exponent -/

/-- The rest after digits and underscores, among which there is a digit. -/
def afterDigits? (cs : List Char) : Option (List Char) :=
  let (ds, rest) := cs.span fun c => c.isDigit || c == '_'
  if ds.any Char.isDigit then some rest else none

/-- As `afterDigits?`, but a zero stands at the front only if it is alone. -/
def afterWhole? (cs : List Char) : Option (List Char) := do
  let rest ← afterDigits? cs
  let ds := (cs.take (cs.length - rest.length)).filter Char.isDigit
  if cs.head? = some '0' ∧ ds.length ≠ 1 then none else some rest

def afterFraction? : List Char → Option (List Char)
  | '.' :: cs => afterDigits? cs
  | cs => some cs

/-- A sign and the rest. -/
def sign (cs : List Char) : Bool × List Char :=
  match cs with
  | '-' :: rest => (true, rest)
  | '+' :: rest => (false, rest)
  | _ => (false, cs)

def afterExponent? : List Char → Option (List Char)
  | [] => some []
  | c :: cs => if c = 'e' ∨ c = 'E' then afterDigits? (sign cs).2 else some (c :: cs)

def floatFits (cs : List Char) : Bool :=
  ((afterWhole? cs).bind afterFraction?).bind afterExponent? == some []

/-- The number that the characters of a fitting form stand for, if it can be stored. -/
def readFloat (negative : Bool) (cs : List Char) : Value :=
  let (mantissa, power) := cs.span fun c => c ≠ 'e' && c ≠ 'E'
  let (whole, fraction) := mantissa.span (· ≠ '.')
  let (down, ds) := sign (power.drop 1)
  let power : Int := if down then -(Text.ofDigits 10 ds : Int) else Text.ofDigits 10 ds
  let fraction := fraction.drop 1
  match Decimal.nearest? (Text.ofDigits 10 (whole ++ fraction)) (power - fraction.length) with
  | some b => .float (b.render negative)
  | none => .unreadable

/-! ### All of them -/

/-- A decimal number without its sign. -/
def decimal? (signed negative : Bool) (cs : List Char) : Option Value :=
  let (ds, rest) := cs.span Char.isDigit
  if rest.isEmpty then
    if ds.isEmpty || (ds.head? == some '0' && ds.length ≠ 1) then none
    else some (readInt 10 Char.isDigit negative ds)
  else if rest.any fun c => c == '.' || c == 'e' || c == 'E' then
    if floatFits cs && underscoresFit Char.isDigit signed cs then
      some (readFloat negative (withoutUnderscores cs))
    else none
  else if rest.head? == some '_' && cs.head? ≠ some '0' && underscoresFit Text.isHexDigit signed cs then
    some (readInt 10 Char.isDigit negative (withoutUnderscores cs))
  else none

def number? (cs : List Char) : Option Value :=
  match cs with
  | '0' :: 'x' :: rest => radixInt? 16 Text.isHexDigit rest
  | '0' :: 'o' :: rest => radixInt? 8 (fun c => '0' ≤ c && c ≤ '7') rest
  | '0' :: 'b' :: rest => radixInt? 2 (fun c => c == '0' || c == '1') rest
  | _ =>
    let (negative, body) := sign cs
    if body == ['i', 'n', 'f'] || body == ['n', 'a', 'n'] then some (.float (String.ofList cs))
    else decimal? (body.length < cs.length) negative body

end Rebuild.Toml
