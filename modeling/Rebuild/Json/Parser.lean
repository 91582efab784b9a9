/-
Reading JSON text.

* `Json.number` — whole numbers of 64 bits stay whole, all others become numbers with a point;
* `Json.parse?` — reads a text that holds one value and nothing else.

Every reader takes characters from the front of a list and gives back the rest.  Nesting is bounded
by the length of the text, so that bound is what the recursion counts down.
-/
import Rebuild.Value
import Rebuild.Text.Utf8
import Rebuild.Decimal.Reading
import Rebuild.Decimal.Shortest
import Rebuild.Duration

set_option autoImplicit false

namespace Rebuild.Json

def isSpace (c : Char) : Bool :=
  c == ' ' || c == '\n' || c == '\r' || c == '\t'

def skipSpace (cs : List Char) : List Char := cs.dropWhile isSpace

/-- The rest after a fixed word. -/
def word? (w : String) (cs : List Char) : Option (List Char) :=
  if w.toList.isPrefixOf cs then some (cs.drop w.length) else none

/-! ### Numbers -/

def digits (cs : List Char) : List Char × List Char := cs.span Char.isDigit

/-- A whole number that fits a signed or unsigned word of 64 bits; zero has no sign. -/
def wholeNumber? (negative : Bool) (whole : List Char) : Option Value :=
  let n := Text.ofDigits 10 whole
  if negative then
    if 0 < n ∧ 2 * n ≤ wordBound then some (.int (-(n : Int))) else none
  else if n < wordBound then some (.int n) else none

/-- A number with a point or an exponent, or one that is too large for a word. -/
def float? (negative : Bool) (whole fraction : List Char) (exponent : Int) : Option Value :=
  let s := Decimal.Significand.ofDigits whole fraction
  (s.scale exponent).value?.map fun b => .float (b.render negative)

/-- A number from its parts; without point and exponent it stays whole if it fits 64 bits. -/
def numberOf? (negative : Bool) (whole fraction : List Char) (exponent : Option Int) :
    Option Value :=
  match fraction, exponent, wholeNumber? negative whole with
  | [], none, some v => some v
  | fraction, exponent, _ => float? negative whole fraction (exponent.getD 0)

/-- The exponent of a number, if it has one. -/
def exponent? (cs : List Char) : Option (Option Int × List Char) :=
  match cs with
  | c :: rest =>
    if c = 'e' ∨ c = 'E' then
      let (negative, rest) := match rest with
        | '-' :: r => (true, r)
        | '+' :: r => (false, r)
        | r => (false, r)
      let (ds, rest) := digits rest
      if ds.isEmpty then none
      else some (some (if negative then -(Text.ofDigits 10 ds : Int) else Text.ofDigits 10 ds), rest)
    else some (none, cs)
  | [] => some (none, [])

def number? (cs : List Char) : Option (Value × List Char) := do
  let (negative, cs) := match cs with
    | '-' :: r => (true, r)
    | r => (false, r)
  let (whole, cs) := digits cs
  if whole.isEmpty then none
  else if whole.head? == some '0' && whole.length ≠ 1 then none
  else
    let (fraction, cs) ← match cs with
      | '.' :: r =>
        let (ds, r) := digits r
        if ds.isEmpty then none else some (ds, r)
      | r => some ([], r)
    let (exponent, cs) ← exponent? cs
    let v ← numberOf? negative whole fraction exponent
    some (v, cs)

/-! ### Text -/

def hex4? : List Char → Option (Nat × List Char)
  | a :: b :: c :: d :: rest => do
    let a ← Text.hexValue? a
    let b ← Text.hexValue? b
    let c ← Text.hexValue? c
    let d ← Text.hexValue? d
    some (((a * 16 + b) * 16 + c) * 16 + d, rest)
  | _ => none

/-- A character given by number; two surrogates stand for one character. -/
def unicode? (cs : List Char) : Option (Char × List Char) := do
  let (u, rest) ← hex4? cs
  if 0xD800 ≤ u ∧ u < 0xDC00 then
    match rest with
    | '\\' :: 'u' :: rest =>
      let (l, rest) ← hex4? rest
      if 0xDC00 ≤ l ∧ l < 0xE000 then
        some (Char.ofNat (0x10000 + (u - 0xD800) * 1024 + (l - 0xDC00)), rest)
      else none
    | _ => none
  else if 0xDC00 ≤ u ∧ u < 0xE000 then none
  else some (Char.ofNat u, rest)

def simpleEscape? : Char → Option Char
  | '"' => some '"'
  | '\\' => some '\\'
  | '/' => some '/'
  | 'b' => some (Char.ofNat 8)
  | 'f' => some (Char.ofNat 12)
  | 'n' => some '\n'
  | 'r' => some '\r'
  | 't' => some '\t'
  | _ => none

/-- The characters up to the closing quote; `bound` counts at least the characters left. -/
def textFrom? : (bound : Nat) → (acc : List Char) → List Char → Option (String × List Char)
  | 0, _, _ => none
  | _ + 1, _, [] => none
  | _ + 1, acc, '"' :: rest => some (String.ofList acc.reverse, rest)
  | bound + 1, acc, '\\' :: 'u' :: rest => do
    let (c, rest) ← unicode? rest
    textFrom? bound (c :: acc) rest
  | bound + 1, acc, '\\' :: c :: rest => do
    let c ← simpleEscape? c
    textFrom? bound (c :: acc) rest
  | bound + 1, acc, c :: rest =>
    if c.toNat < 32 ∨ c = '\\' then none else textFrom? bound (c :: acc) rest

def text? (cs : List Char) : Option (String × List Char) :=
  match cs with
  | '"' :: rest => textFrom? (rest.length + 1) [] rest
  | _ => none

/-! ### Values -/

mutual

def value? : (bound : Nat) → List Char → Option (Value × List Char)
  | 0, _ => none
  | bound + 1, cs =>
    match skipSpace cs with
    | '[' :: rest =>
      match skipSpace rest with
      | ']' :: rest => some (.list [], rest)
      | rest => do
        let (items, rest) ← items? bound rest
        some (.list items, rest)
    | '{' :: rest =>
      match skipSpace rest with
      | '}' :: rest => some (.record [], rest)
      | rest => do
        let (fields, rest) ← fields? bound rest
        some (.record fields, rest)
    | '"' :: rest => do
      let (s, rest) ← text? ('"' :: rest)
      some (.str s, rest)
    | 'n' :: rest => (word? "null" ('n' :: rest)).map (.null, ·)
    | 't' :: rest => (word? "true" ('t' :: rest)).map (.bool true, ·)
    | 'f' :: rest => (word? "false" ('f' :: rest)).map (.bool false, ·)
    | rest => number? rest

def items? : (bound : Nat) → List Char → Option (List Value × List Char)
  | 0, _ => none
  | bound + 1, cs => do
    let (v, rest) ← value? bound cs
    match skipSpace rest with
    | ',' :: rest =>
      let (vs, rest) ← items? bound rest
      some (v :: vs, rest)
    | ']' :: rest => some ([v], rest)
    | _ => none

def fields? : (bound : Nat) → List Char → Option (List (String × Value) × List Char)
  | 0, _ => none
  | bound + 1, cs => do
    let (name, rest) ← text? (skipSpace cs)
    match skipSpace rest with
    | ':' :: rest =>
      let (v, rest) ← value? bound rest
      match skipSpace rest with
      | ',' :: rest =>
        let (fs, rest) ← fields? bound rest
        some ((name, v) :: fs, rest)
      | '}' :: rest => some ([(name, v)], rest)
      | _ => none
    | _ => none

end

def parse? (s : String) : Option Value := do
  let cs := s.toList
  let (v, rest) ← value? (cs.length + 1) cs
  if (skipSpace rest).isEmpty then some v else none

end Rebuild.Json
