/-
Dates and times of day in TOML.

* `Toml.isDate` — whether the characters are a date, a time of day, or both with an offset or without.
  **The day has to exist in its month.**
-/
import Rebuild.Text.Utf8

set_option autoImplicit false

namespace Rebuild.Toml

/-- Exactly `width` digits that stand for a number in the range. -/
def field? (width low high : Nat) (cs : List Char) : Option (Nat × List Char) :=
  let ds := cs.take width
  let n := Text.ofDigits 10 ds
  if ds.length = width && ds.all Char.isDigit && low ≤ n && n ≤ high then some (n, cs.drop width)
  else none

def mark? (marks : List Char) : List Char → Option (List Char)
  | c :: rest => if marks.contains c then some rest else none
  | [] => none

def daysIn (year month : Nat) : Nat :=
  if month = 2 then
    if year % 4 = 0 ∧ (year % 100 ≠ 0 ∨ year % 400 = 0) then 29 else 28
  else if [4, 6, 9, 11].contains month then 30 else 31

def dateFrom? (cs : List Char) : Option (List Char) := do
  let (year, cs) ← field? 4 0 9999 cs
  let cs ← mark? ['-'] cs
  let (month, cs) ← field? 2 1 12 cs
  let cs ← mark? ['-'] cs
  let (_, cs) ← field? 2 1 (daysIn year month) cs
  some cs

/-- Hours and minutes; seconds and a fraction of them may follow. -/
def clockFrom? (cs : List Char) : Option (List Char) := do
  let (_, cs) ← field? 2 0 23 cs
  let cs ← mark? [':'] cs
  let (_, cs) ← field? 2 0 59 cs
  match cs with
  | ':' :: cs =>
    let (_, cs) ← field? 2 0 60 cs
    match cs with
    | '.' :: cs =>
      if (cs.head?.map Char.isDigit).getD false then some (cs.dropWhile Char.isDigit) else none
    | cs => some cs
  | cs => some cs

def offsetFrom? (cs : List Char) : Option (List Char) :=
  match cs with
  | 'Z' :: cs => some cs
  | 'z' :: cs => some cs
  | '+' :: cs => hours cs
  | '-' :: cs => hours cs
  | cs => some cs
where
  hours (cs : List Char) : Option (List Char) := do
    let (_, cs) ← field? 2 0 23 cs
    let cs ← mark? [':'] cs
    let (_, cs) ← field? 2 0 59 cs
    some cs

/-- A date, a time of day, or both with an offset or without. -/
def isDate (cs : List Char) : Bool :=
  match dateFrom? cs with
  | some [] => true
  | some (c :: rest) =>
    (c == 'T' || c == 't' || c == ' ') && ((clockFrom? rest).bind offsetFrom?) == some []
  | none => clockFrom? cs == some []

end Rebuild.Toml
