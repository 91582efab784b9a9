/-
Reading a span of time from text such as `1h 30m` or `2.5s`.

The text is a sequence of counts with units.  Blanks may stand before a count, and inside and after
its digits, and they end a unit; a digit ends a unit as well.

* `Duration.ParseError` — what can be wrong, and `ParseError.message`, how it is said;
* `Duration.TimeUnit` — the units and their names;
* `Duration.parse` — reads a text.
-/
import Rebuild.Duration
import Rebuild.Text.Blank

set_option autoImplicit false

namespace Rebuild.Duration

/-- What is wrong with a text; offsets count bytes. -/
inductive ParseError where
  | empty
  | numberExpected (offset : Nat)
  | invalidCharacter (offset : Nat)
  /-- A number is too large, or a part of it is below a nanosecond. -/
  | overflow
  | unitNeeded (count : Nat)
  | unknownUnit (unit : String)
deriving DecidableEq, Repr

def ParseError.message : ParseError → String
  | .empty => "value was empty"
  | .numberExpected offset => "expected number at " ++ toString offset
  | .invalidCharacter offset => "invalid character at " ++ toString offset
  | .overflow =>
    "number is too large or cannot be represented without a lack of precision " ++
      "(values below 1ns are not supported)"
  | .unitNeeded count =>
    "time unit needed, for example " ++ toString count ++ "sec or " ++ toString count ++ "ms"
  | .unknownUnit unit =>
    "unknown time unit \"" ++ unit ++ "\", supported units: ns, us/µs, ms, sec, min, hours, days, " ++
      "weeks, months, years (and few variations)"

/-! ### Units -/

inductive TimeUnit where
  | nanosecond | microsecond | millisecond | second | minute | hour | day | week | month | year
deriving DecidableEq, Repr

/-- Every unit with its spellings. -/
def spellings : List (TimeUnit × List String) :=
  [(.nanosecond, ["nanos", "nsec", "ns"]),
   (.microsecond, ["usec", "us", "µs"]),
   (.millisecond, ["millis", "msec", "ms"]),
   (.second, ["seconds", "second", "secs", "sec", "s"]),
   (.minute, ["minutes", "minute", "min", "mins", "m"]),
   (.hour, ["hours", "hour", "hr", "hrs", "h"]),
   (.day, ["days", "day", "d"]),
   (.week, ["weeks", "week", "wk", "wks", "w"]),
   (.month, ["months", "month", "M"]),
   (.year, ["years", "year", "yr", "yrs", "y"])]

def TimeUnit.ofName? (name : String) : Option TimeUnit :=
  (spellings.find? fun entry => entry.2.contains name).map (·.1)

/-- A unit counts either nanoseconds or whole seconds. -/
inductive Grain where
  | nanos (perUnit : Nat)
  | seconds (perUnit : Nat)

/-- What a whole count of the unit is counted in. -/
def TimeUnit.grain : TimeUnit → Grain
  | .nanosecond => .nanos 1
  | .microsecond => .nanos 1000
  | .millisecond => .nanos 1000000
  | .second => .seconds 1
  | .minute => .seconds 60
  | .hour => .seconds 3600
  | .day => .seconds 86400
  | .week => .seconds 604800
  | .month => .seconds secondsPerMonth
  | .year => .seconds secondsPerYear

/-- What a fraction of the unit is counted in; a nanosecond has no fractions. -/
def TimeUnit.fractionGrain? : TimeUnit → Option Grain
  | .nanosecond => none
  | .second => some (.nanos 1000000000)
  | .minute => some (.nanos 60000000000)
  | u => some u.grain

/-! ### Arithmetic that stays within 64 bits -/

def checked (n : Nat) : Except ParseError Nat :=
  if n < wordBound then .ok n else .error .overflow

/-- Adds seconds and nanoseconds to a span. -/
def add (d : Duration) (seconds nanos : Nat) : Except ParseError Duration := do
  let nanos ← checked (d.nanos + nanos)
  match ofParts? (d.seconds + seconds) nanos with
  | some sum => .ok sum
  | none => .error .overflow

def addGrain (d : Duration) (amount : Nat) : Grain → Except ParseError Duration
  | .nanos _ => add d 0 amount
  | .seconds _ => add d amount 0

def Grain.perUnit : Grain → Nat
  | .nanos n => n
  | .seconds n => n

/-- A fraction as the digits after the point and a power of ten. -/
structure Fraction where
  numerator : Nat
  denominator : Nat

/-- Adds `count` units and the fraction of one.  A fraction has to come out even. -/
def addCount (d : Duration) (count : Nat) (fraction : Option Fraction) (name : String) :
    Except ParseError Duration := do
  match TimeUnit.ofName? name with
  | none => .error (if name.isEmpty then .unitNeeded count else .unknownUnit name)
  | some unit =>
    let whole ← checked (count * unit.grain.perUnit)
    let d ← addGrain d whole unit.grain
    match fraction with
    | none => .ok d
    | some f =>
      match unit.fractionGrain? with
      | none => .error .overflow
      | some grain =>
        let product ← checked (f.numerator * grain.perUnit)
        if product % f.denominator = 0 then addGrain d (product / f.denominator) grain
        else .error .overflow

/-! ### The scanner -/

def digit? (c : Char) : Option Nat :=
  if '0' ≤ c ∧ c ≤ '9' then some (c.toNat - 48) else none

/-- The letters that units are made of. -/
def isUnitLetter (c : Char) : Bool :=
  ('a' ≤ c && c ≤ 'z') || ('A' ≤ c && c ≤ 'Z') || c == 'µ'

/-- Where the scanner is.  Offsets are those of the next character. -/
inductive Scan where
  /-- Before a count; `start` is where the blanks before it began, `first` tells that nothing was
  read yet. -/
  | blank (start : Nat) (first : Bool)
  /-- In the digits of a count. -/
  | number (count : Nat)
  /-- After the point; `mark` is the offset an error is reported at. -/
  | fraction (count numerator denominator mark : Nat)
  /-- In a unit, whose letters are kept in reverse. -/
  | unit (count : Nat) (fraction : Option Fraction) (letters : List Char)

/-- The span so far and the state of the scanner. -/
structure ScanState where
  total : Duration
  scan : Scan

def unitName (letters : List Char) : String := String.ofList letters.reverse

/-- One character at offset `off`. -/
def scanChar (s : ScanState) (off : Nat) (c : Char) : Except ParseError ScanState :=
  match s.scan with
  | .blank start first =>
    match digit? c with
    | some d => .ok { s with scan := .number d }
    | none =>
      if Text.isBlank c then .ok { s with scan := .blank start first }
      else .error (.numberExpected start)
  | .number count =>
    match digit? c with
    | some d => do
      let count ← checked (count * 10)
      let count ← checked (count + d)
      .ok { s with scan := .number count }
    | none =>
      if Text.isBlank c then .ok s
      else if isUnitLetter c then .ok { s with scan := .unit count none [c] }
      else if c = '.' then .ok { s with scan := .fraction count 0 1 off }
      else .error (.invalidCharacter off)
  | .fraction count numerator denominator mark =>
    match digit? c with
    | some d => do
      let denominator ← checked (denominator * 10)
      let numerator ← checked (numerator * 10)
      let numerator ← checked (numerator + d)
      .ok { s with scan := .fraction count numerator denominator (off + c.utf8Size) }
    | none =>
      if Text.isBlank c then
        .ok { s with scan := .fraction count numerator denominator (off + c.utf8Size) }
      else if isUnitLetter c ∧ denominator ≠ 1 then
        .ok { s with scan := .unit count (some ⟨numerator, denominator⟩) [c] }
      else .error (.invalidCharacter mark)
  | .unit count fraction letters =>
    match digit? c with
    | some d => do
      let total ← addCount s.total count fraction (unitName letters)
      .ok ⟨total, .number d⟩
    | none =>
      if Text.isBlank c then do
        let total ← addCount s.total count fraction (unitName letters)
        .ok ⟨total, .blank (off + c.utf8Size) false⟩
      else if isUnitLetter c then .ok { s with scan := .unit count fraction (c :: letters) }
      else .error (.invalidCharacter off)

/-- What the end of the text means. -/
def scanEnd (s : ScanState) : Except ParseError Duration :=
  match s.scan with
  | .blank _ first => if first then .error .empty else .ok s.total
  | .number count => addCount s.total count none ""
  | .fraction count numerator denominator mark =>
    if denominator = 1 then .error (.invalidCharacter mark)
    else addCount s.total count (some ⟨numerator, denominator⟩) ""
  | .unit count fraction letters => addCount s.total count fraction (unitName letters)

def scanFrom (s : ScanState) (off : Nat) : List Char → Except ParseError Duration
  | [] => scanEnd s
  | c :: cs => do
    let s ← scanChar s off c
    scanFrom s (off + c.utf8Size) cs

/-- Reads a span; a lone zero needs no unit. -/
def parse (text : String) : Except ParseError Duration :=
  if text = "0" then .ok zero else scanFrom ⟨zero, .blank 0 true⟩ 0 text.toList

end Rebuild.Duration
