/-
Spans of time and their written form.

* `Duration` — whole seconds of 64 bits and nanoseconds below one second;
* `Duration.parts` — the counts that are not zero, with their units from years to nanoseconds;
* `Duration.render` — these parts with blanks between them.
-/

set_option autoImplicit false

namespace Rebuild

/-- The numbers that fit into 64 bits are below this bound. -/
abbrev wordBound : Nat := 18446744073709551616

structure Duration where
  seconds : Nat
  nanos : Nat
  seconds_lt : seconds < wordBound
  nanos_lt : nanos < 1000000000
deriving DecidableEq, Repr

namespace Duration

theorem zero_lt_second : 0 < 1000000000 := by decide

def zero : Duration := ⟨0, 0, by decide, zero_lt_second⟩

instance : Inhabited Duration := ⟨zero⟩

/-- Carries whole seconds over from the nanoseconds; none if the seconds do not fit. -/
def ofParts? (seconds nanos : Nat) : Option Duration :=
  if h : seconds + nanos / 1000000000 < wordBound then
    some ⟨seconds + nanos / 1000000000, nanos % 1000000000, h, Nat.mod_lt _ zero_lt_second⟩
  else none

/-- The longest span. -/
def longest : Duration := ⟨wordBound - 1, 999999999, by decide, by decide⟩

/-- Twice the span, but never more than the longest one. -/
def double (d : Duration) : Duration :=
  (ofParts? (2 * d.seconds) (2 * d.nanos)).getD longest

/-- A span of less than 2 ^ 64 milliseconds. -/
def ofMillis (ms : Nat) : Duration :=
  (ofParts? (ms / 1000) (ms % 1000 * 1000000)).getD zero

def toNanos (d : Duration) : Nat := d.seconds * 1000000000 + d.nanos

def millis (d : Duration) : Nat := d.toNanos / 1000000

/-! ### Written form -/

/-- A count with a unit; the long units take an `s` when there are several. -/
def long (n : Nat) (unit : String) : List String :=
  if n = 0 then [] else if n = 1 then ["1" ++ unit] else [toString n ++ unit ++ "s"]

def short (n : Nat) (unit : String) : List String :=
  if n = 0 then [] else [toString n ++ unit]

def secondsPerYear : Nat := 31557600

def secondsPerMonth : Nat := 2630016

/-- The parts of the written form, from large to small. -/
def parts (d : Duration) : List String :=
  let inYear := d.seconds % secondsPerYear
  let inMonth := inYear % secondsPerMonth
  let inDay := inMonth % 86400
  long (d.seconds / secondsPerYear) "year"
    ++ long (inYear / secondsPerMonth) "month"
    ++ long (inMonth / 86400) "day"
    ++ short (inDay / 3600) "h"
    ++ short (inDay % 3600 / 60) "m"
    ++ short (inDay % 60) "s"
    ++ short (d.nanos / 1000000) "ms"
    ++ short (d.nanos / 1000 % 1000) "us"
    ++ short (d.nanos % 1000) "ns"

def render (d : Duration) : String :=
  if d.seconds = 0 ∧ d.nanos = 0 then "0s" else " ".intercalate d.parts

end Duration

end Rebuild
