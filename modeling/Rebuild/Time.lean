/-
Points in time, and how a calendar writes them.

* `Time` — nanoseconds since the epoch, possibly before it;
* `Time.seconds`, `Time.subsecond` — whole seconds, rounded down, and the nanoseconds after them;
* `Time.calendar` — date and time of day in UTC, to the second.
-/
import Rebuild.Decimal.Rounding

set_option autoImplicit false

namespace Rebuild

structure Time where
  nanos : Int
deriving DecidableEq, Inhabited, Repr

namespace Time

def epoch : Time := ⟨0⟩

def nanosPerSecond : Nat := 1000000000

def ofParts (seconds : Int) (nanos : Nat) : Time :=
  ⟨seconds * nanosPerSecond + nanos⟩

def seconds (t : Time) : Int := t.nanos / nanosPerSecond

def subsecond (t : Time) : Nat := (t.nanos % nanosPerSecond).toNat

instance : LT Time := ⟨fun a b => a.nanos < b.nanos⟩

instance : LE Time := ⟨fun a b => a.nanos ≤ b.nanos⟩

instance (a b : Time) : Decidable (a < b) := inferInstanceAs (Decidable (a.nanos < b.nanos))

instance (a b : Time) : Decidable (a ≤ b) := inferInstanceAs (Decidable (a.nanos ≤ b.nanos))

/-- The later of two times. -/
def later (a b : Time) : Time := if a ≤ b then b else a

/-- The latest of the times, if there are any. -/
def latest? : List Time → Option Time
  | [] => none
  | t :: ts => some ((latest? ts).elim t (later t))

/-! ### Calendar -/

/-- Year, month and day of a day counted from the epoch.  Years are taken to start in March, so
that the odd day of a leap year is the last one. -/
def civil (day : Nat) : Nat × Nat × Nat :=
  let z := day + 719468
  let era := z / 146097
  let doe := z % 146097
  let yoe := (doe - doe / 1460 + doe / 36524 - doe / 146096) / 365
  let doy := doe - (365 * yoe + yoe / 4 - yoe / 100)
  let mp := (5 * doy + 2) / 153
  let d := doy - (153 * mp + 2) / 5 + 1
  let m := if mp < 10 then mp + 3 else mp - 9
  let y := yoe + era * 400
  (if m ≤ 2 then y + 1 else y, m, d)

/-- Date and time of day in UTC; times before the epoch are shown as the epoch. -/
def calendar (t : Time) : String :=
  let s := t.seconds.toNat
  let (y, m, d) := civil (s / 86400)
  let r := s % 86400
  let two := Decimal.padded 2
  Decimal.padded 4 y ++ "-" ++ two m ++ "-" ++ two d ++ "T" ++ two (r / 3600) ++ ":" ++
    two (r % 3600 / 60) ++ ":" ++ two (r % 60) ++ "Z"

end Time

end Rebuild
