/-
Decimal digits read into 53 bits.

* `nearest?` — the number nearest to `digits · 10 ^ scale`;
* `Significand`, `Significand.push`, `Significand.pushFraction` — **the leading digits that fit a word
  of 64 bits**; digits after them count as places only;
* `Significand.value?` — the significand times a power of ten, each of them rounded before they meet.
  This is quick to compute and may miss the nearest number by a little.
-/
import Rebuild.Decimal.Rounding
import Rebuild.Duration

set_option autoImplicit false

namespace Rebuild.Decimal

/-- The value of a digit. -/
def digitValue (c : Char) : Nat := c.toNat - 48

/-- The number nearest to `digits * 10 ^ scale`; none from `2 ^ 1024` on.  The number of places before
the point settles this for numbers far beyond the range, as it does for those that round to zero. -/
def nearest? (digits : Nat) (scale : Int) : Option Binary :=
  let places := scale + (Nat.toDigits 10 digits).length
  if digits = 0 ∨ places < -400 then some ⟨0, 0⟩
  else if 400 < places then none
  else
    let b := Binary.ofRatio (digits * tenTo scale.toNat) (tenTo (-scale).toNat)
    if b.isFinite then some b else none

/-! ### Quick reading -/

/-- Digits that fit into 64 bits, and the power of ten they are meant to be multiplied by. -/
structure Significand where
  digits : Nat
  power : Int
  /-- A digit did not fit any more. -/
  full : Bool
deriving DecidableEq, Repr

namespace Significand

def empty : Significand := ⟨0, 0, false⟩

/-- Whether one more digit fits. -/
def admits (s : Significand) (c : Char) : Bool :=
  !s.full && s.digits * 10 + digitValue c < wordBound

/-- Adds a digit before the point. -/
def push (s : Significand) (c : Char) : Significand :=
  if s.admits c then { s with digits := s.digits * 10 + digitValue c }
  else { s with power := s.power + 1, full := true }

/-- Adds a digit after the point. -/
def pushFraction (s : Significand) (c : Char) : Significand :=
  if s.admits c then { s with digits := s.digits * 10 + digitValue c, power := s.power - 1 }
  else { s with full := true }

/-- Reads the digits before and after the point.  Those after the point are added afresh, since one of
them may still fit where one before the point did not. -/
def ofDigits (whole fraction : List Char) : Significand :=
  fraction.foldl pushFraction { whole.foldl push empty with full := false }

/-- Multiplies by a power of ten. -/
def scale (s : Significand) (power : Int) : Significand := { s with power := s.power + power }

/-- The largest power of ten that is multiplied or divided by at once. -/
def maxPower : Nat := 308

/-- The nearest number to a power of ten. -/
def powerOfTen (n : Nat) : Binary := .ofNat (tenTo n)

/-- Divides by a power of ten, at most `maxPower` places at a time; `bound` counts the divisions. -/
def divide (b : Binary) : (bound : Nat) → (places : Nat) → Binary
  | 0, places => b.div (powerOfTen (min places maxPower))
  | bound + 1, places =>
    if places ≤ maxPower then b.div (powerOfTen places)
    else if b.isZero then b
    else divide (b.div (powerOfTen maxPower)) bound (places - maxPower)

/-- The value, with one rounding for each step; none if it is too large. -/
def value? (s : Significand) : Option Binary :=
  let b := Binary.ofNat s.digits
  if s.power < 0 then some (divide b (-s.power).toNat (-s.power).toNat)
  else if b.isZero then some b
  else if (maxPower : Int) < s.power then none
  else
    let product := b.mul (powerOfTen s.power.toNat)
    if product.isFinite then some product else none

end Significand

end Rebuild.Decimal
