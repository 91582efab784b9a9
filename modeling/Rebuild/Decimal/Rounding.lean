/-
Rounding quotients, and printing them with a fixed number of places.

* `roundDiv` — the natural number nearest to a quotient, **a tie goes to the even one**;
* `fixed` — a quotient with a fixed number of places;
* `Binary` — a number `mantissa · 2 ^ exponent` with at most 53 bits, and `Binary.ofRatio`, the one
  nearest to a quotient.  Sizes and elapsed times pass through such numbers before they are printed;
* `Binary.mul`, `Binary.div` — products and quotients, rounded once.
-/

set_option autoImplicit false

namespace Rebuild.Decimal

/-- A power of ten. -/
def tenTo : Nat → Nat
  | 0 => 1
  | n + 1 => 10 * tenTo n

/-- The natural number nearest to `num / den`; a tie goes to the even neighbour. -/
def roundDiv (num den : Nat) : Nat :=
  let q := num / den
  let r := num % den
  if 2 * r < den then q
  else if den < 2 * r then q + 1
  else if q % 2 = 0 then q else q + 1

/-- The digits of `n`, with zeros in front up to the given width. -/
def padded (width n : Nat) : String :=
  let digits := Nat.toDigits 10 n
  String.ofList (List.replicate (width - digits.length) '0' ++ digits)

/-- The quotient `num / den` with the given number of places after the point. -/
def fixed (places num den : Nat) : String :=
  let scaled := roundDiv (num * tenTo places) den
  let unit := tenTo places
  toString (scaled / unit) ++ "." ++ padded places (scaled % unit)

/-! ### Numbers of 53 bits -/

structure Binary where
  mantissa : Nat
  exponent : Int
deriving DecidableEq, Repr

namespace Binary

/-- The value as a quotient. -/
def num (b : Binary) : Nat := b.mantissa <<< b.exponent.toNat

@[inherit_doc num]
def den (b : Binary) : Nat := 1 <<< (-b.exponent).toNat

/-- Rounds `num / den` to a multiple of `2 ^ exponent`.  A mantissa that is rounded up to 54 bits is a
power of two and is halved. -/
def atScale (num den : Nat) (exponent : Int) : Binary :=
  let m := roundDiv (num <<< (-exponent).toNat) (den <<< exponent.toNat)
  if m = 1 <<< 53 then ⟨1 <<< 52, exponent + 1⟩ else ⟨m, exponent⟩

/-- The exponent at which `num / den` has a whole part of 53 bits, but never below `least`. -/
def scaleOf (least : Int) (num den : Nat) : Int :=
  let guess : Int := (Nat.log2 num : Int) - (Nat.log2 den : Int) - 52
  let scaled := (num <<< (-guess).toNat) / (den <<< guess.toNat)
  max least (if scaled < 1 <<< 52 then guess - 1 else guess)

/-- The number of 53 bits nearest to `num / den`. -/
def ofRatio (num den : Nat) : Binary :=
  if num = 0 then ⟨0, 0⟩ else atScale num den (scaleOf (-1074) num den)

/-- The number of 53 bits nearest to a natural number. -/
def ofNat (n : Nat) : Binary := ofRatio n 1

/-- The product, rounded. -/
def mul (a b : Binary) : Binary := ofRatio (a.num * b.num) (a.den * b.den)

/-- The quotient, rounded. -/
def div (a b : Binary) : Binary := ofRatio (a.num * b.den) (a.den * b.num)

def isZero (b : Binary) : Bool := b.mantissa == 0

/-- Below `2 ^ 1024`, where the numbers that can be stored end. -/
def isFinite (b : Binary) : Bool := b.num < b.den <<< 1024

/-- Adds a natural number and rounds again. -/
def addNat (b : Binary) (n : Nat) : Binary :=
  ofRatio (n * b.den + b.num) b.den

/-- The quotient `b / n` with the given number of places. -/
def fixed (places : Nat) (b : Binary) (n : Nat) : String :=
  Decimal.fixed places b.num (b.den * n)

end Binary

end Rebuild.Decimal
