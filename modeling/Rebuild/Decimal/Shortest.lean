/-
The shortest decimal that reads back as a given number of 53 bits.

* `shortest` — the fewest digits that lie nearer to the number than to any other, and of these the
  nearest to it;
* `Binary.render` — a number in its shortest form: in positional notation, always with a point, or as
  a power of ten if it is very large or very small.
-/
import Rebuild.Decimal.Rounding

set_option autoImplicit false

namespace Rebuild.Decimal

/-- The numbers that round to `b` form an interval around it; its ends, as numerators over
`4 * b.den`.  Below a power of two the neighbours are twice as close. -/
def interval (b : Binary) : Nat × Nat :=
  let unit := 1 <<< b.exponent.toNat
  let below := if b.mantissa = 1 <<< 52 ∧ -1074 < b.exponent then unit else 2 * unit
  (4 * b.num - below, 4 * b.num + 2 * unit)

/-- Whether `num / den` rounds to `b`; the ends belong to an even mantissa. -/
def readsBack (b : Binary) (num den : Nat) : Bool :=
  let (low, high) := interval b
  let x := 4 * b.den * num
  if b.mantissa % 2 = 0 then low * den ≤ x && x ≤ high * den
  else low * den < x && x < high * den

/-- The point of the grid `10 ^ scale` that is nearest to `b` among those that read back. -/
def candidate? (b : Binary) (scale : Int) : Option Nat :=
  let up := tenTo scale.toNat
  let down := tenTo (-scale).toNat
  let q := b.num * down / (b.den * up)
  let fits (n : Nat) := readsBack b (n * up) down
  match fits q && q ≠ 0, fits (q + 1) with
  | true, true => some (roundDiv (b.num * down) (b.den * up))
  | true, false => some q
  | false, true => some (q + 1)
  | false, false => none

/-- Tries grids from coarse to fine. -/
def firstGrid (b : Binary) : List Int → Nat × Int
  | [] => (b.num, 0)
  | scale :: finer =>
    match candidate? b scale with
    | some n => (n, scale)
    | none => firstGrid b finer

/-- Digits and scale of the shortest decimal for a number that is not zero. -/
def shortest (b : Binary) : Nat × Int :=
  let top : Int := (Nat.toDigits 10 (b.num / b.den)).length
  firstGrid b ((List.range 400).map fun (n : Nat) => top - (n : Int))

/-! ### Written form -/

/-- Digits at a scale in positional notation with a point. -/
def positional (digits : Nat) (scale : Int) : String :=
  if 0 ≤ scale then toString (digits * tenTo scale.toNat) ++ ".0"
  else
    let unit := tenTo (-scale).toNat
    toString (digits / unit) ++ "." ++ padded (-scale).toNat (digits % unit)

/-- Digits with a point after the first one, if there are more, and a power of ten with its sign. -/
def scientific (digits : Nat) (power : Int) : String :=
  let fraction := (Nat.toDigits 10 digits).drop 1
  let mantissa := (Nat.toDigits 10 digits).take 1 ++ if fraction.isEmpty then [] else '.' :: fraction
  String.ofList mantissa ++ "e" ++ (if power < 0 then "-" else "+") ++ toString power.natAbs

/-- Writes a number: **in positional notation from a hundred-thousandth up to sixteen places before the
point**, and as a power of ten beyond that. -/
def render (digits : Nat) (scale : Int) : String :=
  let power := scale + (Nat.toDigits 10 digits).length - 1
  if -5 ≤ power ∧ power ≤ 15 then positional digits scale else scientific digits power

/-- A number with its sign, as briefly as it reads back; zero has a sign too. -/
def Binary.render (negative : Bool) (b : Binary) : String :=
  let body := if b.isZero then "0.0" else Decimal.render (shortest b).1 (shortest b).2
  if negative then "-" ++ body else body

end Rebuild.Decimal
