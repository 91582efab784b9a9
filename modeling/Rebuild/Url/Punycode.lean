/-
Labels of host names in ASCII letters, digits and hyphens.

The ASCII characters of a label are kept, and the others follow as a list of distances: in the order of
their code points, how many places are passed between one insertion and the next.  A distance is written
with digits of base 36 whose weights adapt to the distances before it.

* `Punycode.encode` — a label without its mark `xn--`;
* `Punycode.decode?` — the label that was encoded, if it is one.
-/

set_option autoImplicit false

namespace Rebuild.Punycode

/-- The digits are the letters and then the decimal digits. -/
def digit (n : Nat) : Char :=
  if n < 26 then Char.ofNat (97 + n) else Char.ofNat (22 + n)

def digitValue? (c : Char) : Option Nat :=
  if 'a' ≤ c ∧ c ≤ 'z' then some (c.toNat - 97)
  else if c.isDigit then some (c.toNat - 22)
  else none

/-- A digit below this one ends a distance. -/
def threshold (position bias : Nat) : Nat :=
  if position ≤ bias then 1 else if bias + 26 ≤ position then 26 else position - bias

theorem threshold_pos (position bias : Nat) : 1 ≤ threshold position bias := by
  unfold threshold
  split
  · omega
  · split <;> omega

/-! ### Weights -/

/-- Divides a distance until it is small, and counts the digits that this takes. -/
def shrink (distance count : Nat) : Nat × Nat :=
  if 455 < distance then shrink (distance / 35) (count + 36) else (distance, count)
termination_by distance
decreasing_by exact Nat.div_lt_self (by omega) (by omega)

/-- The bias after a distance, when the label has `length` characters so far. -/
def adapt (distance length : Nat) (first : Bool) : Nat :=
  let d := if first then distance / 700 else distance / 2
  let (small, count) := shrink (d + d / length) 0
  count + 36 * small / (small + 38)

/-! ### Writing -/

/-- The digits of a distance, from the one at `position` on. -/
def digits (bias position distance : Nat) : List Char :=
  let t := threshold position bias
  if distance < t then [digit distance]
  else
    digit (t + (distance - t) % (36 - t)) :: digits bias (position + 36) ((distance - t) / (36 - t))
termination_by distance
decreasing_by
  have h₁ := threshold_pos position bias
  have h₂ : (distance - threshold position bias) / (36 - threshold position bias) ≤
      distance - threshold position bias := Nat.div_le_self _ _
  omega

structure Writer where
  out : List Char
  distance : Nat
  bias : Nat
  /-- How many characters of the label are written. -/
  written : Nat

/-- Passes a character of the label, or writes it if it is the one that is due. -/
def Writer.visit (basics due : Nat) (w : Writer) (c : Char) : Writer :=
  if c.toNat < due then { w with distance := w.distance + 1 }
  else if c.toNat = due then
    ⟨w.out ++ digits w.bias 36 w.distance, 0,
      adapt w.distance (w.written + 1) (w.written == basics), w.written + 1⟩
  else w

/-- Writes the characters with the given code points, which increase from `low` on. -/
def Writer.all (label : List Char) (basics : Nat) (w : Writer) (low : Nat) : List Nat → Writer
  | [] => w
  | due :: rest =>
    let w := { w with distance := w.distance + (due - low) * (w.written + 1) }
    let w := label.foldl (Writer.visit basics due) w
    Writer.all label basics { w with distance := w.distance + 1 } (due + 1) rest

/-- Inserts into an increasing list, unless the number is there. -/
def place (n : Nat) : List Nat → List Nat
  | [] => [n]
  | m :: ms => if n < m then n :: m :: ms else if n = m then m :: ms else m :: place n ms

def isAscii (c : Char) : Bool := c.toNat < 128

def encode (label : List Char) : List Char :=
  let basics := label.filter isAscii
  let others := (label.filter (!isAscii ·)).foldl (fun ns c => place c.toNat ns) []
  let mark := if basics.isEmpty then [] else ['-']
  basics ++ mark ++ (Writer.all label basics.length ⟨[], 0, 72, basics.length⟩ 128 others).out

/-! ### Reading -/

structure Reader where
  out : List Char
  /-- The code point of the last character inserted. -/
  point : Nat
  bias : Nat
  /-- Where the last distance ended. -/
  start : Nat
  /-- The distance read so far, counted from `start`. -/
  reached : Nat
  weight : Nat
  position : Nat

/-- Takes one digit; the last digit of a distance inserts a character. -/
def Reader.take? (r : Reader) (c : Char) : Option Reader := do
  let d ← digitValue? c
  let reached := r.reached + d * r.weight
  let t := threshold r.position r.bias
  if t ≤ d then
    some { r with reached, weight := r.weight * (36 - t), position := r.position + 36 }
  else
    let length := r.out.length + 1
    let point := r.point + reached / length
    let place := reached % length
    if point.isValidChar then
      some ⟨r.out.insertIdx place (Char.ofNat point), point,
        adapt (reached - r.start) length (r.start == 0), place + 1, place + 1, 1, 36⟩
    else none

/-- The parts before and after the last hyphen. -/
def cutAtHyphen (cs : List Char) : List Char × List Char :=
  let after := (cs.reverse.takeWhile (· ≠ '-')).reverse
  (cs.take (cs.length - after.length - 1), after)

def decode? (cs : List Char) : Option (List Char) := do
  let (basics, rest) := cutAtHyphen cs
  let r ← rest.foldlM Reader.take? ⟨basics, 128, 72, 0, 0, 1, 36⟩
  if basics.all isAscii && r.position = 36 then some r.out else none

end Rebuild.Punycode
