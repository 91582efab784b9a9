/-
Host names in the one form in which they are looked up.

* `Domain.fold?` — a character in lower case; none if no name may hold it;
* `Domain.ofBytes?` — **a name in lower-case ASCII**, where labels with other letters are encoded.

Letters beyond ASCII change their case in the Latin, Greek, Cyrillic and Armenian alphabets; wide forms
of ASCII become ASCII.
-/
import Rebuild.Url.Number
import Rebuild.Url.Punycode

set_option autoImplicit false

namespace Rebuild.Domain

/-! ### Characters -/

/-- Whether a number is in one of the ranges. -/
def within (ranges : List (Nat × Nat)) (n : Nat) : Bool :=
  ranges.any fun r => r.1 ≤ n && n ≤ r.2

/-- Where capital letters stand right before the small ones, the capitals being even. -/
def evenPairs : List (Nat × Nat) :=
  [(0x100, 0x12F), (0x132, 0x137), (0x14A, 0x177), (0x1DE, 0x1EF), (0x1F8, 0x21F), (0x222, 0x233),
   (0x3D8, 0x3EF), (0x460, 0x481), (0x48A, 0x4BF), (0x4D0, 0x52F), (0x1E00, 0x1E95), (0x1EA0, 0x1EFF)]

/-- As `evenPairs`, the capitals being odd. -/
def oddPairs : List (Nat × Nat) := [(0x139, 0x148), (0x179, 0x17E), (0x1CD, 0x1DC), (0x4C1, 0x4CE)]

/-- Ranges of capitals with the distance to their small letters. -/
def shifted : List (Nat × Nat × Nat) :=
  [(0x41, 0x5A, 32), (0xC0, 0xD6, 32), (0xD8, 0xDE, 32), (0x388, 0x38A, 37), (0x38C, 0x38C, 64),
   (0x38E, 0x38F, 63), (0x386, 0x386, 38), (0x391, 0x3A1, 32), (0x3A3, 0x3AB, 32), (0x400, 0x40F, 80),
   (0x410, 0x42F, 32), (0x531, 0x556, 48)]

/-- The small letter of a capital, by code point. -/
def lower (n : Nat) : Nat :=
  match shifted.find? fun r => r.1 ≤ n && n ≤ r.2.1 with
  | some r => n + r.2.2
  | none =>
    if within evenPairs n then (if n % 2 = 0 then n + 1 else n)
    else if within oddPairs n then (if n % 2 = 1 then n + 1 else n)
    else if n = 0x178 then 0xFF
    else if n = 0x4C0 then 0x4CF
    else n

/-- Characters that leave no trace in a name. -/
def isIgnored (n : Nat) : Bool :=
  [0xAD, 0x200B, 0x2060, 0x2064, 0xFEFF].contains n || within [(0xFE00, 0xFE0F)] n

/-- Characters beyond ASCII that stand for a dot. -/
def isDot (n : Nat) : Bool := [0x3002, 0xFF0E, 0xFF61].contains n

/-- Control characters, blanks, private characters and those that stand for none. -/
def isRefused (n : Nat) : Bool :=
  within
    [(0x80, 0xA0), (0x2000, 0x200A), (0x200E, 0x200F), (0x2028, 0x202F), (0x205F, 0x205F),
     (0x3000, 0x3000), (0xE000, 0xF8FF), (0xFDD0, 0xFDEF), (0xFFF0, 0xFFFF), (0xE0000, 0x10FFFF)] n

/-- ASCII characters that no name may hold. -/
def denied : List Char := ['%', '#', '/', ':', '<', '>', '?', '@', '[', '\\', ']', '^', '|']

def fold? (c : Char) : Option (List Char) :=
  let n := c.toNat
  if n ≤ 0x20 ∨ n = 0x7F ∨ denied.contains c ∨ isRefused n then none
  else if isIgnored n then some []
  else if isDot n then some ['.']
  else if 0xFF01 ≤ n ∧ n ≤ 0xFF5E then
    let c := Char.ofNat (lower (n - 0xFEE0))
    if denied.contains c then none else some [c]
  else some [Char.ofNat (lower n)]

/-! ### Labels -/

def mark : List Char := ['x', 'n', '-', '-']

/-- Marks that attach to the letter before them. -/
def isCombining (c : Char) : Bool := within [(0x300, 0x36F)] c.toNat

/-- Whether the characters stay as they are and do not start with an attached mark. -/
def isSettled (label : List Char) : Bool :=
  !label.head?.any isCombining && label.all fun c => fold? c == some [c]

/-- A folded label in ASCII.  One that is marked as encoded has to be the code of something. -/
def label? (label : List Char) : Option (List Char) :=
  if mark.isPrefixOf label then
    match Punycode.decode? (label.drop mark.length) with
    | some decoded => if isSettled decoded && !decoded.all Punycode.isAscii then some label else none
    | none => none
  else if label.all Punycode.isAscii then some label
  else if isSettled label then some (mark ++ Punycode.encode label)
  else none

def ofBytes? (bytes : Bytes) : Option (List Char) := do
  let text ← Text.decode? bytes
  let folded ← text.toList.mapM fold?
  let labels ← (Url.cutAt (· == '.') folded.flatten).mapM label?
  some (['.'].intercalate labels)

end Rebuild.Domain
