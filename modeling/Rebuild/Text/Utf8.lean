/-
Text in bytes.

* `Bytes`, `encode` — a text as UTF-8;
* `decode?` — reads UTF-8 strictly;
* `decodeLossy` — reads UTF-8 and puts a replacement character for **each longest piece that starts
  a character but does not finish it**, or for each byte that starts none;
* `toHex`, `ofHex?` — two hexadecimal digits for each byte;
* `ofDigits` — a number from its digits.
-/

set_option autoImplicit false

namespace Rebuild

/-- The content of a file or a message. -/
abbrev Bytes := List UInt8

namespace Text

def encode (s : String) : Bytes :=
  s.toUTF8.toList

def decode? (b : Bytes) : Option String :=
  String.fromUTF8? ⟨b.toArray⟩

/-! ### Lossy reading -/

/-- A byte that can follow the first byte of a character. -/
def isContinuation (b : UInt8) : Bool :=
  0x80 ≤ b && b ≤ 0xBF

/-- The second bytes that a first byte admits: short forms, surrogates and too large code points
are ruled out here. -/
def admitsSecond (first second : UInt8) : Bool :=
  if first = 0xE0 then 0xA0 ≤ second && second ≤ 0xBF
  else if first = 0xED then 0x80 ≤ second && second ≤ 0x9F
  else if first = 0xF0 then 0x90 ≤ second && second ≤ 0xBF
  else if first = 0xF4 then 0x80 ≤ second && second ≤ 0x8F
  else isContinuation second

/-- How many bytes the character that starts with `b` has; none if no character does. -/
def sequenceLength? (b : UInt8) : Option Nat :=
  if b ≤ 0x7F then some 1
  else if 0xC2 ≤ b && b ≤ 0xDF then some 2
  else if 0xE0 ≤ b && b ≤ 0xEF then some 3
  else if 0xF0 ≤ b && b ≤ 0xF4 then some 4
  else none

def replacement : Char := Char.ofNat 0xFFFD

/-- The six bits that a continuation byte carries. -/
def payload (b : UInt8) : Nat := b.toNat % 64

/-- Takes one character, or one faulty piece, from the front of the bytes. -/
def takeChar (b : UInt8) (rest : Bytes) : Char × Bytes :=
  match sequenceLength? b, rest with
  | some 1, rest => (Char.ofNat b.toNat, rest)
  | some 2, c :: rest =>
    if isContinuation c then (Char.ofNat (b.toNat % 32 * 64 + payload c), rest)
    else (replacement, c :: rest)
  | some 3, c :: d :: rest =>
    if !admitsSecond b c then (replacement, c :: d :: rest)
    else if !isContinuation d then (replacement, d :: rest)
    else (Char.ofNat ((b.toNat % 16 * 64 + payload c) * 64 + payload d), rest)
  | some 3, [c] => if admitsSecond b c then (replacement, []) else (replacement, [c])
  | some 4, c :: d :: e :: rest =>
    if !admitsSecond b c then (replacement, c :: d :: e :: rest)
    else if !isContinuation d then (replacement, d :: e :: rest)
    else if !isContinuation e then (replacement, e :: rest)
    else (Char.ofNat (((b.toNat % 8 * 64 + payload c) * 64 + payload d) * 64 + payload e), rest)
  | some 4, [c, d] =>
    if !admitsSecond b c then (replacement, [c, d])
    else if !isContinuation d then (replacement, [d])
    else (replacement, [])
  | some 4, [c] => if admitsSecond b c then (replacement, []) else (replacement, [c])
  | _, rest => (replacement, rest)

theorem length_takeChar_le (b : UInt8) (rest : Bytes) :
    (takeChar b rest).2.length ≤ rest.length := by
  unfold takeChar
  split <;> grind

def decodeLossyChars : Bytes → List Char
  | [] => []
  | b :: rest =>
    (takeChar b rest).1 :: decodeLossyChars (takeChar b rest).2
termination_by b => b.length
decreasing_by
  have := length_takeChar_le b rest
  simp
  omega

def decodeLossy (b : Bytes) : String :=
  String.ofList (decodeLossyChars b)

/-! ### Hexadecimal -/

def hexDigit (n : Nat) : Char :=
  if n < 10 then Char.ofNat (48 + n) else Char.ofNat (87 + n)

/-- Lower case, two digits for each byte. -/
def toHex (b : Bytes) : String :=
  String.ofList (b.flatMap fun x => [hexDigit (x.toNat / 16), hexDigit (x.toNat % 16)])

def hexValue? (c : Char) : Option Nat :=
  if '0' ≤ c ∧ c ≤ '9' then some (c.toNat - 48)
  else if 'a' ≤ c ∧ c ≤ 'f' then some (c.toNat - 87)
  else if 'A' ≤ c ∧ c ≤ 'F' then some (c.toNat - 55)
  else none

def isHexDigit (c : Char) : Bool := (hexValue? c).isSome

/-- The number that digits stand for in a base of at most sixteen. -/
def ofDigits (radix : Nat) (ds : List Char) : Nat :=
  ds.foldl (fun n d => n * radix + (hexValue? d).getD 0) 0

def bytesOfHex? : List Char → Option Bytes
  | [] => some []
  | [_] => none
  | h :: l :: rest => do
    let high ← hexValue? h
    let low ← hexValue? l
    let tail ← bytesOfHex? rest
    pure (UInt8.ofNat (high * 16 + low) :: tail)

def ofHex? (s : String) : Option Bytes :=
  bytesOfHex? s.toList

end Text

end Rebuild
