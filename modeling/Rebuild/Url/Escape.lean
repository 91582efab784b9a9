/-
Bytes written as percent signs and two hexadecimal digits.

* `Url.percent`, `Url.escape` — writes characters outside printable ASCII, and some others, that way;
* `Url.unescape` — the bytes that such a text stands for; a percent sign without two digits is itself.
-/
import Rebuild.Text.Utf8

set_option autoImplicit false

namespace Rebuild.Url

/-- Writes a character as percent signs and upper-case hexadecimal bytes. -/
def percent (c : Char) : List Char :=
  (Text.encode (String.singleton c)).flatMap fun b =>
    '%' :: [Text.hexDigit (b.toNat / 16), Text.hexDigit (b.toNat % 16)].map Char.toUpper

/-- Control characters and all beyond ASCII; the blank is none of them. -/
def isControl (c : Char) : Bool := c.toNat < 0x20 || 0x7F ≤ c.toNat

/-- Escapes control characters, all beyond ASCII, and the characters listed. -/
def escape (reserved : List Char) (cs : List Char) : List Char :=
  cs.flatMap fun c => if isControl c || reserved.contains c then percent c else [c]

def unescape : List Char → Bytes
  | '%' :: h :: l :: rest =>
    match Text.hexValue? h, Text.hexValue? l with
    | some a, some b => UInt8.ofNat (a * 16 + b) :: unescape rest
    | _, _ => 37 :: unescape (h :: l :: rest)
  | c :: rest => Text.encode (String.singleton c) ++ unescape rest
  | [] => []

/-! ### What is reserved where -/

def fragmentReserved : List Char := [' ', '"', '<', '>', '`']

def queryReserved : List Char := [' ', '"', '#', '<', '>']

def pathReserved : List Char := fragmentReserved ++ ['#', '?', '{', '}']

def credentialReserved : List Char :=
  pathReserved ++ ['/', ':', ';', '=', '@', '[', '\\', ']', '^', '|']

end Rebuild.Url
