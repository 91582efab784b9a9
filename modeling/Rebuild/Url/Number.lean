/-
Hosts that are numbers.

* `Url.ipv4?` — an address of 32 bits in up to four parts, each decimal, octal or hexadecimal; **the last
  part fills all the bytes that are left**;
* `Url.ipv6?` — eight groups of 16 bits, of which one run of zeros may be left out;
* `Url.renderIpv4`, `Url.renderIpv6` — the one form in which they are shown.
-/
import Rebuild.Text.Utf8

set_option autoImplicit false

namespace Rebuild.Url

/-- Cuts at a mark.  There is one piece more than marks. -/
def cutAt (isMark : Char → Bool) : List Char → List (List Char)
  | [] => [[]]
  | c :: cs =>
    if isMark c then [] :: cutAt isMark cs
    else match cutAt isMark cs with
      | [] => [[c]]
      | s :: ss => (c :: s) :: ss

def isOctalDigit (c : Char) : Bool := '0' ≤ c && c ≤ '7'

/-! ### Four bytes -/

/-- One part; a zero in front makes it octal, and a zero and an `x` hexadecimal. -/
def ipv4Part? : List Char → Option Nat
  | [] => none
  | '0' :: 'x' :: ds => if ds.all Text.isHexDigit then some (Text.ofDigits 16 ds) else none
  | '0' :: d :: ds => if (d :: ds).all isOctalDigit then some (Text.ofDigits 8 (d :: ds)) else none
  | ds => if ds.all Char.isDigit then some (Text.ofDigits 10 ds) else none

/-- The labels of a host name; a dot at the end makes no label. -/
def labels (host : List Char) : List (List Char) :=
  let ls := cutAt (· == '.') host
  if ls.getLast? = some [] then ls.dropLast else ls

/-- Whether the name has to be read as an address: its last label is a number. -/
def endsInNumber (host : List Char) : Bool :=
  match (labels host).getLast? with
  | none => false
  | some l => (!l.isEmpty && l.all Char.isDigit) || (ipv4Part? l).isSome

/-- Adds parts of one byte each to a number, `place` being the bytes to the right of the first. -/
def addBytes (n : Nat) : (place : Nat) → List Nat → Nat
  | _, [] => n
  | place, b :: bs => addBytes (n + (b <<< (8 * place))) (place - 1) bs

def ipv4? (host : List Char) : Option Nat := do
  let parts ← (labels host).mapM ipv4Part?
  let last ← parts.getLast?
  let bytes := parts.dropLast
  if bytes.length ≤ 3 ∧ last < 1 <<< (8 * (4 - bytes.length)) ∧ bytes.all (· < 256) then
    some (addBytes last 3 bytes)
  else none

def renderIpv4 (n : Nat) : String :=
  ".".intercalate ([24, 16, 8, 0].map fun shift => toString (n >>> shift % 256))

/-! ### Eight groups -/

/-- A group of up to four hexadecimal digits. -/
def group? (cs : List Char) : Option Nat :=
  if !cs.isEmpty && cs.length ≤ 4 && cs.all Text.isHexDigit then some (Text.ofDigits 16 cs) else none

/-- A byte in decimal digits, without needless zeros. -/
def byte? (cs : List Char) : Option Nat :=
  let n := Text.ofDigits 10 cs
  if !cs.isEmpty && cs.all Char.isDigit && (cs.head? ≠ some '0' || cs.length = 1) && n < 256 then some n
  else none

/-- Two groups written as four bytes. -/
def dottedGroups? (cs : List Char) : Option (List Nat) := do
  match ← (cutAt (· == '.') cs).mapM byte? with
  | [a, b, c, d] => some [a * 256 + b, c * 256 + d]
  | _ => none

/-- Groups with colons between them; the last may be written as bytes. -/
def groups? : List (List Char) → Option (List Nat)
  | [] => some []
  | [last] => if last.contains '.' then dottedGroups? last else (group? last).map ([·])
  | g :: gs => do
    let n ← group? g
    let ns ← groups? gs
    some (n :: ns)

/-- The characters before and after the first double colon. -/
def cutAtGap : List Char → Option (List Char × List Char)
  | ':' :: ':' :: rest => some ([], rest)
  | c :: cs => (cutAtGap cs).map fun p => (c :: p.1, p.2)
  | [] => none

/-- Groups on one side of the gap, where there may be none. -/
def side? (cs : List Char) : Option (List Nat) :=
  if cs.isEmpty then some [] else groups? (cutAt (· == ':') cs)

def ipv6? (cs : List Char) : Option (List Nat) :=
  match cutAtGap cs with
  | none => do
    let gs ← groups? (cutAt (· == ':') cs)
    if gs.length = 8 then some gs else none
  | some (before, after) => do
    if before.contains '.' then none
    else
      let left ← side? before
      let right ← side? after
      if left.length + right.length < 8 then
        some (left ++ List.replicate (8 - left.length - right.length) 0 ++ right)
      else none

/-- Start and length of the first longest run of zeros. -/
def zeroRun (gs : List Nat) : Nat × Nat :=
  (List.range gs.length).foldl
    (fun best i =>
      let n := ((gs.drop i).takeWhile (· == 0)).length
      if best.2 < n then (i, n) else best)
    (0, 0)

def renderGroups (gs : List Nat) : String :=
  ":".intercalate (gs.map fun n => String.ofList (Nat.toDigits 16 n))

/-- A run of two zeros or more is left out. -/
def renderIpv6 (gs : List Nat) : String :=
  let (start, length) := zeroRun gs
  if length < 2 then renderGroups gs
  else renderGroups (gs.take start) ++ "::" ++ renderGroups (gs.drop (start + length))

end Rebuild.Url
