/-
Text in TOML, and what all its readers share.

* `Toml.Error` — why a text is not TOML;
* `Toml.Reader` — takes characters from the front of a list and gives back the rest;
* `Toml.text?` — text in one of its four forms.

Where a reader calls itself on what another reader left, it counts down a bound on the characters left.
-/
import Rebuild.Text.Utf8

set_option autoImplicit false

namespace Rebuild.Toml

inductive Error where
  | invalidCharacter
  | invalidEscape
  | unterminatedText
  | invalidKey
  | invalidValue
  | unterminatedList
  | unterminatedTable
  | trailingText
  | duplicateKey (name : String)
  | notATable (name : String)
  | tooDeep
deriving DecidableEq, Repr

def Error.message : Error → String
  | .invalidCharacter => "invalid character"
  | .invalidEscape => "invalid escape sequence"
  | .unterminatedText => "unterminated string"
  | .invalidKey => "invalid key"
  | .invalidValue => "invalid value"
  | .unterminatedList => "unterminated array"
  | .unterminatedTable => "unterminated inline table"
  | .trailingText => "unexpected text after the value"
  | .duplicateKey name => "duplicate key `" ++ name ++ "`"
  | .notATable name => "`" ++ name ++ "` cannot be extended"
  | .tooDeep => "too many levels"

/-- A reader takes characters from the front. -/
abbrev Reader (α : Type) := List Char → Except Error (α × List Char)

/-! ### Characters -/

def isBlank (c : Char) : Bool := c == ' ' || c == '\t'

def skipBlanks (cs : List Char) : List Char := cs.dropWhile isBlank

/-- Printable characters and the tab; line ends and control characters are not plain. -/
def isPlain (c : Char) : Bool :=
  c == '\t' || (0x20 ≤ c.toNat && c.toNat ≠ 0x7F)

/-- The rest after a line end. -/
def lineEnd? : List Char → Option (List Char)
  | '\n' :: rest => some rest
  | '\r' :: '\n' :: rest => some rest
  | _ => none

/-! ### Text -/

def hexOf? (width : Nat) (cs : List Char) : Option (Nat × List Char) := do
  let digits := cs.take width
  let values ← digits.mapM Text.hexValue?
  if digits.length = width then some (values.foldl (fun n d => n * 16 + d) 0, cs.drop width) else none

/-- A character given by its number. -/
def numbered (width : Nat) : Reader Char := fun cs =>
  match hexOf? width cs with
  | some (n, rest) => if n.isValidChar then .ok (Char.ofNat n, rest) else .error .invalidEscape
  | none => .error .invalidEscape

/-- What follows a backslash. -/
def escape : Reader Char
  | 'b' :: rest => .ok (Char.ofNat 8, rest)
  | 't' :: rest => .ok ('\t', rest)
  | 'n' :: rest => .ok ('\n', rest)
  | 'f' :: rest => .ok (Char.ofNat 12, rest)
  | 'r' :: rest => .ok ('\r', rest)
  | 'e' :: rest => .ok (Char.ofNat 27, rest)
  | '"' :: rest => .ok ('"', rest)
  | '\\' :: rest => .ok ('\\', rest)
  | 'x' :: rest => numbered 2 rest
  | 'u' :: rest => numbered 4 rest
  | 'U' :: rest => numbered 8 rest
  | _ => .error .invalidEscape

/-- Text in double quotes on one line. -/
def basic : (bound : Nat) → (acc : List Char) → Reader String
  | 0, _ => fun _ => .error .unterminatedText
  | bound + 1, acc => fun
    | [] => .error .unterminatedText
    | '"' :: rest => .ok (String.ofList acc.reverse, rest)
    | '\\' :: rest => do
      let (c, rest) ← escape rest
      basic bound (c :: acc) rest
    | c :: rest => if isPlain c then basic bound (c :: acc) rest else .error .invalidCharacter

/-- Text in single quotes on one line. -/
def literal (acc : List Char) : Reader String
  | [] => .error .unterminatedText
  | '\'' :: rest => .ok (String.ofList acc.reverse, rest)
  | c :: rest => if isPlain c then literal (c :: acc) rest else .error .invalidCharacter

/-- The quotes at the front end the text if there are three; up to two before them belong to it. -/
def closing (quote : Char) (cs : List Char) : Nat × Bool :=
  let n := (cs.takeWhile (· == quote)).length
  if n < 3 then (n, false) else (min (n - 3) 2, true)

/-- The rest after blanks and line ends. -/
def skipBlankLines : List Char → List Char
  | '\r' :: '\n' :: rest => skipBlankLines rest
  | c :: rest => if isBlank c || c == '\n' then skipBlankLines rest else c :: rest
  | [] => []

/-- After a backslash at the end of a line: the rest of the line and all blank space after it. -/
def foldLine? (cs : List Char) : Option (List Char) :=
  (lineEnd? (skipBlanks cs)).map skipBlankLines

/-- Text over several lines. -/
def multiline (quote : Char) (escapes : Bool) : (bound : Nat) → (acc : List Char) → Reader String
  | 0, _ => fun _ => .error .unterminatedText
  | bound + 1, acc => fun cs =>
    match cs with
    | [] => .error .unterminatedText
    | c :: rest =>
      if c = quote then
        let (n, ends) := closing quote cs
        let acc := List.replicate n quote ++ acc
        if ends then .ok (String.ofList acc.reverse, cs.drop (n + 3))
        else multiline quote escapes bound acc (cs.drop n)
      else if c = '\\' ∧ escapes then
        match foldLine? rest with
        | some rest => multiline quote escapes bound acc rest
        | none => do
          let (c, rest) ← escape rest
          multiline quote escapes bound (c :: acc) rest
      else if c = '\n' ∨ isPlain c then multiline quote escapes bound (c :: acc) rest
      else match cs with
        | '\r' :: '\n' :: rest => multiline quote escapes bound ('\n' :: '\r' :: acc) rest
        | _ => .error .invalidCharacter

/-- A line end right after the opening quotes is no part of the text. -/
def skipFirstLineEnd (cs : List Char) : List Char := (lineEnd? cs).getD cs

/-- Text in any of its forms; none if there is no quote. -/
def text? (cs : List Char) : Option (Except Error (String × List Char)) :=
  match cs with
  | '"' :: '"' :: '"' :: rest => some (multiline '"' true (rest.length + 1) [] (skipFirstLineEnd rest))
  | '\'' :: '\'' :: '\'' :: rest =>
    some (multiline '\'' false (rest.length + 1) [] (skipFirstLineEnd rest))
  | '"' :: rest => some (basic (rest.length + 1) [] rest)
  | '\'' :: rest => some (literal [] rest)
  | _ => none

end Rebuild.Toml
