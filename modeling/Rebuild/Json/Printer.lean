/-
Structured data as JSON text.

* `Json.quote` — a text between quotes; quotes, backslashes and control characters are escaped;
* `Json.compact` — everything on one line;
* `Json.pretty` — one item a line, two blanks for each level.
-/
import Rebuild.Value
import Rebuild.Text.Utf8

set_option autoImplicit false

namespace Rebuild.Json

def escape (c : Char) : List Char :=
  if c = '"' then ['\\', '"']
  else if c = '\\' then ['\\', '\\']
  else if c = '\n' then ['\\', 'n']
  else if c = '\r' then ['\\', 'r']
  else if c = '\t' then ['\\', 't']
  else if c.toNat = 8 then ['\\', 'b']
  else if c.toNat = 12 then ['\\', 'f']
  else if c.toNat < 32 then
    ['\\', 'u', '0', '0', Text.hexDigit (c.toNat / 16), Text.hexDigit (c.toNat % 16)]
  else [c]

def quote (s : String) : String :=
  String.ofList ('"' :: s.toList.flatMap escape ++ ['"'])

/-! ### One line -/

mutual

def compact : Value → String
  | .null => "null"
  | .bool b => if b then "true" else "false"
  | .int n => toString n
  | .float shown => shown
  | .date => "null"
  | .unreadable => "null"
  | .str text => quote text
  | .list items => "[" ++ ",".intercalate (compactItems items) ++ "]"
  | .record fields => "\x7b" ++ ",".intercalate (compactFields fields) ++ "\x7d"

def compactItems : List Value → List String
  | [] => []
  | v :: vs => compact v :: compactItems vs

def compactFields : List (String × Value) → List String
  | [] => []
  | f :: fs => compactField f :: compactFields fs

def compactField : String × Value → String
  | (name, v) => quote name ++ ":" ++ compact v

end

/-! ### Many lines -/

def indent (level : Nat) : String :=
  String.ofList (List.replicate (2 * level) ' ')

/-- Puts items on lines of their own between an opening and a closing mark. -/
def block (level : Nat) (opening closing : String) (items : List String) : String :=
  if items.isEmpty then opening ++ closing
  else
    opening ++ "\n" ++ indent (level + 1) ++ (",\n" ++ indent (level + 1)).intercalate items ++
      "\n" ++ indent level ++ closing

mutual

def prettyAt (level : Nat) : Value → String
  | .list items => block level "[" "]" (prettyItems (level + 1) items)
  | .record fields => block level "\x7b" "\x7d" (prettyFields (level + 1) fields)
  | .null => "null"
  | .bool b => if b then "true" else "false"
  | .int n => toString n
  | .float shown => shown
  | .date => "null"
  | .unreadable => "null"
  | .str text => quote text

def prettyItems (level : Nat) : List Value → List String
  | [] => []
  | v :: vs => prettyAt level v :: prettyItems level vs

def prettyFields (level : Nat) : List (String × Value) → List String
  | [] => []
  | f :: fs => prettyField level f :: prettyFields level fs

def prettyField (level : Nat) : String × Value → String
  | (name, v) => quote name ++ ": " ++ prettyAt level v

end

def pretty (v : Value) : String := prettyAt 0 v

end Rebuild.Json
