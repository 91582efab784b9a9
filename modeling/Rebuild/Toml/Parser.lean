/-
Reading TOML text.

* `Toml.keys` — a key, which may be a path of names with dots between them;
* `Toml.value` — values; lists and inline tables may go over several lines;
* `Toml.parse` — a whole document as a record.
-/
import Rebuild.Toml.Document

set_option autoImplicit false

namespace Rebuild.Toml

/-! ### Space between things -/

/-- The rest after a comment, up to the end of its line. -/
def comment (cs : List Char) : Except Error (List Char) :=
  let rest := cs.dropWhile isPlain
  if rest.isEmpty || (lineEnd? rest).isSome then .ok rest else .error .invalidCharacter

/-- Skips blanks, line ends and comments. -/
def skipLines : (bound : Nat) → List Char → Except Error (List Char)
  | 0, cs => .ok cs
  | bound + 1, cs =>
    match skipBlanks cs with
    | '#' :: rest => do
      let rest ← comment rest
      skipLines bound rest
    | rest =>
      match lineEnd? rest with
      | some rest => skipLines bound rest
      | none => .ok rest

def skipSpace (cs : List Char) : Except Error (List Char) := skipLines (cs.length + 1) cs

/-- The rest after the end of a line, which a comment may precede. -/
def endLine (cs : List Char) : Except Error (List Char) := do
  let rest ← match skipBlanks cs with
    | '#' :: rest => comment rest
    | rest => .ok rest
  match rest with
  | [] => .ok []
  | rest =>
    match lineEnd? rest with
    | some rest => .ok rest
    | none => .error .trailingText

/-! ### Keys -/

def isBareChar (c : Char) : Bool := c.isAlphanum || c == '_' || c == '-'

/-- One name; quoted names stay on one line. -/
def key : Reader String := fun cs =>
  match cs with
  | '"' :: rest => basic (rest.length + 1) [] rest
  | '\'' :: rest => literal [] rest
  | cs =>
    let (name, rest) := cs.span isBareChar
    if name.isEmpty then .error .invalidKey else .ok (String.ofList name, rest)

/-- Names with dots between them: those before the last, and the last. -/
def keysFrom : (bound : Nat) → Reader (List String × String)
  | 0 => fun _ => .error .invalidKey
  | bound + 1 => fun cs => do
    let (name, rest) ← key cs
    match skipBlanks rest with
    | '.' :: rest =>
      let ((path, last), rest) ← keysFrom bound (skipBlanks rest)
      .ok ((name :: path, last), rest)
    | rest => .ok (([], name), rest)

/-- How many tables a key may lead through, and how many brackets may be open. -/
def maxDepth : Nat := 80

def keys : Reader (List String × String) := fun cs => do
  let ((path, last), rest) ← keysFrom (cs.length + 1) (skipBlanks cs)
  if path.length < maxDepth then .ok ((path, last), rest) else .error .tooDeep

/-! ### Values -/

/-- One bracket less may be opened. -/
def deeper : (depth : Nat) → Except Error Nat
  | 0 => .error .tooDeep
  | depth + 1 => .ok depth

mutual

/-- A value that may open `depth` brackets in one another. -/
def valueFrom : (bound depth : Nat) → Reader Value
  | 0, _ => fun _ => .error .invalidValue
  | bound + 1, depth => fun cs =>
    match text? cs with
    | some (.error e) => .error e
    | some (.ok (s, rest)) => .ok (.str s, rest)
    | none =>
      match cs with
      | '[' :: rest => do
        let depth ← deeper depth
        let (items, rest) ← itemsFrom bound depth rest
        .ok (.list items, rest)
      | '{' :: rest => do
        let depth ← deeper depth
        let (fields, rest) ← fieldsFrom bound depth [] rest
        .ok (toValue fields, rest)
      | cs => scalar cs

/-- The items of a list up to its closing bracket. -/
def itemsFrom : (bound depth : Nat) → Reader (List Value)
  | 0, _ => fun _ => .error .unterminatedList
  | bound + 1, depth => fun cs => do
    match ← skipSpace cs with
    | ']' :: rest => .ok ([], rest)
    | cs =>
      let (v, rest) ← valueFrom bound depth cs
      match ← skipSpace rest with
      | ',' :: rest =>
        let (vs, rest) ← itemsFrom bound depth rest
        .ok (v :: vs, rest)
      | ']' :: rest => .ok ([v], rest)
      | _ => .error .unterminatedList

/-- The fields of an inline table up to its closing brace.  Lines may end anywhere but inside a key. -/
def fieldsFrom : (bound depth : Nat) → Tables → Reader Tables
  | 0, _, _ => fun _ => .error .unterminatedTable
  | bound + 1, depth, fields => fun cs => do
    match ← skipSpace cs with
    | '}' :: rest => .ok (fields, rest)
    | cs =>
      let ((path, name), rest) ← keys cs
      match ← skipSpace rest with
      | '=' :: rest =>
        let (v, rest) ← valueFrom bound depth (← skipSpace rest)
        let fields ← assign name v path fields
        match ← skipSpace rest with
        | ',' :: rest => fieldsFrom bound depth fields rest
        | '}' :: rest => .ok (fields, rest)
        | _ => .error .unterminatedTable
      | _ => .error .invalidKey

end

def value : Reader Value := fun cs => valueFrom (cs.length + 1) maxDepth (skipBlanks cs)

/-! ### Documents -/

/-- The tables so far, and the names that lead to the one that is open. -/
structure State where
  tables : Tables
  current : List String

/-- A header in single brackets, after the first bracket. -/
def tableHeader (s : State) (cs : List Char) : Except Error (State × List Char) := do
  let ((path, name), rest) ← keys cs
  match skipBlanks rest with
  | ']' :: rest =>
    let tables ← openTable path name s.tables
    .ok (⟨tables, path ++ [name]⟩, rest)
  | _ => .error .invalidKey

/-- A header in double brackets, after the first two. -/
def itemHeader (s : State) (cs : List Char) : Except Error (State × List Char) := do
  let ((path, name), rest) ← keys cs
  match skipBlanks rest with
  | ']' :: ']' :: rest =>
    let tables ← openItem path name s.tables
    .ok (⟨tables, path ++ [name]⟩, rest)
  | _ => .error .invalidKey

/-- A key with its value. -/
def entry (s : State) (cs : List Char) : Except Error (State × List Char) := do
  let ((path, name), rest) ← keys cs
  match skipBlanks rest with
  | '=' :: rest =>
    let (v, rest) ← value rest
    let tables ← within (assign name v path) s.current s.tables
    .ok ({ s with tables := tables }, rest)
  | _ => .error .invalidKey

/-- Reads line after line. -/
def document : (bound : Nat) → State → List Char → Except Error Tables
  | 0, s, _ => .ok s.tables
  | bound + 1, s, cs => do
    match ← skipSpace cs with
    | [] => .ok s.tables
    | cs =>
      let (s, rest) ← match cs with
        | '[' :: '[' :: rest => itemHeader s rest
        | '[' :: rest => tableHeader s rest
        | cs => entry s cs
      let rest ← endLine rest
      document bound s rest

/-- A mark of byte order at the start is skipped. -/
def skipMark (cs : List Char) : List Char :=
  match cs with
  | c :: rest => if c.toNat = 0xFEFF then rest else cs
  | [] => []

def parse (s : String) : Except Error Value := do
  let cs := skipMark s.toList
  let tables ← document (cs.length + 1) ⟨[], []⟩ cs
  .ok (toValue tables)

end Rebuild.Toml
