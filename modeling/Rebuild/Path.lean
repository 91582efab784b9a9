/-
Paths as text, and what they say without looking at any file.

A path is UTF-8 text, kept exactly as it was written; paths of other bytes are left out.  Two readings
of it matter: its `steps`, which is what a walk through directories follows, and its `components`, where
repeated slashes and idle dots are gone and only a leading dot of a relative path is left.

* `Path`, `Component`, `Path.pieces`, `Path.steps`, `Path.components` — the text and its two readings;
* `Path.join`, `Path.parent?`, `Path.fileName?`, `Path.startsWith` — the usual operations;
* `Path.normalize` — **the normal form**: no dots, and a double dot only where nothing before it can
  be dropped.
-/

set_option autoImplicit false

namespace Rebuild

/-- A path as it was written.  Two texts that name the same place are still two paths. -/
structure Path where
  text : String
deriving DecidableEq, Inhabited, Repr

/-- One part of a path. -/
inductive Component where
  /-- The slash that an absolute path starts with. -/
  | root
  /-- A single dot. -/
  | here
  /-- A double dot. -/
  | up
  /-- Anything else between two slashes. -/
  | name (text : String)
deriving DecidableEq, Inhabited, Repr

/-- How a component is written. -/
def Component.text : Component → String
  | .root => "/"
  | .here => "."
  | .up => ".."
  | .name n => n

/-- What the characters between two slashes stand for; nothing stands between two adjacent ones. -/
def Component.ofPiece? : List Char → Option Component
  | [] => none
  | ['.'] => some .here
  | ['.', '.'] => some .up
  | cs => some (.name (String.ofList cs))

namespace Path

/-! ### Reading a path -/

/-- Cuts a text at its slashes.  Empty pieces are kept, so there is one piece more than slashes. -/
def pieces : List Char → List (List Char)
  | [] => [[]]
  | c :: cs =>
    if c = '/' then [] :: pieces cs
    else match pieces cs with
      | [] => [[c]]
      | p :: ps => (c :: p) :: ps

def isAbsolute (p : Path) : Bool :=
  p.text.toList.head? == some '/'

def endsInSlash (p : Path) : Bool :=
  p.text.toList.getLast? == some '/'

/-- Every part of the path in order, idle dots included. -/
def steps (p : Path) : List Component :=
  (pieces p.text.toList).filterMap Component.ofPiece?

/-- The parts that matter: dots are dropped, except one that a relative path starts with. -/
def components (p : Path) : List Component :=
  if p.isAbsolute then
    .root :: p.steps.filter (· ≠ .here)
  else match p.steps with
    | .here :: rest => .here :: rest.filter (· ≠ .here)
    | steps => steps.filter (· ≠ .here)

/-- Writes components with one slash between two of them. -/
def ofComponents : List Component → Path
  | .root :: rest => ⟨"/" ++ "/".intercalate (rest.map Component.text)⟩
  | cs => ⟨"/".intercalate (cs.map Component.text)⟩

/-! ### Operations -/

/-- The place that `rel` names as seen from `base`.  An absolute path stands for itself. -/
def join (base rel : Path) : Path :=
  if rel.isAbsolute then rel
  else if base.text.isEmpty || base.endsInSlash then ⟨base.text ++ rel.text⟩
  else ⟨base.text ++ "/" ++ rel.text⟩

/-- The path without its last component; a root and the empty path have no parent. -/
def parent? (p : Path) : Option Path :=
  match p.components.getLast? with
  | none => none
  | some .root => none
  | some _ => some (ofComponents p.components.dropLast)

/-- The last component, if it is a name. -/
def fileName? (p : Path) : Option String :=
  match p.components.getLast? with
  | some (.name n) => some n
  | _ => none

/-- Whether the components of `base` are the first components of `p`. -/
def startsWith (p base : Path) : Bool :=
  base.components.isPrefixOf p.components

/-! ### Normal form -/

/-- Adds a component to a normal form that is kept in reverse.  A double dot drops the name before
it, is idle at the root, and stays where there is no name to drop. -/
def push (out : List Component) : Component → List Component
  | .here => out
  | .up =>
    match out with
    | .name _ :: rest => rest
    | .root :: rest => .root :: rest
    | out => .up :: out
  | c => c :: out

/-- Folds dots and double dots away without touching any file. -/
def normalize (p : Path) : Path :=
  ofComponents (p.components.foldl push []).reverse

end Path

end Rebuild
