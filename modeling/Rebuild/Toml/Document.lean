/-
The tables of a TOML document while it is read.

A table can be opened by its own header, come into being because a header or a key goes through it,
or be one of a list of tables.  Which of these it is decides who may add to it.

* `Toml.Origin`, `Toml.Tree` — tables with their origin;
* `Toml.openTable`, `Toml.openItem` — what a header `[a.b]` or `[[a.b]]` does;
* `Toml.assign` — what a line `a.b = v` does inside the table that is open;
* `Toml.toValue` — the data that tables stand for.
-/
import Rebuild.Toml.Scalar

set_option autoImplicit false

namespace Rebuild.Toml

/-- How a table came into being. -/
inductive Origin where
  /-- By a header of its own. -/
  | header
  /-- Because the header of another table goes through it. -/
  | passage
  /-- Because a key goes through it. -/
  | key
deriving DecidableEq, Repr

inductive Tree where
  | leaf (v : Value)
  | table (origin : Origin) (fields : List (String × Tree))
  /-- Tables of one name, in order; the last one is open. -/
  | tables (items : List (List (String × Tree)))

abbrev Tables := List (String × Tree)

/-! ### Adding -/

/-- Puts a tree under a name, in the place of one that is there. -/
def store (fields : Tables) (name : String) (t : Tree) : Tables :=
  if fields.any (·.1 == name) then fields.map fun f => if f.1 == name then (name, t) else f
  else fields ++ [(name, t)]

/-- Applies a change to the last table of a list. -/
def changeLast (f : Tables → Except Error Tables) : List Tables → Except Error (List Tables)
  | [] => .ok []
  | [last] => do
    let last ← f last
    .ok [last]
  | item :: items => do
    let items ← changeLast f items
    .ok (item :: items)

/-- Applies a change to the table that a path of names leads to.  Tables that are missing on the way
are made; of a list of tables the last one is entered. -/
def within (f : Tables → Except Error Tables) : List String → Tables → Except Error Tables
  | [], fields => f fields
  | name :: path, fields => do
    match fields.lookup name with
    | none =>
      let inner ← within f path []
      .ok (store fields name (.table .passage inner))
    | some (.table origin inner) =>
      let inner ← within f path inner
      .ok (store fields name (.table origin inner))
    | some (.tables items) =>
      let items ← changeLast (within f path) items
      .ok (store fields name (.tables items))
    | some (.leaf _) => .error (.notATable name)

/-- A header opens a table that is new, or one that so far was only passed through. -/
def openTable (path : List String) (name : String) : Tables → Except Error Tables :=
  within
    (fun inner =>
      match inner.lookup name with
      | none => .ok (store inner name (.table .header []))
      | some (.table .passage fields) => .ok (store inner name (.table .header fields))
      | some _ => .error (.duplicateKey name))
    path

/-- A header for one more table of a list. -/
def openItem (path : List String) (name : String) : Tables → Except Error Tables :=
  within
    (fun inner =>
      match inner.lookup name with
      | none => .ok (store inner name (.tables [[]]))
      | some (.tables items) => .ok (store inner name (.tables (items ++ [[]])))
      | some _ => .error (.duplicateKey name))
    path

/-- Gives a key its value.  **A key adds only to tables that keys made**: the last table on its way
has to be such a one, and none of the others may have a header of its own. -/
def assign (name : String) (v : Value) : (path : List String) → Tables → Except Error Tables
  | [], fields =>
    if fields.any (·.1 == name) then .error (.duplicateKey name)
    else .ok (fields ++ [(name, .leaf v)])
  | k :: path, fields => do
    match fields.lookup k with
    | none =>
      let inner ← assign name v path []
      .ok (store fields k (.table .key inner))
    | some (.table .key inner) =>
      let inner ← assign name v path inner
      .ok (store fields k (.table .key inner))
    | some (.table .passage inner) =>
      if path.isEmpty then .error (.duplicateKey k)
      else
        let inner ← assign name v path inner
        .ok (store fields k (.table .passage inner))
    | some (.tables items) =>
      if path.isEmpty then .error (.duplicateKey k)
      else
        let items ← changeLast (assign name v path) items
        .ok (store fields k (.tables items))
    | some (.table .header _) => .error (.duplicateKey k)
    | some (.leaf _) => .error (.notATable k)

/-! ### The data -/

mutual

def Tree.toValue : Tree → Value
  | .leaf v => v
  | .table _ fields => .record (fieldValues fields)
  | .tables items => .list (itemValues items)

def fieldValues : List (String × Tree) → List (String × Value)
  | [] => []
  | f :: fs => fieldValue f :: fieldValues fs

def fieldValue : String × Tree → String × Value
  | (name, t) => (name, t.toValue)

def itemValues : List (List (String × Tree)) → List Value
  | [] => []
  | item :: items => .record (fieldValues item) :: itemValues items

end

def toValue (fields : Tables) : Value := .record (fieldValues fields)

end Rebuild.Toml
