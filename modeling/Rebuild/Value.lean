/-
Structured data, as configuration files and reports hold it.

* `Value` — nothing, truth values, numbers, text, dates, lists and records;
* `Value.kind` — how a value is called in a message;
* `Value.isReadable` — whether there is no number in it that cannot be stored.
-/

set_option autoImplicit false

namespace Rebuild

inductive Value where
  | null
  | bool (b : Bool)
  | int (n : Int)
  /-- A number with a point, kept as it is shown. -/
  | float (shown : String)
  /-- A date or a time of day; no setting is one, so its text is not kept. -/
  | date
  /-- A number that cannot be stored; only who reads it fails. -/
  | unreadable
  | str (text : String)
  | list (items : List Value)
  /-- Fields in the order in which they were given. -/
  | record (fields : List (String × Value))
deriving Inhabited

namespace Value

def strs (xs : List String) : Value := .list (xs.map .str)

def nat (n : Nat) : Value := .int n

/-- How a value that stands in a wrong place is called. -/
def kind : Value → String
  | .null => "null"
  | .bool b => "boolean `" ++ (if b then "true" else "false") ++ "`"
  | .int n => "integer `" ++ toString n ++ "`"
  | .float shown => "floating point `" ++ shown ++ "`"
  | .date => "map"
  | .unreadable => "number out of range"
  | .str text => "string \"" ++ text ++ "\""
  | .list _ => "sequence"
  | .record _ => "map"

/-! ### Reading without looking for anything -/

mutual

/-- Whether all numbers in the value can be read. -/
def isReadable : Value → Bool
  | .unreadable => false
  | .list items => areReadable items
  | .record fields => fieldsAreReadable fields
  | _ => true

def areReadable : List Value → Bool
  | [] => true
  | v :: vs => v.isReadable && areReadable vs

def fieldsAreReadable : List (String × Value) → Bool
  | [] => true
  | f :: fs => fieldIsReadable f && fieldsAreReadable fs

def fieldIsReadable : String × Value → Bool
  | (_, v) => v.isReadable

end

end Value

end Rebuild
