/-
Reading typed data from structured data.

A record may be given by field names or as a list of its fields in order; then fields at the end that
have a default may be left out.

* `DecodeError` — why data does not fit;
* `Format` — what only some formats allow: in TOML a record given as a list may have too many items;
* `Fields`, `Fields.of` — the fields of a record, however they were given;
* `Read` and the readers `text`, `path`, `items`, `optional`, `count32`, `span`.
-/
import Rebuild.Duration.Parser
import Rebuild.Path
import Rebuild.Value

set_option autoImplicit false

namespace Rebuild

inductive DecodeError where
  | invalidType (found expected : String)
  | missingField (name : String)
  | unknownField (name : String)
  | invalidLength (length : Nat)
  | outOfRange (n : Int)
  | unknownVariant (name : String)
  | unreadable (name : String)
  | duration (cause : Duration.ParseError)
deriving DecidableEq, Repr

def DecodeError.message : DecodeError → String
  | .invalidType found expected => "invalid type: " ++ found ++ ", expected " ++ expected
  | .missingField name => "missing field `" ++ name ++ "`"
  | .unknownField name => "unknown field `" ++ name ++ "`"
  | .invalidLength length => "invalid length " ++ toString length
  | .outOfRange n => "invalid value: integer `" ++ toString n ++ "`"
  | .unknownVariant name => "unknown variant `" ++ name ++ "`"
  | .unreadable name => "number out of range in `" ++ name ++ "`"
  | .duration cause => cause.message

inductive Format where
  | json
  | toml
deriving DecidableEq, Repr

/-- A reader of values of type `α`. -/
abbrev Read (α : Type) := Value → Except DecodeError α

namespace Read

def text : Read String
  | .str s => .ok s
  | v => .error (.invalidType v.kind "a string")

def path : Read Path := fun v => (text v).map (⟨·⟩)

/-- Reads each value of a list. -/
def each {α : Type} (item : Read α) : List Value → Except DecodeError (List α)
  | [] => .ok []
  | v :: vs => do
    let a ← item v
    let as ← each item vs
    .ok (a :: as)

def items {α : Type} (item : Read α) : Read (List α)
  | .list vs => each item vs
  | v => .error (.invalidType v.kind "a sequence")

/-- Nothing stands for none. -/
def optional {α : Type} (item : Read α) : Read (Option α)
  | .null => .ok none
  | v => (item v).map some

/-- A natural number of 32 bits. -/
def count32 : Read { n : Nat // n < 4294967296 }
  | .int n =>
    if h : 0 ≤ n ∧ n.toNat < 4294967296 then .ok ⟨n.toNat, h.2⟩ else .error (.outOfRange n)
  | v => .error (.invalidType v.kind "u32")

/-- A span of time in its written form. -/
def span : Read Duration := fun v => do
  let s ← text v
  match Duration.parse s with
  | .ok d => .ok d
  | .error e => .error (.duration e)

end Read

/-- The fields that were given, by name. -/
abbrev Fields := List (String × Value)

namespace Fields

/-- The fields of a record whose field names, in order, are `names`.  Fields of other names are read
and forgotten; items at the end of a list are not even read. -/
def of (format : Format) (names : List String) : Read Fields
  | .record fields =>
    match fields.find? fun f => !names.contains f.1 && !f.2.isReadable with
    | some f => .error (.unreadable f.1)
    | none => .ok fields
  | .list vs =>
    if names.length < vs.length ∧ format = .json then .error (.invalidLength vs.length)
    else .ok (names.zip vs)
  | v => .error (.invalidType v.kind "a record")

/-- As `of`, but names that are no fields are refused. -/
def ofStrict (format : Format) (names : List String) : Read Fields := fun v => do
  let fields ← of format names v
  match fields.find? fun f => !names.contains f.1 with
  | some f => .error (.unknownField f.1)
  | none => .ok fields

def required {α : Type} (fields : Fields) (name : String) (read : Read α) : Except DecodeError α :=
  match fields.lookup name with
  | some v => read v
  | none => .error (.missingField name)

def withDefault {α : Type} (fields : Fields) (name : String) (read : Read α) (default : α) :
    Except DecodeError α :=
  match fields.lookup name with
  | some v => read v
  | none => .ok default

end Fields

end Rebuild
