/-
What has to be done to turn one file system into another.

* `FileSystem.Edit` — a single step;
* `FileSystem.edits` — what is gone is removed first, then what is new or different is written,
  directories before what they hold.
-/
import Rebuild.FileSystem

set_option autoImplicit false

namespace Rebuild.FileSystem

inductive Edit where
  | remove (loc : Location)
  | makeDirectory (loc : Location)
  | write (loc : Location) (data : FileData)
deriving DecidableEq, Repr

/-- Entries that the second file system no longer has; what is in a directory comes before it. -/
def removed (before after : FileSystem) : List Edit :=
  (((before.below []).filter fun e => (after.node? e.1).isNone).reverse).map fun e => .remove e.1

def written (before after : FileSystem) : List Edit :=
  (after.below []).filterMap fun e =>
    if before.node? e.1 = some e.2 then none
    else match e.2 with
      | .directory _ => if before.isDirectoryAt e.1 then none else some (.makeDirectory e.1)
      | .file data => some (.write e.1 data)
      | .link _ => none

def edits (before after : FileSystem) : List Edit :=
  removed before after ++ written before after

end Rebuild.FileSystem
