/-
Changing files.

* `Disk` — operations that may fail, and then keep what they had done;
* `FileSystem.store`, `FileSystem.remove`, `FileSystem.replace` — change entries and date the directory;
* `FileSystem.makeDirectory`, `FileSystem.writeFile`, `FileSystem.copy`, `FileSystem.install`,
  `FileSystem.rename`, `FileSystem.removeTree` — single changes, all or nothing;
* `Disk.makeDirectories` — makes a directory and those it needs above it.
-/
import Rebuild.FileSystem.Walk

set_option autoImplicit false

namespace Rebuild

namespace FileSystem

/-! ### Entries and the time of their directory -/

/-- Lets time pass. -/
def elapse (fs : FileSystem) (nanos : Nat) : FileSystem :=
  { fs with clock := ⟨fs.clock.nanos + nanos⟩ }

/-- The directory that a location is in was changed now. -/
def stampParent (fs : FileSystem) (loc : Location) : FileSystem :=
  let parent := loc.dropLast
  if parent ≠ [] ∧ fs.isDirectoryAt parent then fs.put parent (.directory fs.clock) else fs

/-- Stores an entry.  **A directory changes when it gets a new entry**, not when one is overwritten. -/
def store (fs : FileSystem) (loc : Location) (n : Node) : FileSystem :=
  if (fs.node? loc).isSome then fs.put loc n else (fs.put loc n).stampParent loc

/-- Removes an entry with all below it. -/
def remove (fs : FileSystem) (loc : Location) : FileSystem :=
  (fs.dropTree loc).stampParent loc

/-- Where a new entry for the path would stand.  The directory it is in has to exist, and a path
that ends in dots or is the root has no place for an entry; then `blocked` says why. -/
def slot (fs : FileSystem) (blocked : IoError) (p : Path) : Except IoError Location :=
  match p.fault? with
  | some e => .error e
  | none => do
    let parent ← fs.walk .target maxLinks (fs.startOf p) (p.steps.dropLast.map .go)
    if fs.isDirectoryAt parent then
      match p.steps.getLast? with
      | some (.name n) =>
        if maxNameLength < n.utf8ByteSize then .error .nameTooLong else .ok (parent ++ [n])
      | _ => .error blocked
    else .error .notADirectory

def makeDirectory (fs : FileSystem) (p : Path) : Except IoError FileSystem := do
  let loc ← fs.slot .alreadyExists p
  match fs.node? loc with
  | some _ => .error .alreadyExists
  | none => .ok (fs.store loc (.directory fs.clock))

/-- The content of a file. -/
def readFile (fs : FileSystem) (p : Path) : Except IoError FileData := do
  match ← fs.lookup .target p with
  | .file data => .ok data
  | _ => .error .isADirectory

def readText (fs : FileSystem) (p : Path) : Except IoError String := do
  match Text.decode? (← fs.readFile p).bytes with
  | some s => .ok s
  | none => .error .invalidUtf8

/-- Where a file is written; a link is followed, also to a file that does not exist yet. -/
def writePlace (fs : FileSystem) (p : Path) : Except IoError Location := do
  let loc ← fs.locate .creation p
  if fs.isDirectoryAt loc then .error .isADirectory else .ok loc

def writeFile (fs : FileSystem) (p : Path) (data : FileData) : Except IoError FileSystem := do
  let loc ← fs.writePlace p
  .ok (fs.store loc (.file data))

/-- Copies content and permissions.  **The target is emptied before the source is read**, so a file
that is copied onto itself ends up empty. -/
def copy (fs : FileSystem) (source target : Path) : Except IoError FileSystem := do
  let data ← fs.readFile source
  let place ← fs.locate .target source
  let loc ← fs.writePlace target
  let bytes := if loc = place then [] else data.bytes
  .ok (fs.store loc (.file ⟨bytes, fs.clock, data.executable⟩))

/-- Where a file that is moved to the path would stand; a link there is replaced. -/
def movePlace (fs : FileSystem) (p : Path) : Except IoError Location := do
  let loc ← fs.slot .busy p
  if p.endsInSlash then .error .notADirectory
  else if fs.isDirectoryAt loc then .error .isADirectory
  else .ok loc

/-- Puts an entry in the place of whatever was there. -/
def replace (fs : FileSystem) (loc : Location) (n : Node) : FileSystem :=
  (fs.put loc n).stampParent loc

/-- Puts a finished file in place at once. -/
def install (fs : FileSystem) (p : Path) (data : FileData) : Except IoError FileSystem := do
  let loc ← fs.movePlace p
  .ok (fs.replace loc (.file data))

/-- Moves a file or a link, replacing what is there. -/
def rename (fs : FileSystem) (source target : Path) : Except IoError FileSystem := do
  let place ← fs.locate .entry source
  match fs.node? place with
  | none => .error .notFound
  | some n =>
    let loc ← fs.movePlace target
    if loc = place then .ok fs else .ok ((fs.remove place).replace loc n)

/-- Removes a directory and all in it; of a link only the link. -/
def removeTree (fs : FileSystem) (p : Path) : Except IoError FileSystem := do
  let loc ← fs.locate .entry p
  match fs.node? loc with
  | none => .error .notFound
  | some (.file _) => .error .notADirectory
  | some _ => .ok (fs.remove loc)

/-- The path with all links resolved.  Links are resolved step by step, so the path as a whole may have
any length. -/
def canonical (fs : FileSystem) (p : Path) : Except IoError Path :=
  match p.fault? with
  | none => (fs.follow .target p).map pathOf
  | some .nameTooLong => (fs.follow .target p).map pathOf
  | some e => .error e

end FileSystem

/-- An operation on files that may fail; what it did before it failed stays done. -/
abbrev Disk (α : Type) := EStateM IoError FileSystem α

namespace Disk

/-- Carries out a single change. -/
def change (f : FileSystem → Except IoError FileSystem) : Disk Unit := fun fs =>
  match f fs with
  | .ok fs' => .ok () fs'
  | .error e => .error e fs

/-- A path and the paths above it, nearest first. -/
def ancestors (p : Path) : List Path :=
  p :: ((List.range p.components.length).reverse.map fun n =>
    Path.ofComponents (p.components.take n))

/-- It is fine if the directory is there already. -/
def settle (p : Path) (e : IoError) : Disk Unit := fun fs =>
  if fs.isDirectory p then .ok () fs else .error e fs

/-- Makes the first of the directories; the others are the ones above it. -/
def makeFirst : List Path → Disk Unit
  | [] => throw .notFound
  | p :: above => fun fs =>
    if p.text.isEmpty then .ok () fs
    else match fs.makeDirectory p with
      | .ok fs => .ok () fs
      | .error .notFound =>
        match makeFirst above fs with
        | .error e fs => .error e fs
        | .ok _ fs =>
          match fs.makeDirectory p with
          | .ok fs => .ok () fs
          | .error e => settle p e fs
      | .error e => settle p e fs

/-- Makes a directory and, before it, the directories above it that are missing. -/
def makeDirectories (p : Path) : Disk Unit := makeFirst (ancestors p)

end Disk

end Rebuild
