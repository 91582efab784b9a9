/-
Putting files where they belong.

* `copyTree` — copies a directory with all in it; links and other entries are skipped, and a directory
  that cannot be read ends it;
* `copyFiles` — copies files into a directory under their own names;
* `relocate` — moves a file.
-/
import Rebuild.ActionError
import Rebuild.World
import Rebuild.Compiler

set_option autoImplicit false

namespace Rebuild

/-- Fails with the given error unless the condition holds now. -/
def require (ok : FileSystem → Bool) (e : ActionError) : Work Unit := fun w =>
  if ok w.files then .ok () w else .error e w

/-- Makes the directory that a path is in. -/
def makeParent (p : Path) : Work Unit :=
  match p.parent? with
  | some parent => World.onFiles .io (Disk.makeDirectories parent)
  | none => pure ()

/-- The path of an entry below a directory; the directory itself has no names to add. -/
def entryPath (base : Path) (rel : Location) : Path :=
  base.join (Path.ofComponents (rel.map .name))

/-- Copies what a scan comes to and counts the files.  What the scan cannot read ends it. -/
def copyEntries (source target : Path) : List (Except IoError (Location × Node)) → Work Nat
  | [] => pure 0
  | .error e :: _ => throw (.io e)
  | .ok (rel, node) :: rest => do
    let dest := entryPath target rel
    match node with
    | .directory _ =>
      World.onFiles .io (Disk.makeDirectories dest)
      copyEntries source target rest
    | .file _ =>
      makeParent dest
      World.onFiles .io (Disk.change (·.copy (entryPath source rel) dest))
      let n ← copyEntries source target rest
      pure (n + 1)
    | .link _ => copyEntries source target rest

/-- Whether a directory is somewhere below another one. -/
def isBelow (fs : FileSystem) (inner outer : Path) : Bool :=
  match fs.locate .target inner, fs.locate .target outer with
  | .ok a, .ok b => fs.isDirectoryAt a && b.isPrefixOf a && a ≠ b
  | _, _ => false

/-- Copies the tree and gives the number of files.  The source is scanned when the target is there: making
it can make directories in the source.  A tree that is copied below itself grows as it is scanned, until
its paths are too long. -/
def copyTree (source target : Path) : Work Nat := do
  require (·.isDirectory source) (.missingInput source)
  let target := Path.ofComponents target.components
  let w ← get
  let first ← copyEntries source target ((w.files.scan source).take 1)
  require (!isBelow · target source) (.io .nameTooLong)
  let w ← get
  let rest ← copyEntries source target ((w.files.scan source).drop 1)
  pure (first + rest)

/-- Copies one file into a directory and gives its new path. -/
def copyInto (into file : Path) : Work Path :=
  match file.fileName? with
  | none => throw (.missingInput file)
  | some name => do
    require (·.isFile file) (.missingInput file)
    let dest := into.join ⟨name⟩
    World.onFiles .io (Disk.change (·.copy file dest))
    pure dest

/-- Copies the files in order; the first one that is missing ends it. -/
def copyEach (into : Path) : List Path → Work (List Path)
  | [] => pure []
  | file :: rest => do
    let dest ← copyInto into file
    let dests ← copyEach into rest
    pure (dest :: dests)

def copyFiles (files : List Path) (into : Path) : Work (List Path) := do
  World.onFiles .io (Disk.makeDirectories into)
  copyEach into files

/-- Moves a file, making the directory it goes to. -/
def relocate (source target : Path) : Work Unit := do
  require (·.isFile source) (.missingRelocation source)
  makeParent target
  World.onFiles .io (Disk.change (·.rename source target))

end Rebuild
