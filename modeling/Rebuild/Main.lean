/-
The program on a real machine.

The files of the working directory and of the project are read into a `FileSystem`, the command runs
on that, and what it changed is written back.  This layer starts no other program and makes no
connection, so a build that has to compile or to fetch ends with the error for that.
-/
import Rebuild.CommandLine
import Rebuild.FileSystem.Edit

set_option autoImplicit false

namespace Rebuild.Machine

/-- How deep directories are read. -/
def maxDepth : Nat := 100

def timeOf (t : IO.FS.SystemTime) : Time := .ofParts t.sec t.nsec.toNat

/-- The names that lead from the root to an absolute path. -/
def locationOf (p : Path) : Location :=
  p.components.filterMap fun c => match c with
    | .name n => some n
    | _ => none

/-- Adds the entry at a path and all below it. -/
def readTree : (depth : Nat) → (path : String) → FileSystem → IO FileSystem
  | 0, _, fs => pure fs
  | depth + 1, path, fs => do
    let full ← IO.FS.realPath path
    let info ← full.metadata
    let loc := locationOf ⟨full.toString⟩
    match info.type with
    | .dir =>
      let mut fs := if loc.isEmpty then fs else fs.put loc (.directory (timeOf info.modified))
      for e in ← full.readDir do
        let kind ← e.path.symlinkMetadata
        match kind.type with
        | .symlink =>
          try
            let target ← IO.FS.realPath e.path
            fs := fs.put (loc ++ [e.fileName]) (.link ⟨target.toString⟩)
          catch _ => pure ()
        | _ => fs ← readTree depth e.path.toString fs
      pure fs
    | .file =>
      let bytes ← IO.FS.readBinFile full
      pure (fs.put loc (.file ⟨bytes.toList, timeOf info.modified, false⟩))
    | _ => pure fs

/-- Adds the directories above a location. -/
def addParents (loc : Location) (fs : FileSystem) : FileSystem :=
  (List.range loc.length).foldl
    (fun fs n => if n = 0 then fs else fs.put (loc.take n) (.directory fs.clock)) fs

def readRoot (path : String) (fs : FileSystem) : IO FileSystem := do
  let full ← IO.FS.realPath path
  readTree maxDepth path (addParents (locationOf ⟨full.toString⟩) fs)

def apply : FileSystem.Edit → IO Unit
  | .remove loc => do
    let path := (FileSystem.pathOf loc).text
    try IO.FS.removeDirAll path catch _ => IO.FS.removeFile path
  | .makeDirectory loc => IO.FS.createDirAll (FileSystem.pathOf loc).text
  | .write loc data => do
    let path := (FileSystem.pathOf loc).text
    IO.FS.writeBinFile path ⟨data.bytes.toArray⟩
    if data.executable then
      IO.setAccessRights path ⟨⟨true, true, true⟩, ⟨true, false, true⟩, ⟨true, false, true⟩⟩

/-- The variables that the program looks at. -/
def readEnvironment : IO Config.Environment := do
  let names := [Config.outputVariable, Config.compilerVariable] ++ Style.lookedAt
  names.filterMapM fun name => do
    return (← IO.getEnv name).map (name, ·)

/-- The directory that the arguments make the project, if they run a command. -/
def projectOf (args : List String) : Option Path :=
  match Invocation.ofArguments args with
  | .run _ options => some options.project
  | _ => none

end Rebuild.Machine

open Rebuild Machine in
def main (args : List String) : IO UInt32 := do
  let here ← IO.currentDir
  let start : FileSystem := ⟨[], locationOf ⟨here.toString⟩, .epoch⟩
  let mut files := start
  if let some project := projectOf args then
    files ← readRoot here.toString files
    try files ← readRoot project.text files catch _ => pure ()
  let world : World := ⟨files, .silent, [], []⟩
  let (outcome, after) := runArguments args (← readEnvironment) world
  for edit in FileSystem.edits files after.files do
    apply edit
  (← IO.getStdout).putStr outcome.stdout
  (← IO.getStderr).putStr outcome.stderr
  return outcome.code.toUInt32
