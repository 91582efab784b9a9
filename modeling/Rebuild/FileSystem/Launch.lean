/-
Starting a file as a program.

A file that starts with `#!` is a script: the rest of its first line names the program that reads it,
which may be a script itself.  No file holds a program here, so starting one always fails, and the only
question is why.

* `Script.interpreter?` — the program that a script names.  Only the head of the file is looked at, and
  **a name that may have been cut off there does not count**;
* `FileSystem.startError` — why a file cannot be started.
-/
import Rebuild.FileSystem.Walk

set_option autoImplicit false

namespace Rebuild

namespace Script

/-- How many bytes of a file are looked at. -/
def headLength : Nat := 256

def isBlank (b : UInt8) : Bool := b == 32 || b == 9

/-- The first word, and whether anything follows it. -/
def firstWord (line : Bytes) : Bytes × Bool :=
  let (word, rest) := (line.dropWhile isBlank).span (!isBlank ·)
  (word, !rest.isEmpty)

/-- The name in a line that ends in a line feed.  Without one, the name ends at a blank, at a zero byte or
with the file, and may be empty. -/
def interpreterOf? (afterMark : Bytes) : Option Bytes :=
  let room := headLength - 2
  let text := (afterMark.take room).takeWhile (· ≠ 0)
  let (line, rest) := text.span (· ≠ 10)
  let (word, more) := firstWord line
  if !rest.isEmpty then (if word.isEmpty then none else some word)
  else if text.length < room || more then some word
  else none

def interpreter? : Bytes → Option Path
  | 35 :: 33 :: rest => (interpreterOf? rest).map fun b => ⟨Text.decodeLossy b⟩
  | _ => none

end Script

namespace FileSystem

/-- A file that may be started.  The empty name leads to the working directory, which may not. -/
def openProgram (fs : FileSystem) (p : Path) : Except IoError FileData :=
  if p.text.isEmpty then .error .permissionDenied
  else do
    match ← fs.lookup .target p with
    | .file data => if data.executable then .ok data else .error .permissionDenied
    | _ => .error .permissionDenied

/-- Why content cannot be started, when `more` scripts may still name one another. -/
def contentError (fs : FileSystem) : (more : Nat) → Bytes → IoError
  | more, bytes =>
    match Script.interpreter? bytes with
    | none => .execFormat
    | some p =>
      match fs.openProgram p, more with
      | .error e, _ => e
      | .ok _, 0 => .tooManyLinks
      | .ok data, more + 1 => fs.contentError more data.bytes

/-- How many scripts may be read by scripts. -/
def maxScripts : Nat := 5

def startError (fs : FileSystem) (p : Path) : IoError :=
  match fs.openProgram p with
  | .error e => e
  | .ok data => fs.contentError maxScripts data.bytes

end FileSystem

end Rebuild
