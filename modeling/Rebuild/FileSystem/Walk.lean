/-
Finding the entry that a path names.

A walk goes from directory to directory.  A link on the way is replaced by its target; after forty
links the walk gives up.

* `Step`, `Path.walkSteps` — what a walk along a path does;
* `Path.fault?` — why a path cannot be followed at all;
* `FileSystem.Goal` — what a walk may end at;
* `FileSystem.locate` — the location that a path leads to;
* `FileSystem.stat?`, `FileSystem.present`, `FileSystem.isFile`, `FileSystem.isDirectory`,
  `FileSystem.timeOf?` — what stands there, links followed;
* `FileSystem.tree`, `FileSystem.scan` — the entries of a tree, and **what a scan of the tree comes to**,
  which reads every directory by its whole path;
* `FileSystem.newestUnder?`, `FileSystem.newestUnderAll?` — the newest file that is found so.
-/
import Rebuild.FileSystem

set_option autoImplicit false

namespace Rebuild

/-- One step of a walk. -/
inductive Step where
  | go (c : Component)
  /-- A slash at the end of a path: what was reached has to be a directory. -/
  | slash
deriving DecidableEq, Repr

/-- The steps of a walk along a path. -/
def Path.walkSteps (p : Path) : List Step :=
  p.steps.map .go ++ if p.endsInSlash && !p.steps.isEmpty then [.slash] else []

/-- The longest name of an entry, in bytes. -/
def maxNameLength : Nat := 255

/-- The longest path that can be followed, in bytes. -/
def maxPathLength : Nat := 4095

/-- What is wrong with a path before any file is looked at. -/
def Path.fault? (p : Path) : Option IoError :=
  if p.text.toList.contains (Char.ofNat 0) then some .nulInPath
  else if p.text.isEmpty then some .notFound
  else if maxPathLength < p.text.utf8ByteSize then some .nameTooLong
  else none

/-- No entry has a name of that length. -/
def Component.isTooLong : Component → Bool
  | .name n => maxNameLength < n.utf8ByteSize
  | _ => false

/-- Why a path cannot be followed to its end, whatever the files are. -/
def Path.refusal? (p : Path) : Option IoError :=
  match p.fault? with
  | some e => some e
  | none => if p.steps.any Component.isTooLong then some .nameTooLong else none

/-- The path of an entry in a directory, as the directory lists it. -/
def Path.child (p : Path) (name : String) : Path :=
  if p.text.isEmpty || p.endsInSlash then ⟨p.text ++ name⟩ else ⟨p.text ++ "/" ++ name⟩

/-- The path that names lead to, directory by directory. -/
def Path.down (p : Path) (rel : Location) : Path := rel.foldl Path.child p

namespace FileSystem

inductive Goal where
  /-- An entry; if it is a link, what the link leads to. -/
  | target
  /-- An entry, be it a link. -/
  | entry
  /-- As `target`, but the last name may be missing; it must not ask for a directory. -/
  | creation
deriving DecidableEq, Repr

/-- Follows steps from a location.  A link that has to be followed is left to `onLink`, which gets
the directory it stands in and the steps to go from there. -/
def walkWith (fs : FileSystem) (goal : Goal)
    (onLink : Location → List Step → Except IoError Location) :
    Location → List Step → Except IoError Location
  | cur, [] => .ok cur
  | cur, step :: rest =>
    if fs.isDirectoryAt cur then
      match step with
      | .slash => fs.walkWith goal onLink cur rest
      | .go .root => fs.walkWith goal onLink [] rest
      | .go .here => fs.walkWith goal onLink cur rest
      | .go .up => fs.walkWith goal onLink cur.dropLast rest
      | .go (.name n) =>
        if goal = .creation ∧ rest = [.slash] then .error .isADirectory
        else if maxNameLength < n.utf8ByteSize then .error .nameTooLong
        else match fs.node? (cur ++ [n]) with
          | none => if goal = .creation ∧ rest = [] then .ok (cur ++ [n]) else .error .notFound
          | some (.link target) =>
            if goal = .entry ∧ rest = [] then .ok (cur ++ [n])
            else onLink (if target.isAbsolute then [] else cur) (target.walkSteps ++ rest)
          | some _ => fs.walkWith goal onLink (cur ++ [n]) rest
    else .error .notADirectory

/-- Follows steps and at most `links` links. -/
def walk (fs : FileSystem) (goal : Goal) : (links : Nat) → Location → List Step →
    Except IoError Location
  | 0 => fs.walkWith goal fun _ _ => .error .tooManyLinks
  | links + 1 => fs.walkWith goal (fs.walk goal links)

/-- How many links a walk follows before it gives up. -/
def maxLinks : Nat := 40

def startOf (fs : FileSystem) (p : Path) : Location :=
  if p.isAbsolute then [] else fs.workDir

/-- Walks along a path. -/
def follow (fs : FileSystem) (goal : Goal) (p : Path) : Except IoError Location :=
  fs.walk goal maxLinks (fs.startOf p) p.walkSteps

/-- The location that a path leads to; the empty path leads nowhere. -/
def locate (fs : FileSystem) (goal : Goal) (p : Path) : Except IoError Location :=
  match p.fault? with
  | some e => .error e
  | none => fs.follow goal p

/-- The entry that a path leads to. -/
def lookup (fs : FileSystem) (goal : Goal) (p : Path) : Except IoError Node := do
  let loc ← fs.locate goal p
  match fs.node? loc with
  | some n => .ok n
  | none => .error .notFound

def stat? (fs : FileSystem) (p : Path) : Option Node := (fs.lookup .target p).toOption

def present (fs : FileSystem) (p : Path) : Bool := (fs.stat? p).isSome

def isFile (fs : FileSystem) (p : Path) : Bool := (fs.stat? p).any Node.isFile

def isDirectory (fs : FileSystem) (p : Path) : Bool := (fs.stat? p).any Node.isDirectory

/-- When the entry was written, if there is one. -/
def timeOf? (fs : FileSystem) (p : Path) : Option Time := (fs.stat? p).bind Node.time?

/-- A location as an absolute path. -/
def pathOf (loc : Location) : Path := Path.ofComponents (.root :: loc.map .name)

/-! ### Trees -/

/-- The entries of the tree at a path, with the names that lead there from it.  The path itself
comes first and is not followed, but a link that leads to a directory is entered. -/
def tree (fs : FileSystem) (p : Path) : List (Location × Node) :=
  match fs.lookup .entry p, fs.locate .target p with
  | .ok n, .ok loc => ([], n) :: fs.below loc
  | .ok n, .error _ => [([], n)]
  | .error _, _ => []

/-- What a scan from a path comes to at an entry of the tree.  A directory is read by its path; **if that
path cannot be followed, the cause comes after the directory**, and nothing that is in it comes at all. -/
def scanEntry (p : Path) (e : Location × Node) : List (Except IoError (Location × Node)) :=
  if e.1 ≠ [] ∧ (p.down e.1.dropLast).refusal?.isSome then []
  else match e.2, (p.down e.1).refusal? with
    | .directory _, some cause => [.ok e, .error (.unreadable (p.down e.1).text cause)]
    | _, _ => [.ok e]

/-- What a scan of the tree at a path comes to, in order. -/
def scan (fs : FileSystem) (p : Path) : List (Except IoError (Location × Node)) :=
  (fs.tree p).flatMap (scanEntry p)

/-- The time of a regular file that a scan came to.  It is read by the path of the file; what cannot be
read is passed over. -/
def scannedTime? (p : Path) : Except IoError (Location × Node) → Option Time
  | .ok (rel, .file data) => if (p.down rel).refusal?.isSome then none else some data.time
  | _ => none

/-- The times of the regular files that a scan of a tree finds. -/
def fileTimes (fs : FileSystem) (p : Path) : List Time :=
  (fs.scan p).filterMap (scannedTime? p)

/-- The time of the newest file that a scan of the tree finds, if it finds any. -/
def newestUnder? (fs : FileSystem) (p : Path) : Option Time :=
  if fs.present p then Time.latest? (fs.fileTimes p) else none

/-- The time of the newest file in any of the trees. -/
def newestUnderAll? (fs : FileSystem) (ps : List Path) : Option Time :=
  Time.latest? (ps.filterMap fs.newestUnder?)

end FileSystem

end Rebuild
