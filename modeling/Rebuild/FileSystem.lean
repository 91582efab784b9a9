/-
A file system as a value.

Every entry is stored under its location, the list of names that leads to it from the root.  The
root itself is always there.

**An entry is a file, a directory or a symbolic link, and each file stands at one place.**  Hard links,
which give a file several places, pipes and devices are left out, and so are owners and permissions, but
for the mark that a file may be started.  What is said of every file system is said of these.

* `Location`, `Node`, `FileSystem` — places, what can stand at them, and all of it together, with
  **one entry at a place**;
* `FileSystem.node?`, `FileSystem.put`, `FileSystem.dropTree` — look up, store and remove entries, with
  the equations that say what each does to a look-up;
* `FileSystem.below` — all entries under a location, parents first, names in increasing order;
* `IoError` — why an operation on files can fail.
-/
import Rebuild.Path
import Rebuild.Time
import Rebuild.Text.Utf8

set_option autoImplicit false

namespace Rebuild

/-- Why an operation on files or programs fails. -/
inductive IoError where
  | notFound
  | execFormat
  | permissionDenied
  | busy
  | alreadyExists
  | notADirectory
  | isADirectory
  | nameTooLong
  | tooManyLinks
  | invalidUtf8
  /-- A path holds a character that ends it for the system. -/
  | nulInPath
  /-- A program or an argument does. -/
  | nulInArgument
  /-- A walk through a tree came to a directory that it could not read. -/
  | unreadable (path : String) (cause : IoError)
  /-- Any other cause, with its text. -/
  | other (text : String)
deriving DecidableEq, Inhabited, Repr

def IoError.message : IoError → String
  | .notFound => "No such file or directory (os error 2)"
  | .execFormat => "Exec format error (os error 8)"
  | .permissionDenied => "Permission denied (os error 13)"
  | .busy => "Device or resource busy (os error 16)"
  | .alreadyExists => "File exists (os error 17)"
  | .notADirectory => "Not a directory (os error 20)"
  | .isADirectory => "Is a directory (os error 21)"
  | .nameTooLong => "File name too long (os error 36)"
  | .tooManyLinks => "Too many levels of symbolic links (os error 40)"
  | .invalidUtf8 => "stream did not contain valid UTF-8"
  | .nulInPath => "file name contained an unexpected NUL byte"
  | .nulInArgument => "nul byte found in provided data"
  | .unreadable path cause => "IO error for operation on " ++ path ++ ": " ++ cause.message
  | .other text => text

/-- The errors behind it, nearest first. -/
def IoError.causes : IoError → List String
  | .unreadable _ cause => cause.message :: cause.causes
  | _ => []

/-- The names that lead from the root to a place. -/
abbrev Location := List String

structure FileData where
  bytes : Bytes
  time : Time
  executable : Bool
deriving DecidableEq, Inhabited, Repr

inductive Node where
  | file (data : FileData)
  | directory (time : Time)
  | link (target : Path)
deriving DecidableEq, Inhabited, Repr

namespace Node

def isFile : Node → Bool
  | .file _ => true
  | _ => false

def isDirectory : Node → Bool
  | .directory _ => true
  | _ => false

def isLink : Node → Bool
  | .link _ => true
  | _ => false

/-- When the entry was written; a link has no time of its own. -/
def time? : Node → Option Time
  | .file data => some data.time
  | .directory time => some time
  | .link _ => none

end Node

/-- No two entries stand at one location. -/
class Separate (nodes : List (Location × Node)) : Prop where
  nodup : (nodes.map Prod.fst).Nodup

instance : Separate [] := ⟨List.nodup_nil⟩

structure FileSystem where
  nodes : List (Location × Node)
  /-- Where relative paths start. -/
  workDir : Location
  /-- The time that a write leaves. -/
  clock : Time
  [separate : Separate nodes]
deriving DecidableEq, Repr

instance : Inhabited FileSystem := ⟨⟨[], [], .epoch⟩⟩

namespace FileSystem

/-! ### Entries by location -/

theorem separate_filter {nodes : List (Location × Node)} (h : Separate nodes)
    (p : Location × Node → Bool) : Separate (nodes.filter p) :=
  ⟨h.nodup.sublist (List.filter_sublist.map _)⟩

theorem separate_cons {nodes : List (Location × Node)} (h : Separate nodes) (loc : Location)
    (n : Node) : Separate ((loc, n) :: nodes.filter (·.1 != loc)) := by
  refine ⟨List.nodup_cons.2 ⟨?_, (separate_filter h _).nodup⟩⟩
  simp

def node? (fs : FileSystem) (loc : Location) : Option Node :=
  if loc = [] then some (.directory .epoch) else fs.nodes.lookup loc

def put (fs : FileSystem) (loc : Location) (n : Node) : FileSystem :=
  { fs with
    nodes := (loc, n) :: fs.nodes.filter (·.1 != loc)
    separate := separate_cons fs.separate loc n }

/-- Removes a location and all below it. -/
def dropTree (fs : FileSystem) (loc : Location) : FileSystem :=
  { fs with
    nodes := fs.nodes.filter fun e => !loc.isPrefixOf e.1
    separate := separate_filter fs.separate _ }

theorem lookup_filter_of_pos {p : Location → Bool} {l : Location}
    (nodes : List (Location × Node)) (h : p l = true) :
    (nodes.filter fun e => p e.1).lookup l = nodes.lookup l := by
  induction nodes with
  | nil => rfl
  | cons e es ih =>
    obtain ⟨k, n⟩ := e
    by_cases hk : l = k
    · subst hk
      simp [h]
    · by_cases hp : p k = true
      · rw [List.filter_cons_of_pos (by simpa using hp), List.lookup_cons, List.lookup_cons, ih]
      · rw [List.filter_cons_of_neg (by simpa using hp), List.lookup_cons, ih]
        simp [beq_eq_false_iff_ne.2 hk]

theorem lookup_filter_of_neg {p : Location → Bool} {l : Location}
    (nodes : List (Location × Node)) (h : p l = false) :
    (nodes.filter fun e => p e.1).lookup l = none := by
  induction nodes with
  | nil => rfl
  | cons e es ih =>
    obtain ⟨k, n⟩ := e
    by_cases hp : p k = true
    · have hk : l ≠ k := by
        rintro rfl
        simp [h] at hp
      rw [List.filter_cons_of_pos (by simpa using hp), List.lookup_cons, ih]
      simp [beq_eq_false_iff_ne.2 hk]
    · rw [List.filter_cons_of_neg (by simpa using hp), ih]

theorem node?_put (fs : FileSystem) (loc l : Location) (n : Node) (h : loc ≠ []) :
    (fs.put loc n).node? l = if l = loc then some n else fs.node? l := by
  unfold node? put
  by_cases hl : l = loc
  · subst hl
    simp [h]
  · by_cases h0 : l = []
    · subst h0
      simp [hl]
    · have := lookup_filter_of_pos (p := (· != loc)) fs.nodes (l := l) (by simpa using hl)
      simp [h0, hl, List.lookup_cons, beq_eq_false_iff_ne.2 hl, this]

theorem node?_dropTree (fs : FileSystem) (loc l : Location) (h : loc ≠ []) :
    (fs.dropTree loc).node? l = if loc.isPrefixOf l then none else fs.node? l := by
  unfold node? dropTree
  by_cases h0 : l = []
  · subst h0
    have : loc.isPrefixOf ([] : Location) = false := by
      cases loc with
      | nil => exact absurd rfl h
      | cons a as => rfl
    simp [this]
  · by_cases hp : loc.isPrefixOf l = true
    · simpa [h0, hp] using
        lookup_filter_of_neg (p := fun k => !loc.isPrefixOf k) fs.nodes (l := l) (by simp [hp])
    · have hf : loc.isPrefixOf l = false := Bool.not_eq_true _ ▸ hp
      simpa [h0, hf] using
        lookup_filter_of_pos (p := fun k => !loc.isPrefixOf k) fs.nodes (l := l) (by simp [hf])

def isDirectoryAt (fs : FileSystem) (loc : Location) : Bool :=
  (fs.node? loc).any Node.isDirectory

/-! ### Whole trees -/

/-- Names in increasing order, a directory before what it holds. -/
def inOrder : Location → Location → Bool
  | [], _ => true
  | _ :: _, [] => false
  | x :: xs, y :: ys => x < y || (x == y && inOrder xs ys)

/-- The entries below a location, with the names that lead there from it. -/
def below (fs : FileSystem) (loc : Location) : List (Location × Node) :=
  ((fs.nodes.filter fun e => loc.isPrefixOf e.1 && e.1 != loc).map
    fun e => (e.1.drop loc.length, e.2)).mergeSort fun a b => inOrder a.1 b.1

end FileSystem

end Rebuild
