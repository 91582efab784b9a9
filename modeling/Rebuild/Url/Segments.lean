/-
The path of an address as segments between slashes.

* `Url.dots?` — segments that go nowhere or up;
* `Url.normalSegments` — dot segments resolved.  **A drive letter is never left by going up**;
* `Url.renderSegments` — one slash before each segment.
-/
import Rebuild.Url.Escape

set_option autoImplicit false

namespace Rebuild.Url

/-- A segment written with dots, each of which may be escaped. -/
def dots? (segment : List Char) : Option Nat :=
  match (segment.map Char.toLower) with
  | ['.'] => some 1
  | ['%', '2', 'e'] => some 1
  | ['.', '.'] => some 2
  | ['.', '%', '2', 'e'] => some 2
  | ['%', '2', 'e', '.'] => some 2
  | ['%', '2', 'e', '%', '2', 'e'] => some 2
  | _ => none

/-- A letter and a colon, or a bar in its place; a backslash may follow. -/
def isDrive : List Char → Bool
  | [letter, mark] => letter.isAlpha && (mark == ':' || mark == '|')
  | letter :: mark :: '\\' :: _ => letter.isAlpha && (mark == ':' || mark == '|')
  | _ => false

/-- Goes up from the last of the segments, which are in reverse. -/
def goUp : List (List Char) → List (List Char)
  | [] => []
  | last :: before => if isDrive last then last :: before else before

/-- Adds a segment to those in reverse.  With `drives`, a drive at the front gets its colon. -/
def addSegment (drives : Bool) (out : List (List Char)) (s : List Char) : List (List Char) :=
  if drives && out.isEmpty && isDrive s then [s.take 1 ++ [':']] else s :: out

/-- Resolves dot segments; `out` holds the segments so far in reverse.  At the end a dot segment
leaves an empty one, so that the path keeps its slash. -/
def normalSegments (drives : Bool) (out : List (List Char)) : List (List Char) → List (List Char)
  | [] => out.reverse
  | s :: rest =>
    let out' := match dots? s with
      | some 1 => out
      | some _ => goUp out
      | none => addSegment drives out s
    if rest.isEmpty && (dots? s).isSome then ([] :: out').reverse else normalSegments drives out' rest

def renderSegments (segments : List (List Char)) : String :=
  String.ofList (segments.flatMap fun s => '/' :: escape pathReserved s)

/-- Empty segments at the front are dropped, but one segment is always left. -/
def withoutLeadingSlashes (segments : List (List Char)) : List (List Char) :=
  match segments.dropWhile List.isEmpty with
  | [] => [[]]
  | ss => ss

end Rebuild.Url
