/-
Everything outside the program that a build touches: files, other programs, the network.

* `Program`, `Ending` — what another program does to files, and how it ends;
* `Network`, `Reply` — what comes back for a request, given the requests before it;
* `World` — all of it, with the record of what was started and asked for.
-/
import Rebuild.FileSystem.Change
import Rebuild.FileSystem.Launch
import Rebuild.Duration
import Rebuild.Url

set_option autoImplicit false

namespace Rebuild

/-- How a program ends. -/
inductive Ending where
  /-- It ended by itself; there is no code if a signal killed it. -/
  | exited (code : Option Int) (stdout stderr : Bytes)
  /-- It was still running when its time was up. -/
  | overran
deriving DecidableEq, Inhabited

/-- A program takes arguments and a limit on its running time, and works on files. -/
structure Program where
  run : (arguments : List String) → (limit : Option Duration) → FileSystem → Ending × FileSystem

/-- What a request brings back. -/
inductive Reply where
  | status (code : Nat) (body : Bytes)
  /-- The connection was closed, or never made. -/
  | dropped
deriving DecidableEq, Inhabited

structure Network where
  /-- The reply to a request, which may hang on the requests before it. -/
  answer : (earlier : List Url) → Url → Reply
  /-- The requests made so far. -/
  requests : List Url

/-- A network on which no connection is ever made. -/
def Network.silent : Network := ⟨fun _ _ => .dropped, []⟩

structure World where
  files : FileSystem
  network : Network
  /-- Programs that can be started by name. -/
  programs : List (String × Program)
  /-- The arguments of each program started, in order. -/
  started : List (List String)

namespace World

/-- The program of that name.  A name with a slash is a path; no file here is a program. -/
def program? (w : World) (name : String) : Except IoError Program :=
  match w.programs.lookup name with
  | some p => .ok p
  | none =>
    if name.contains '/' then .error (w.files.startError ⟨name⟩)
    else if maxNameLength < name.utf8ByteSize then .error .nameTooLong
    else .error .notFound

/-- Lets time pass. -/
def wait (w : World) (d : Duration) : World := { w with files := w.files.elapse d.toNanos }

/-- Works on the files alone and gives errors another form. -/
def onFiles {ε α : Type} (wrap : IoError → ε) (act : Disk α) : EStateM ε World α := fun w =>
  match act w.files with
  | .ok a fs => .ok a { w with files := fs }
  | .error e fs => .error (wrap e) { w with files := fs }

end World

end Rebuild
