/-
Tasks: named units of work.

* `Action` — what a task does;
* `Task` — a name, an action, the tasks that must have succeeded before it (`dependsOn`), and the
  tasks it follows if they happen to run as well (`runsAfter`).
-/
import Rebuild.Path
import Rebuild.NameSet

set_option autoImplicit false

namespace Rebuild

inductive Action where
  /-- Compile a module and move its files into place. -/
  | compile (module : String)
  /-- Copy a directory of the project into the output. -/
  | copyTree (source target : Path)
  /-- Copy files of the project into a directory of the output. -/
  | copyFiles (files : List Path) (into : Path)
deriving DecidableEq, Inhabited, Repr

structure Task where
  name : String
  action : Action
  dependsOn : NameSet
  runsAfter : NameSet
deriving DecidableEq, Inhabited, Repr

namespace Task

/-- A task that waits for no other. -/
def free (name : String) (action : Action) : Task :=
  ⟨name, action, .empty, .empty⟩

def requiring (t : Task) (name : String) : Task :=
  { t with dependsOn := t.dependsOn.insert name }

def following (t : Task) (name : String) : Task :=
  { t with runsAfter := t.runsAfter.insert name }

end Task

end Rebuild
