/-
Running tasks one after another.

* `Status`, `Report` — how each task ended, and the failure that stopped the run;
* `execute` — **each task is run on the state the one before it left; the first failure stops the
  run**, and the tasks after it are reported as not run.
-/
import Rebuild.Task

set_option autoImplicit false

namespace Rebuild

inductive Status where
  | notRun
  | succeeded
  | failed
deriving DecidableEq, Inhabited, Repr

/-- The outcome of a run whose tasks fail with errors of type `ε`. -/
structure Report (ε : Type) where
  /-- Every task in order, with its status. -/
  tasks : List (String × Status)
  failed : Option (String × ε)

namespace Report

variable {ε : Type}

def isSuccess (r : Report ε) : Bool :=
  r.failed.isNone && r.tasks.all (·.2 == .succeeded)

def statusOf? (r : Report ε) (name : String) : Option Status :=
  r.tasks.lookup name

def succeeded (r : Report ε) : List String :=
  (r.tasks.filter (·.2 == .succeeded)).map (·.1)

def notRun (r : Report ε) : Nat :=
  (r.tasks.filter (·.2 == .notRun)).length

end Report

/-- Runs the tasks of a plan in order. -/
def execute {ε σ : Type} (run : Task → EStateM ε σ Unit) : List Task → σ → Report ε × σ
  | [], s => (⟨[], none⟩, s)
  | t :: ts, s =>
    match run t s with
    | .ok _ s =>
      let (r, s) := execute run ts s
      (⟨(t.name, .succeeded) :: r.tasks, r.failed⟩, s)
    | .error e s =>
      (⟨(t.name, .failed) :: ts.map fun t => (t.name, .notRun), some (t.name, e)⟩, s)

end Rebuild
