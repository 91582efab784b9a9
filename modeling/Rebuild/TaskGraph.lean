/-
The registry of tasks.

* `TaskGraph` — tasks in the order of their registration; **no two have one name**;
* `TaskGraph.register`, `TaskGraph.get?`, `TaskGraph.position?` — add a task, look one up;
* `GraphError` — what can go wrong with registering and ordering tasks.
-/
import Rebuild.Task

set_option autoImplicit false

namespace Rebuild

inductive GraphError where
  | duplicateTask (name : String)
  /-- A name that was selected, or that a task requires, is not registered. -/
  | unknownTask (name : String) (requiredBy : Option String)
  /-- The tasks of a cycle, the first one again at the end. -/
  | cycle (names : List String)
deriving DecidableEq, Repr

def GraphError.message : GraphError → String
  | .duplicateTask name => "duplicate task: " ++ name
  | .unknownTask name none => "unknown task " ++ name
  | .unknownTask name (some by_) => "unknown task " ++ name ++ " (required by " ++ by_ ++ ")"
  | .cycle names => "dependency cycle detected: " ++ " -> ".intercalate names

structure TaskGraph where
  tasks : List Task
  names_nodup : (tasks.map Task.name).Nodup
deriving DecidableEq, Repr

namespace TaskGraph

def empty : TaskGraph := ⟨[], by simp⟩

instance : Inhabited TaskGraph := ⟨empty⟩

def names (g : TaskGraph) : List String := g.tasks.map Task.name

def get? (g : TaskGraph) (name : String) : Option Task :=
  g.tasks.find? (·.name == name)

/-- The place of a task in the order of registration. -/
def position? (g : TaskGraph) (name : String) : Option Nat :=
  g.tasks.findIdx? (·.name == name)

def size (g : TaskGraph) : Nat := g.tasks.length

theorem nodup_append_name {tasks : List Task} {t : Task} (h : (tasks.map Task.name).Nodup)
    (hn : t.name ∉ tasks.map Task.name) : ((tasks ++ [t]).map Task.name).Nodup := by
  rw [List.map_append, List.nodup_append]
  refine ⟨h, by simp, ?_⟩
  intro a ha b hb
  simp only [List.map_cons, List.map_nil, List.mem_singleton] at hb
  rintro rfl
  exact hn (hb ▸ ha)

/-- Adds a task.  It may require tasks that are registered later. -/
def register (g : TaskGraph) (t : Task) : Except GraphError TaskGraph :=
  if h : t.name ∈ g.tasks.map Task.name then .error (.duplicateTask t.name)
  else .ok ⟨g.tasks ++ [t], nodup_append_name g.names_nodup h⟩

/-- Adds tasks one after another. -/
def registerAll (g : TaskGraph) : List Task → Except GraphError TaskGraph
  | [] => .ok g
  | t :: ts => do
    let g ← g.register t
    g.registerAll ts

end TaskGraph

end Rebuild
