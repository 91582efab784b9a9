/-
What a selection of tasks pulls in.

* `TaskGraph.Request` — a name that is wanted, and the task that wants it;
* `TaskGraph.unreached` — follows requirements and gives back the tasks that no request reached;
* `TaskGraph.planned` — **the selected tasks and all they require, in the order of registration**.
-/
import Rebuild.TaskGraph

set_option autoImplicit false

namespace Rebuild.TaskGraph

structure Request where
  name : String
  requiredBy : Option String
deriving DecidableEq, Repr

/-- The requests that a task makes, the last name first. -/
def requestsOf (t : Task) : List Request :=
  t.dependsOn.names.reverse.map fun name => ⟨name, some t.name⟩

theorem length_eraseP_lt {tasks : List Task} {p : Task → Bool} {t : Task}
    (h : tasks.find? p = some t) : (tasks.eraseP p).length < tasks.length := by
  have hm := List.mem_of_find?_eq_some h
  have hp := List.find?_some h
  have hpos := List.length_pos_of_mem hm
  rw [List.length_eraseP_of_mem hm hp]
  omega

/-- Serves requests from the top of a stack.  A task that is reached for the first time leaves the
list `left` and makes its own requests; so each step shortens `left` or the stack. -/
def unreached (g : TaskGraph) (left : List Task) (stack : List Request) :
    Except GraphError (List Task) :=
  match stack with
  | [] => .ok left
  | r :: stack =>
    match _h : left.find? (·.name == r.name) with
    | some t => g.unreached (left.eraseP (·.name == r.name)) (requestsOf t ++ stack)
    | none =>
      if (g.get? r.name).isSome then g.unreached left stack
      else .error (.unknownTask r.name r.requiredBy)
termination_by (left.length, stack.length)
decreasing_by
  · exact Prod.Lex.left _ _ (length_eraseP_lt _h)
  · exact Prod.Lex.right _ (by simp)

/-- The last selected name is served first. -/
def planned (g : TaskGraph) (selected : List String) : Except GraphError (List Task) := do
  let left ← g.unreached g.tasks (selected.reverse.map (⟨·, none⟩))
  .ok (g.tasks.filter fun t => !left.contains t)

end Rebuild.TaskGraph
