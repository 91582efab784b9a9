/-
From a selection of names to an order of tasks.

* `TaskGraph.orderGraph` — planned tasks as nodes, numbered in the order of registration;
* `TaskGraph.resolve` — **selected tasks and all they require, in the one order they run in**;
* `TaskGraph.validate` — resolves everything.
-/
import Rebuild.TaskGraph.Closure
import Rebuild.TaskGraph.Order

set_option autoImplicit false

namespace Rebuild.TaskGraph

/-- The place of a name among the planned tasks. -/
def nodeOf? (tasks : List Task) (name : String) : Option Nat :=
  tasks.findIdx? (·.name == name)

/-- The edges into the nodes of `tasks` from the planned ones among the names that each task gives. -/
def edgesBy (tasks : List Task) (names : Task → List String) : List (Nat × Nat) :=
  tasks.zipIdx.flatMap fun (t, v) =>
    (names t).filterMap fun name => (nodeOf? tasks name).map (·, v)

/-- A task that follows itself is no constraint. -/
def orderGraph (tasks : List Task) : OrderGraph where
  size := tasks.length
  hard := edgesBy tasks (·.dependsOn.names)
  soft := (edgesBy tasks (·.runsAfter.names)).filter fun e => e.1 != e.2

/-- The tasks at the given nodes. -/
def atNodes (tasks : List Task) (nodes : List Nat) : List Task :=
  nodes.filterMap fun v => tasks[v]?

/-- Puts planned tasks into their order. -/
def arrange (tasks : List Task) : Except GraphError (List Task) :=
  let graph := orderGraph tasks
  match graph.order? with
  | some nodes => .ok (atNodes tasks nodes)
  | none => .error (.cycle ((atNodes tasks (graph.hardCycle?.getD [])).map Task.name))

def resolve (g : TaskGraph) (selected : List String) : Except GraphError (List Task) := do
  arrange (← g.planned selected)

/-- Every task resolves: all requirements are registered and none is circular. -/
def validate (g : TaskGraph) : Except GraphError Unit := do
  discard (g.resolve g.names)

end Rebuild.TaskGraph
