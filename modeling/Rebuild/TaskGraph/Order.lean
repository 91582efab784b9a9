/-
One order for the planned tasks.

Nodes are placed one at a time.  A node is ready when every hard edge into it comes from a placed
node; among the ready nodes the first one whose soft edges come from placed nodes is taken, and if
there is none, the first ready one.

* `OrderGraph` — nodes with hard and soft edges;
* `OrderGraph.Progress` — for each node the number of hard edges it waits for, and the nodes placed;
* `OrderGraph.order?` — the order, or none if at some point nothing is ready.
-/
import Rebuild.Digraph

set_option autoImplicit false

namespace Rebuild

structure OrderGraph where
  size : Nat
  /-- The second node needs the first, oldest edge first. -/
  hard : List (Nat × Nat)
  /-- The second node would rather follow the first. -/
  soft : List (Nat × Nat)
deriving DecidableEq, Inhabited, Repr

namespace OrderGraph

/-- The hard edges alone. -/
def hardGraph (g : OrderGraph) : Digraph := ⟨g.size, g.hard⟩

def hardInto (g : OrderGraph) (v : Nat) : List Nat :=
  (g.hard.filter (·.2 == v)).map (·.1)

def softInto (g : OrderGraph) (v : Nat) : List Nat :=
  (g.soft.filter (·.2 == v)).map (·.1)

structure Progress where
  /-- How many hard edges into each node come from nodes that are not placed. -/
  waiting : List Nat
  /-- The nodes placed so far, in order. -/
  placed : List Nat

def begin (g : OrderGraph) : Progress :=
  ⟨(List.range g.size).map fun v => (g.hardInto v).length, []⟩

/-- The nodes that can be placed now, in increasing order. -/
def ready (g : OrderGraph) (p : Progress) : List Nat :=
  (List.range g.size).filter fun v => !p.placed.contains v && p.waiting.getD v 0 == 0

def softDone (g : OrderGraph) (p : Progress) (v : Nat) : Bool :=
  (g.softInto v).all p.placed.contains

/-- The node to place next. -/
def next? (g : OrderGraph) (p : Progress) : Option Nat :=
  match g.ready p with
  | [] => none
  | first :: rest => some (((first :: rest).find? (g.softDone p)).getD first)

/-- One hard edge less to wait for. -/
def relax (waiting : List Nat) (v : Nat) : List Nat :=
  waiting.set v (waiting.getD v 0 - 1)

def place (g : OrderGraph) (p : Progress) (v : Nat) : Progress :=
  ⟨((g.hard.filter (·.1 == v)).map (·.2)).foldl relax p.waiting, p.placed ++ [v]⟩

/-- Places that many more nodes. -/
def placeMore (g : OrderGraph) : Nat → Progress → Option Progress
  | 0, p => some p
  | n + 1, p =>
    match g.next? p with
    | none => none
    | some v => g.placeMore n (g.place p v)

def order? (g : OrderGraph) : Option (List Nat) :=
  (g.placeMore g.size g.begin).map (·.placed)

/-- A cycle of hard edges, the first node again at the end: a shortest one through the smallest node
of the first component that has one. -/
def hardCycle? (g : OrderGraph) : Option (List Nat) :=
  match g.hardGraph.cyclicComponent? with
  | none => some []
  | some members =>
    match members.min? with
    | none => some []
    | some start => g.hardGraph.cycleThrough? start members

end OrderGraph

end Rebuild
