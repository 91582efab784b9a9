/-
Directed graphs on the numbers below a size, their strongly connected components, and shortest
cycles through a node.

* `Digraph`, `Digraph.successors` — edges in the order in which they were added; **the successors of
  a node are listed with the latest edge first**;
* `Digraph.components` — the strongly connected components, found by one depth-first search that
  keeps for each node the smallest number it can reach back to (its low link);
* `Digraph.isCyclic` — whether a component holds a cycle: it has two members or an edge to itself;
* `Digraph.cycleThrough?` — a shortest cycle through a node, found breadth first and read off by
  walking back from its last node.
-/

set_option autoImplicit false

namespace Rebuild

structure Digraph where
  size : Nat
  /-- Edges from first to second, oldest first. -/
  edges : List (Nat × Nat)
deriving DecidableEq, Inhabited, Repr

namespace Digraph

def hasEdge (g : Digraph) (v w : Nat) : Bool := g.edges.contains (v, w)

def successors (g : Digraph) (v : Nat) : List Nat :=
  ((g.edges.filter (·.1 == v)).map (·.2)).reverse

/-! ### Components -/

/-- What the search knows of a node. -/
inductive Mark where
  | fresh
  /-- Met, and not yet in a component; `low` is the smallest number it can reach back to. -/
  | active (low : Nat)
  /-- In a component that is complete. -/
  | closed
deriving DecidableEq, Inhabited, Repr

structure Search where
  marks : List Mark
  /-- The number the next node gets. -/
  next : Nat
  /-- Active nodes whose component is still growing, latest first. -/
  stack : List Nat
  /-- Complete components, latest first. -/
  found : List (List Nat)

namespace Search

def start (size : Nat) : Search :=
  ⟨List.replicate size .fresh, 1, [], []⟩

def mark (s : Search) (v : Nat) : Mark := s.marks.getD v .closed

/-- Gives a fresh node the next number. -/
def enter (s : Search) (v : Nat) : Search :=
  { s with marks := s.marks.set v (.active s.next), next := s.next + 1 }

/-- Whether `w` reaches further back than `v`. -/
def reachesBack (s : Search) (w v : Nat) : Bool :=
  match s.mark w, s.mark v with
  | .active lw, .active lv => lw < lv
  | _, _ => false

/-- Takes the low link of `w` over to `v`. -/
def lower (s : Search) (w v : Nat) : Search :=
  { s with marks := s.marks.set v (s.mark w) }

/-- Completes the component of `v`: the nodes on top of the stack that reach back no further. -/
def close (s : Search) (v : Nat) : Search :=
  let part := s.stack.takeWhile fun w => !s.reachesBack w v
  { marks := (v :: part).foldl (fun marks w => marks.set w .closed) s.marks
    next := s.next - (part.length + 1)
    stack := s.stack.drop part.length
    found := (part.reverse ++ [v]) :: s.found }

/-- Leaves a node: it completes a component if nothing below it reached back further. -/
def leave (s : Search) (v : Nat) (isRoot : Bool) : Search :=
  if isRoot then s.close v else { s with stack := v :: s.stack }

end Search

/-- Searches from a fresh node; `bound` is at least the number of fresh nodes. -/
def visit (g : Digraph) : (bound : Nat) → (v : Nat) → Search → Search
  | 0, _, s => s
  | bound + 1, v, s =>
    let look (acc : Search × Bool) (w : Nat) : Search × Bool :=
      let s := if acc.1.mark w = .fresh then visit g bound w acc.1 else acc.1
      if s.reachesBack w v then (s.lower w v, false) else (s, acc.2)
    let (s, isRoot) := (g.successors v).foldl look (s.enter v, true)
    s.leave v isRoot

/-- Searches from every node that is still fresh, in order. -/
def search (g : Digraph) : Search :=
  (List.range g.size).foldl
    (fun s v => if s.mark v = .fresh then g.visit g.size v s else s) (Search.start g.size)

/-- The strongly connected components, each complete before the next. -/
def components (g : Digraph) : List (List Nat) :=
  g.search.found.reverse

def isCyclic (g : Digraph) : List Nat → Bool
  | [] => false
  | [v] => g.hasEdge v v
  | _ => true

/-- The first component that holds a cycle. -/
def cyclicComponent? (g : Digraph) : Option (List Nat) :=
  g.components.find? g.isCyclic

/-! ### Shortest cycles -/

/-- The nodes that a search from one node has met, latest first, each with the node it was met from. -/
abbrev Parents := List (Nat × Nat)

/-- The outcome of looking at the successors of one node. -/
inductive Expansion where
  /-- A successor is the start: the way closes. -/
  | closes (parents : Parents)
  /-- All nodes met so far, and those whose successors were not looked at yet. -/
  | grows (parents : Parents) (queue : List Nat)

/-- Looks at successors of `node`; those that are met for the first time go to the end of the queue. -/
def expand (start : Nat) (members : List Nat) (node : Nat) :
    (parents : Parents) → (queue : List Nat) → (successors : List Nat) → Expansion
  | parents, queue, [] => .grows parents queue
  | parents, queue, w :: ws =>
    if w = start then .closes parents
    else if members.contains w && (parents.lookup w).isNone then
      expand start members node ((w, node) :: parents) (queue ++ [w]) ws
    else expand start members node parents queue ws

/-- Takes nodes from the queue until one of them has an edge to the start; `bound` is at least the
number of nodes to be taken. -/
def closing? (g : Digraph) (start : Nat) (members : List Nat) :
    (bound : Nat) → (queue : List Nat) → (parents : Parents) → Option (Nat × Parents)
  | 0, _, _ => none
  | _ + 1, [], _ => none
  | bound + 1, node :: queue, parents =>
    match expand start members node parents queue (g.successors node) with
    | .closes parents => some (node, parents)
    | .grows parents queue => g.closing? start members bound queue parents

/-- The nodes from `cursor` back to the start, which is left out; none if one of them has no parent.
`bound` is at least their number. -/
def walkBack? (parents : Parents) (start : Nat) : (bound : Nat) → (cursor : Nat) → Option (List Nat)
  | 0, cursor => if cursor = start then some [] else none
  | bound + 1, cursor =>
    if cursor = start then some []
    else do
      let parent ← parents.lookup cursor
      let rest ← walkBack? parents start bound parent
      some (cursor :: rest)

/-- A shortest cycle through `start` inside `members`, with `start` at both ends; none if a parent is
missing on the way back. -/
def cycleThrough? (g : Digraph) (start : Nat) (members : List Nat) : Option (List Nat) :=
  match g.closing? start members members.length [start] [] with
  | none => some [start, start]
  | some (last, parents) => do
    let back ← walkBack? parents start parents.length last
    some (start :: back.reverse ++ [start])

end Digraph

end Rebuild
