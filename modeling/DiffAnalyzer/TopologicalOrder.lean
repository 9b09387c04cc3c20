/-!
# Topological order

Kahn's algorithm over a list of edges `(dependent, dependency)`, taken from the
dependents down: a node is placed once all its dependents are, and the node placed
last comes first in the result.  Among nodes that become free at the same time the
order of the edge list decides.  Nodes on a cycle, or below one, are never placed.
-/

namespace DiffAnalyzer

/-- The outcome of sorting: `ordered` lists dependencies before their dependents. -/
structure Sorted (α : Type) where
  ordered : List α
  cyclic : List α
deriving DecidableEq, Repr

variable {α : Type} [DecidableEq α]

namespace TopologicalOrder

/-- How far the sort has come. -/
structure Progress (α : Type) where
  /-- For each dependency, the edges to it from nodes not yet placed. -/
  waiting : List (α × Nat)
  /-- Nodes that nothing waits for, to be placed in this order. -/
  ready : List α
  /-- Nodes in place, the last one first. -/
  placed : List α

/-- The dependencies of the edges, each once, in the order first seen, with the number
of their edges. -/
def demand (edges : List (α × α)) : List (α × Nat) :=
  (edges.map Prod.snd).eraseDups.map fun node =>
    (node, (edges.map Prod.snd).count node)

/-- The dependents of the edges that are no dependencies. -/
def roots (edges : List (α × α)) : List α :=
  (edges.map Prod.fst).eraseDups.filter fun node => !(edges.map Prod.snd).contains node

/-- The dependencies of one node, in the order of the edges. -/
def dependenciesOf (edges : List (α × α)) (node : α) : List α :=
  (edges.filter fun e => e.1 == node).map Prod.snd

/-- Count one edge to `node` as done; the last one makes the node ready. -/
def release (p : Progress α) (node : α) : Progress α :=
  match p.waiting.lookup node with
  | some (count + 1) =>
    { p with
      waiting := p.waiting.map fun e => if e.1 == node then (node, count) else e
      ready := if count == 0 then p.ready ++ [node] else p.ready }
  | _ => p

/-- Place ready nodes, at most `steps` of them. -/
def place (edges : List (α × α)) : Nat → Progress α → Progress α
  | 0, p => p
  | steps + 1, p =>
    match p.ready with
    | [] => p
    | node :: rest =>
      let p := { p with ready := rest, placed := node :: p.placed }
      place edges steps ((dependenciesOf edges node).foldl release p)

end TopologicalOrder

open TopologicalOrder in
/-- Sort the nodes of an edge list.  Every edge makes at most one node ready, and so
does every root, which bounds the number of steps. -/
def topologicalSort (edges : List (α × α)) : Sorted α :=
  let start : Progress α := ⟨demand edges, roots edges, []⟩
  let done := place edges (start.ready.length + edges.length) start
  { ordered := done.placed
    cyclic := ((done.waiting.filter fun e => 0 < e.2).map Prod.fst).reverse }

end DiffAnalyzer
