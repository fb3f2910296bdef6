import ProgramFlow.Graph.Basic

/-!
# Topologies: the numbered shape of a graph

Before a graph is solved over, its nodes are numbered and its neighbour lists
become lists of numbers.  From then on no lookup can fail, which is
why the types of a topology leave no room for it: all numbers are below `size`.

Reading stops at the first problem.  For each node in turn the predecessors are
looked up and numbered, then the successors; a neighbour that the graph does not
list has no number.
-/

namespace ProgramFlow

/-- A graph over the numbers below `size`. -/
structure Topology (ν : Type) where
  size : Nat
  /-- The node with a number. -/
  node : Fin size → ν
  preds : Fin size → List (Fin size)
  succs : Fin size → List (Fin size)

namespace Topology

variable {ν κ : Type} [DecidableEq ν]

/-- The numbers of the neighbours of one node: predecessors, then successors. -/
def readNode (g : Graph ν κ) (n : ν) :
    Lookup ν (List (Fin g.nodes.length) × List (Fin g.nodes.length)) := do
  let preds ← (← g.preds n).mapM g.number
  let succs ← (← g.succs n).mapM g.number
  return (preds, succs)

/-- The topology of a graph. -/
def read (g : Graph ν κ) : Lookup ν (Topology ν) := do
  let rows ← g.nodes.mapM (readNode g)
  let table := rows.toArray
  return {
    size := g.nodes.length
    node := g.nodes.get
    preds := fun i => (table[i.val]?.map Prod.fst).getD []
    succs := fun i => (table[i.val]?.map Prod.snd).getD [] }

omit [DecidableEq ν] in
/-- The number of edges, counted along the successors. -/
def edgeCount (t : Topology ν) : Nat := ((List.finRange t.size).flatMap t.succs).length

end Topology

end ProgramFlow
