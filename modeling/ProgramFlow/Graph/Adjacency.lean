import ProgramFlow.Facts.BitSet
import ProgramFlow.Facts.Roster
import ProgramFlow.Graph.Edit

/-!
# The adjacency store

A store for graphs without labels.  Nodes are numbered in order of insertion,
and each has two rows of bits: the numbers of its successors and the numbers of
its predecessors.  Every edge is therefore written twice, once in a row of
`succs` and once in a row of `preds`, and the operations keep both in step.

Rows start narrow and widen when a bit needs room.  Neighbours are enumerated by
ascending number, that is, in insertion order of the nodes and not of the edges.
-/

namespace ProgramFlow

/-- A graph as numbered nodes with rows of neighbours. -/
structure Adjacency (ν : Type) where
  nodes : Roster ν
  /-- For each node the numbers of its successors. -/
  succs : List BitSet
  /-- For each node the numbers of its predecessors. -/
  preds : List BitSet

namespace Adjacency

variable {ν : Type} [DecidableEq ν]

/-- The graph without nodes. -/
def empty : Adjacency ν := ⟨.empty, [], []⟩

/-! ## Reading -/

/-- The row of a node, empty where there is none. -/
def row (rows : List BitSet) (i : Nat) : BitSet := rows[i]?.getD (.bottom 0)

/-- The number of a node. -/
def number (g : Adjacency ν) (n : ν) : Lookup ν Nat :=
  match g.nodes.index? n with
  | some i => .ok i
  | none => .error (.invalidNode n)

/-- The nodes whose numbers are in a set. -/
def decode (g : Adjacency ν) (s : BitSet) : List ν := s.toList.filterMap g.nodes.get?

/-- Is there an edge between two nodes?  Nodes outside the graph have none. -/
def hasEdge (g : Adjacency ν) (src dst : ν) : Bool :=
  match g.nodes.index? src, g.nodes.index? dst with
  | some i, some j => decide (j ∈ row g.succs i)
  | _, _ => false

omit [DecidableEq ν] in
theorem mem_nodes_of_mem_decode {g : Adjacency ν} {s : BitSet} {n : ν} (h : n ∈ g.decode s) :
    n ∈ g.nodes.toList := by
  obtain ⟨i, -, hi⟩ := List.mem_filterMap.1 h
  exact List.mem_of_getElem? hi

theorem mentioned_row (g : Adjacency ν) (rows : List BitSet) :
    ∀ n ns, (g.number n).map (fun i => g.decode (row rows i)) = .ok ns →
      ∀ m ∈ ns, m ∈ g.nodes.toList ∨ m = n := by
  intro n ns h m hm
  cases hn : g.number n with
  | error e => simp [hn, Except.map] at h
  | ok i =>
      simp only [hn, Except.map, Except.ok.injEq] at h
      subst h
      exact Or.inl (mem_nodes_of_mem_decode hm)

/-- The graph as it can be read. -/
def graph (g : Adjacency ν) : Graph ν Empty where
  nodes := g.nodes.toList
  nodeCount := g.nodes.size
  contains n := g.nodes.contains n
  preds n := (g.number n).map fun i => g.decode (row g.preds i)
  succs n := (g.number n).map fun i => g.decode (row g.succs i)
  predCount n := (g.number n).map fun i => (row g.preds i).count
  succCount n := (g.number n).map fun i => (row g.succs i).count
  hasEdge := g.hasEdge
  labels _ _ := []
  mentioned := g.nodes.toList
  preds_mentioned := g.mentioned_row g.preds
  succs_mentioned := g.mentioned_row g.succs

/-! ## Rows -/

/-- Set the bit `j` in the row `i`. -/
def setBit (rows : List BitSet) (i j : Nat) : List BitSet :=
  rows.modify i (·.join (.single j))

/-- Clear the bit `j` in the row `i`. -/
def clearBit (rows : List BitSet) (i j : Nat) : List BitSet :=
  rows.modify i (·.minus (.single j))

/-- Clear the bit `j` in all the given rows. -/
def clearColumn (rows : List BitSet) (is : BitSet) (j : Nat) : List BitSet :=
  is.toList.foldl (fun rows i => clearBit rows i j) rows

/-- Clear the row `i`, which becomes as narrow as a new one. -/
def clearRow (rows : List BitSet) (i : Nat) : List BitSet :=
  rows.modify i (fun _ => .bottom 0)

/-- The graph with an edge between numbered nodes. -/
def link (g : Adjacency ν) (i j : Nat) : Adjacency ν :=
  { g with succs := setBit g.succs i j, preds := setBit g.preds j i }

/-- The graph without an edge between numbered nodes. -/
def unlink (g : Adjacency ν) (i j : Nat) : Adjacency ν :=
  { g with succs := clearBit g.succs i j, preds := clearBit g.preds j i }

/-- The graph without edges into a numbered node. -/
def isolateBefore (g : Adjacency ν) (j : Nat) : Adjacency ν :=
  { g with succs := clearColumn g.succs (row g.preds j) j, preds := clearRow g.preds j }

/-- The graph without edges out of a numbered node. -/
def isolateAfter (g : Adjacency ν) (i : Nat) : Adjacency ν :=
  { g with succs := clearRow g.succs i, preds := clearColumn g.preds (row g.succs i) i }

/-! ## Changing -/

/-- Add a node, unless it is present already. -/
def addNode (g : Adjacency ν) (n : ν) : Adjacency ν :=
  if n ∈ g.nodes then g
  else
    { nodes := g.nodes.insert n
      succs := g.succs ++ [.bottom 0]
      preds := g.preds ++ [.bottom 0] }

/-- Add an edge, and its nodes where they are missing. -/
def connect (g : Adjacency ν) (src dst : ν) : Adjacency ν :=
  let g := (g.addNode src).addNode dst
  g.link (g.nodes.position src) (g.nodes.position dst)

/-- The number of a node, in a change. -/
def numberM (n : ν) : EditM ν (Adjacency ν) Nat := do EditM.ofLookup ((← get).number n)

/-- Add an edge between nodes of the graph. -/
def addEdge (src dst : ν) : EditM ν (Adjacency ν) Unit := do
  let i ← numberM src
  let j ← numberM dst
  modify (·.link i j)

/-- Remove an edge between nodes of the graph. -/
def removeEdge (src dst : ν) : EditM ν (Adjacency ν) Unit := do
  let i ← numberM src
  let j ← numberM dst
  modify (·.unlink i j)

/-- Remove the edges into a node. -/
def removeIncoming (n : ν) : EditM ν (Adjacency ν) Unit := do
  let j ← numberM n
  modify (·.isolateBefore j)

/-- Remove the edges out of a node. -/
def removeOutgoing (n : ν) : EditM ν (Adjacency ν) Unit := do
  let i ← numberM n
  modify (·.isolateAfter i)

/-- Remove the edges into a node, then those out of it. -/
def removeIncident (n : ν) : EditM ν (Adjacency ν) Unit := do
  removeIncoming n
  removeOutgoing n

/-- Perform an edit. -/
def edit : Edit ν → EditM ν (Adjacency ν) Unit
  | .addEdge src dst => addEdge src dst
  | .removeEdge src dst => removeEdge src dst
  | .removeIncident n => removeIncident n
  | .removeIncoming n => removeIncoming n
  | .removeOutgoing n => removeOutgoing n

instance : Store (Adjacency ν) ν Empty := ⟨graph, edit⟩

end Adjacency

end ProgramFlow
