import ProgramFlow.Graph.Adjacency

/-!
# The store for labelled edges

A graph whose edges carry labels.  The edges are held by an adjacency store, the
labels beside it as a list of facts "this edge has this label", in order of
arrival and without repetition.  An edge comes into being with its first label
and loses all its labels when it is removed.  Adding an edge without a label is
therefore no operation of this store.
-/

namespace ProgramFlow

/-- The fact that an edge carries a label. -/
structure Mark (ν κ : Type) where
  src : ν
  dst : ν
  label : κ
  deriving DecidableEq

/-- A graph with labels on its edges. -/
structure Labelled (ν κ : Type) where
  base : Adjacency ν
  marks : List (Mark ν κ)

namespace Labelled

variable {ν κ : Type} [DecidableEq ν] [DecidableEq κ]

/-- The graph without nodes. -/
def empty : Labelled ν κ := ⟨.empty, []⟩

/-- The labels of an edge, in order of arrival. -/
def labels (g : Labelled ν κ) (src dst : ν) : List κ :=
  (g.marks.filter fun m => m.src = src ∧ m.dst = dst).map Mark.label

/-- The graph as it can be read. -/
def graph (g : Labelled ν κ) : Graph ν κ :=
  let base := g.base.graph
  { nodes := base.nodes
    nodeCount := base.nodeCount
    contains := base.contains
    preds := base.preds
    succs := base.succs
    predCount := base.predCount
    succCount := base.succCount
    hasEdge := base.hasEdge
    labels := g.labels
    mentioned := base.mentioned
    preds_mentioned := base.preds_mentioned
    succs_mentioned := base.succs_mentioned }

/-- Run a change on the adjacency store alone. -/
def onBase {α : Type} (m : EditM ν (Adjacency ν) α) : EditM ν (Labelled ν κ) α :=
  m.within base fun g b => { g with base := b }

/-- Note that an edge carries a label. -/
def mark (g : Labelled ν κ) (m : Mark ν κ) : Labelled ν κ :=
  if m ∈ g.marks then g else { g with marks := g.marks ++ [m] }

/-- Forget the labels of some edges. -/
def unmark (g : Labelled ν κ) (gone : ν → ν → Bool) : Labelled ν κ :=
  { g with marks := g.marks.filter fun m => !gone m.src m.dst }

/-- Add a node, unless it is present already. -/
def addNode (g : Labelled ν κ) (n : ν) : Labelled ν κ := { g with base := g.base.addNode n }

/-- Add a label to an edge between nodes of the graph, and the edge if it is missing. -/
def addLabel (src dst : ν) (label : κ) : EditM ν (Labelled ν κ) Unit := do
  onBase (Adjacency.addEdge src dst)
  modify (·.mark ⟨src, dst, label⟩)

/-- Add a label to an edge, and the edge and its nodes where they are missing. -/
def connect (g : Labelled ν κ) (src dst : ν) (label : κ) : Labelled ν κ :=
  { g with base := g.base.connect src dst }.mark ⟨src, dst, label⟩

/-- Perform an edit.  An edge cannot be added without a label. -/
def edit : Edit ν → EditM ν (Labelled ν κ) Unit
  | .addEdge _ _ => throw (.unsupported .addEdge)
  | .removeEdge src dst => do
      onBase (Adjacency.removeEdge src dst)
      modify (·.unmark fun a b => a = src ∧ b = dst)
  | .removeIncident n => do
      onBase (Adjacency.removeIncident n)
      modify (·.unmark fun a b => a = n ∨ b = n)
  | .removeIncoming n => do
      onBase (Adjacency.removeIncoming n)
      modify (·.unmark fun _ b => b = n)
  | .removeOutgoing n => do
      onBase (Adjacency.removeOutgoing n)
      modify (·.unmark fun a _ => a = n)

instance : Store (Labelled ν κ) ν κ := ⟨graph, edit⟩

end Labelled

end ProgramFlow
