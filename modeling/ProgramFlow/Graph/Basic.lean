import ProgramFlow.Text.Describe

/-!
# Graphs as records of lookups

Everything this library computes over graphs reads them through one record,
`Graph`: the listed nodes, the neighbours of a node in both directions, their
numbers, the edges and the labels of an edge.  Stores, tables and layers all
produce such records.

The record promises little.  Its lookups may fail, and its parts may contradict
each other: a listed successor need not be listed itself, counts may be wrong,
an edge may be missing in one direction.  Whether a graph is consistent is a
question for the audit.  Only finiteness is promised: `mentioned` lists the
nodes that neighbour lists can hold, and every other neighbour is the node
itself.  Searches end because of it.

* `GraphError`, `Defect` — what can be wrong, with the nodes concerned.
* `maxCount` — where counting ends.
* `GraphError.message` — how it is said.
* `Graph.number` — the numbers of listed nodes, for algorithms that want them instead.
-/

namespace ProgramFlow

/-! ## Errors -/

/-- The edge operations a graph may refuse. -/
inductive Operation where
  | addEdge
  | removeEdge
  | removeIncident
  | removeIncoming
  | removeOutgoing
  deriving DecidableEq, Repr

/-- The name of an operation. -/
def Operation.name : Operation → String
  | .addEdge => "add_edge"
  | .removeEdge => "remove_edge"
  | .removeIncident => "remove_all_incident_edges"
  | .removeIncoming => "remove_incoming_edges"
  | .removeOutgoing => "remove_outgoing_edges"

/-- A contradiction between the parts of a graph. -/
inductive Defect (ν : Type) where
  /-- The number of nodes is not that of the listed ones. -/
  | nodeCount (listed counted : Nat)
  /-- A listed node is not contained. -/
  | notContained (node : ν)
  /-- The number of successors is not that of the listed ones. -/
  | succCount (node : ν)
  /-- A listed successor is not contained. -/
  | straySucc (node succ : ν)
  /-- A listed successor does not have the node as a predecessor. -/
  | unmatchedSucc (node succ : ν)
  /-- The number of predecessors is not that of the listed ones. -/
  | predCount (node : ν)
  /-- A listed predecessor is not contained. -/
  | strayPred (node pred : ν)
  /-- A listed predecessor does not have the node as a successor. -/
  | unmatchedPred (node pred : ν)
  deriving DecidableEq

/-- Why an operation on a graph fails. -/
inductive GraphError (ν : Type) where
  /-- The node is not part of the graph. -/
  | invalidNode (node : ν)
  /-- The graph has no such operation. -/
  | unsupported (operation : Operation)
  /-- The graph contradicts itself. -/
  | unsound (defect : Defect ν)
  /-- The node has more neighbours than a count can tell. -/
  | uncountable (node : ν)
  deriving DecidableEq

section Message

variable {ν : Type} [Describe ν]

/-- How a contradiction is worded. -/
def Defect.message : Defect ν → String
  | .nodeCount listed counted =>
      s!"{listed} nodes enumerated, but the node count is {counted}"
  | .notContained n => s!"enumerated node {describe n} is not contained in the graph"
  | .succCount n => s!"successor count of {describe n} disagrees with its successors"
  | .straySucc n s => s!"successor {describe s} of {describe n} is not part of the graph"
  | .unmatchedSucc n s =>
      s!"edge {describe n} -> {describe s} has no matching predecessor edge"
  | .predCount n => s!"predecessor count of {describe n} disagrees with its predecessors"
  | .strayPred n p => s!"predecessor {describe p} of {describe n} is not part of the graph"
  | .unmatchedPred n p =>
      s!"edge {describe p} -> {describe n} has no matching successor edge"

/-- How a failure is worded. -/
def GraphError.message : GraphError ν → String
  | .invalidNode n => s!"node {describe n} is not part of the graph"
  | .unsupported o => s!"operation `{o.name}` is not supported by this graph"
  | .unsound d => s!"graph is not well-formed: {d.message}"
  | .uncountable n => s!"the neighbours of node {describe n} are too many to be counted"

end Message

/-! ## Graphs -/

/-- The outcome of a lookup in a graph. -/
abbrev Lookup (ν α : Type) := Except (GraphError ν) α

/-- The largest number of neighbours that a graph can report.  Counts are words of
64 bits. -/
def maxCount : Nat := UInt64.size - 1

/-- A directed graph with nodes from `ν` and edge labels from `κ`, as far as it
can be read. -/
@[ext]
structure Graph (ν κ : Type) where
  /-- The nodes, in order. -/
  nodes : List ν
  /-- How many nodes there are. -/
  nodeCount : Nat
  /-- Is the node part of the graph? -/
  contains : ν → Bool
  /-- Where the edges into a node come from. -/
  preds : ν → Lookup ν (List ν)
  /-- Where the edges out of a node lead. -/
  succs : ν → Lookup ν (List ν)
  /-- How many edges lead into a node. -/
  predCount : ν → Lookup ν Nat
  /-- How many edges lead out of a node. -/
  succCount : ν → Lookup ν Nat
  /-- Is there an edge from the first node to the second? -/
  hasEdge : ν → ν → Bool
  /-- The labels of the edge from the first node to the second. -/
  labels : ν → ν → List κ
  /-- The nodes that neighbour lists can hold. -/
  mentioned : List ν
  preds_mentioned : ∀ n ps, preds n = .ok ps → ∀ p ∈ ps, p ∈ mentioned ∨ p = n
  succs_mentioned : ∀ n ss, succs n = .ok ss → ∀ s ∈ ss, s ∈ mentioned ∨ s = n

/-! ## Numbers of listed nodes -/

/-- The position of the last occurrence of a value in a list. -/
def lastIndex? {α : Type} [DecidableEq α] : (as : List α) → α → Option (Fin as.length)
  | [], _ => none
  | b :: bs, a =>
      match lastIndex? bs a with
      | some i => some i.succ
      | none => if b = a then some ⟨0, Nat.zero_lt_succ _⟩ else none

/-- The number of a node of a graph.  The listed nodes are numbered from zero, in order.  A
graph that contradicts itself may list a node twice; the last occurrence counts. -/
def Graph.number {ν κ : Type} [DecidableEq ν] (g : Graph ν κ) (n : ν) :
    Lookup ν (Fin g.nodes.length) :=
  match lastIndex? g.nodes n with
  | some i => .ok i
  | none => .error (.invalidNode n)

end ProgramFlow
