import ProgramFlow.Graph.Edit

/-!
# Graphs given by tables

A table says what every lookup answers, row by row, and nothing ties the rows
together: it describes graphs that contradict themselves as easily as sound
ones.  Tables are how to write down a graph that no store would produce, such as
the report of another program.
-/

namespace ProgramFlow

/-- The answers of a graph, row by row.  Of two rows for one node the later counts. -/
structure Table (ν κ : Type) where
  nodes : List ν
  nodeCount : Nat
  /-- The nodes that are part of the graph. -/
  members : List ν
  /-- Nodes with their neighbours; a node without a row has none. -/
  succs : List (ν × List ν)
  preds : List (ν × List ν)
  /-- Nodes whose neighbours cannot be looked up. -/
  badSuccs : List ν
  badPreds : List ν
  /-- Nodes with the number of their neighbours; without a row it is that of the listed ones. -/
  succCounts : List (ν × Nat)
  predCounts : List (ν × Nat)
  /-- The edges; if none are given, a node has an edge to each listed successor. -/
  edges : Option (List (ν × ν))
  /-- Edges with their labels; an edge without a row has none. -/
  labels : List ((ν × ν) × List κ)

namespace Table

variable {ν κ : Type} [DecidableEq ν]

/-- The last row of a key. -/
def last? {α β : Type} [DecidableEq α] (rows : List (α × β)) (key : α) : Option β :=
  rows.reverse.lookup key

/-- The neighbours of a node. -/
def neighbours (rows : List (ν × List ν)) (bad : List ν) (n : ν) : Lookup ν (List ν) :=
  if n ∈ bad then .error (.invalidNode n) else .ok ((last? rows n).getD [])

/-- The number of neighbours of a node. -/
def neighbourCount (counts : List (ν × Nat)) (rows : List (ν × List ν)) (bad : List ν) (n : ν) :
    Lookup ν Nat :=
  match last? counts n with
  | some k => .ok k
  | none => (neighbours rows bad n).map List.length

omit [DecidableEq ν] in
theorem mem_of_last? {α β : Type} [DecidableEq α] {rows : List (α × β)} {key : α} {b : β}
    (h : last? rows key = some b) : (key, b) ∈ rows := by
  rw [last?, List.lookup_eq_some_iff] at h
  obtain ⟨l₁, l₂, hl, -⟩ := h
  rw [← List.mem_reverse, hl]
  simp

theorem mentioned_neighbours {rows : List (ν × List ν)} {bad ms : List ν}
    (hms : ∀ r ∈ rows, r.2 ⊆ ms) :
    ∀ n ns, neighbours rows bad n = .ok ns → ∀ m ∈ ns, m ∈ ms ∨ m = n := by
  intro n ns h m hm
  unfold neighbours at h
  split at h
  · simp at h
  · simp only [Except.ok.injEq] at h
    subst h
    cases hr : last? rows n with
    | none => simp [hr] at hm
    | some r => exact Or.inl (hms _ (mem_of_last? hr) (by simpa [hr] using hm))

/-- All nodes in the rows of a table. -/
def mentioned (t : Table ν κ) : List ν := (t.succs ++ t.preds).flatMap Prod.snd

omit [DecidableEq ν] in
theorem subset_mentioned (t : Table ν κ) {r : ν × List ν} (h : r ∈ t.succs ++ t.preds) :
    r.2 ⊆ t.mentioned :=
  fun _ hm => List.mem_flatMap.2 ⟨r, h, hm⟩

/-- The graph that a table describes. -/
def graph (t : Table ν κ) : Graph ν κ where
  nodes := t.nodes
  nodeCount := t.nodeCount
  contains n := decide (n ∈ t.members)
  preds := neighbours t.preds t.badPreds
  succs := neighbours t.succs t.badSuccs
  predCount := neighbourCount t.predCounts t.preds t.badPreds
  succCount := neighbourCount t.succCounts t.succs t.badSuccs
  hasEdge a b :=
    match t.edges with
    | some edges => decide ((a, b) ∈ edges)
    | none => decide (b ∈ (last? t.succs a).getD [])
  labels a b := (last? t.labels (a, b)).getD []
  mentioned := t.mentioned
  preds_mentioned :=
    mentioned_neighbours fun _ h => t.subset_mentioned (List.mem_append_right _ h)
  succs_mentioned :=
    mentioned_neighbours fun _ h => t.subset_mentioned (List.mem_append_left _ h)

/-- A table cannot be edited. -/
instance : Store (Table ν κ) ν κ := ⟨graph, fun e => throw (.unsupported e.operation)⟩

end Table

end ProgramFlow
