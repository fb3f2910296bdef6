import ProgramFlow.Proofs.Unreported

/-!
# Graphs in order

The audit scans the listed nodes and, within that, the neighbours of each of them, first on
the one side and then on the other.  It ends with the first check or lookup that fails.
Which graphs get through is said here in terms of the lookups alone, without the order in
which they are made.  A node is in order if it is contained, if its neighbours can be looked
up and counted on both sides, and if every edge that is reported there shows at its other
end.  That end has to be contained but need not be listed.  It has to answer the one lookup
that leads back; what else is asked of it does not matter.

* `Graph.InOrder` — a node that gives no reason to object.
* `Graph.exists_inOrder_iff` — the checks of a node in both directions, put together.
* `Graph.audit_passes_iff` — the audit passes the graphs whose listed nodes are in order.
-/

namespace ProgramFlow

variable {ν κ : Type}

namespace Graph

/-- The node has the successors `ss` and the predecessors `ps`, both counted right, and
each of these neighbours is contained and has the node on its other side. -/
structure InOrder (g : Graph ν κ) (n : ν) (ss ps : List ν) : Prop where
  contained : g.contains n = true
  succs : g.succs n = .ok ss
  succCount : g.succCount n = .ok ss.length
  ahead : ∀ s ∈ ss, g.contains s = true ∧ g.hasEdge n s = true ∧ g.Draws s n
  preds : g.preds n = .ok ps
  predCount : g.predCount n = .ok ps.length
  behind : ∀ p ∈ ps, g.contains p = true ∧ g.hasEdge p n = true ∧ g.Leads p n

/-- A node is in order if it is contained and agrees with its neighbours in the graph and
in the transposed graph. -/
theorem exists_inOrder_iff {g : Graph ν κ} {n : ν} :
    (∃ ss ps, g.InOrder n ss ps) ↔
      g.contains n = true ∧ g.Agrees n ∧ g.transpose.Agrees n := by
  constructor
  · rintro ⟨ss, ps, h⟩
    exact ⟨h.contained, ⟨ss, h.succs, h.succCount, h.ahead⟩,
      ⟨ps, h.preds, h.predCount, h.behind⟩⟩
  · rintro ⟨hn, ⟨ss, hss, hsuccs, hahead⟩, ⟨ps, hps, hpreds, hbehind⟩⟩
    exact ⟨ss, ps, hn, hss, hsuccs, hahead, hps, hpreds, hbehind⟩

/-- Of a graph that passes the audit, the neighbours of listed nodes can be looked up. -/
theorem exists_neighbours_of_audit [DecidableEq ν] {g : Graph ν κ} (h : g.audit = .ok ()) {n : ν}
    (hn : n ∈ g.nodes) : ∃ ss ps, g.succs n = .ok ss ∧ g.preds n = .ok ps := by
  obtain ⟨ss, ps, horder⟩ := exists_inOrder_iff.2 ((audit_eq_ok_iff.1 h).2 n hn)
  exact ⟨ss, ps, horder.succs, horder.preds⟩

/-- **The audit passes exactly the graphs in order**, consistent or not in what it does not
look at.  The number of nodes has to be that of the listed ones, and every listed node has to
be in order.  Then listed nodes tell the same edges in both directions. -/
theorem audit_passes_iff [DecidableEq ν] (g : Graph ν κ) :
    (g.audit = .ok () ↔
      g.nodeCount = g.nodes.length ∧ ∀ n ∈ g.nodes, ∃ ss ps, g.InOrder n ss ps) ∧
    (g.audit = .ok () → ∀ a ∈ g.nodes, ∀ b ∈ g.nodes, ∃ ss ps,
      g.succs a = .ok ss ∧ g.preds b = .ok ps ∧ (b ∈ ss ↔ a ∈ ps)) := by
  constructor
  · simp only [audit_eq_ok_iff, exists_inOrder_iff, @eq_comm _ g.nodeCount]
  · intro h a ha b hb
    obtain ⟨ss, -, hss, -⟩ := exists_neighbours_of_audit h ha
    obtain ⟨-, ps, -, hps⟩ := exists_neighbours_of_audit h hb
    have hmirror : g.Leads a b ↔ g.Draws b a := mirrored_of_audit h a ha b hb
    refine ⟨ss, ps, hss, hps, ?_⟩
    simpa [Leads, Draws, hss, hps] using hmirror

end Graph

/-- Two nodes, one of them listed twice.  The first reports an edge twice, and another edge
to a node that is not listed and whose own successors cannot be looked up. -/
def Table.loose : Table Nat Empty where
  nodes := [0, 1, 1]
  nodeCount := 3
  members := [0, 1, 2]
  succs := [(0, [1, 1, 2])]
  preds := [(1, [0]), (2, [0])]
  badSuccs := [2]
  badPreds := []
  succCounts := []
  predCounts := []
  edges := none
  labels := []

theorem Graph.audit_passes_iff_loose :
    Table.loose.graph.audit = .ok () ∧
      (∀ n ∈ Table.loose.graph.nodes, ∃ ss ps, Table.loose.graph.InOrder n ss ps) ∧
      ∃ ss ps, Table.loose.graph.succs 0 = .ok ss ∧ Table.loose.graph.preds 1 = .ok ps ∧
        (1 ∈ ss ↔ 0 ∈ ps) := by
  have haudit : Table.loose.graph.audit = .ok () := by decide
  obtain ⟨hiff, hmirror⟩ := Graph.audit_passes_iff Table.loose.graph
  exact ⟨haudit, (hiff.1 haudit).2, hmirror haudit 0 (by decide) 1 (by decide)⟩

/-- If the node that is not listed does not tell its predecessors, the audit fails with the
error of that lookup. -/
example : ({ Table.loose with badPreds := [2] } : Table Nat Empty).graph.audit =
    .error (.invalidNode 2) := by decide

end ProgramFlow
