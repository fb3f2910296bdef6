import ProgramFlow.Graph.Table
import ProgramFlow.Proofs.Audit

/-!
# Edges that the audit does not look at

The audit goes from the listed nodes along their lists of neighbours, and asks for the
edge of each pair that it meets there.  So what passes it tells the same edges forward and
backward, and has an edge wherever a list reports one.  A pair that no list reports is
never asked for.  A graph may claim an edge there and still pass: the audit bounds the
edges of a graph from below, and not from above.

* `Graph.audit_transpose_eq_ok_iff` — the audit treats both directions alike.
* `Graph.mirrored_of_audit`, `Graph.hasEdge_of_leads` — what holds of the pairs that it meets.
* `Graph.withEdges`, `Graph.audit_withEdges_eq_ok_iff` — which edges it lets a graph claim.
* `Graph.audit_tells_unless_unreported` — edges against neighbours, once the audit has passed.
-/

namespace ProgramFlow

variable {ν κ : Type} [DecidableEq ν]

namespace Graph

/-! ## Pairs that the audit meets -/

/-- The predecessors are checked as the successors in the transposed graph, so that the
transposed graph passes if the graph does. -/
theorem audit_transpose_eq_ok_iff {g : Graph ν κ} :
    g.transpose.audit = .ok () ↔ g.audit = .ok () := by
  rw [audit_eq_ok_iff, audit_eq_ok_iff]
  refine and_congr_right fun _ => forall₂_congr fun n _ => and_congr_right fun _ => ?_
  exact and_comm

/-- What the audit has seen of a reported successor. -/
theorem of_leads_of_audit {g : Graph ν κ} (h : g.audit = .ok ()) {a b : ν} (ha : a ∈ g.nodes)
    (hab : g.Leads a b) : g.contains b = true ∧ g.hasEdge a b = true ∧ g.Draws b a := by
  obtain ⟨ss, hss, hb⟩ := hab
  obtain ⟨-, ⟨ss', hss', -, hall⟩, -⟩ := (audit_eq_ok_iff.1 h).2 a ha
  obtain rfl : ss = ss' := Except.ok.inj (hss.symm.trans hss')
  exact hall b hb

theorem hasEdge_of_leads {g : Graph ν κ} (h : g.audit = .ok ()) {a b : ν} (ha : a ∈ g.nodes)
    (hab : g.Leads a b) : g.hasEdge a b = true :=
  (of_leads_of_audit h ha hab).2.1

/-- **What passes the audit tells the same edges in both directions.** -/
theorem mirrored_of_audit {g : Graph ν κ} (h : g.audit = .ok ()) : g.Mirrored := by
  intro a ha b hb
  constructor
  · intro hab
    exact (of_leads_of_audit h ha hab).2.2
  · intro hba
    exact (of_leads_of_audit (audit_transpose_eq_ok_iff.2 h) hb hba).2.2

/-! ## Pairs that it does not meet -/

/-- The graph with other edges claimed between its nodes. -/
def withEdges (g : Graph ν κ) (edge : ν → ν → Bool) : Graph ν κ := { g with hasEdge := edge }

/-- A list of neighbours of a listed node reports the edge. -/
def Reports (g : Graph ν κ) (a b : ν) : Prop :=
  a ∈ g.nodes ∧ g.Leads a b ∨ b ∈ g.nodes ∧ g.Draws b a

/-- The graph claims an edge that no list reports. -/
def Unreported (g : Graph ν κ) (a b : ν) : Prop := g.hasEdge a b = true ∧ ¬ g.Reports a b

omit [DecidableEq ν] in
/-- With other edges a node agrees with its successors if the edges to them are claimed. -/
theorem agrees_withEdges_iff {g : Graph ν κ} {n : ν} (h : g.Agrees n) (edge : ν → ν → Bool) :
    (g.withEdges edge).Agrees n ↔ ∀ s, g.Leads n s → edge n s = true := by
  obtain ⟨ss, hss, hcount, hall⟩ := h
  constructor
  · rintro ⟨ss', hss', -, hall'⟩ s ⟨ss'', hss'', hs⟩
    obtain rfl : ss'' = ss' := Except.ok.inj (hss''.symm.trans hss')
    exact (hall' s hs).2.1
  · intro hedge
    refine ⟨ss, hss, hcount, fun s hs => ?_⟩
    obtain ⟨hcontained, -, hdraws⟩ := hall s hs
    exact ⟨hcontained, hedge s ⟨ss, hss, hs⟩, hdraws⟩

/-- **The audit bounds the edges from below only.**  A graph that passes it may claim other
edges instead, if it still claims those that its lists report. -/
theorem audit_withEdges_eq_ok_iff {g : Graph ν κ} (h : g.audit = .ok ()) (edge : ν → ν → Bool) :
    (g.withEdges edge).audit = .ok () ↔ ∀ a b, g.Reports a b → edge a b = true := by
  -- nodes, lists and counts stay as they are, so that only the two edge checks are left
  obtain ⟨hcount, hnodes⟩ := audit_eq_ok_iff.1 h
  have hsuccs : ∀ n ∈ g.nodes, ((g.withEdges edge).Agrees n ↔
      ∀ s, g.Leads n s → edge n s = true) := by
    intro n hn
    exact agrees_withEdges_iff (hnodes n hn).2.1 edge
  have hpreds : ∀ n ∈ g.nodes, ((g.withEdges edge).transpose.Agrees n ↔
      ∀ p, g.Draws n p → edge p n = true) := by
    intro n hn
    exact agrees_withEdges_iff (hnodes n hn).2.2 fun a b => edge b a
  rw [audit_eq_ok_iff]
  constructor
  · rintro ⟨-, hall⟩ a b (⟨ha, hab⟩ | ⟨hb, hba⟩)
    · exact (hsuccs a ha).1 (hall a ha).2.1 b hab
    · exact (hpreds b hb).1 (hall b hb).2.2 a hba
  · intro hedge
    refine ⟨hcount, fun n hn => ⟨(hnodes n hn).1, (hsuccs n hn).2 fun s hs => ?_,
      (hpreds n hn).2 fun p hp => ?_⟩⟩
    · exact hedge n s (Or.inl ⟨hn, hs⟩)
    · exact hedge p n (Or.inr ⟨hn, hp⟩)

/-! ## Edges against neighbours -/

/-- **Edges and neighbours agree once the audit has passed, unless an edge is unreported.**
Between listed nodes both directions tell the same edges, and each of them is claimed; an
edge that is claimed is told by both directions, unless no list reports it.  The audit does
not exclude such edges: it passes the graph with any edges that hold of the reported pairs. -/
theorem audit_tells_unless_unreported (g : Graph ν κ) (h : g.audit = .ok ()) :
    (∀ a ∈ g.nodes, ∀ b ∈ g.nodes,
      (g.Leads a b ↔ g.Draws b a) ∧ (g.Leads a b → g.hasEdge a b = true) ∧
      (¬ g.Unreported a b →
        (g.hasEdge a b = true ↔ g.Leads a b) ∧ (g.hasEdge a b = true ↔ g.Draws b a))) ∧
    (∀ edge : ν → ν → Bool,
      (g.withEdges edge).audit = .ok () ↔ ∀ a b, g.Reports a b → edge a b = true) := by
  refine ⟨fun a ha b hb => ?_, audit_withEdges_eq_ok_iff h⟩
  have hmirror : g.Leads a b ↔ g.Draws b a := mirrored_of_audit h a ha b hb
  refine ⟨hmirror, hasEdge_of_leads h ha, fun hnot => ?_⟩
  have hreported : g.hasEdge a b = true → g.Leads a b := by
    intro hedge
    by_contra hleads
    refine hnot ⟨hedge, ?_⟩
    rintro (⟨-, hab⟩ | ⟨-, hba⟩)
    · exact hleads hab
    · exact hleads (hmirror.2 hba)
  rw [← hmirror, and_self]
  exact ⟨hreported, hasEdge_of_leads h ha⟩

end Graph

/-- Three nodes in a row.  The lists report the first edge and not the second. -/
def Table.phantom : Table Nat Empty where
  nodes := [0, 1, 2]
  nodeCount := 3
  members := [0, 1, 2]
  succs := [(0, [1])]
  preds := [(1, [0])]
  badSuccs := []
  badPreds := []
  succCounts := []
  predCounts := []
  edges := some [(0, 1), (1, 2)]
  labels := []

theorem Graph.audit_tells_unless_unreported_phantom :
    Table.phantom.graph.audit = .ok () ∧
      (Table.phantom.graph.hasEdge 0 1 = true ↔ Table.phantom.graph.Leads 0 1) ∧
      (Table.phantom.graph.withEdges fun _ _ => true).audit = .ok () := by
  have haudit : Table.phantom.graph.audit = .ok () := by decide
  obtain ⟨hpairs, hedges⟩ := Graph.audit_tells_unless_unreported Table.phantom.graph haudit
  obtain ⟨-, -, hagree⟩ := hpairs 0 (by decide) 1 (by decide)
  have hnot : ¬ Table.phantom.graph.Unreported 0 1 := by
    rintro ⟨-, hunreported⟩
    exact hunreported (Or.inl ⟨by decide, [1], by decide, by decide⟩)
  exact ⟨haudit, (hagree hnot).1, (hedges _).2 fun _ _ _ => rfl⟩

/-- The audit passes, and there is an edge between listed nodes of which neither is the
other's neighbour. -/
theorem Graph.not_audit_tells_phantom :
    Table.phantom.graph.audit = .ok () ∧
      ¬ ∀ a ∈ Table.phantom.graph.nodes, ∀ b ∈ Table.phantom.graph.nodes,
        (Table.phantom.graph.hasEdge a b = true ↔ Table.phantom.graph.Leads a b) ∧
        (Table.phantom.graph.hasEdge a b = true ↔ Table.phantom.graph.Draws b a) := by
  refine ⟨by decide, fun h => ?_⟩
  obtain ⟨hleads, -⟩ := h 1 (by decide) 2 (by decide)
  obtain ⟨ss, hss, hmem⟩ := hleads.1 (by decide)
  obtain rfl : [] = ss := Except.ok.inj hss
  exact List.not_mem_nil hmem

end ProgramFlow
