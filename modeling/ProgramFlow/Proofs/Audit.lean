import Mathlib.Data.List.Perm.Subperm
import ProgramFlow.Graph.Layer
import ProgramFlow.Proofs.Lookup
import ProgramFlow.Proofs.Sound

/-!
# What passes the audit

The audit passes a graph exactly if what it looks at is in order: the number of nodes,
and for each listed node its containment and its neighbours on both sides.  A sound
graph has all of this but for the numbers, which a graph reports apart from its lists.
Layers report numbers of their own, so that these agree with the lists has to be
shown for each layer.  The reflexive layer adds one to a number of neighbours; with at
most `maxCount` nodes this is never too much, since the node that is added is not
among the neighbours that were counted.

* `Graph.Agrees` — the successors of a node are as the audit wants them.
* `Graph.audit_eq_ok_iff` — what the audit passes.
* `Graph.Counted` — the numbers are those of the lists.
* `Stack.counted_view` — stacks of layers keep numbers right.
* `Graph.Sound.audit_eq_ok` — sound graphs with the right numbers pass the audit.
-/

namespace ProgramFlow

variable {ν κ : Type}

namespace Graph

/-! ## The checks of the audit -/

section Audit

variable [DecidableEq ν]

omit [DecidableEq ν] in
theorem require_eq_ok_iff {condition : Bool} {defect : Defect ν} {u : Unit} :
    require condition defect = .ok u ↔ condition = true := by
  cases condition <;> simp [require]

omit [DecidableEq ν] in
/-- The successors of a node can be looked up and counted, are contained, and the edges
to them show in all three relations. -/
def Agrees (g : Graph ν κ) (n : ν) : Prop :=
  ∃ ss, g.succs n = .ok ss ∧ g.succCount n = .ok ss.length ∧
    ∀ s ∈ ss, g.contains s = true ∧ g.hasEdge n s = true ∧ g.Draws s n

theorem auditSuccs_eq_ok_iff {g : Graph ν κ} {n : ν} {miscounted : Defect ν}
    {stray unmatched : ν → Defect ν} {u : Unit} :
    g.auditSuccs n miscounted stray unmatched = .ok u ↔ g.Agrees n := by
  simp only [auditSuccs, bind_eq_ok_iff, forM_eq_ok_iff, require_eq_ok_iff, beq_iff_eq,
    List.contains_iff_mem]
  constructor
  · rintro ⟨ss, hss, k, hk, -, hlen, hall⟩
    refine ⟨ss, hss, hlen ▸ hk, fun s hs => ?_⟩
    obtain ⟨-, hcontained, -, hedge, ps, hps, hmem⟩ := hall s hs
    exact ⟨hcontained, hedge, ps, hps, hmem⟩
  · rintro ⟨ss, hss, hcount, hall⟩
    refine ⟨ss, hss, ss.length, hcount, (), rfl, fun s hs => ?_⟩
    obtain ⟨hcontained, hedge, ps, hps, hmem⟩ := hall s hs
    exact ⟨(), hcontained, (), hedge, ps, hps, hmem⟩

theorem auditNode_eq_ok_iff {g : Graph ν κ} {n : ν} :
    g.auditNode n = .ok () ↔ g.contains n = true ∧ g.Agrees n ∧ g.transpose.Agrees n := by
  simp only [auditNode, bind_eq_ok_iff, require_eq_ok_iff, auditSuccs_eq_ok_iff]
  exact ⟨fun ⟨_, hn, _, hs, hp⟩ => ⟨hn, hs, hp⟩, fun ⟨hn, hs, hp⟩ => ⟨(), hn, (), hs, hp⟩⟩

/-- **What the audit passes.**  The predecessors are checked as the successors in the
transposed graph. -/
theorem audit_eq_ok_iff {g : Graph ν κ} :
    g.audit = .ok () ↔ g.nodes.length = g.nodeCount ∧
      ∀ n ∈ g.nodes, g.contains n = true ∧ g.Agrees n ∧ g.transpose.Agrees n := by
  simp only [audit, bind_eq_ok_iff, require_eq_ok_iff, forM_eq_ok_iff, auditNode_eq_ok_iff,
    beq_iff_eq]
  exact ⟨fun ⟨_, hcount, hall⟩ => ⟨hcount, hall⟩, fun ⟨hcount, hall⟩ => ⟨(), hcount, hall⟩⟩

end Audit

/-! ## Numbers -/

/-- The graph reports the numbers of its nodes and of their neighbours as its lists have
them. -/
structure Counted (g : Graph ν κ) : Prop where
  nodes : g.nodes.length = g.nodeCount
  preds : ∀ n ∈ g.nodes, g.predCount n = (g.preds n).map List.length
  succs : ∀ n ∈ g.nodes, g.succCount n = (g.succs n).map List.length

theorem Counted.transpose {g : Graph ν κ} (h : g.Counted) : g.transpose.Counted :=
  ⟨h.nodes, h.succs, h.preds⟩

/-- What is left of a graph is counted by its lists. -/
theorem counted_restrict (keep : ν → Bool) (g : Graph ν κ) : (g.restrict keep).Counted :=
  ⟨rfl, fun _ _ => rfl, fun _ _ => rfl⟩

section Reflexive

variable [DecidableEq ν]

omit [DecidableEq ν] in
/-- A node with room for itself among its neighbours has fewer neighbours than there are
nodes. -/
theorem length_lt_of_not_mem {nodes ns : List ν} {n : ν} (hn : n ∈ nodes) (hns : ns.Nodup)
    (hsub : ∀ m ∈ ns, m ∈ nodes) (hnot : n ∉ ns) : ns.length < nodes.length := by
  have hsubperm : (n :: ns).Subperm nodes :=
    List.subperm_of_subset (List.nodup_cons.2 ⟨hnot, hns⟩) (List.cons_subset.2 ⟨hn, hsub⟩)
  exact hsubperm.length_le

/-- Adding a node to its neighbours adds one to their number, unless it is there. -/
theorem count_addSelf {nodes ns : List ν} {n : ν} {loop : Bool} (hsize : nodes.length ≤ maxCount)
    (hn : n ∈ nodes) (hns : ns.Nodup) (hsub : ∀ m ∈ ns, m ∈ nodes) (hloop : loop = true ↔ n ∈ ns) :
    (if loop then pure ns.length else countSelf n ns.length) = .ok (addSelf n ns).length := by
  by_cases hmem : n ∈ ns
  · rw [if_pos (hloop.2 hmem), addSelf, if_pos hmem]
    rfl
  · have hlt := length_lt_of_not_mem hn hns hsub hmem
    rw [if_neg (mt hloop.1 hmem), addSelf, if_neg hmem, List.length_append, countSelf,
      if_pos (by omega)]
    rfl

theorem Counted.reflexive {g : Graph ν κ} (h : g.Counted) (hg : g.Sound)
    (hsize : g.nodes.length ≤ maxCount) : g.reflexive.Counted where
  nodes := h.nodes
  preds n hn := by
    obtain ⟨ps, hps, hsub⟩ := hg.closed.preds n hn
    have hloop : g.hasEdge n n = true ↔ n ∈ ps := by
      rw [hg.hasEdge_iff n hn n hn, hg.mirrored n hn n hn]
      simp [Draws, hps]
    have hcount := count_addSelf hsize hn (hg.nodup_preds n ps hps) hsub hloop
    show (g.predCount n >>= _) = ((g.preds n).map (addSelf n)).map List.length
    rw [h.preds n hn, hps]
    exact hcount
  succs n hn := by
    obtain ⟨ss, hss, hsub⟩ := hg.closed.succs n hn
    have hloop : g.hasEdge n n = true ↔ n ∈ ss := by
      rw [hg.hasEdge_iff n hn n hn]
      simp [Leads, hss]
    have hcount := count_addSelf hsize hn (hg.nodup_succs n ss hss) hsub hloop
    show (g.succCount n >>= _) = ((g.succs n).map (addSelf n)).map List.length
    rw [h.succs n hn, hss]
    exact hcount

end Reflexive

end Graph

/-! ## Stacks -/

section Stacks

variable [DecidableEq ν]

theorem Layer.counted_view (layer : Layer ν) {g : Graph ν κ} (hcount : g.Counted) (hg : g.Sound)
    (hsize : g.nodes.length ≤ maxCount) : (layer.view g).Counted := by
  cases layer with
  | transpose => exact hcount.transpose
  | reflexive => exact hcount.reflexive hg hsize
  | restrict keep => exact g.counted_restrict keep
  | readOnly => exact hcount

theorem Layer.length_nodes_view_le (layer : Layer ν) (g : Graph ν κ) :
    (layer.view g).nodes.length ≤ g.nodes.length := by
  cases layer with
  | restrict keep => exact List.length_filter_le _ _
  | _ => exact Nat.le_refl _

/-- **Numbers stay right** through any number of layers in any order. -/
theorem Stack.counted_view (stack : Stack ν) {g : Graph ν κ} (hcount : g.Counted) (hg : g.Sound)
    (hsize : g.nodes.length ≤ maxCount) : (stack.view g).Counted := by
  have hview : (stack.view g).Counted ∧ (stack.view g).nodes.length ≤ maxCount := by
    induction stack with
    | nil => exact ⟨hcount, hsize⟩
    | cons layer stack ih =>
        refine ⟨layer.counted_view ih.1 (Stack.sound_view stack hg) ih.2, ?_⟩
        exact Nat.le_trans (layer.length_nodes_view_le _) ih.2
  exact hview.1

end Stacks

/-! ## Sound graphs -/

/-- A sound graph agrees at its nodes, if it counts their successors right. -/
theorem Graph.Sound.agrees {g : Graph ν κ} (hg : g.Sound) {n : ν} (hn : n ∈ g.nodes)
    (hcount : g.succCount n = (g.succs n).map List.length) : g.Agrees n := by
  obtain ⟨ss, hss, hsub⟩ := hg.closed.succs n hn
  rw [hss] at hcount
  refine ⟨ss, hss, hcount, fun s hs => ?_⟩
  have hleads : g.Leads n s := ⟨ss, hss, hs⟩
  exact ⟨(hg.contains_iff s).2 (hsub s hs), (hg.hasEdge_iff n hn s (hsub s hs)).2 hleads,
    (hg.mirrored n hn s (hsub s hs)).1 hleads⟩

/-- **Sound graphs with the right numbers pass the audit.** -/
theorem Graph.Sound.audit_eq_ok [DecidableEq ν] {g : Graph ν κ} (hg : g.Sound)
    (hcount : g.Counted) : g.audit = .ok () := by
  refine audit_eq_ok_iff.2 ⟨hcount.nodes, fun n hn => ⟨(hg.contains_iff n).2 hn, ?_, ?_⟩⟩
  · exact hg.agrees hn (hcount.succs n hn)
  · exact hg.transpose.agrees hn (hcount.preds n hn)

end ProgramFlow
