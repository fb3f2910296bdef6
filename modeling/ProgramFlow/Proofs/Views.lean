import ProgramFlow.Proofs.Audit
import ProgramFlow.Proofs.PlainGraph

/-!
# What a stack of layers shows of a stored graph

A stack of layers is read off as a whole.  Its restricting layers keep the nodes that all
of them keep; its transposing layers cancel out in pairs; and one reflexive layer says as
much as several.  So three things tell what a stack shows of a node's neighbours, wherever
in the stack its layers stand: a node that is looked up is kept by every restriction, hence
a restriction below a reflexive layer keeps it as well as one above.

* `Graph.Stored` — the graphs that the three stores can hold.
* `Stack.keeps`, `Stack.shown` — what a stack makes of nodes and neighbours.
* `Stack.nodes_view`, `Stack.neighbours_view` — what is seen through a stack.
* `Graph.Stored.view_exact` — all lookups through a stack, and that the audit passes it.
-/

namespace ProgramFlow

variable {ν κ : Type}

/-! ## Stored graphs -/

/-- The graph is that of a reachable store. -/
inductive Graph.Stored : {ν κ : Type} → Graph ν κ → Prop
  | adjacency {ν : Type} [DecidableEq ν] {g : Adjacency ν} (h : g.Reachable) : Stored g.graph
  | labelled {ν κ : Type} [DecidableEq ν] [DecidableEq κ] {g : Labelled ν κ}
      (h : g.Reachable) : Stored g.graph
  | calls {g : CallGraph} (h : g.Reachable) : Stored g.graph

theorem Graph.Stored.sound {g : Graph ν κ} (h : g.Stored) : g.Sound := by
  cases h with
  | adjacency h => exact h.sound
  | labelled h => exact h.sound
  | calls h => exact h.sound

theorem Graph.Stored.counted {g : Graph ν κ} (h : g.Stored) : g.Counted := by
  cases h with
  | adjacency h => exact h.paired.counted
  | labelled h =>
      have hbase := h.paired.counted
      exact ⟨hbase.nodes, hbase.preds, hbase.succs⟩
  | calls h => exact h.paired.counted

/-! ## What a stack makes of nodes and neighbours -/

/-- Does the layer add every node to its neighbours? -/
def Layer.isReflexive : Layer ν → Bool
  | .reflexive => true
  | _ => false

/-- Does the layer keep the node? -/
def Layer.keeps : Layer ν → ν → Bool
  | .restrict keep, n => keep n
  | _, _ => true

namespace Stack

/-- Do all layers keep the node? -/
def keeps (stack : Stack ν) (n : ν) : Bool := stack.all (·.keeps n)

/-- What is left of the neighbours of a node: those that are kept, and behind them the node
itself if some layer adds it and it is not there. -/
def shown [DecidableEq ν] (stack : Stack ν) (n : ν) (ns : List ν) : List ν :=
  let kept := ns.filter stack.keeps
  if stack.any Layer.isReflexive && !kept.contains n then kept ++ [n] else kept

section Shown

variable [DecidableEq ν] {stack : Stack ν} {n : ν} {ns : List ν}

theorem shown_cons_of_keeps {layer : Layer ν} (hkeep : ∀ m, layer.keeps m = true)
    (hrefl : layer.isReflexive = false) : shown (layer :: stack) n ns = stack.shown n ns := by
  have hkeeps : keeps (layer :: stack) = stack.keeps := by
    funext m
    simp [keeps, hkeep]
  simp [shown, hkeeps, hrefl]

/-- A reflexive layer adds the node, unless a layer below has added it. -/
theorem shown_cons_reflexive :
    shown (.reflexive :: stack) n ns = Graph.addSelf n (stack.shown n ns) := by
  have hkeeps : keeps (.reflexive :: stack) = stack.keeps := by
    funext m
    simp [keeps, Layer.keeps]
  unfold shown Graph.addSelf
  rw [hkeeps]
  by_cases hn : n ∈ ns.filter stack.keeps <;>
    cases hany : stack.any Layer.isReflexive <;> simp [hn, hany, Layer.isReflexive]

/-- A restriction that keeps the node does not take it away from its neighbours. -/
theorem shown_cons_restrict {keep : ν → Bool} (hn : keep n = true) :
    shown (.restrict keep :: stack) n ns = (stack.shown n ns).filter keep := by
  have hkept : ns.filter (keeps (.restrict keep :: stack)) =
      (ns.filter stack.keeps).filter keep := by
    rw [List.filter_filter]
    rfl
  have hmem : n ∈ (ns.filter stack.keeps).filter keep ↔ n ∈ ns.filter stack.keeps := by
    rw [List.mem_filter, and_iff_left hn]
  have hany : List.any (.restrict keep :: stack) Layer.isReflexive =
      stack.any Layer.isReflexive := rfl
  unfold shown
  rw [hkept, hany]
  simp only [List.contains_eq_mem, hmem]
  split
  · simp [hn]
  · rfl

end Shown

/-! ## What is seen through a stack -/

variable [DecidableEq ν]

omit [DecidableEq ν] in
/-- Below the stack a listed node has neighbours on both sides, whichever are which. -/
theorem exists_turned (stack : Stack ν) {g : Graph ν κ} (hg : g.Sound) {n : ν} (hn : n ∈ g.nodes) :
    ∃ ss ps, (if stack.turns then g.preds n else g.succs n) = .ok ss ∧
      (if stack.turns then g.succs n else g.preds n) = .ok ps := by
  obtain ⟨ss, hss, -⟩ := hg.closed.succs n hn
  obtain ⟨ps, hps, -⟩ := hg.closed.preds n hn
  cases stack.turns with
  | true => exact ⟨ps, ss, hps, hss⟩
  | false => exact ⟨ss, ps, hss, hps⟩

theorem nodes_view (stack : Stack ν) (g : Graph ν κ) :
    (stack.view g).nodes = g.nodes.filter stack.keeps := by
  induction stack with
  | nil => exact (List.filter_eq_self.2 fun _ _ => rfl).symm
  | cons layer stack ih =>
      cases layer with
      | restrict keep =>
          show (Stack.view stack g).nodes.filter keep = _
          rw [ih, List.filter_filter]
          rfl
      | _ => exact ih

/-- **The neighbours that a stack shows** of a node that it keeps. -/
theorem neighbours_view (stack : Stack ν) (g : Graph ν κ) {n : ν} (hn : stack.keeps n = true) :
    (stack.view g).succs n =
        (if stack.turns then g.preds n else g.succs n).map (stack.shown n) ∧
      (stack.view g).preds n =
        (if stack.turns then g.succs n else g.preds n).map (stack.shown n) := by
  induction stack with
  | nil =>
      have hshown : shown ([] : Stack ν) n = id := by
        funext ns
        simp [shown, keeps]
      rw [hshown, Except.map_id]
      exact ⟨rfl, rfl⟩
  | cons layer stack ih =>
      obtain ⟨hlayer, hbelow⟩ := Bool.and_eq_true_iff.1 hn
      obtain ⟨hsuccs, hpreds⟩ := ih hbelow
      cases layer with
      | transpose =>
          have hshown : shown (.transpose :: stack) n = Stack.shown stack n :=
            funext fun _ => shown_cons_of_keeps (fun _ => rfl) rfl
          rw [turns_cons_transpose, hshown]
          -- the lists change places, and so do the two cases
          refine ⟨hpreds.trans ?_, hsuccs.trans ?_⟩
          · cases Stack.turns stack <;> rfl
          · cases Stack.turns stack <;> rfl
      | reflexive =>
          have hshown : shown (.reflexive :: stack) n = Graph.addSelf n ∘ Stack.shown stack n :=
            funext fun _ => shown_cons_reflexive
          rw [turns_cons_of_not rfl, hshown, ← map_map_eq, ← map_map_eq, ← hsuccs, ← hpreds]
          exact ⟨rfl, rfl⟩
      | restrict keep =>
          have hkeep : keep n = true := hlayer
          have hshown : shown (.restrict keep :: stack) n =
              List.filter keep ∘ Stack.shown stack n :=
            funext fun _ => shown_cons_restrict hkeep
          rw [turns_cons_of_not rfl, hshown, ← map_map_eq, ← map_map_eq, ← hsuccs, ← hpreds]
          simp [view, Layer.view, Graph.restrict, hkeep]
      | readOnly =>
          have hshown : shown (.readOnly :: stack) n = Stack.shown stack n :=
            funext fun _ => shown_cons_of_keeps (fun _ => rfl) rfl
          rw [turns_cons_of_not rfl, hshown]
          exact ⟨hsuccs, hpreds⟩

end Stack

/-! ## All lookups through a stack -/

/-- **Stacks of layers show what they should.**  Through any stack over a stored graph one
sees the nodes that all restrictions keep.  The successors of such a node are those of the
graph below, or its predecessors if the stack transposes an odd number of times, as far as
they are kept and with the node itself behind them if the stack has a reflexive layer and
the node is not there already; likewise the predecessors.  Edges are told by these lists.
Up to `maxCount` nodes, which is what words can number, the reported numbers are the
lengths of the lists, and the audit has nothing to object. -/
theorem Graph.Stored.view_exact [DecidableEq ν] {g : Graph ν κ} (hg : g.Stored)
    (stack : Stack ν) :
    (stack.view g).nodes = g.nodes.filter stack.keeps ∧
      (∀ n ∈ (stack.view g).nodes, ∃ ss ps,
        (if stack.turns then g.preds n else g.succs n) = .ok ss ∧
        (if stack.turns then g.succs n else g.preds n) = .ok ps ∧
        (stack.view g).succs n = .ok (stack.shown n ss) ∧
        (stack.view g).preds n = .ok (stack.shown n ps) ∧
        (∀ m ∈ (stack.view g).nodes,
          ((stack.view g).hasEdge n m = true ↔ m ∈ stack.shown n ss) ∧
          ((stack.view g).hasEdge m n = true ↔ m ∈ stack.shown n ps)) ∧
        (g.nodes.length ≤ maxCount →
          (stack.view g).succCount n = .ok (stack.shown n ss).length ∧
          (stack.view g).predCount n = .ok (stack.shown n ps).length)) ∧
      (g.nodes.length ≤ maxCount →
        (stack.view g).nodeCount = (stack.view g).nodes.length ∧
        (stack.view g).audit = .ok ()) := by
  have hsound := stack.sound_view hg.sound
  have hcounted := stack.counted_view hg.counted hg.sound
  refine ⟨stack.nodes_view g, fun n hn => ?_, fun hsize => ?_⟩
  · obtain ⟨hmem, hkeep⟩ := List.mem_filter.1 (stack.nodes_view g ▸ hn)
    obtain ⟨ss, ps, hss, hps⟩ := stack.exists_turned hg.sound hmem
    obtain ⟨hsuccs, hpreds⟩ := stack.neighbours_view g hkeep
    rw [hss] at hsuccs
    rw [hps] at hpreds
    refine ⟨ss, ps, hss, hps, hsuccs, hpreds, fun m hm => ⟨?_, ?_⟩, fun hsize => ⟨?_, ?_⟩⟩
    · rw [hsound.hasEdge_iff n hn m hm]
      simp [Leads, hsuccs, Except.map]
    · rw [hsound.hasEdge_iff m hm n hn, hsound.mirrored m hm n hn]
      simp [Draws, hpreds, Except.map]
    · rw [(hcounted hsize).succs n hn, hsuccs]
      rfl
    · rw [(hcounted hsize).preds n hn, hpreds]
      rfl
  · exact ⟨(hcounted hsize).nodes.symm, hsound.audit_eq_ok (hcounted hsize)⟩

/-- Four nodes, one with an edge to itself. -/
def Adjacency.looped : Adjacency Nat :=
  .after [.connect 1 2, .connect 2 2, .connect 2 3, .connect 4 2]

/-- Layers of all kinds, with a restriction between two reflexive ones. -/
def Stack.mixed : Stack Nat :=
  [.transpose, .reflexive, .readOnly, .restrict (· ≠ 3), .reflexive]

theorem Graph.Stored.view_exact_mixed :
    Adjacency.looped.graph.Stored ∧ Stack.mixed.turns = true ∧
      (Stack.mixed.view Adjacency.looped.graph).nodes = [1, 2, 4] ∧
      (Stack.mixed.view Adjacency.looped.graph).succs 2 = .ok [1, 2, 4] ∧
      (Stack.mixed.view Adjacency.looped.graph).preds 2 = .ok [2] ∧
      (Stack.mixed.view Adjacency.looped.graph).preds 4 = .ok [2, 4] ∧
      (Stack.mixed.view Adjacency.looped.graph).succCount 2 = .ok 3 ∧
      (Stack.mixed.view Adjacency.looped.graph).hasEdge 2 1 = true ∧
      (Stack.mixed.view Adjacency.looped.graph).hasEdge 1 2 = false ∧
      (Stack.mixed.view Adjacency.looped.graph).audit = .ok () := by
  have hstored : Adjacency.looped.graph.Stored := .adjacency ⟨_, rfl⟩
  have hsize : Adjacency.looped.graph.nodes.length ≤ maxCount := by decide
  obtain ⟨hnodes, hneighbours, haudit⟩ := Graph.Stored.view_exact hstored Stack.mixed
  obtain ⟨ss, ps, hss, hps, hsuccs, hpreds, hedges, hcounts⟩ := hneighbours 2 (by decide)
  -- the stack transposes once, so the successors are the predecessors in the store
  obtain rfl : [1, 2, 4] = ss := Except.ok.inj hss
  obtain rfl : [2, 3] = ps := Except.ok.inj hps
  obtain ⟨_, ps', _, hps', _, hpreds', _⟩ := hneighbours 4 (by decide)
  obtain rfl : [2] = ps' := Except.ok.inj hps'
  obtain ⟨hedge, hback⟩ := hedges 1 (by decide)
  refine ⟨hstored, by decide, hnodes.trans (by decide), hsuccs, hpreds, hpreds',
    (hcounts hsize).1, hedge.2 (by decide), ?_, (haudit hsize).2⟩
  exact Bool.eq_false_iff.2 fun h => absurd (hback.1 h) (by decide)

end ProgramFlow
