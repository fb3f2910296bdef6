import ProgramFlow.Proofs.Projection
import ProgramFlow.Proofs.Views

/-!
# Drawings of stored graphs

A successor without a number is drawn no arrow to, and nobody would notice.  So that a
drawing is complete depends on the graph: it has to list every successor that it reports,
and a node that it listed twice would get two arrows for one edge.  Graphs in stores have
neither fault, and layers do not bring it in.

Arrows are drawn node by node, so that they stand in the order of the nodes they start from.

* `Graph.nodup_arrowsFrom`, `Graph.fst_of_mem_arrowsFrom` — the arrows out of one node.
* `Graph.pairwise_arrows` — all arrows, in order and without repetition.
* `Drawn` — the text that shows nodes and the edges between them.
* `Graph.Sound.exists_dot`, `Slice.exists_dot_project` — sound graphs and the parts of them
  that slices show have such texts.
* `Graph.Stored.dot_exact` — the text of a drawing through a stack of layers.
-/

namespace ProgramFlow

variable {ν κ : Type} [DecidableEq ν]

namespace Graph

/-! ## The order of the arrows -/

theorem fst_of_mem_arrowsFrom {g : Graph ν κ} {i : Nat} {n : ν} {arrows : List (Nat × Nat)}
    (h : g.arrowsFrom i n = .ok arrows) {a : Nat × Nat} (ha : a ∈ arrows) : a.1 = i := by
  cases hss : g.succs n with
  | error e => simp [arrowsFrom, hss, Except.map] at h
  | ok ss =>
      simp only [arrowsFrom, hss, Except.map, Except.ok.injEq] at h
      subst h
      simp only [List.mem_filterMap, Option.map_eq_some_iff] at ha
      obtain ⟨s, -, j, -, rfl⟩ := ha
      rfl

/-- Different successors have different numbers, whatever the graph lists. -/
theorem nodup_arrowsFrom {g : Graph ν κ} (hg : Repetitionless g.succs) {i : Nat} {n : ν}
    {arrows : List (Nat × Nat)} (h : g.arrowsFrom i n = .ok arrows) : arrows.Nodup := by
  cases hss : g.succs n with
  | error e => simp [arrowsFrom, hss, Except.map] at h
  | ok ss =>
      simp only [arrowsFrom, hss, Except.map, Except.ok.injEq] at h
      subst h
      refine (hg n ss hss).filterMap ?_
      intro s t a hs ht
      simp only [Option.mem_def, Option.map_eq_some_iff] at hs ht
      obtain ⟨j, hj, rfl⟩ := hs
      obtain ⟨k, hk, hjk⟩ := ht
      obtain rfl : k = j := Fin.ext (Prod.ext_iff.1 hjk).2
      rw [← (lastIndex?_eq_some hj).1, ← (lastIndex?_eq_some hk).1]

/-- **Arrows are drawn in the order of the nodes they start from, and each of them once.** -/
theorem pairwise_arrows {g : Graph ν κ} (hg : Repetitionless g.succs) {label : ν → String}
    {drawing : Drawing} (h : g.drawing label = .ok drawing) :
    drawing.arrows.Pairwise fun a b => a.1 ≤ b.1 ∧ a ≠ b := by
  obtain ⟨rows, hrows, hdrawing⟩ := bind_eq_ok_iff.1 h
  obtain rfl := Except.ok.inj hdrawing
  show rows.flatten.Pairwise _
  rw [List.pairwise_flatten]
  constructor
  · intro row hrow
    obtain ⟨⟨n, i⟩, -, hn⟩ := (mem_of_mapM_eq_ok hrows).1 hrow
    refine (nodup_arrowsFrom hg hn).imp_of_mem fun ha hb hab => ⟨?_, hab⟩
    rw [fst_of_mem_arrowsFrom hn ha, fst_of_mem_arrowsFrom hn hb]
  · -- rows belong to different nodes, and come in the order of their numbers
    have hnumbers : g.nodes.zipIdx.Pairwise fun p q => p.2 < q.2 := by
      rw [← List.pairwise_map (f := Prod.snd) (R := (· < ·)), List.zipIdx_map_snd]
      exact List.pairwise_lt_range' 1
    refine pairwise_of_mapM_eq_ok hrows hnumbers ?_
    intro p row q row' hpq hp hq a ha b hb
    have hlt : a.1 < b.1 := by
      rw [fst_of_mem_arrowsFrom hp ha, fst_of_mem_arrowsFrom hq hb]
      exact hpq
    exact ⟨Nat.le_of_lt hlt, fun hab => Nat.ne_of_lt hlt (congrArg Prod.fst hab)⟩

end Graph

/-! ## The text of a drawing -/

omit [DecidableEq ν] in
/-- The text has one line for each node, numbered from zero, then an empty line, and then one
line for each arrow of a list.  The list is in the order of the numbers that its arrows start
from, has an arrow from one number to another exactly if there is an edge between the nodes
with these numbers, and has no arrow twice. -/
def Drawn (nodes : List ν) (label : ν → String) (edge : ν → ν → Bool) (text : String) : Prop :=
  ∃ arrows : List (Nat × Nat),
    text = "digraph G \x7b\n"
      ++ String.join (nodes.mapIdx fun i n =>
        s!"  Node_{i}[label=\"{Drawing.escapeLabel (label n)}\"]\n")
      ++ "\n"
      ++ String.join (arrows.map fun a => s!"  Node_{a.1} -> Node_{a.2}\n")
      ++ "\x7d\n" ∧
    arrows.Pairwise (fun a b => a.1 ≤ b.1) ∧
    (∀ i j, (i, j) ∈ arrows ↔
      ∃ a b, nodes[i]? = some a ∧ nodes[j]? = some b ∧ edge a b = true) ∧
    arrows.Nodup

/-- **Sound graphs have a text that shows them.** -/
theorem Graph.Sound.exists_dot {g : Graph ν κ} (hg : g.Sound) (label : ν → String) :
    ∃ text, g.dot label = .ok text ∧ Drawn g.nodes label g.hasEdge text := by
  obtain ⟨drawing, hdrawing, -, harrows⟩ := exists_drawing hg label
  have horder := pairwise_arrows hg.nodup_succs hdrawing
  refine ⟨_, dot_eq_ok_iff.2 ⟨drawing, hdrawing, rfl⟩, drawing.arrows, rfl, ?_⟩
  exact ⟨horder.imp And.left, harrows, horder.imp And.right⟩

/-- The part that a slice shows is drawn with its nodes in the order of the graph, and with
all edges between them. -/
theorem Slice.exists_dot_project {g : Graph ν κ} (hg : g.Sound) (slice : Slice ν)
    (label : ν → String) :
    ∃ text, (slice.project g).dot label = .ok text ∧
      Drawn (g.nodes.filter slice.contains) label g.hasEdge text := by
  obtain ⟨text, hdot, arrows, htext, horder, harrows, hnodup⟩ :=
    (hg.restrict slice.contains).exists_dot label
  have hkept : ∀ {k : Nat} {c : ν}, (g.nodes.filter slice.contains)[k]? = some c →
      slice.contains c = true :=
    fun hc => (List.mem_filter.1 (List.mem_of_getElem? hc)).2
  refine ⟨text, hdot, arrows, htext, horder, fun i j => (harrows i j).trans ?_, hnodup⟩
  refine exists₂_congr fun a b => and_congr_right fun ha => and_congr_right fun hb => ?_
  show (slice.contains a && slice.contains b && g.hasEdge a b) = true ↔ _
  rw [hkept ha, hkept hb, Bool.true_and, Bool.true_and]

/-- **Drawings of stored graphs are complete.**  Through any stack of layers over a stored
graph, and for any labels, there is a drawing.  It has one line for each node, numbered from
zero in the order in which the nodes are listed, then an empty line, and then one line for
each arrow of a list.  The list is in the order of the numbers that its arrows start from,
has an arrow from one number to another exactly if there is an edge between the nodes with
these numbers, and has no arrow twice. -/
theorem Graph.Stored.dot_exact {g : Graph ν κ} (hg : g.Stored) (stack : Stack ν)
    (label : ν → String) :
    ∃ arrows : List (Nat × Nat),
      (stack.view g).dot label = .ok ("digraph G \x7b\n"
        ++ String.join ((stack.view g).nodes.mapIdx fun i n =>
          s!"  Node_{i}[label=\"{Drawing.escapeLabel (label n)}\"]\n")
        ++ "\n"
        ++ String.join (arrows.map fun a => s!"  Node_{a.1} -> Node_{a.2}\n")
        ++ "\x7d\n") ∧
      arrows.Pairwise (fun a b => a.1 ≤ b.1) ∧
      (∀ i j, (i, j) ∈ arrows ↔ ∃ a b, (stack.view g).nodes[i]? = some a ∧
        (stack.view g).nodes[j]? = some b ∧ (stack.view g).hasEdge a b = true) ∧
      arrows.Nodup := by
  obtain ⟨text, hdot, arrows, rfl, hshown⟩ := (stack.sound_view hg.sound).exists_dot label
  exact ⟨arrows, hdot, hshown⟩

/-- A node that leads to itself, seen through layers of all kinds. -/
theorem Graph.Stored.dot_exact_mixed :
    Adjacency.looped.graph.Stored ∧
      ∃ arrows : List (Nat × Nat),
        (Stack.mixed.view Adjacency.looped.graph).dot toString = .ok ("digraph G \x7b\n"
          ++ String.join ((Stack.mixed.view Adjacency.looped.graph).nodes.mapIdx fun i n =>
            s!"  Node_{i}[label=\"{Drawing.escapeLabel (toString n)}\"]\n")
          ++ "\n"
          ++ String.join (arrows.map fun a => s!"  Node_{a.1} -> Node_{a.2}\n")
          ++ "\x7d\n") ∧
        (1, 1) ∈ arrows ∧ (1, 2) ∈ arrows ∧ (2, 0) ∉ arrows := by
  have hstored : Adjacency.looped.graph.Stored := .adjacency ⟨_, rfl⟩
  obtain ⟨arrows, hdot, -, harrows, -⟩ :=
    Graph.Stored.dot_exact hstored Stack.mixed (toString : Nat → String)
  refine ⟨hstored, arrows, hdot, ?_, ?_, ?_⟩
  · exact (harrows 1 1).2 ⟨2, 2, by decide, by decide, by decide⟩
  · exact (harrows 1 2).2 ⟨2, 4, by decide, by decide, by decide⟩
  · rw [harrows]
    rintro ⟨a, b, ha, hb, hedge⟩
    obtain rfl : 4 = a := Option.some.inj ha
    obtain rfl : 1 = b := Option.some.inj hb
    exact absurd hedge (by decide)

end ProgramFlow
