import ProgramFlow.Proofs.Audit
import ProgramFlow.Proofs.Topology
import ProgramFlow.Slicing.Closure

/-!
# Checking and drawing the part that a slice shows

The part of a sound graph between the nodes of a slice is sound, and its numbers are
counted from its lists, so all that the check can object to is the number of nodes.
That number is right if the graph lists the nodes of the slice.

A sound graph can be drawn.  Since no node is listed twice, the numbers in the drawing
are those of the nodes, and there is an arrow for each edge.

* `Slice.check_project` — what the check of a slice comes down to.
* `Slice.check_project_of_listed` — slices of listed nodes pass it.
* `Drawing.Shows` — a drawing shows the nodes and the edges of a graph.
* `Graph.exists_drawing` — sound graphs have such drawings.
* `Graph.dot_eq_ok_iff` — the text of a drawing.
-/

namespace ProgramFlow

variable {ν κ : Type} [DecidableEq ν]

/-! ## The check -/

namespace Slice

/-- **The check compares sizes**: the audit never objects. -/
theorem check_project {g : Graph ν κ} (hg : g.Sound) (slice : Slice ν) :
    slice.check (slice.project g) =
      if (g.nodes.filter slice.contains).length = slice.size then .ok ()
      else .error (.sizeMismatch (g.nodes.filter slice.contains).length slice.size) := by
  have haudit : (slice.project g).audit = .ok () :=
    (hg.restrict slice.contains).audit_eq_ok (g.counted_restrict slice.contains)
  rw [check, haudit]
  rfl

/-- As many nodes are kept as the slice has, if all of its nodes are listed. -/
theorem length_filter_contains {nodes : List ν} (hnodes : nodes.Nodup) {slice : Slice ν}
    (hlisted : ∀ n ∈ slice, n ∈ nodes) : (nodes.filter slice.contains).length = slice.size := by
  have hperm : (nodes.filter slice.contains).Perm slice.toList := by
    refine (List.perm_ext_iff_of_nodup (hnodes.filter _) slice.nodup).2 fun n => ?_
    rw [List.mem_filter, Roster.contains_iff, ← Roster.mem_def]
    exact ⟨And.right, fun hn => ⟨hlisted n hn, hn⟩⟩
  exact hperm.length_eq

theorem check_project_of_listed {g : Graph ν κ} (hg : g.Sound) {slice : Slice ν}
    (hlisted : ∀ n ∈ slice, n ∈ g.nodes) : slice.check (slice.project g) = .ok () := by
  rw [check_project hg, if_pos (length_filter_contains hg.nodup hlisted)]

end Slice

/-! ## Drawings -/

/-- The drawing has a label for each node, in order, and an arrow for each edge. -/
structure Drawing.Shows (drawing : Drawing) (g : Graph ν κ) (label : ν → String) : Prop where
  labels : drawing.labels = g.nodes.map label
  arrows : ∀ i j, (i, j) ∈ drawing.arrows ↔
    ∃ a b, g.nodes[i]? = some a ∧ g.nodes[j]? = some b ∧ g.hasEdge a b = true

/-- Without repetitions the only index of a value is its last one. -/
theorem lastIndex?_eq_some_iff {as : List ν} (h : as.Nodup) {a : ν} {i : Fin as.length} :
    lastIndex? as a = some i ↔ as.get i = a := by
  refine ⟨fun hi => (lastIndex?_eq_some hi).1, fun hi => ?_⟩
  have hsome : lastIndex? as a ≠ none := by
    rw [Ne, lastIndex?_eq_none_iff, not_not]
    exact hi ▸ List.get_mem as i
  obtain ⟨j, hj⟩ := Option.ne_none_iff_exists'.1 hsome
  have hget : as.get j = as.get i := (lastIndex?_eq_some hj).1.trans hi.symm
  rw [hj, h.get_inj_iff.1 hget]

namespace Graph

/-- The arrows out of a node lead to the numbers of its successors. -/
theorem exists_arrowsFrom {g : Graph ν κ} (hg : g.Sound) (i : Nat) {n : ν} (hn : n ∈ g.nodes) :
    ∃ arrows, g.arrowsFrom i n = .ok arrows ∧ ∀ k j, (k, j) ∈ arrows ↔
      k = i ∧ ∃ s, g.nodes[j]? = some s ∧ g.hasEdge n s = true := by
  obtain ⟨ss, hss, hlisted⟩ := hg.closed.succs n hn
  have hedge : ∀ s ∈ g.nodes, (g.hasEdge n s = true ↔ s ∈ ss) := by
    intro s hs
    rw [hg.hasEdge_iff n hn s hs]
    simp [Leads, hss]
  refine ⟨_, by rw [arrowsFrom, hss]; rfl, fun k j => ?_⟩
  simp only [List.mem_filterMap, Option.map_eq_some_iff, lastIndex?_eq_some_iff hg.nodup,
    Prod.mk.injEq]
  constructor
  · rintro ⟨s, hs, l, rfl, rfl, rfl⟩
    exact ⟨rfl, _, List.getElem?_eq_getElem l.isLt, (hedge _ (hlisted _ hs)).2 hs⟩
  · rintro ⟨rfl, s, hj, hs⟩
    obtain ⟨hlt, rfl⟩ := List.getElem?_eq_some_iff.1 hj
    exact ⟨_, (hedge _ (List.getElem_mem hlt)).1 hs, ⟨j, hlt⟩, rfl, rfl, rfl⟩

/-- **Sound graphs can be drawn**, and the drawing shows them. -/
theorem exists_drawing {g : Graph ν κ} (hg : g.Sound) (label : ν → String) :
    ∃ drawing, g.drawing label = .ok drawing ∧ drawing.Shows g label := by
  have hmem : ∀ p ∈ g.nodes.zipIdx, p.1 ∈ g.nodes := fun p hp =>
    List.mem_of_getElem? (List.mem_zipIdx_iff_getElem?.1 hp)
  obtain ⟨rows, hrows⟩ := exists_mapM_eq_ok (f := fun p : ν × Nat => g.arrowsFrom p.2 p.1)
    fun p hp => by
      obtain ⟨row, hrow, -⟩ := exists_arrowsFrom hg p.2 (hmem p hp)
      exact ⟨row, hrow⟩
  refine ⟨⟨g.nodes.map label, rows.flatten⟩, ?_, rfl, fun i j => ?_⟩
  · rw [drawing, hrows]
    rfl
  · simp only [List.mem_flatten, mem_of_mapM_eq_ok hrows]
    constructor
    · rintro ⟨row, ⟨⟨n, k⟩, hp, hrow⟩, hij⟩
      obtain ⟨row', hrow', harrows⟩ := exists_arrowsFrom hg k (hmem _ hp)
      obtain rfl : row = row' := Except.ok.inj (hrow.symm.trans hrow')
      obtain ⟨rfl, s, hs, hedge⟩ := (harrows i j).1 hij
      exact ⟨n, s, List.mem_zipIdx_iff_getElem?.1 hp, hs, hedge⟩
    · rintro ⟨n, s, hn, hs, hedge⟩
      have hp : (n, i) ∈ g.nodes.zipIdx := List.mem_zipIdx_iff_getElem?.2 hn
      obtain ⟨row, hrow, harrows⟩ := exists_arrowsFrom hg i (hmem _ hp)
      exact ⟨row, ⟨(n, i), hp, hrow⟩, (harrows i j).2 ⟨rfl, s, hs, hedge⟩⟩

/-- The text of a drawing, line by line. -/
theorem dot_eq_ok_iff {g : Graph ν κ} {label : ν → String} {text : String} :
    g.dot label = .ok text ↔ ∃ drawing, g.drawing label = .ok drawing ∧
      "digraph G \x7b\n" ++ String.join (g.nodes.mapIdx fun i n => Drawing.nodeLine i (label n))
        ++ "\n" ++ String.join (drawing.arrows.map Drawing.arrowLine) ++ "\x7d\n" = text := by
  have hlines : (g.nodes.map label).mapIdx Drawing.nodeLine =
      g.nodes.mapIdx fun i n => Drawing.nodeLine i (label n) := by
    refine List.ext_getElem? fun i => ?_
    simp only [List.getElem?_mapIdx, List.getElem?_map, Option.map_map]
    rfl
  cases hdrawing : g.drawing label with
  | error e => simp [dot, hdrawing, Except.map]
  | ok drawing =>
      obtain ⟨rows, -, hrows⟩ := bind_eq_ok_iff.1 hdrawing
      obtain rfl := Except.ok.inj hrows
      rw [dot, hdrawing]
      simp only [Except.map, Except.ok.injEq, exists_eq_left']
      unfold Drawing.render
      rw [hlines]

end Graph

end ProgramFlow
