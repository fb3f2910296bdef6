import ProgramFlow.Graph.Adjacency
import ProgramFlow.Proofs.Sound

/-!
# The two families of rows stay in step

The adjacency store writes every edge twice.  What has to be kept is that the
rows of predecessors are the rows of successors read the other way, and that
there is a row of each kind for every node.  Then the graph is sound.

The edges between numbers, `Adjacency.Arc`, are read from the rows of successors;
each operation has one lemma that says what it does to them (`arc_link`,
`arc_isolateBefore`, …) and one that says that it keeps the rows paired.

* `Adjacency.Paired` — the rows of both kinds tell the same arcs.
* `Adjacency.Paired.edit`, `Adjacency.Paired.connect`, … — every operation keeps them
  paired, also one that fails.
* `Adjacency.Paired.sound` — a store with paired rows is a sound graph.
-/

namespace ProgramFlow

namespace Adjacency

/-! ## Rows -/

theorem row_modify (rows : List BitSet) (f : BitSet → BitSet) (i a : Nat) :
    row (rows.modify i f) a = if i = a ∧ a < rows.length then f (row rows a) else row rows a := by
  simp only [row, List.getElem?_modify]
  cases h : rows[a]? with
  | none =>
      have hlen := List.getElem?_eq_none_iff.1 h
      rw [if_neg (by omega)]
      rfl
  | some s =>
      obtain ⟨hlen, -⟩ := List.getElem?_eq_some_iff.1 h
      by_cases hia : i = a
      · simp [hia, hlen]
      · simp [hia]

theorem not_mem_row_of_le {rows : List BitSet} {a b : Nat} (h : rows.length ≤ a) :
    b ∉ row rows a := by
  rw [row, List.getElem?_eq_none_iff.2 h]
  exact BitSet.not_mem_bottom b 0

theorem mem_row_setBit {rows : List BitSet} {i j a b : Nat} (hi : i < rows.length) :
    b ∈ row (setBit rows i j) a ↔ b ∈ row rows a ∨ (a = i ∧ b = j) := by
  rw [setBit, row_modify]
  by_cases hia : i = a
  · subst hia
    simp [hi]
  · simp [hia, Ne.symm hia]

theorem mem_row_clearBit {rows : List BitSet} {i j a b : Nat} :
    b ∈ row (clearBit rows i j) a ↔ b ∈ row rows a ∧ ¬(a = i ∧ b = j) := by
  rw [clearBit, row_modify]
  by_cases hia : i = a
  · subst hia
    by_cases hlen : i < rows.length
    · simp [hlen]
    · simp [hlen, not_mem_row_of_le (Nat.le_of_not_lt hlen)]
  · simp [hia, Ne.symm hia]

theorem mem_row_clearRow {rows : List BitSet} {i a b : Nat} :
    b ∈ row (clearRow rows i) a ↔ b ∈ row rows a ∧ a ≠ i := by
  rw [clearRow, row_modify]
  by_cases hia : i = a
  · subst hia
    by_cases hlen : i < rows.length
    · simp [hlen]
    · simp [hlen, not_mem_row_of_le (Nat.le_of_not_lt hlen)]
  · simp [hia, Ne.symm hia]

theorem mem_row_clearColumn {rows : List BitSet} {is : BitSet} {j a b : Nat} :
    b ∈ row (clearColumn rows is j) a ↔ b ∈ row rows a ∧ ¬(a ∈ is ∧ b = j) := by
  rw [clearColumn, ← BitSet.mem_toList (s := is)]
  generalize is.toList = js
  induction js generalizing rows with
  | nil => simp
  | cons i js ih =>
      rw [List.foldl_cons, ih, mem_row_clearBit, List.mem_cons]
      grind

theorem mem_row_append_bottom {rows : List BitSet} {a b : Nat} :
    b ∈ row (rows ++ [.bottom 0]) a ↔ b ∈ row rows a := by
  by_cases ha : a < rows.length
  · rw [row, row, List.getElem?_append_left ha]
  · have hrow : row (rows ++ [.bottom 0]) a = .bottom 0 := by
      rw [row, List.getElem?_append_right (Nat.le_of_not_lt ha)]
      cases hk : a - rows.length with
      | zero => rfl
      | succ k => rfl
    rw [hrow]
    exact iff_of_false (BitSet.not_mem_bottom b 0) (not_mem_row_of_le (Nat.le_of_not_lt ha))

@[simp] theorem length_setBit (rows : List BitSet) (i j : Nat) :
    (setBit rows i j).length = rows.length := by
  rw [setBit, List.length_modify]

@[simp] theorem length_clearBit (rows : List BitSet) (i j : Nat) :
    (clearBit rows i j).length = rows.length := by
  rw [clearBit, List.length_modify]

@[simp] theorem length_clearRow (rows : List BitSet) (i : Nat) :
    (clearRow rows i).length = rows.length := by
  rw [clearRow, List.length_modify]

@[simp] theorem length_clearColumn (rows : List BitSet) (is : BitSet) (j : Nat) :
    (clearColumn rows is j).length = rows.length := by
  rw [clearColumn]
  generalize is.toList = js
  induction js generalizing rows with
  | nil => rfl
  | cons i js ih => rw [List.foldl_cons, ih, length_clearBit]

/-! ## Arcs -/

variable {ν : Type}

/-- There is an edge between two numbers. -/
def Arc (g : Adjacency ν) (i j : Nat) : Prop := j ∈ row g.succs i

/-- Every node has a row of each kind, and the rows of predecessors are those of
successors read the other way. -/
structure Paired (g : Adjacency ν) : Prop where
  length_succs : g.succs.length = g.nodes.size
  length_preds : g.preds.length = g.nodes.size
  mem_preds_iff : ∀ i j, i ∈ row g.preds j ↔ g.Arc i j

theorem paired_empty : (empty : Adjacency ν).Paired where
  length_succs := rfl
  length_preds := rfl
  mem_preds_iff _ _ :=
    iff_of_false (not_mem_row_of_le (Nat.zero_le _)) (not_mem_row_of_le (Nat.zero_le _))

theorem arc_link {g : Adjacency ν} (hg : g.Paired) {i j a b : Nat} (hi : i < g.nodes.size) :
    (g.link i j).Arc a b ↔ g.Arc a b ∨ (a = i ∧ b = j) :=
  mem_row_setBit (hg.length_succs ▸ hi)

theorem Paired.link {g : Adjacency ν} (hg : g.Paired) {i j : Nat} (hi : i < g.nodes.size)
    (hj : j < g.nodes.size) : (g.link i j).Paired where
  length_succs := (length_setBit ..).trans hg.length_succs
  length_preds := (length_setBit ..).trans hg.length_preds
  mem_preds_iff a b := by
    rw [arc_link hg hi, ← hg.mem_preds_iff, and_comm]
    exact mem_row_setBit (hg.length_preds ▸ hj)

theorem arc_unlink {g : Adjacency ν} {i j a b : Nat} :
    (g.unlink i j).Arc a b ↔ g.Arc a b ∧ ¬(a = i ∧ b = j) :=
  mem_row_clearBit

theorem Paired.unlink {g : Adjacency ν} (hg : g.Paired) (i j : Nat) : (g.unlink i j).Paired where
  length_succs := (length_clearBit ..).trans hg.length_succs
  length_preds := (length_clearBit ..).trans hg.length_preds
  mem_preds_iff a b := by
    rw [arc_unlink, ← hg.mem_preds_iff, and_comm (a := a = i)]
    exact mem_row_clearBit

/-- The bits that are cleared one by one are those of all edges into the number. -/
theorem arc_isolateBefore {g : Adjacency ν} (hg : g.Paired) {j a b : Nat} :
    (g.isolateBefore j).Arc a b ↔ g.Arc a b ∧ b ≠ j := by
  refine mem_row_clearColumn.trans ?_
  rw [hg.mem_preds_iff]
  constructor
  · rintro ⟨hab, hnot⟩
    exact ⟨hab, fun hbj => hnot ⟨hbj ▸ hab, hbj⟩⟩
  · rintro ⟨hab, hbj⟩
    exact ⟨hab, fun h => hbj h.2⟩

theorem Paired.isolateBefore {g : Adjacency ν} (hg : g.Paired) (j : Nat) :
    (g.isolateBefore j).Paired where
  length_succs := (length_clearColumn ..).trans hg.length_succs
  length_preds := (length_clearRow ..).trans hg.length_preds
  mem_preds_iff a b := by
    rw [arc_isolateBefore hg, ← hg.mem_preds_iff]
    exact mem_row_clearRow

theorem arc_isolateAfter {g : Adjacency ν} {i a b : Nat} :
    (g.isolateAfter i).Arc a b ↔ g.Arc a b ∧ a ≠ i :=
  mem_row_clearRow

theorem Paired.isolateAfter {g : Adjacency ν} (hg : g.Paired) (i : Nat) :
    (g.isolateAfter i).Paired where
  length_succs := (length_clearRow ..).trans hg.length_succs
  length_preds := (length_clearColumn ..).trans hg.length_preds
  mem_preds_iff a b := by
    refine mem_row_clearColumn.trans ?_
    rw [arc_isolateAfter, hg.mem_preds_iff]
    constructor
    · rintro ⟨hab, hnot⟩
      exact ⟨hab, fun hai => hnot ⟨show b ∈ row g.succs i from hai ▸ hab, hai⟩⟩
    · rintro ⟨hab, hai⟩
      exact ⟨hab, fun h => hai h.2⟩

/-! ## Operations -/

variable [DecidableEq ν]

theorem arc_addNode {g : Adjacency ν} {n : ν} {a b : Nat} : (g.addNode n).Arc a b ↔ g.Arc a b := by
  unfold addNode
  split
  · rfl
  · exact mem_row_append_bottom

theorem Paired.addNode {g : Adjacency ν} (hg : g.Paired) (n : ν) : (g.addNode n).Paired := by
  by_cases hn : n ∈ g.nodes
  · rw [Adjacency.addNode, if_pos hn]
    exact hg
  · have hsize : (g.nodes.insert n).size = g.nodes.size + 1 := by
      rw [Roster.size, Roster.toList_insert, if_neg (show n ∉ g.nodes.toList from hn),
        List.length_append]
      rfl
    have hadd : g.addNode n =
        ⟨g.nodes.insert n, g.succs ++ [.bottom 0], g.preds ++ [.bottom 0]⟩ := by
      rw [Adjacency.addNode, if_neg hn]
    constructor
    · rw [hadd, hsize, List.length_append, hg.length_succs]
      rfl
    · rw [hadd, hsize, List.length_append, hg.length_preds]
      rfl
    · intro i j
      rw [arc_addNode, ← hg.mem_preds_iff, hadd]
      exact mem_row_append_bottom

theorem mem_nodes_addNode {g : Adjacency ν} {n m : ν} :
    m ∈ (g.addNode n).nodes ↔ m ∈ g.nodes ∨ m = n := by
  unfold addNode
  split
  · rename_i hn
    exact ⟨Or.inl, fun h => h.elim id fun hmn => hmn ▸ hn⟩
  · exact Roster.mem_insert

theorem Paired.connect {g : Adjacency ν} (hg : g.Paired) (src dst : ν) :
    (g.connect src dst).Paired := by
  have hsrc : src ∈ ((g.addNode src).addNode dst).nodes := by simp [mem_nodes_addNode]
  have hdst : dst ∈ ((g.addNode src).addNode dst).nodes := by simp [mem_nodes_addNode]
  exact ((hg.addNode src).addNode dst).link
    (Roster.lt_size_of_get? (Roster.get?_position hsrc))
    (Roster.lt_size_of_get? (Roster.get?_position hdst))

theorem number_eq_ok_iff {g : Adjacency ν} {n : ν} {i : Nat} :
    g.number n = .ok i ↔ g.nodes.get? i = some n := by
  rw [number, ← Roster.index?_eq_some_iff]
  cases g.nodes.index? n with
  | none => simp
  | some j => simp

/-- A change that asks for the number of a node goes on with it, or fails and leaves
the store as it is. -/
theorem on_numberM_bind {α : Type} (n : ν) (k : Nat → EditM ν (Adjacency ν) α) (g : Adjacency ν) :
    (numberM n >>= k).on g =
      match g.number n with
      | .ok i => (k i).on g
      | .error e => (.error e, g) := by
  rw [EditM.on_bind, numberM, EditM.on_bind]
  simp only [EditM.on_get, EditM.on_ofLookup]
  cases g.number n with
  | error e => rfl
  | ok i => rfl

/-- A change that asks for a number keeps whatever the rest of it keeps. -/
theorem keeps_numberM_bind {P : Adjacency ν → Prop} {α : Type} {n : ν}
    {k : Nat → EditM ν (Adjacency ν) α} {g : Adjacency ν} (hg : P g)
    (hk : ∀ i, i < g.nodes.size → P ((k i).on g).2) : P ((numberM n >>= k).on g).2 := by
  rw [on_numberM_bind]
  cases hn : g.number n with
  | error e => exact hg
  | ok i => exact hk i (Roster.lt_size_of_get? (number_eq_ok_iff.1 hn))

theorem Paired.removeIncoming {g : Adjacency ν} (hg : g.Paired) (n : ν) :
    ((removeIncoming n).on g).2.Paired :=
  keeps_numberM_bind hg fun j _ => hg.isolateBefore j

theorem Paired.removeOutgoing {g : Adjacency ν} (hg : g.Paired) (n : ν) :
    ((removeOutgoing n).on g).2.Paired :=
  keeps_numberM_bind hg fun i _ => hg.isolateAfter i

/-- **Every edit keeps the rows paired**, whether it succeeds or fails. -/
theorem Paired.edit {g : Adjacency ν} (hg : g.Paired) (e : Edit ν) :
    ((edit e).on g).2.Paired := by
  cases e with
  | addEdge src dst =>
      exact keeps_numberM_bind hg fun i hi => keeps_numberM_bind hg fun j hj => hg.link hi hj
  | removeEdge src dst =>
      exact keeps_numberM_bind hg fun i _ => keeps_numberM_bind hg fun j _ => hg.unlink i j
  | removeIncident n =>
      show ((removeIncident n).on g).2.Paired
      have hfirst := hg.removeIncoming n
      rw [removeIncident, EditM.on_bind]
      rcases h : (Adjacency.removeIncoming n).on g with ⟨outcome, g'⟩
      rw [h] at hfirst
      cases outcome with
      | error e => exact hfirst
      | ok u => exact hfirst.removeOutgoing n
  | removeIncoming n => exact hg.removeIncoming n
  | removeOutgoing n => exact hg.removeOutgoing n

/-! ## The graph of the store -/

omit [DecidableEq ν] in
theorem mem_decode {g : Adjacency ν} {s : BitSet} {n : ν} :
    n ∈ g.decode s ↔ ∃ i ∈ s, g.nodes.get? i = some n := by
  simp only [decode, List.mem_filterMap, BitSet.mem_toList]

omit [DecidableEq ν] in
theorem nodup_decode (g : Adjacency ν) (s : BitSet) : (g.decode s).Nodup := by
  refine List.Pairwise.filterMap _ ?_ (R := (· ≠ ·)) ?_
  · intro i j hij a ha b hb hab
    exact hij (Roster.get?_inj ha (hab ▸ hb))
  · rw [BitSet.toList_eq_filter]
    exact List.nodup_range.filter _

/-- The neighbours of a node, as the rows of one kind tell them. -/
def around (g : Adjacency ν) (rows : List BitSet) (n : ν) : Lookup ν (List ν) :=
  (g.number n).map fun i => g.decode (row rows i)

theorem around_eq_ok_iff {g : Adjacency ν} {rows : List BitSet} {n : ν} {ns : List ν} :
    g.around rows n = .ok ns ↔ ∃ i, g.nodes.get? i = some n ∧ g.decode (row rows i) = ns := by
  unfold around
  cases hn : g.number n with
  | error e =>
      simp only [Except.map, reduceCtorEq, false_iff]
      rintro ⟨i, hi, -⟩
      rw [number_eq_ok_iff.2 hi] at hn
      cases hn
  | ok i =>
      have hi := number_eq_ok_iff.1 hn
      simp only [Except.map, Except.ok.injEq]
      exact ⟨fun h => ⟨i, hi, h⟩, fun ⟨j, hj, h⟩ => Roster.get?_inj hi hj ▸ h⟩

theorem totalOn_around (g : Adjacency ν) (rows : List BitSet) :
    TotalOn g.nodes.toList (g.around rows) := by
  intro n hn
  obtain ⟨i, hi⟩ := Roster.mem_iff_get?.1 (show n ∈ g.nodes from hn)
  exact ⟨_, around_eq_ok_iff.2 ⟨i, hi, rfl⟩, fun m hm => mem_nodes_of_mem_decode hm⟩

theorem repetitionless_around (g : Adjacency ν) (rows : List BitSet) :
    Repetitionless (g.around rows) := by
  intro n ns h
  obtain ⟨i, -, rfl⟩ := around_eq_ok_iff.1 h
  exact g.nodup_decode _

theorem mem_around_iff {g : Adjacency ν} (rows : List BitSet) {a b : ν} :
    (∃ ns, g.around rows a = .ok ns ∧ b ∈ ns) ↔
      ∃ i j, g.nodes.get? i = some a ∧ g.nodes.get? j = some b ∧ j ∈ row rows i := by
  constructor
  · rintro ⟨ns, hns, hb⟩
    obtain ⟨i, hi, rfl⟩ := around_eq_ok_iff.1 hns
    obtain ⟨j, hij, hj⟩ := mem_decode.1 hb
    exact ⟨i, j, hi, hj, hij⟩
  · rintro ⟨i, j, hi, hj, hij⟩
    exact ⟨_, around_eq_ok_iff.2 ⟨i, hi, rfl⟩, mem_decode.2 ⟨j, hij, hj⟩⟩

theorem leads_iff {g : Adjacency ν} {a b : ν} :
    g.graph.Leads a b ↔
      ∃ i j, g.nodes.get? i = some a ∧ g.nodes.get? j = some b ∧ g.Arc i j :=
  mem_around_iff g.succs

theorem Paired.draws_iff {g : Adjacency ν} (hg : g.Paired) {a b : ν} :
    g.graph.Draws b a ↔
      ∃ i j, g.nodes.get? i = some a ∧ g.nodes.get? j = some b ∧ g.Arc i j := by
  refine (mem_around_iff g.preds).trans ?_
  constructor
  · rintro ⟨j, i, hj, hi, hij⟩
    exact ⟨i, j, hi, hj, (hg.mem_preds_iff i j).1 hij⟩
  · rintro ⟨i, j, hi, hj, hij⟩
    exact ⟨j, i, hj, hi, (hg.mem_preds_iff i j).2 hij⟩

theorem hasEdge_iff {g : Adjacency ν} {a b : ν} : g.hasEdge a b = true ↔ g.graph.Leads a b := by
  rw [leads_iff, hasEdge]
  constructor
  · intro h
    split at h
    · rename_i i j hi hj
      have hij : j ∈ row g.succs i := of_decide_eq_true h
      exact ⟨i, j, Roster.index?_eq_some_iff.1 hi, Roster.index?_eq_some_iff.1 hj, hij⟩
    · cases h
  · rintro ⟨i, j, hi, hj, hij⟩
    rw [Roster.index?_eq_some_iff.2 hi, Roster.index?_eq_some_iff.2 hj]
    exact decide_eq_true (show j ∈ row g.succs i from hij)

/-- **A store with paired rows is a sound graph.** -/
theorem Paired.sound {g : Adjacency ν} (hg : g.Paired) : g.graph.Sound where
  nodup := g.nodes.nodup
  contains_iff _ := Roster.contains_iff
  closed := ⟨g.totalOn_around g.preds, g.totalOn_around g.succs⟩
  nodup_preds := g.repetitionless_around g.preds
  nodup_succs := g.repetitionless_around g.succs
  mirrored _ _ _ _ := leads_iff.trans hg.draws_iff.symm
  hasEdge_iff _ _ _ _ := hasEdge_iff

/-- Two nodes that lead to each other, the second also to itself, and a third behind. -/
def knot : Adjacency Nat := (((empty.connect 1 2).connect 2 1).connect 2 2).connect 2 3

theorem sound_knot : knot.graph.Sound :=
  ((((paired_empty.connect 1 2).connect 2 1).connect 2 2).connect 2 3).sound

end Adjacency

end ProgramFlow
