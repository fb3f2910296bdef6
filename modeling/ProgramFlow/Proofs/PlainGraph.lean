import Mathlib.Data.Finset.Card
import ProgramFlow.Proofs.Audit
import ProgramFlow.Proofs.Edits
import ProgramFlow.Proofs.Histories
import ProgramFlow.Proofs.Roster

/-!
# The adjacency store as a plain graph

A plain graph is a set of nodes and a set of pairs.  Every operation of the adjacency
store can be run on it: adding a node or an edge inserts, an edit removes the pairs it
speaks of, and an edit of which a node is missing does nothing.  An edit through layers
that reverse the edges is made on the reversed pairs, and one that a layer refuses is not
made.  The store keeps its edges twice, in rows of bits that widen and are reset; over any
history its reads are those of the plain graph, listed in the order in which the nodes came.

* `Adjacency.succs_eq`, `Adjacency.Paired.preds_eq` — neighbours are enumerated in
  the order of the nodes.
* `Adjacency.InRange` — all numbers that the store looks up exist.
* `PlainGraph.perform` — the operations on plain sets.
* `Adjacency.Refines.perform` — an operation keeps a store and a plain graph in step.
* `Adjacency.reads_history` — the reads of a store after a history of operations.
-/

namespace ProgramFlow

/-! ## Neighbours in the order of the nodes -/

namespace Adjacency

variable {ν : Type}

/-- Decoding a set of numbers selects the nodes with these numbers from the list of all. -/
theorem decode_eq_filter {g : Adjacency ν} {s : BitSet} {keep : ν → Bool}
    (hkeep : ∀ i n, g.nodes.get? i = some n → (keep n = true ↔ i ∈ s)) :
    g.decode s = g.nodes.toList.filter keep :=
  Roster.filterMap_get?_eq_filter hkeep

/-- As many nodes are decoded as there are numbers, if all of them are in use. -/
theorem length_decode {g : Adjacency ν} {s : BitSet} (h : ∀ i ∈ s, i < g.nodes.size) :
    (g.decode s).length = s.count := by
  refine List.filterMap_length_eq_length.2 fun i hi => ?_
  obtain ⟨n, hn⟩ := Roster.exists_get? (h i (BitSet.mem_toList.1 hi))
  rw [hn]
  rfl

/-- All numbers that the store looks up exist: a node number has a row of each kind, and a
bit that is set in a row is the number of a node and has a row of the other kind. -/
structure InRange [DecidableEq ν] (g : Adjacency ν) : Prop where
  number : ∀ n i, g.number n = .ok i → i < g.succs.length ∧ i < g.preds.length
  succs : ∀ i, ∀ j ∈ row g.succs i, j < g.nodes.size ∧ j < g.preds.length
  preds : ∀ j, ∀ i ∈ row g.preds j, i < g.nodes.size ∧ i < g.succs.length

variable [DecidableEq ν]

theorem Paired.inRange {g : Adjacency ν} (hg : g.Paired) : g.InRange where
  number n i hi := by
    rw [hg.length_succs, hg.length_preds, and_self]
    exact Roster.lt_size_of_get? (number_eq_ok_iff.1 hi)
  succs i j hj := by
    rw [hg.length_preds, and_self]
    exact (hg.lt_of_arc hj).2
  preds j i hi := by
    rw [hg.length_succs, and_self]
    exact (hg.lt_of_arc ((hg.mem_preds_iff i j).1 hi)).1

/-- The successors of a node come in the order of the nodes. -/
theorem succs_eq {g : Adjacency ν} (a : ν) :
    g.graph.succs a =
      if a ∈ g.nodes then .ok (g.nodes.toList.filter fun b => g.hasEdge a b)
      else .error (.invalidNode a) := by
  show (g.number a).map (fun i => g.decode (row g.succs i)) = _
  by_cases ha : a ∈ g.nodes
  · obtain ⟨i, hi, hget⟩ := exists_number ha
    rw [if_pos ha, hi, Except.map, decode_eq_filter fun j b hj => hasEdge_iff_arc hget hj]
  · rw [if_neg ha, number_eq_error ha]
    rfl

/-- The predecessors of a node come in the order of the nodes. -/
theorem Paired.preds_eq {g : Adjacency ν} (hg : g.Paired) (b : ν) :
    g.graph.preds b =
      if b ∈ g.nodes then .ok (g.nodes.toList.filter fun a => g.hasEdge a b)
      else .error (.invalidNode b) := by
  show (g.number b).map (fun j => g.decode (row g.preds j)) = _
  by_cases hb : b ∈ g.nodes
  · obtain ⟨j, hj, hget⟩ := exists_number hb
    have hkeep : ∀ i a, g.nodes.get? i = some a →
        (g.hasEdge a b = true ↔ i ∈ row g.preds j) := by
      intro i a hi
      rw [hasEdge_iff_arc hi hget, hg.mem_preds_iff]
    rw [if_pos hb, hj, Except.map, decode_eq_filter hkeep]
  · rw [if_neg hb, number_eq_error hb]
    rfl

/-- Counting the bits of a row is counting the nodes that are listed for it. -/
theorem count_around {g : Adjacency ν} {rows : List BitSet}
    (h : ∀ i, ∀ j ∈ row rows i, j < g.nodes.size) (n : ν) :
    (g.number n).map (fun i => (row rows i).count) = (g.around rows n).map List.length := by
  unfold around
  cases g.number n with
  | error e => rfl
  | ok i => exact congrArg Except.ok (length_decode (h i)).symm

theorem Paired.predCount_eq {g : Adjacency ν} (hg : g.Paired) (n : ν) :
    g.graph.predCount n = (g.graph.preds n).map List.length :=
  count_around (fun j i hi => (hg.inRange.preds j i hi).1) n

theorem Paired.succCount_eq {g : Adjacency ν} (hg : g.Paired) (n : ν) :
    g.graph.succCount n = (g.graph.succs n).map List.length :=
  count_around (fun i j hj => (hg.inRange.succs i j hj).1) n

theorem Paired.counted {g : Adjacency ν} (hg : g.Paired) : g.graph.Counted :=
  ⟨rfl, fun n _ => hg.predCount_eq n, fun n _ => hg.succCount_eq n⟩

end Adjacency

/-! ## Plain graphs -/

/-- A directed graph as two sets. -/
structure PlainGraph (ν : Type) where
  nodes : Finset ν
  edges : Finset (ν × ν)

namespace PlainGraph

variable {ν : Type} [DecidableEq ν]

/-- The graph without nodes. -/
def empty : PlainGraph ν := ⟨∅, ∅⟩

/-- What an edit makes of a set of pairs. -/
def change (edges : Finset (ν × ν)) : Edit ν → Finset (ν × ν)
  | .addEdge src dst => insert (src, dst) edges
  | .removeEdge src dst => edges.erase (src, dst)
  | .removeIncident n => edges.filter fun e => e.1 ≠ n ∧ e.2 ≠ n
  | .removeIncoming n => edges.filter fun e => e.2 ≠ n
  | .removeOutgoing n => edges.filter fun e => e.1 ≠ n

/-- Perform an edit, if the nodes that it names are there. -/
def edit (p : PlainGraph ν) (e : Edit ν) : PlainGraph ν :=
  if ∀ n ∈ e.ends, n ∈ p.nodes then { p with edges := change p.edges e } else p

/-- The graph with all pairs reversed. -/
def reverse (p : PlainGraph ν) : PlainGraph ν := { p with edges := p.edges.image Prod.swap }

/-- Perform an operation. -/
def perform (p : PlainGraph ν) : Adjacency.Op ν → PlainGraph ν
  | .addNode n => { p with nodes := insert n p.nodes }
  | .connect src dst =>
      { nodes := insert dst (insert src p.nodes), edges := insert (src, dst) p.edges }
  | .edit e => p.edit e
  | .through stack e => stack.enter edit reverse p e

/-- What a history of operations makes of the empty graph. -/
def after (history : List (Adjacency.Op ν)) : PlainGraph ν := history.foldl perform empty

theorem mem_change {edges : Finset (ν × ν)} {e : Edit ν} {a b : ν} :
    (a, b) ∈ change edges e ↔ (a, b) ∈ edges ∧ e.removes a b = false ∨ e.adds a b = true := by
  cases e with
  | addEdge src dst => simp [change, Edit.removes, Edit.adds, or_comm]
  | removeEdge src dst => simp [change, Edit.removes, Edit.adds, and_comm]
  | removeIncident n => simp [change, Edit.removes, Edit.adds]
  | removeIncoming n => simp [change, Edit.removes, Edit.adds]
  | removeOutgoing n => simp [change, Edit.removes, Edit.adds]

theorem mem_image_swap {edges : Finset (ν × ν)} {a b : ν} :
    (a, b) ∈ edges.image Prod.swap ↔ (b, a) ∈ edges := by
  simp [Prod.ext_iff]

theorem nodes_reverse (p : PlainGraph ν) : p.reverse.nodes = p.nodes := rfl

theorem reverse_reverse (p : PlainGraph ν) : p.reverse.reverse = p := by
  unfold reverse
  simp [Finset.image_image]

/-- A transposed edit does what the edit does where the pairs are reversed. -/
theorem edit_transpose (p : PlainGraph ν) (e : Edit ν) :
    p.edit e.transpose = (p.reverse.edit e).reverse := by
  have hends : (∀ n ∈ e.transpose.ends, n ∈ p.nodes) ↔ ∀ n ∈ e.ends, n ∈ p.nodes := by simp
  by_cases hall : ∀ n ∈ e.ends, n ∈ p.nodes
  · have hchange : change p.edges e.transpose = (change p.reverse.edges e).image Prod.swap := by
      ext ⟨a, b⟩
      rw [mem_image_swap, mem_change, mem_change, reverse, mem_image_swap, Edit.removes_transpose,
        Edit.adds_transpose]
    rw [edit, if_pos (hends.2 hall), edit, nodes_reverse, if_pos hall, hchange]
    rfl
  · rw [edit, if_neg (mt hends.1 hall), edit, nodes_reverse, if_neg hall,
      reverse_reverse]

end PlainGraph

/-! ## In step with a plain graph -/

namespace Adjacency

variable {ν : Type} [DecidableEq ν]

/-- What a history of operations makes of the empty store. -/
def after (history : List (Op ν)) : Adjacency ν := history.foldl perform empty

/-- The store has the nodes and the edges of the plain graph. -/
structure Refines (g : Adjacency ν) (p : PlainGraph ν) : Prop where
  paired : g.Paired
  nodes : ∀ n, n ∈ g.nodes ↔ n ∈ p.nodes
  edges : ∀ a b, g.hasEdge a b = true ↔ (a, b) ∈ p.edges

theorem refines_empty : (empty : Adjacency ν).Refines .empty where
  paired := paired_empty
  nodes n := iff_of_false List.not_mem_nil (Finset.notMem_empty n)
  edges a b := iff_of_false (fun h => List.not_mem_nil (mem_of_hasEdge h).1)
    (Finset.notMem_empty (a, b))

theorem mem_nodes_addNode_iff {g : Adjacency ν} {nodes : Finset ν}
    (h : ∀ n, n ∈ g.nodes ↔ n ∈ nodes) {n m : ν} :
    m ∈ (g.addNode n).nodes ↔ m ∈ insert n nodes := by
  rw [mem_nodes_addNode, h, Finset.mem_insert, or_comm]

theorem mem_nodes_connect_iff {g : Adjacency ν} {nodes : Finset ν}
    (h : ∀ n, n ∈ g.nodes ↔ n ∈ nodes) {src dst m : ν} :
    m ∈ (g.connect src dst).nodes ↔ m ∈ insert dst (insert src nodes) := by
  rw [nodes_connect, Roster.mem_insert, Roster.mem_insert, h, Finset.mem_insert,
    Finset.mem_insert, or_comm, or_comm (b := m = src)]

theorem Refines.edit {g : Adjacency ν} {p : PlainGraph ν} (h : g.Refines p) (e : Edit ν) :
    ((edit e).on g).2.Refines (p.edit e) := by
  have hpaired := h.paired.edit e
  rcases edit_cases h.paired e with ⟨n, hn, hmissing, hon⟩ | ⟨hends, g', hon, hedited⟩
  · have hplain : p.edit e = p := if_neg fun hall => hmissing ((h.nodes n).2 (hall n hn))
    rw [hon, hplain]
    exact h
  · have hplain : p.edit e = { p with edges := PlainGraph.change p.edges e } :=
      if_pos fun n hn => (h.nodes n).1 (hends n hn)
    rw [hon] at hpaired ⊢
    rw [hplain]
    refine ⟨hpaired, fun n => ?_, fun a b => ?_⟩
    · show n ∈ g'.nodes ↔ n ∈ p.nodes
      rw [hedited.nodes, h.nodes]
    · show g'.hasEdge a b = true ↔ (a, b) ∈ PlainGraph.change p.edges e
      rw [hedited.hasEdge, PlainGraph.mem_change, h.edges]

/-- **An operation keeps a store and a plain graph in step**, also one that fails. -/
theorem Refines.perform {g : Adjacency ν} {p : PlainGraph ν} (h : g.Refines p) (o : Op ν) :
    (g.perform o).Refines (p.perform o) := by
  cases o with
  | addNode n =>
      refine ⟨h.paired.addNode n, fun _ => mem_nodes_addNode_iff h.nodes, fun a b => ?_⟩
      exact (hasEdge_addNode h.paired).trans (h.edges a b)
  | connect src dst =>
      refine ⟨h.paired.connect src dst, fun _ => mem_nodes_connect_iff h.nodes, fun a b => ?_⟩
      show (g.connect src dst).hasEdge a b = true ↔ (a, b) ∈ insert (src, dst) p.edges
      rw [hasEdge_connect h.paired, h.edges, Finset.mem_insert, Prod.mk.injEq, or_comm]
  | edit e => exact h.edit e
  | through stack e => exact Store.keeps_step PlainGraph.edit_transpose h h.edit stack e

/-- A history keeps them in step. -/
theorem Refines.foldl {g : Adjacency ν} {p : PlainGraph ν} (h : g.Refines p)
    (history : List (Op ν)) :
    (history.foldl Adjacency.perform g).Refines (history.foldl PlainGraph.perform p) := by
  induction history generalizing g p with
  | nil => exact h
  | cons o history ih => exact ih (h.perform o)

theorem refines_after (history : List (Op ν)) : (after history).Refines (.after history) :=
  refines_empty.foldl history

/-! ## Nodes in the order in which they came -/

/-- The nodes that an operation brings in, where they are missing. -/
def Op.added : Op ν → List ν
  | .addNode n => [n]
  | .connect src dst => [src, dst]
  | .edit _ => []
  | .through _ _ => []

theorem nodes_perform {g : Adjacency ν} (hg : g.Paired) (o : Op ν) :
    (g.perform o).nodes = g.nodes.insertAll o.added := by
  cases o with
  | addNode n => exact nodes_addNode g n
  | connect src dst => exact nodes_connect g src dst
  | edit e => exact nodes_edit hg e
  | through stack e =>
      exact Store.keeps_editThrough (P := fun g' : Adjacency ν => g'.nodes = g.nodes) rfl
        (nodes_edit hg) stack e

theorem nodes_foldl {g : Adjacency ν} (hg : g.Paired) (history : List (Op ν)) :
    (history.foldl perform g).nodes = g.nodes.insertAll (history.flatMap Op.added) := by
  induction history generalizing g with
  | nil => rfl
  | cons o history ih =>
      rw [List.foldl_cons, ih (hg.perform o), nodes_perform hg, List.flatMap_cons,
        Roster.insertAll, Roster.insertAll, Roster.insertAll, List.foldl_append]

end Adjacency

/-! ## The edges of a node, counted -/

/-- Pairs that come from the nodes of a list are as many as the nodes they come from. -/
theorem card_filter_eq_length {ν : Type} [DecidableEq ν] {edges : Finset (ν × ν)} {nodes : List ν}
    {pair : ν → ν × ν} {P : ν × ν → Prop} [DecidablePred P] (hnodup : nodes.Nodup)
    (hpair : Function.Injective pair) (hP : ∀ e, P e ↔ ∃ b, pair b = e)
    (hmem : ∀ b, pair b ∈ edges → b ∈ nodes) :
    (edges.filter P).card = (nodes.filter fun b => pair b ∈ edges).length := by
  have himage : edges.filter P = (nodes.filter fun b => pair b ∈ edges).toFinset.image pair := by
    ext e
    simp only [Finset.mem_filter, hP, Finset.mem_image, List.mem_toFinset, List.mem_filter,
      decide_eq_true_eq]
    constructor
    · rintro ⟨he, b, rfl⟩
      exact ⟨b, ⟨hmem b he, he⟩, rfl⟩
    · rintro ⟨b, ⟨-, he⟩, rfl⟩
      exact ⟨he, b, rfl⟩
  rw [himage, Finset.card_image_of_injective _ hpair,
    List.toFinset_card_of_nodup (hnodup.filter _)]

namespace Adjacency

variable {ν : Type} [DecidableEq ν]

namespace Refines

variable {g : Adjacency ν} {p : PlainGraph ν}

theorem succs_eq (h : g.Refines p) (a : ν) :
    g.graph.succs a =
      if a ∈ g.graph.nodes then .ok (g.graph.nodes.filter fun b => (a, b) ∈ p.edges)
      else .error (.invalidNode a) := by
  have hfilter : (g.graph.nodes.filter fun b => g.hasEdge a b) =
      g.graph.nodes.filter fun b => (a, b) ∈ p.edges :=
    List.filter_congr fun b _ => Bool.eq_iff_iff.2 (by simp [h.edges])
  rw [Adjacency.succs_eq, ← hfilter]
  rfl

theorem preds_eq (h : g.Refines p) (b : ν) :
    g.graph.preds b =
      if b ∈ g.graph.nodes then .ok (g.graph.nodes.filter fun a => (a, b) ∈ p.edges)
      else .error (.invalidNode b) := by
  have hfilter : (g.graph.nodes.filter fun a => g.hasEdge a b) =
      g.graph.nodes.filter fun a => (a, b) ∈ p.edges :=
    List.filter_congr fun a _ => Bool.eq_iff_iff.2 (by simp [h.edges])
  rw [h.paired.preds_eq, ← hfilter]
  rfl

theorem succCount_eq (h : g.Refines p) (a : ν) :
    g.graph.succCount a =
      if a ∈ g.graph.nodes then .ok (p.edges.filter fun e => e.1 = a).card
      else .error (.invalidNode a) := by
  have hcard := card_filter_eq_length (P := fun e => e.1 = a) g.nodes.nodup
    (Prod.mk_right_injective a) (fun e => by simp [Prod.ext_iff, eq_comm])
    (fun b hb => (mem_of_hasEdge ((h.edges a b).2 hb)).2)
  rw [h.paired.succCount_eq, h.succs_eq, hcard]
  split <;> rfl

theorem predCount_eq (h : g.Refines p) (b : ν) :
    g.graph.predCount b =
      if b ∈ g.graph.nodes then .ok (p.edges.filter fun e => e.2 = b).card
      else .error (.invalidNode b) := by
  have hcard := card_filter_eq_length (P := fun e => e.2 = b) g.nodes.nodup
    (Prod.mk_left_injective b) (fun e => by simp [Prod.ext_iff, eq_comm])
    (fun a ha => (mem_of_hasEdge ((h.edges a b).2 ha)).1)
  rw [h.paired.predCount_eq, h.preds_eq, hcard]
  split <;> rfl

end Refines

/-- An edit succeeds if no node is missing. -/
theorem edit_eq_ok_iff {g : Adjacency ν} (hg : g.Paired) {e : Edit ν} :
    ((edit e).on g).1 = .ok () ↔ ∀ n ∈ e.ends, n ∈ g.nodes := by
  rcases edit_cases hg e with ⟨n, hn, hmissing, hon⟩ | ⟨hends, g', hon, -⟩
  · rw [hon]
    exact iff_of_false (fun h => by cases h) (fun h => hmissing (h n hn))
  · rw [hon]
    exact iff_of_true rfl hends

/-- **The store reads as a plain graph after every history of operations.**  All numbers
that it looks up exist.  It lists the nodes that were added, each where it came first, and
numbers them in this order.  Its edges are the pairs that the same operations leave of
a plain set, and the neighbours of a node are those that these pairs give it, in the
order of the nodes and with their number.  An edit fails only where a node is missing. -/
theorem reads_history (history : List (Op ν)) :
    (after history).InRange ∧
    (after history).graph.nodes = (history.flatMap Op.added).eraseDups ∧
    (after history).graph.nodes.Nodup ∧
    (∀ n i, (after history).number n = .ok i ↔ (after history).nodes.get? i = some n) ∧
    (∀ a b, (after history).graph.hasEdge a b = true ↔
      (a, b) ∈ (PlainGraph.after history).edges) ∧
    (∀ a, (after history).graph.succs a =
      if a ∈ (after history).graph.nodes then
        .ok ((after history).graph.nodes.filter fun b => (a, b) ∈ (PlainGraph.after history).edges)
      else .error (.invalidNode a)) ∧
    (∀ b, (after history).graph.preds b =
      if b ∈ (after history).graph.nodes then
        .ok ((after history).graph.nodes.filter fun a => (a, b) ∈ (PlainGraph.after history).edges)
      else .error (.invalidNode b)) ∧
    (∀ a, (after history).graph.succCount a =
      if a ∈ (after history).graph.nodes then
        .ok ((PlainGraph.after history).edges.filter fun e => e.1 = a).card
      else .error (.invalidNode a)) ∧
    (∀ b, (after history).graph.predCount b =
      if b ∈ (after history).graph.nodes then
        .ok ((PlainGraph.after history).edges.filter fun e => e.2 = b).card
      else .error (.invalidNode b)) ∧
    (∀ e, ((edit e).on (after history)).1 = .ok () ↔
      ∀ n ∈ e.ends, n ∈ (after history).graph.nodes) := by
  have h := refines_after history
  refine ⟨h.paired.inRange, ?_, (after history).nodes.nodup, fun n i => number_eq_ok_iff, h.edges,
    h.succs_eq, h.preds_eq, h.succCount_eq, h.predCount_eq, fun e => edit_eq_ok_iff h.paired⟩
  show (after history).nodes.toList = _
  rw [after, nodes_foldl paired_empty]
  exact Roster.toList_ofList _

end Adjacency

end ProgramFlow
