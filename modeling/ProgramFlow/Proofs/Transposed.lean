import ProgramFlow.Proofs.PlainGraph

/-!
# Editing through a transposing layer

A store that is read and edited through a transposing layer cannot be told from a store
that holds the reversed edges.  Two stores are *transposes* of each other if they list the
same nodes and each has an edge where the other has the reversed one; their rows of bits
may still differ in width.  An edit through the layer on the one and the same edit on the
other succeed together and lead to transposes again, so this goes on for as long as there
are edits.

* `Adjacency.Transposes` — the second store has the edges of the first, reversed.
* `Adjacency.Transposes.view_eq` — all lookups through the layer are those of the other store.
* `Adjacency.Transposes.edit` — one edit on both.
* `Store.trace`, `Store.leaves` — a list of edits, step by step and as a whole.
* `Adjacency.edits_transposed` — any list of edits on both.
-/

namespace ProgramFlow

namespace Adjacency

variable {ν : Type} [DecidableEq ν]

/-! ## Lookups -/

/-- The stores list the same nodes, and the second has the edges of the first, reversed. -/
structure Transposes (g h : Adjacency ν) : Prop where
  nodes : h.graph.nodes = g.graph.nodes
  hasEdge : ∀ a b, h.graph.hasEdge a b = g.graph.hasEdge b a

namespace Transposes

variable {g h : Adjacency ν}

theorem nodes_eq (hgh : g.Transposes h) : h.nodes = g.nodes := Roster.toList_inj.1 hgh.nodes

/-- Neighbours come in the order of the nodes, whichever row of bits they are read from. -/
theorem preds_eq (hgh : g.Transposes h) (hh : h.Paired) (n : ν) :
    g.graph.succs n = h.graph.preds n := by
  have hfilter : (fun b => g.hasEdge n b) = fun b => h.hasEdge b n :=
    funext fun b => (hgh.hasEdge b n).symm
  rw [succs_eq, hh.preds_eq, hgh.nodes_eq, hfilter]

theorem succs_eq (hgh : g.Transposes h) (hg : g.Paired) (n : ν) :
    g.graph.preds n = h.graph.succs n := by
  have hfilter : (fun a => g.hasEdge a n) = fun a => h.hasEdge n a :=
    funext fun a => (hgh.hasEdge n a).symm
  rw [hg.preds_eq, Adjacency.succs_eq, hgh.nodes_eq, hfilter]

/-- **Every lookup through the layer is that of the other store.** -/
theorem view_eq (hgh : g.Transposes h) (hg : g.Paired) (hh : h.Paired) :
    Stack.view [.transpose] g.graph = h.graph := by
  have hnodes := hgh.nodes_eq
  refine Graph.ext hgh.nodes.symm ?_ ?_ (funext (hgh.preds_eq hh)) (funext (hgh.succs_eq hg)) ?_ ?_
    ?_ rfl hgh.nodes.symm
  · show g.nodes.size = h.nodes.size
    rw [hnodes]
  · funext n
    show g.nodes.contains n = h.nodes.contains n
    rw [hnodes]
  · funext n
    show g.graph.succCount n = h.graph.predCount n
    rw [hg.succCount_eq, hh.predCount_eq, hgh.preds_eq hh]
  · funext n
    show g.graph.predCount n = h.graph.succCount n
    rw [hg.predCount_eq, hh.succCount_eq, hgh.succs_eq hg]
  · funext a b
    exact (hgh.hasEdge a b).symm

/-! ## One edit -/

/-- Edits that do the same to reversed edges lead to transposes again. -/
theorem edited (hgh : g.Transposes h) {e : Edit ν} {g' h' : Adjacency ν}
    (hg' : Edited e.transpose g g') (hh' : Edited e h h') : g'.Transposes h' where
  nodes := by
    show h'.nodes.toList = g'.nodes.toList
    rw [hg'.nodes, hh'.nodes, hgh.nodes_eq]
  hasEdge a b := by
    have hedge : h.hasEdge a b = g.hasEdge b a := hgh.hasEdge a b
    show h'.hasEdge a b = g'.hasEdge b a
    rw [Bool.eq_iff_iff, hh'.hasEdge, hg'.hasEdge, Edit.removes_transpose, Edit.adds_transpose, hedge]

/-- **One edit, through the layer on the one store and directly on the other.**  Both
succeed or both fail, and the stores they leave behind are transposes again. -/
theorem edit (hgh : g.Transposes h) (hg : g.Paired) (hh : h.Paired) (e : Edit ν) :
    (((Adjacency.edit e.transpose).on g).1 = .ok () ↔ ((Adjacency.edit e).on h).1 = .ok ()) ∧
      ((Adjacency.edit e.transpose).on g).2.Transposes ((Adjacency.edit e).on h).2 := by
  have hends : (∀ n ∈ e.transpose.ends, n ∈ g.nodes) ↔ ∀ n ∈ e.ends, n ∈ h.nodes := by
    simp [hgh.nodes_eq]
  refine ⟨by rw [edit_eq_ok_iff hg, edit_eq_ok_iff hh, hends], ?_⟩
  -- a node that one of the edits misses is missing for the other, so they cannot part here
  rcases edit_cases hg e.transpose with ⟨m, hm, hmissing, hong⟩ | ⟨hall, g', hong, hg'⟩
  · rcases edit_cases hh e with ⟨_, _, _, honh⟩ | ⟨hall, _⟩
    · rw [hong, honh]
      exact hgh
    · exact absurd (hends.2 hall m hm) hmissing
  · rcases edit_cases hh e with ⟨n, hn, hmissing, _⟩ | ⟨_, h', honh, hh'⟩
    · exact absurd (hends.1 hall n hn) hmissing
    · rw [hong, honh]
      exact hgh.edited hg' hh'

end Transposes

end Adjacency

/-! ## Lists of edits -/

namespace Store

variable {σ ν κ : Type} [Store σ ν κ]

/-- What edits through a stack come to, one after the other: the outcome of each, and the
store that it leaves behind. -/
def trace (stack : Stack ν) : List (Edit ν) → σ → List (Lookup ν Unit × σ)
  | [], _ => []
  | e :: es, s =>
      let step := (editThrough stack e : EditM ν σ Unit).on s
      step :: trace stack es step.2

/-- The store that edits through a stack leave behind in the end. -/
def leaves (stack : Stack ν) (edits : List (Edit ν)) (s : σ) : σ :=
  edits.foldl (fun s e => ((editThrough stack e : EditM ν σ Unit).on s).2) s

end Store

namespace Adjacency

variable {ν : Type} [DecidableEq ν] {g h : Adjacency ν}

/-- What `Transposes.edit` says of one edit holds at every step of a list of edits. -/
theorem Transposes.trace (hgh : g.Transposes h) (hg : g.Paired) (hh : h.Paired)
    (edits : List (Edit ν)) :
    List.Forall₂ (fun x y => (x.1 = .ok () ↔ y.1 = .ok ()) ∧
        Stack.view [.transpose] x.2.graph = y.2.graph)
      (Store.trace [.transpose] edits g) (Store.trace [] edits h) := by
  induction edits generalizing g h with
  | nil => exact .nil
  | cons e edits ih =>
      obtain ⟨houtcome, hgh'⟩ := hgh.edit hg hh e
      have hg' := hg.edit e.transpose
      have hh' := hh.edit e
      exact .cons ⟨houtcome, hgh'.view_eq hg' hh'⟩ (ih hgh' hg' hh')

theorem Transposes.leaves (hgh : g.Transposes h) (hg : g.Paired) (hh : h.Paired)
    (edits : List (Edit ν)) :
    (Store.leaves [.transpose] edits g).Transposes (Store.leaves [] edits h) := by
  induction edits generalizing g h with
  | nil => exact hgh
  | cons e edits ih =>
      exact ih (hgh.edit hg hh e).2 (hg.edit e.transpose) (hh.edit e)

/-- **A transposing layer makes a store indistinguishable from its transpose.**  All lookups
through the layer are those of the transpose, before and after every step of any list of
edits that enter through the layer on the one side and directly on the other.  The same
steps succeed, and in the end the stores are transposes of each other again. -/
theorem edits_transposed (hg : g.Reachable) (hh : h.Reachable) (hgh : g.Transposes h)
    (edits : List (Edit ν)) :
    Stack.view [.transpose] g.graph = h.graph ∧
      List.Forall₂ (fun x y => (x.1 = .ok () ↔ y.1 = .ok ()) ∧
          Stack.view [.transpose] x.2.graph = y.2.graph)
        (Store.trace [.transpose] edits g) (Store.trace [] edits h) ∧
      (Store.leaves [.transpose] edits g).Transposes (Store.leaves [] edits h) :=
  ⟨hgh.view_eq hg.paired hh.paired, hgh.trace hg.paired hh.paired edits,
    hgh.leaves hg.paired hh.paired edits⟩

/-- Three nodes of four, one with an edge to itself. -/
def chain : Adjacency (Fin 4) := .after [.connect 0 1, .connect 1 2, .connect 1 1]

/-- The same nodes with the reversed edges. -/
def unchain : Adjacency (Fin 4) :=
  .after [.addNode 0, .connect 1 0, .connect 2 1, .connect 1 1]

/-- Edits of all kinds, the second of which names a node that is missing. -/
def rechain : List (Edit (Fin 4)) :=
  [.removeIncoming 1, .addEdge 2 3, .addEdge 0 2, .removeEdge 1 0, .removeOutgoing 2,
    .removeIncident 0]

theorem edits_transposed_chain :
    chain.Reachable ∧ unchain.Reachable ∧ chain.Transposes unchain ∧
      Stack.view [.transpose] chain.graph = unchain.graph ∧
      List.Forall₂ (fun x y => (x.1 = .ok () ↔ y.1 = .ok ()) ∧
          Stack.view [.transpose] x.2.graph = y.2.graph)
        (Store.trace [.transpose] rechain chain) (Store.trace [] rechain unchain) ∧
      (Store.leaves [.transpose] rechain chain).Transposes (Store.leaves [] rechain unchain) := by
  have hg : chain.Reachable := ⟨_, rfl⟩
  have hh : unchain.Reachable := ⟨_, rfl⟩
  have hgh : chain.Transposes unchain := ⟨by decide, by decide⟩
  exact ⟨hg, hh, hgh, edits_transposed hg hh hgh rechain⟩

end Adjacency

end ProgramFlow
