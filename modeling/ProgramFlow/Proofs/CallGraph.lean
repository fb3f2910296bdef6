import ProgramFlow.Proofs.Edits
import ProgramFlow.Proofs.Histories

/-!
# The methods of a call graph, by number and by name

Every node of a call graph comes with a method, and edits do not change the nodes.  So the
nodes are numbered as the methods are listed, and looking a name up gives the first node
of a method with this name.

* `CallGraph.Numbered` — the nodes have the numbers of the methods.
* `CallGraph.Reachable.numbered` — it holds after every history.
* `CallGraph.find?_eq_some_iff`, `CallGraph.find?_eq_none_iff` — what a name stands for.
-/

namespace ProgramFlow.CallGraph

/-! ## Numbers -/

/-- The nodes are numbered as the methods are listed. -/
def Numbered (g : CallGraph) : Prop :=
  g.graph.nodes = (List.range g.methods.length).map MethodNode.mk

theorem Numbered.mem_nodes_iff {g : CallGraph} (h : g.Numbered) {n : MethodNode} :
    n ∈ g.graph.nodes ↔ n.id < g.methods.length := by
  rw [h, List.mem_map]
  constructor
  · rintro ⟨i, hi, rfl⟩
    exact List.mem_range.1 hi
  · exact fun hn => ⟨n.id, List.mem_range.2 hn, rfl⟩

/-- The node of a new method is new, since its number is that of no node. -/
theorem Numbered.addMethod {g : CallGraph} (h : g.Numbered) (name : String) :
    (g.addMethod name).Numbered := by
  have hfresh : g.fresh ∉ g.calls.nodes.toList := fun hmem =>
    Nat.lt_irrefl _ (h.mem_nodes_iff.1 hmem)
  have hnodes : (g.addMethod name).graph.nodes = g.graph.nodes ++ [g.fresh] := by
    show (g.calls.addNode g.fresh).nodes.toList = _
    rw [Adjacency.nodes_addNode, Roster.toList_insert, if_neg hfresh]
    rfl
  rw [Numbered, hnodes, h, CallGraph.addMethod, List.length_append, List.length_singleton,
    List.range_succ, List.map_append]
  rfl

theorem Numbered.edit {g : CallGraph} (hg : g.calls.Paired) (h : g.Numbered)
    (e : Edit MethodNode) : ((edit e).on g).2.Numbered := by
  show ((Adjacency.edit e).on g.calls).2.nodes.toList = _
  rw [Adjacency.nodes_edit hg]
  exact h

theorem Numbered.perform {g : CallGraph} (hg : g.calls.Paired) (h : g.Numbered) (o : Op) :
    (g.perform o).Numbered := by
  cases o with
  | addMethod name => exact h.addMethod name
  | addCall caller callee => exact h.edit hg (.addEdge caller callee)
  | addEntrypoint n =>
      rw [CallGraph.perform, on_addEntrypoint]
      split <;> exact h
  | edit e => exact h.edit hg e
  | through stack e => exact Store.keeps_editThrough h (h.edit hg) stack e

theorem Reachable.numbered {g : CallGraph} (hg : g.Reachable) : g.Numbered := by
  have hboth : g.calls.Paired ∧ g.Numbered :=
    hg.induction (P := fun g => g.calls.Paired ∧ g.Numbered) ⟨Adjacency.paired_empty, rfl⟩
      fun _ o h => ⟨paired_perform h.1 o, h.2.perform h.1 o⟩
  exact hboth.2

/-! ## Names -/

/-- Of the nodes of methods with the name, the one with the lowest number. -/
structure First (g : CallGraph) (name : String) (n : MethodNode) : Prop where
  mem : n ∈ g.graph.nodes
  method : g.method? n = some name
  least : ∀ m ∈ g.graph.nodes, g.method? m = some name → n.id ≤ m.id

theorem find?_eq_some_iff {g : CallGraph} (h : g.Numbered) {name : String} {n : MethodNode} :
    g.find? name = some n ↔ g.First name n := by
  have hindex : g.find? name = some n ↔ g.methods.idxOf? name = some n.id := by
    rw [find?, Option.map_eq_some_iff]
    exact ⟨fun ⟨_, hi, hn⟩ => hn ▸ hi, fun hi => ⟨n.id, hi, rfl⟩⟩
  rw [hindex, List.idxOf?_eq_some_iff]
  constructor
  · rintro ⟨hlt, hname, hbefore⟩
    refine ⟨h.mem_nodes_iff.2 hlt, List.getElem?_eq_some_iff.2 ⟨hlt, hname⟩, fun m _ hm => ?_⟩
    obtain ⟨hmlt, hmname⟩ := List.getElem?_eq_some_iff.1 hm
    exact Nat.le_of_not_lt fun hmn => hbefore m.id hmn hmname
  · rintro ⟨-, hmethod, hleast⟩
    obtain ⟨hlt, hname⟩ := List.getElem?_eq_some_iff.1 hmethod
    refine ⟨hlt, hname, fun j hj hjname => ?_⟩
    have hjlt : j < g.methods.length := Nat.lt_trans hj hlt
    have hle : n.id ≤ j := hleast ⟨j⟩ (h.mem_nodes_iff.2 hjlt)
      (List.getElem?_eq_some_iff.2 ⟨hjlt, hjname⟩)
    omega

theorem find?_eq_none_iff {g : CallGraph} (h : g.Numbered) {name : String} :
    g.find? name = none ↔ ∀ n ∈ g.graph.nodes, g.method? n ≠ some name := by
  rw [find?, Option.map_eq_none_iff, List.idxOf?_eq_none_iff, List.mem_iff_getElem?]
  simp only [not_exists]
  constructor
  · exact fun hnone n _ => hnone n.id
  · intro hnone i hi
    obtain ⟨hlt, -⟩ := List.getElem?_eq_some_iff.1 hi
    exact hnone ⟨i⟩ (h.mem_nodes_iff.2 hlt) hi

end ProgramFlow.CallGraph
