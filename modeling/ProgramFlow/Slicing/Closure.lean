import ProgramFlow.Facts.Roster
import ProgramFlow.Graph.Dot
import ProgramFlow.Graph.Layer
import ProgramFlow.Slicing.Policy

/-!
# Slices: everything the seeds lead to

A slice is a roster of nodes.  The closure of some seeds holds the seeds and all
nodes that edges with an accepted label lead to from there, breadth first: the
seeds come first, then what the first node leads to, then what the second does,
and so on.  The slice is its own queue, since its nodes are expanded in the order
in which they were found.

The search ends because a graph mentions finitely many nodes, and each expansion
either adds one of them to the slice or moves on to the next node of the slice.

A slice backward is a slice forward in the transposed graph.

Restricting a graph to a slice gives the graph to look at.  Before it is drawn it
is checked: it has to pass the audit, and it has to have as many nodes as the
slice, which it has not if the slice names nodes that the graph does not list.
-/

namespace ProgramFlow

/-- Nodes in the order in which they were found. -/
abbrev Slice (ν : Type) := Roster ν

namespace Slice

variable {ν κ : Type} [DecidableEq ν]

/-! ## The search -/

/-- How many of the mentioned nodes are not in the slice. -/
def missing (mentioned : List ν) (slice : Slice ν) : Nat := mentioned.countP (· ∉ slice)

theorem missing_lt {mentioned : List ν} {slice larger : Slice ν} {n : ν}
    (hsub : ∀ m ∈ slice, m ∈ larger) (hmem : n ∈ mentioned) (hnew : n ∉ slice) (hn : n ∈ larger) :
    missing mentioned larger < missing mentioned slice := by
  have hle : ∀ ms : List ν, missing ms larger ≤ missing ms slice := fun ms =>
    List.countP_mono_left fun m _ hm => by
      simp only [decide_eq_true_eq] at hm ⊢
      exact fun h => hm (hsub m h)
  obtain ⟨before, after, rfl⟩ := List.append_of_mem hmem
  have hbefore := hle before
  have hafter := hle after
  simp only [missing, List.countP_append, List.countP_cons] at hbefore hafter ⊢
  simp only [hnew, hn, not_true_eq_false, not_false_eq_true, decide_true, decide_false]
  simp only [Bool.false_eq_true, if_true, if_false]
  omega

/-- Expand the nodes of a slice from position `i` on, following the edges that
`follow` accepts. -/
def expand (g : Graph ν κ) (follow : ν → ν → Bool) (slice : Slice ν) (i : Nat) :
    Lookup ν (Slice ν) :=
  match _hi : slice.get? i with
  | none => .ok slice
  | some n =>
      match hn : g.succs n with
      | .error e => .error e
      | .ok ss =>
          expand g follow (slice.insertAll (ss.filter fun s => s ≠ n ∧ follow n s)) (i + 1)
  termination_by (missing g.mentioned slice, slice.size - i)
  decreasing_by
    have hlt : i < slice.size := by
      obtain ⟨h, -⟩ := List.getElem?_eq_some_iff.1 _hi
      exact h
    by_cases hnew : ∀ s ∈ ss.filter (fun s => s ≠ n ∧ follow n s), s ∈ slice
    · rw [Roster.insertAll_of_forall_mem hnew]
      exact Prod.Lex.right _ (by omega)
    · obtain ⟨s, hs, hslice⟩ : ∃ s ∈ ss.filter (fun s => s ≠ n ∧ follow n s), s ∉ slice := by
        simpa only [Classical.not_forall, exists_prop] using hnew
      have hs' := List.mem_filter.1 hs
      simp only [decide_eq_true_eq] at hs'
      have hmem : s ∈ g.mentioned :=
        (g.succs_mentioned n ss hn s hs'.1).resolve_right hs'.2.1
      exact Prod.Lex.left _ _ (missing_lt (fun m hm => Roster.subset_insertAll _ _ hm) hmem hslice
        (Roster.mem_insertAll.2 (Or.inr hs)))

/-- The slice of the seeds alone, if all of them are nodes of the graph. -/
def ofSeeds (g : Graph ν κ) (seeds : List ν) : Lookup ν (Slice ν) :=
  match seeds.find? fun s => !g.contains s with
  | some s => .error (.invalidNode s)
  | none => .ok (.ofList seeds)

/-- The nodes that the seeds lead to along accepted edges. -/
def reach (g : Graph ν κ) (follow : ν → ν → Bool) (seeds : List ν) : Lookup ν (Slice ν) := do
  expand g follow (← ofSeeds g seeds) 0

/-! ## Closures -/

/-- The graph in which a direction leads from node to successor. -/
def facing (direction : Direction) (g : Graph ν κ) : Graph ν κ :=
  match direction with
  | .forward => g
  | .backward => g.transpose

/-- Is one of the labels of an edge accepted? -/
def follows (policy : Policy) (g : Graph ν Dependence) (src dst : ν) : Bool :=
  (g.labels src dst).any policy.accepts

/-- The slice of the seeds in a direction, along the dependences that a policy accepts. -/
def closure (g : Graph ν Dependence) (seeds : List ν) (direction : Direction) (policy : Policy) :
    Lookup ν (Slice ν) :=
  let g := facing direction g
  reach g (follows policy g) seeds

/-- What the computation of a closure reports. -/
def closureJournal (g : Graph ν Dependence) (seeds : List ν) (direction : Direction)
    (policy : Policy) : Journal :=
  let start := s!"Computing {direction.name} closure from {seeds.length} seeds, "
    ++ s!"data: {policy.data.name}, control: {policy.control.name}."
  ⟨.debug, start⟩ ::
    match closure g seeds direction policy with
    | .ok slice => [⟨.debug, s!"Closure has {slice.size} nodes."⟩]
    | .error _ => []

end Slice

/-! ## The part of a graph that a slice shows -/

/-- Why a slice does not fit a graph. -/
inductive SliceError (ν : Type) where
  /-- The graph fails the audit. -/
  | graph (error : GraphError ν)
  /-- The graph and the slice have different numbers of nodes. -/
  | sizeMismatch (nodes slice : Nat)
  deriving DecidableEq

/-- How the error is worded. -/
def SliceError.message {ν : Type} [Describe ν] : SliceError ν → String
  | .graph e => e.message
  | .sizeMismatch nodes slice =>
      s!"the pruned graph has {nodes} nodes, but the slice has {slice}"

namespace Slice

variable {ν κ : Type} [DecidableEq ν]

/-- The part of a graph between the nodes of a slice. -/
def project (slice : Slice ν) (g : Graph ν κ) : Graph ν κ := g.restrict slice.contains

/-- Check that a graph is sound and has one node for each node of the slice. -/
def check (slice : Slice ν) (g : Graph ν κ) : Except (SliceError ν) Unit := do
  g.audit.mapError .graph
  if g.nodeCount = slice.size then .ok ()
  else .error (.sizeMismatch g.nodeCount slice.size)

/-- Check the part of a graph that a slice shows, and draw it. -/
def draw (slice : Slice ν) (g : Graph ν κ) (label : ν → String) : Except (SliceError ν) String := do
  slice.check (slice.project g)
  ((slice.project g).dot label).mapError .graph

end Slice

end ProgramFlow
