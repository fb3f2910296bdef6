import Mathlib.Data.Finset.Card
import ProgramFlow.Proofs.Projection
import ProgramFlow.Proofs.Views

/-!
# Slices that do not fit a graph

A slice is a roster that anything can be inserted into, so that it may name nodes that a
graph does not have.  The check of what a slice shows of a graph notices this by comparing
two numbers.  That the numbers are equal says that the nodes are the same, since the
nodes that are shown are among those of the slice and none is listed twice.

The audit is made before the numbers are compared, and it never objects: what a slice shows
of a sound graph is sound, and it is counted by its lists, so that no count can overflow
however large the graph is.

* `Slice.size_eq_card`, `Slice.length_shown_eq_card` — the two numbers.
* `Slice.check_project_eq` — the outcome of the check.
* `Graph.Stored.check_project_iff` — checks of slices of stored graphs, through stacks of layers.
-/

namespace ProgramFlow

variable {ν κ : Type} [DecidableEq ν]

namespace Slice

/-- A slice is as large as the set of the values that were inserted. -/
theorem size_eq_card (inserted : List ν) :
    (Roster.ofList inserted).size = inserted.toFinset.card := by
  have hset : (Roster.ofList inserted).toList.toFinset = inserted.toFinset := by
    ext n
    rw [List.mem_toFinset, List.mem_toFinset]
    exact Roster.mem_ofList
  rw [← hset, List.toFinset_card_of_nodup (Roster.nodup _)]
  rfl

/-- The nodes that a slice shows are those of the inserted values that the graph contains. -/
theorem length_shown_eq_card {g : Graph ν κ} (hg : g.Sound) (inserted : List ν) :
    (g.nodes.filter (Roster.ofList inserted).contains).length =
      (inserted.toFinset.filter fun n => g.contains n = true).card := by
  have hset : (g.nodes.filter (Roster.ofList inserted).contains).toFinset =
      inserted.toFinset.filter fun n => g.contains n = true := by
    ext n
    simp only [List.mem_toFinset, List.mem_filter, Finset.mem_filter, Roster.contains_iff,
      Roster.mem_ofList, hg.contains_iff]
    exact and_comm
  rw [← hset, List.toFinset_card_of_nodup (hg.nodup.filter _)]

/-- **The outcome of the check.**  The numbers agree exactly if no inserted value is
missing. -/
theorem check_project_eq {g : Graph ν κ} (hg : g.Sound) (inserted : List ν) :
    check (.ofList inserted) (project (.ofList inserted) g) =
      if ∀ n ∈ inserted, g.contains n = true then .ok ()
      else .error (.sizeMismatch (inserted.toFinset.filter fun n => g.contains n = true).card
        inserted.toFinset.card) := by
  have hfit : (inserted.toFinset.filter fun n => g.contains n = true).card =
      inserted.toFinset.card ↔ ∀ n ∈ inserted, g.contains n = true := by
    rw [Finset.card_filter_eq_iff]
    simp only [List.mem_toFinset]
  rw [check_project hg, size_eq_card, length_shown_eq_card hg]
  simp only [hfit]

end Slice

/-- **A slice passes the check exactly if the graph contains what was inserted into it.**
Let some values be inserted into a slice, one after the other, and let it be checked against
what it shows of a stored graph seen through a stack of layers.  If the graph contains all
of the values, the check passes and the nodes that are shown are those of the slice.  If it
does not, the check reports how many different values the graph contains and how many
different ones there are.  It never reports a fault of the graph. -/
theorem Graph.Stored.check_project_iff {g : Graph ν κ} (hg : g.Stored) (stack : Stack ν)
    (inserted : List ν) (slice : Slice ν) (hslice : inserted.foldl Roster.insert .empty = slice) :
    (slice.check (slice.project (stack.view g)) = .ok () ↔
      ∀ n ∈ inserted, (stack.view g).contains n = true) ∧
    ((∀ n ∈ inserted, (stack.view g).contains n = true) →
      ∀ n, n ∈ (slice.project (stack.view g)).nodes ↔ n ∈ slice) ∧
    ((∃ n ∈ inserted, (stack.view g).contains n = false) →
      slice.check (slice.project (stack.view g)) = .error (.sizeMismatch
        (inserted.toFinset.filter fun n => (stack.view g).contains n = true).card
        inserted.toFinset.card)) ∧
    ∀ e, slice.check (slice.project (stack.view g)) ≠ .error (.graph e) := by
  have hsound := stack.sound_view hg.sound
  have hcheck := Slice.check_project_eq hsound inserted
  obtain rfl : Roster.ofList inserted = slice := hslice
  refine ⟨?_, ?_, ?_, ?_⟩
  · rw [hcheck]
    split <;> simp_all
  · intro hall n
    show n ∈ (stack.view g).nodes.filter _ ↔ _
    rw [List.mem_filter, Roster.contains_iff, and_iff_right_iff_imp]
    intro hn
    exact (hsound.contains_iff n).1 (hall n (Roster.mem_ofList.1 hn))
  · rintro ⟨n, hn, hmissing⟩
    rw [hcheck, if_neg]
    intro hall
    rw [hall n hn] at hmissing
    cases hmissing
  · intro e
    rw [hcheck]
    split <;> simp

/-- A node that the mixed layers show, one that they leave out, and one from elsewhere. -/
def Slice.strange : Slice Nat := ⟨[4, 3, 9], by decide⟩

theorem Graph.Stored.check_project_iff_strange :
    Adjacency.looped.graph.Stored ∧
      [4, 3, 9, 4].foldl Roster.insert .empty = Slice.strange ∧
      (∃ n ∈ [4, 3, 9, 4], (Stack.mixed.view Adjacency.looped.graph).contains n = false) ∧
      Slice.strange.check (Slice.strange.project (Stack.mixed.view Adjacency.looped.graph)) =
        .error (.sizeMismatch 1 3) := by
  have hstored : Adjacency.looped.graph.Stored := .adjacency ⟨_, rfl⟩
  have hslice : [4, 3, 9, 4].foldl Roster.insert .empty = Slice.strange := rfl
  have hmissing :
      ∃ n ∈ [4, 3, 9, 4], (Stack.mixed.view Adjacency.looped.graph).contains n = false := by decide
  obtain ⟨-, -, hmismatch, -⟩ :=
    Graph.Stored.check_project_iff hstored Stack.mixed [4, 3, 9, 4] Slice.strange hslice
  refine ⟨hstored, hslice, hmissing, (hmismatch hmissing).trans ?_⟩
  decide

end ProgramFlow
