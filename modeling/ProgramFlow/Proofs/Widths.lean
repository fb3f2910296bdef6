import ProgramFlow.Proofs.Gates
import ProgramFlow.Proofs.LeastFixpoint

/-!
# Sets of mixed widths

Gates can be made of sets of any widths, and then the values of a run differ in width too.
The order that a run compares by looks at the bits alone: two values may be below each other
and yet be different, so that it does not tell which of two solutions is the least one.
`BitSet.Below` does.  It asks for no more bits *and* no more width, where the widths up to
the one that values start in count alike.  No value of a solution is narrower than that,
since every demand joins onto the empty set of the first width; and among such sets two that
are below each other are equal.  There is therefore one solution that has the fewest bits and
the least width at every node, and every strategy ends with it.

* `BitSet.Below.antisymm` — sets below each other are equal, if they are wide enough.
* `Problem.Solves.le_width` — the values of a solution are.
* `Graph.solveGates_one_solution` — every strategy finds the least solution.
-/

namespace ProgramFlow

variable {ν κ : Type}

theorem BitSet.Below.antisymm {w : Nat} {s t : BitSet} (hst : Below w s t) (hts : Below w t s)
    (hs : w ≤ s.width) (ht : w ≤ t.width) : s = t := by
  obtain ⟨hst, hsub⟩ := hst
  obtain ⟨hts, hsup⟩ := hts
  refine BitSet.ext_iff_mem.2 ⟨by omega, fun i => ⟨hsub i, hsup i⟩⟩

section Widths

variable {w : Nat} {gate : ν → ν → Gate} {g : Graph ν κ}

theorem Problem.le_width_demand (V : ν → BitSet) (n : ν) :
    w ≤ ((Problem.gates w gate).demand g V n).width := by
  unfold Problem.demand
  split
  · refine List.foldlRecOn (motive := fun d : BitSet => w ≤ d.width) _ _ (Nat.le_refl w) ?_
    intro acc hacc m _
    exact hacc.trans (Nat.le_max_left acc.width _)
  · exact Nat.le_refl w

theorem Problem.Solves.le_width {V : ν → BitSet} (h : (Problem.gates w gate).Solves g V) {n : ν}
    (hn : n ∈ g.nodes) : w ≤ (V n).width := by
  rw [h n hn]
  exact Problem.le_width_demand V n

/-- Solutions that are below each other are the same. -/
theorem Problem.Solves.eq_of_below {V W : ν → BitSet} (hV : (Problem.gates w gate).Solves g V)
    (hW : (Problem.gates w gate).Solves g W) {n : ν} (hn : n ∈ g.nodes)
    (hVW : BitSet.Below w (V n) (W n)) (hWV : BitSet.Below w (W n) (V n)) : V n = W n :=
  hVW.antisymm hWV (hV.le_width hn) (hW.le_width hn)

end Widths

/-- With any strategy the solver finds a solution below all others, in width and bits. -/
theorem Graph.exists_solveGates_below [DecidableEq ν] {g : Graph ν κ} (hclosed : g.Closed)
    (hmirror : g.Mirrored) (w : Nat) (gate : ν → ν → Gate) (strategy : Strategy) :
    ∃ (V : ν → BitSet) (s : Solution ν BitSet), (Problem.gates w gate).Solves g V ∧
      (∀ W, (Problem.gates w gate).Solves g W → ∀ n ∈ g.nodes, BitSet.Below w (V n) (W n)) ∧
      (g.solveGates w gate strategy .never).outcome = .ok s ∧ s.Tells g.nodes V :=
  Graph.exists_solve_below hclosed hmirror (Problem.rising_gates w gate)
    fun _ _ => State.run_ends_gates .never

/-- **All strategies find the same values**, equal in bits and in width, whatever the widths
of the sets that gates are made of.  They are those of the solution that is least in both. -/
theorem Graph.solveGates_one_solution [DecidableEq ν] (g : Graph ν κ) (hclosed : g.Closed)
    (hmirror : g.Mirrored) (w : Nat) (gate : ν → ν → Gate) :
    ∃ V : ν → BitSet, (Problem.gates w gate).Solves g V ∧
      (∀ W, (Problem.gates w gate).Solves g W →
        ∀ n ∈ g.nodes, (V n).width ≤ (W n).width ∧ (V n).subset (W n) = true) ∧
      ∀ strategy, ∃ s : Solution ν BitSet,
        (g.solveGates w gate strategy .never).outcome = .ok s ∧ s.Tells g.nodes V := by
  have hsolve := Graph.exists_solveGates_below hclosed hmirror w gate
  obtain ⟨V, -, hV, hleast, -, -⟩ := hsolve .fifo
  refine ⟨V, hV, fun W hW n hn => ?_, fun strategy => ?_⟩
  · obtain ⟨hwidth, hbits⟩ := hleast W hW n hn
    have hVwidth := hV.le_width hn
    have hWwidth := hW.le_width hn
    exact ⟨by omega, BitSet.subset_iff.2 hbits⟩
  · obtain ⟨W, s, hW, hWleast, hout, htells⟩ := hsolve strategy
    refine ⟨s, hout, htells.congr fun n hn => ?_⟩
    exact hW.eq_of_below hV hn (hWleast V hV n hn) (hleast W hW n hn)

/-- The sets of `Gate.knotted` have three widths, and none is that of the start. -/
theorem Graph.solveGates_one_solution_knot :
    ∃ V : Nat → BitSet, (Problem.gates 0 Gate.knotted).Solves Adjacency.knot.graph V ∧
      (∀ W, (Problem.gates 0 Gate.knotted).Solves Adjacency.knot.graph W →
        ∀ n ∈ Adjacency.knot.graph.nodes,
          (V n).width ≤ (W n).width ∧ (V n).subset (W n) = true) ∧
      ∀ strategy, ∃ s : Solution Nat BitSet,
        (Adjacency.knot.graph.solveGates 0 Gate.knotted strategy .never).outcome = .ok s ∧
          s.Tells Adjacency.knot.graph.nodes V :=
  Graph.solveGates_one_solution Adjacency.knot.graph Adjacency.sound_knot.closed
    Adjacency.sound_knot.mirrored 0 Gate.knotted

end ProgramFlow
