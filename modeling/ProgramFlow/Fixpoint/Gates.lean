import ProgramFlow.Facts.Catalog
import ProgramFlow.Facts.Gate
import ProgramFlow.Fixpoint.Solve

/-!
# Solving for sets of facts

Problems whose values are bit sets and whose edges are gates.  Gates are monotone
in the bits and in the width, so such a run never ends with an error of its own:
the values rise at most as often as there are widths and bits below the largest
width involved, and the budget is computed from that.

* `Gate.between` — the usual choice of gates: edges between different nodes have
  their own gate, and the edge of a node to itself adds the facts that the node
  produces.
* `Graph.solveGates` — solve for bit sets.
* `Catalog.solve` — the same for sets of catalogued values.
-/

namespace ProgramFlow

variable {ν κ : Type} [DecidableEq ν]

/-- The gate on the edge from a node to another, given the gates between different
nodes and the facts that nodes produce themselves. -/
def Gate.between (edge : ν → ν → Gate) (own : ν → Option BitSet) (pred succ : ν) : Gate :=
  if pred = succ then
    match own succ with
    | some facts => .union facts
    | none => .identity
  else edge pred succ

omit [DecidableEq ν] in
/-- The flow of bit sets, empty in the width `w` at first, through gates. -/
def Problem.gates (w : Nat) (gate : ν → ν → Gate) : Problem ν BitSet where
  domain := .sets w
  transfer pred succ facts := (gate pred succ).apply facts

omit [DecidableEq ν] in
/-- The largest width among the gates on the edges of a topology, and at least `w`. -/
def Topology.maxWidth (t : Topology ν) (w : Nat) (gate : ν → ν → Gate) : Nat :=
  (List.finRange t.size).foldl
    (fun w i => (t.preds i).foldl (fun w j => max w (gate (t.node j) (t.node i)).width) w) w

/-- Solve for bit sets that start out in the width `w`. -/
def Graph.solveGates (g : Graph ν κ) (w : Nat) (gate : ν → ν → Gate) (strategy : Strategy)
    (interrupt : Interrupt ν) : Run ν BitSet :=
  g.solve (.gates w gate) strategy interrupt fun t => t.budget (2 * t.maxWidth w gate)

/-- Solve for sets of catalogued values. -/
def Catalog.solve {α : Type} [DecidableEq α] (c : Catalog α) (g : Graph ν κ)
    (gate : ν → ν → Gate) (interrupt : Interrupt ν) : Run ν BitSet :=
  g.solveGates c.size gate .fifo interrupt

end ProgramFlow
