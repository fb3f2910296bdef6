import ProgramFlow.Proofs.Iterations

/-!
# Values only grow

In a monotone problem a value is below what its predecessors demand, at any time and for
any node.  So no step lowers a value, and no change is refused.  This does not depend on who
is told of a change: on a graph whose lists contradict each other some values may never be
brought up to date, but then they lag behind what is demanded and are not ahead of it.

For bit sets it means that a node keeps the bits it has, whatever the widths are.  The order
that runs compare by does not look at widths, while a set that differs in width alone
is another set; the relation that carries the proof, `BitSet.Below`, looks at both.

* `State.Reached.rises` — from one state of a run to a later one, values rise.
* `Topology.valuesAfter_rises` — so do the values after some looks and after more of them.
* `Graph.solveGates_keeps_bits` — runs over gates end, nothing is refused and bits are kept.
-/

namespace ProgramFlow

variable {ν κ δ : Type}

theorem State.Reached.rises {p : Problem ν δ} {below : δ → δ → Prop} {t : Topology ν}
    {strategy : Strategy} {s s' : State ν δ t.size} (hp : p.Rising below)
    (hs : State.Reached p t strategy s) (hsteps : Relation.ReflTransGen (State.Step p t) s s')
    (i : Fin t.size) : below (s.values.get i) (s'.values.get i) := by
  induction hsteps with
  | refl => exact hp.refl _
  | tail hbefore hstep ih =>
      have hascending := State.Reached.ascending hp (hs.trans hbefore)
      exact hp.trans ih (hstep.rises hp hascending i)

/-- The values after a number of looks at the agenda, or at the end if there were fewer. -/
def Topology.valuesAfter [DecidableEq δ] (t : Topology ν) (p : Problem ν δ) (strategy : Strategy)
    (interrupt : Interrupt ν) (looks : Nat) : Vector δ t.size :=
  ((State.init p t strategy).run p t interrupt looks).2.values

theorem Topology.valuesAfter_rises [DecidableEq δ] {p : Problem ν δ} {below : δ → δ → Prop}
    (hp : p.Rising below) (t : Topology ν) (strategy : Strategy) (interrupt : Interrupt ν)
    {k l : Nat} (hkl : k ≤ l) (i : Fin t.size) :
    below ((t.valuesAfter p strategy interrupt k).get i)
      ((t.valuesAfter p strategy interrupt l).get i) := by
  obtain ⟨s, s', hs, hsteps, hk, hl⟩ :=
    State.exists_values_between p interrupt (State.init p t strategy) hkl
  rw [Topology.valuesAfter, Topology.valuesAfter, hk, hl]
  exact State.Reached.rises hp hs hsteps i

/-! ## Runs over gates -/

/-- **Runs over gates end, no change is refused, and bits are kept**, on any graph, with gates
made of sets of any widths, in every order.  Unless the graph cannot be read or the run is
interrupted, there is a solution.  At any look each node has all bits that it had at an
earlier one. -/
theorem Graph.solveGates_keeps_bits [DecidableEq ν] (g : Graph ν κ) (w : Nat)
    (gate : ν → ν → Gate) (strategy : Strategy) (interrupt : Interrupt ν) :
    ((¬ g.Closed ∧ ∃ e, (g.solveGates w gate strategy interrupt).outcome = .error (.graph e)) ∨
      ((∃ calls, interrupt calls = true) ∧
        (g.solveGates w gate strategy interrupt).outcome = .error .cancelled) ∨
      ∃ s, (g.solveGates w gate strategy interrupt).outcome = .ok s) ∧
    (∀ budget : Topology ν → Nat, (∀ t, t.budget (2 * t.maxWidth w gate) ≤ budget t) →
      g.solve (.gates w gate) strategy interrupt budget =
        g.solveGates w gate strategy interrupt) ∧
    (∀ budget n,
      (g.solve (.gates w gate) strategy interrupt budget).outcome ≠ .error (.notMonotone n)) ∧
    ∀ t, Topology.read g = .ok t → ∀ k l, k ≤ l → ∀ j : Fin t.size,
      ∀ i ∈ (t.valuesAfter (.gates w gate) strategy interrupt k).get j,
        i ∈ (t.valuesAfter (.gates w gate) strategy interrupt l).get j := by
  have hrising := Problem.rising_gates w gate
  have hend : ∀ t, Topology.read g = .ok t →
      ((State.init (.gates w gate) t strategy).run (.gates w gate) t interrupt
        (t.budget (2 * t.maxWidth w gate))).1 ≠ .running :=
    fun t _ => State.run_ends_gates interrupt
  refine ⟨?_, fun budget hbudget => Graph.solve_eq_of_le hbudget hend,
    fun budget => Graph.solve_ne_notMonotone hrising, fun t _ k l hkl j => ?_⟩
  · generalize hout : (g.solveGates w gate strategy interrupt).outcome = out
    cases hout ▸ Graph.ends_solve (g := g) (p := .gates w gate) with
    | unread hread => exact Or.inl ⟨Topology.not_closed_of_read hread, _, rfl⟩
    | converged _ _ _ => exact Or.inr (Or.inr ⟨_, rfl⟩)
    | cancelled _ _ hstop => exact Or.inr (Or.inl ⟨⟨_, hstop⟩, rfl⟩)
    | notMonotone _ _ _ => exact absurd hout (Graph.solve_ne_notMonotone hrising _)
    | exhausted hread hrun => exact absurd hrun (hend _ hread)
  · exact (Topology.valuesAfter_rises hrising t strategy interrupt hkl j).2

/-- Every edge adds a bit: that of a node to itself the node's own, and others the first one. -/
def Gate.gathering (m n : Nat) : Gate := .union (.single (if m = n then m else 0))

/-- The second node is evaluated before the one it draws from, and again after it. -/
theorem Graph.solveGates_keeps_bits_lopsided :
    ∃ (t : Topology Nat) (j : Fin t.size), Topology.read Table.lopsided.graph = .ok t ∧ 2 ≤ 4 ∧
      2 ∈ (t.valuesAfter (.gates 0 Gate.gathering) .fifo .never 2).get j ∧
      1 ∉ (t.valuesAfter (.gates 0 Gate.gathering) .fifo .never 2).get j ∧
      2 ∈ (t.valuesAfter (.gates 0 Gate.gathering) .fifo .never 4).get j ∧
      1 ∈ (t.valuesAfter (.gates 0 Gate.gathering) .fifo .never 4).get j ∧
      ∃ s, (Table.lopsided.graph.solveGates 0 Gate.gathering .fifo .never).outcome = .ok s := by
  obtain ⟨hends, -, -, hkeeps⟩ :=
    Graph.solveGates_keeps_bits Table.lopsided.graph 0 Gate.gathering .fifo .never
  refine ⟨_, ⟨1, by decide⟩, rfl, by decide, by decide, by decide, ?_, by decide, ?_⟩
  · exact hkeeps _ rfl 2 4 (by decide) _ 2 (by decide)
  · rcases hends with ⟨hnot, -⟩ | ⟨⟨_, hstop⟩, -⟩ | hok
    · exact absurd (Topology.reads_of_read (t := _) rfl).closed hnot
    · exact absurd hstop Bool.false_ne_true
    · exact hok

end ProgramFlow
