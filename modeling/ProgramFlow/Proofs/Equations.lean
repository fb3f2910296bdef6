import ProgramFlow.Graph.Table
import ProgramFlow.Proofs.Outcome

/-!
# The equations that a solution meets

A run works on numbers; its result is asked for nodes.  Here the values of a
run are read as an assignment of values to nodes, and what the run keeps becomes
a statement about the graph: each listed node has the value that the values of
its predecessors demand.

* `Problem.demand`, `Problem.Solves` — the equations of a problem on a graph.
* `Solution.value_of_isLast`, `Solution.value_of_not_mem` — which values a solution
  has, and for which nodes it has none.
* `Solution.Tells`, `Topology.Reads.tells` — a solution that tells an assignment.
* `Topology.Reads.solves` — where nothing is queued, the equations hold.
* `Graph.exists_converged` — a run of a monotone problem over a closed graph ends
  like that, if its budget suffices.
* `Graph.solves_of_solve_eq_ok` — what is returned meets the equations, monotone or not.
-/

namespace ProgramFlow

variable {ν κ δ : Type}

/-- The value that an assignment demands of a node: the join, in order, of what
arrives from its predecessors. -/
def Problem.demand (p : Problem ν δ) (g : Graph ν κ) (V : ν → δ) (n : ν) : δ :=
  match g.preds n with
  | .ok ps => ps.foldl (fun acc m => p.domain.join acc (p.transfer m n (V m))) p.domain.bottom
  | .error _ => p.domain.bottom

/-- Every listed node is assigned the value that is demanded of it. -/
def Problem.Solves (p : Problem ν δ) (g : Graph ν κ) (V : ν → δ) : Prop :=
  ∀ n ∈ g.nodes, V n = p.demand g V n

/-! ## Values of nodes -/

section Values

variable [DecidableEq ν] {t : Topology ν} {v : Vector δ t.size}

/-- The entry that counts for a node is that of its last number. -/
theorem Topology.lookup_entries {i : Fin t.size} (hi : t.IsLast i) :
    (t.entries v).reverse.lookup (t.node i) = some (v.get i) := by
  obtain ⟨before, after, hsplit⟩ := List.append_of_mem (List.mem_finRange i)
  have hsorted := List.pairwise_lt_finRange t.size
  rw [hsplit] at hsorted
  have hafter : ∀ k ∈ after, i < k := (List.pairwise_cons.1 (List.pairwise_append.1 hsorted).2.1).1
  refine List.lookup_eq_some_iff.2
    ⟨(after.map fun k => (t.node k, v.get k)).reverse,
      (before.map fun k => (t.node k, v.get k)).reverse,
      by simp [Topology.entries, hsplit], ?_⟩
  intro entry hentry
  obtain ⟨k, hk, rfl⟩ := List.mem_map.1 (List.mem_reverse.1 hentry)
  have hne : t.node i ≠ t.node k := fun heq =>
    absurd (hi k heq.symm) (Fin.not_le.2 (hafter k hk))
  simpa using hne

theorem Solution.value_of_isLast {i : Fin t.size} (hi : t.IsLast i) (iterations : Nat) :
    (⟨t.entries v, iterations⟩ : Solution ν δ).value (t.node i) = .ok (v.get i) := by
  simp only [Solution.value, Solution.get?, Topology.lookup_entries hi]

theorem Solution.value_of_not_mem {g : Graph ν κ} (h : t.Reads g) {n : ν} (hn : n ∉ g.nodes)
    (iterations : Nat) :
    (⟨t.entries v, iterations⟩ : Solution ν δ).value n = .error (.unknownNode n) := by
  have hnone : (t.entries v).reverse.lookup n = none := by
    rw [List.lookup_eq_none_iff]
    intro entry hentry
    obtain ⟨k, -, rfl⟩ := List.mem_map.1 (List.mem_reverse.1 hentry)
    have hne : n ≠ t.node k := fun heq => hn (heq ▸ h.node_mem k)
    simpa using hne
  simp only [Solution.value, Solution.get?, hnone]

/-- The values of a run as an assignment; nodes without a number have the given value. -/
def Topology.assignment (t : Topology ν) (v : Vector δ t.size) (other : δ) (n : ν) : δ :=
  ((t.entries v).reverse.lookup n).getD other

theorem Topology.assignment_of_isLast {other : δ} {i : Fin t.size} (hi : t.IsLast i) :
    t.assignment v other (t.node i) = v.get i := by
  rw [Topology.assignment, Topology.lookup_entries hi, Option.getD_some]

/-- The solution has the values of an assignment for the listed nodes, and for no others.
If no node is listed twice, its entries are these values in order. -/
structure Solution.Tells (s : Solution ν δ) (nodes : List ν) (V : ν → δ) : Prop where
  value : ∀ n ∈ nodes, s.value n = .ok (V n)
  unknown : ∀ n ∉ nodes, s.value n = .error (.unknownNode n)
  entries : nodes.Nodup → s.entries = nodes.map fun n => (n, V n)

theorem Solution.Tells.congr {s : Solution ν δ} {nodes : List ν} {V W : ν → δ}
    (h : s.Tells nodes V) (hVW : ∀ n ∈ nodes, V n = W n) : s.Tells nodes W where
  value n hn := hVW n hn ▸ h.value n hn
  unknown := h.unknown
  entries hnodup := by
    rw [h.entries hnodup]
    exact List.map_congr_left fun n hn => by rw [hVW n hn]

theorem Topology.Reads.tells {g : Graph ν κ} (h : t.Reads g) (other : δ) (iterations : Nat) :
    (⟨t.entries v, iterations⟩ : Solution ν δ).Tells g.nodes (t.assignment v other) where
  value n hn := by
    obtain ⟨i, rfl, hi⟩ := h.exists_last hn
    rw [Topology.assignment_of_isLast hi]
    exact Solution.value_of_isLast hi iterations
  unknown n hn := Solution.value_of_not_mem h hn iterations
  entries hnodup := by
    rw [← h.nodes, List.map_map]
    refine List.map_congr_left fun i _ => ?_
    rw [Function.comp_apply, Topology.assignment_of_isLast (h.isLast_of_nodup hnodup i)]

end Values

/-! ## Equations -/

namespace Topology.Reads

variable {p : Problem ν δ} {g : Graph ν κ} {t : Topology ν} {v : Vector δ t.size}

/-- What an evaluation gives a number is what is demanded of its node. -/
theorem evaluate_eq_demand (h : t.Reads g) {V : ν → δ}
    (hV : ∀ j : Fin t.size, t.IsLast j → v.get j = V (t.node j)) (i : Fin t.size) :
    p.evaluate t v i = p.demand g V (t.node i) := by
  simp only [Problem.demand, h.preds i, Problem.evaluate, List.foldl_map]
  refine List.foldl_ext _ _ _ ?_
  intro acc j hj
  rw [hV j (h.last_preds i j hj)]

/-- **When nothing is queued any more, the equations hold.** -/
theorem solves [DecidableEq ν] (h : t.Reads g) (hg : g.Notifies) {s : State ν δ t.size}
    (hsettled : s.Settled p t) (hempty : s.agenda.queue = []) (other : δ) :
    p.Solves g (t.assignment s.values other) := by
  intro n hn
  obtain ⟨i, rfl, hi⟩ := h.exists_last hn
  have hvalue := hsettled i (h.notified hg hi) (by simp [hempty])
  rw [assignment_of_isLast hi, hvalue]
  exact h.evaluate_eq_demand (fun j hj => (assignment_of_isLast hj).symm) i

end Topology.Reads

/-- A run of a monotone problem over a closed graph converges if its budget
suffices. -/
theorem Graph.exists_converged [DecidableEq ν] [DecidableEq δ] {p : Problem ν δ} {g : Graph ν κ}
    {below : δ → δ → Prop} {strategy : Strategy} {budget : Topology ν → Nat} (hclosed : g.Closed)
    (hp : p.Rising below)
    (hend : ∀ t, Topology.read g = .ok t →
      ((State.init p t strategy).run p t .never (budget t)).1 ≠ .running) :
    ∃ (t : Topology ν) (s : State ν δ t.size), Topology.read g = .ok t ∧
      State.Reached p t strategy s ∧ s.agenda.queue = [] ∧
      (g.solve p strategy .never budget).outcome = .ok ⟨t.entries s.values, s.iterations⟩ := by
  generalize hout : (g.solve p strategy .never budget).outcome = out
  cases hout ▸ Graph.ends_solve (g := g) (p := p) with
  | unread hread => exact absurd hclosed (Topology.not_closed_of_read hread)
  | @converged t hread s hs hempty => exact ⟨t, s, hread, hs, hempty, rfl⟩
  | cancelled _ _ hstop => exact absurd hstop Bool.false_ne_true
  | notMonotone _ _ _ => exact absurd hout (Graph.solve_ne_notMonotone hp _)
  | exhausted hread hrun => exact absurd hrun (hend _ hread)

/-! ## The main result -/

/-- **What is returned meets the equations**, whatever the transfers are like, and with any
order, be it one that refuses no change.  The graph only has to notify; that its neighbours
are listed is then known, since it could be read.  Where a node is listed twice, its last
entry counts. -/
theorem Graph.solves_of_solve_eq_ok [DecidableEq ν] [DecidableEq δ] (g : Graph ν κ)
    (hg : g.Notifies) (p : Problem ν δ) (strategy : Strategy) (interrupt : Interrupt ν)
    (budget : Topology ν → Nat) (s : Solution ν δ)
    (hok : (g.solve p strategy interrupt budget).outcome = .ok s) :
    g.Closed ∧ ∃ V : ν → δ, p.Solves g V ∧ s.Tells g.nodes V := by
  cases hok ▸ Graph.ends_solve (g := g) (p := p) with
  | @converged t hread r hr hempty =>
      have hreads := Topology.reads_of_read hread
      refine ⟨hreads.closed, t.assignment r.values p.domain.bottom, ?_, hreads.tells _ _⟩
      -- nothing is queued, so every node that is told of changes is up to date
      exact hreads.solves hg (State.Reached.settled hr) hempty _

/-- The domain with an order that refuses no change. -/
def Domain.lenient (d : Domain δ) : Domain δ := { d with le := fun _ _ => true }

/-- Flags that are set on one edge, kept on another and turned around on a third. -/
def Problem.turning : Problem Nat Bool where
  domain := Domain.flag.lenient
  transfer m n d := if m = 1 then true else if n = 3 then !d else d

/-- The first node also leads to the third, which does not know of it. -/
def Table.eager : Table Nat Empty where
  nodes := [1, 2, 3]
  nodeCount := 3
  members := [1, 2, 3]
  succs := [(1, [2, 3]), (2, [2, 3])]
  preds := [(2, [1, 2]), (3, [2])]
  badSuccs := []
  badPreds := []
  succCounts := []
  predCounts := []
  edges := none
  labels := []

/-- The flag of the third node is set, and falls when that of the second one rises. -/
theorem Graph.solves_of_solve_eq_ok_turning :
    Table.eager.graph.Notifies ∧
      ∃ s : Solution Nat Bool,
        (Table.eager.graph.solve Problem.turning .lifo .never (·.budget 2)).outcome = .ok s ∧
        ∃ V : Nat → Bool, Problem.turning.Solves Table.eager.graph V ∧
          s.Tells Table.eager.graph.nodes V := by
  have hnotifies : Table.eager.graph.Notifies := by decide
  have hok : (Table.eager.graph.solve Problem.turning .lifo .never (·.budget 2)).outcome =
      .ok ⟨[(1, false), (2, true), (3, false)], 5⟩ := by decide
  obtain ⟨-, hsolves⟩ := Graph.solves_of_solve_eq_ok Table.eager.graph hnotifies Problem.turning
    .lifo .never (·.budget 2) _ hok
  exact ⟨hnotifies, _, hok, hsolves⟩

end ProgramFlow
