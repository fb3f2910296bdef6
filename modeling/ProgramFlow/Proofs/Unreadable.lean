import ProgramFlow.Proofs.Equations
import ProgramFlow.Proofs.Views

/-!
# Graphs that cannot be read

Solving begins with reading the graph, and what is wrong with a graph shows only there: a
neighbour lookup may fail, and its answer may hold nodes that are not listed.  The lookups
are made one after the other, for each node its predecessors and then its successors, and the
first one that cannot be read says how solving fails.  No transfer has been made by then.
Graphs that come from a store never fail like this, through whatever layers they are seen.

* `Graph.lookups` — the lookups in the order in which they are read.
* `Graph.Rejects` — why the answer of a lookup cannot be read.
* `Graph.read_eq_error_iff` — reading fails for the reason of the first answer that is rejected.
* `Graph.solve_eq_graph_error_iff` — so does solving.
* `Graph.solve_reads_or_rejects` — when solving fails so, how, and that stored graphs are safe.
-/

namespace ProgramFlow

variable {ν κ δ : Type}

namespace Graph

/-! ## Answers of lookups -/

/-- The neighbour lookups in the order in which they are read. -/
def lookups (g : Graph ν κ) : List (Lookup ν (List ν)) :=
  g.nodes.flatMap fun n => [g.preds n, g.succs n]

/-- The lookup succeeded, and all nodes of its answer are listed. -/
def Accepts (g : Graph ν κ) (answer : Lookup ν (List ν)) : Prop :=
  ∃ ns, answer = .ok ns ∧ ∀ m ∈ ns, m ∈ g.nodes

/-- Why an answer cannot be read: the lookup failed, or the answer holds nodes that are not
listed, of which the first one counts. -/
inductive Rejects (g : Graph ν κ) : Lookup ν (List ν) → GraphError ν → Prop where
  | failed (e : GraphError ν) : Rejects g (.error e) e
  | stray {before after : List ν} {m : ν} (hbefore : ∀ k ∈ before, k ∈ g.nodes)
      (hm : m ∉ g.nodes) : Rejects g (.ok (before ++ m :: after)) (.invalidNode m)

/-- The first lookup with an answer that cannot be read is rejected for the given reason. -/
def FirstRejected (g : Graph ν κ) (e : GraphError ν) : Prop :=
  ∃ before answer after, g.lookups = before ++ answer :: after ∧
    (∀ earlier ∈ before, g.Accepts earlier) ∧ g.Rejects answer e

theorem not_accepts_iff {g : Graph ν κ} {answer : Lookup ν (List ν)} :
    ¬ g.Accepts answer ↔
      (∃ e, answer = .error e) ∨ ∃ ns, answer = .ok ns ∧ ∃ m ∈ ns, m ∉ g.nodes := by
  cases answer with
  | error e => simp [Accepts]
  | ok ns => simp [Accepts]

theorem closed_iff_accepts {g : Graph ν κ} :
    g.Closed ↔ ∀ n ∈ g.nodes, ∀ answer ∈ [g.preds n, g.succs n], g.Accepts answer := by
  simp only [List.forall_mem_cons, List.not_mem_nil, false_imp_iff, implies_true, and_true]
  exact ⟨fun h n hn => ⟨h.preds n hn, h.succs n hn⟩,
    fun h => ⟨fun n hn => (h n hn).1, fun n hn => (h n hn).2⟩⟩

/-! ## Reading -/

section Read

variable [DecidableEq ν] {g : Graph ν κ}

theorem number_eq_error_iff {n : ν} {e : GraphError ν} :
    g.number n = .error e ↔ n ∉ g.nodes ∧ e = .invalidNode n := by
  rw [Graph.number, ← lastIndex?_eq_none_iff]
  cases lastIndex? g.nodes n with
  | none => simp [eq_comm]
  | some i => simp

theorem exists_number_iff {n : ν} : (∃ i, g.number n = .ok i) ↔ n ∈ g.nodes := by
  constructor
  · rintro ⟨i, hi⟩
    exact (Topology.number_eq_ok hi).1 ▸ List.get_mem g.nodes i
  · exact Topology.exists_number

/-- The numbers of an answer. -/
def numbers (g : Graph ν κ) (answer : Lookup ν (List ν)) : Lookup ν (List (Fin g.nodes.length)) :=
  answer >>= (·.mapM g.number)

theorem numbers_eq_error_iff {answer : Lookup ν (List ν)} {e : GraphError ν} :
    g.numbers answer = .error e ↔ g.Rejects answer e := by
  rw [numbers, bind_eq_error_iff]
  simp only [mapM_eq_error_iff, exists_number_iff, number_eq_error_iff]
  constructor
  · rintro (rfl | ⟨ns, rfl, before, m, after, rfl, hbefore, hm, rfl⟩)
    · exact .failed e
    · exact .stray hbefore hm
  · intro h
    cases h with
    | failed e => exact Or.inl rfl
    | stray hbefore hm => exact Or.inr ⟨_, rfl, _, _, _, rfl, hbefore, hm, rfl⟩

theorem exists_numbers_iff {answer : Lookup ν (List ν)} :
    (∃ is, g.numbers answer = .ok is) ↔ g.Accepts answer := by
  simp only [numbers, bind_eq_ok_iff]
  constructor
  · rintro ⟨is, ns, rfl, hnumbers⟩
    refine ⟨ns, rfl, fun m hm => ?_⟩
    rw [← (Topology.numbers_eq_ok hnumbers).1] at hm
    obtain ⟨i, -, rfl⟩ := List.mem_map.1 hm
    exact List.get_mem g.nodes i
  · rintro ⟨ns, rfl, hlisted⟩
    obtain ⟨is, his⟩ := exists_mapM_eq_ok fun m hm => exists_number_iff.2 (hlisted m hm)
    exact ⟨is, ns, rfl, his⟩

theorem readNode_eq_numbers (n : ν) :
    Topology.readNode g n = do
      let preds ← g.numbers (g.preds n)
      let succs ← g.numbers (g.succs n)
      return (preds, succs) := by
  simp only [Topology.readNode, numbers, bind_assoc]

/-- Reading node by node fails like reading lookup by lookup. -/
theorem mapM_readNode_eq_error_iff {ns : List ν} {e : GraphError ν} :
    ns.mapM (Topology.readNode g) = .error e ↔
      (ns.flatMap fun n => [g.preds n, g.succs n]).mapM g.numbers = .error e := by
  induction ns with
  | nil => simp [pure, Except.pure]
  | cons n ns ih =>
      rw [List.flatMap_cons, List.cons_append, List.cons_append, List.nil_append,
        mapM_cons_eq_error_iff, mapM_cons_eq_error_iff, mapM_cons_eq_error_iff, ih,
        readNode_eq_numbers]
      simp only [bind_eq_error_iff, bind_eq_ok_iff]
      cases hpreds : g.numbers (g.preds n) with
      | error e' => simp
      | ok is =>
          cases hsuccs : g.numbers (g.succs n) with
          | error e' => simp
          | ok js => simp [pure, Except.pure]

/-- **Reading fails for the reason of the first answer that is rejected.** -/
theorem read_eq_error_iff {e : GraphError ν} :
    Topology.read g = .error e ↔ g.FirstRejected e := by
  have hread : Topology.read g = .error e ↔ g.nodes.mapM (Topology.readNode g) = .error e := by
    rw [Topology.read, bind_eq_error_iff]
    simp [pure, Except.pure]
  rw [hread, mapM_readNode_eq_error_iff, mapM_eq_error_iff]
  simp only [exists_numbers_iff, numbers_eq_error_iff]
  rfl

end Read

/-! ## Solving -/

section Solve

variable [DecidableEq ν] [DecidableEq δ] {g : Graph ν κ} {p : Problem ν δ} {strategy : Strategy}
  {interrupt : Interrupt ν} {budget : Topology ν → Nat}

/-- Solving fails with an error of the graph if reading it does, and with the same error. -/
theorem solve_eq_graph_error_iff {e : GraphError ν} :
    (g.solve p strategy interrupt budget).outcome = .error (.graph e) ↔ g.FirstRejected e := by
  rw [← read_eq_error_iff]
  constructor
  · intro h
    cases h ▸ ends_solve (g := g) (p := p) with
    | unread hread => exact hread
  · intro hread
    rw [solve_of_unread hread]

theorem exists_firstRejected_iff : (∃ e, g.FirstRejected e) ↔ ¬ g.Closed := by
  simp only [← read_eq_error_iff]
  exact ⟨fun ⟨_, hread⟩ => Topology.not_closed_of_read hread, Topology.exists_read_error⟩

/-- A solution has values for the listed nodes. -/
theorem exists_value_iff {s : Solution ν δ}
    (hok : (g.solve p strategy interrupt budget).outcome = .ok s) (n : ν) :
    (∃ d, s.value n = .ok d) ↔ n ∈ g.nodes := by
  cases hok ▸ ends_solve (g := g) (p := p) with
  | @converged t hread r hr hempty =>
      have hreads := Topology.reads_of_read hread
      have htells := hreads.tells (v := r.values) p.domain.bottom r.iterations
      by_cases hn : n ∈ g.nodes
      · exact ⟨fun _ => hn, fun _ => ⟨_, htells.value n hn⟩⟩
      · simp [htells.unknown n hn, hn]

/-- **Solving fails with an error of the graph exactly if the graph cannot be read**: a listed
node has neighbours that cannot be looked up, or that are not listed.  The error is that of
the first lookup of which this holds, in the order of the nodes and with the predecessors of a
node before its successors; neighbours that are not listed are told by the first of them.  No
transfer is made then.  A stored graph can be read through every stack of layers, and its
solutions have values for the nodes that it contains, seen through the stack. -/
theorem solve_reads_or_rejects (p : Problem ν δ) (strategy : Strategy) (interrupt : Interrupt ν)
    (budget : Topology ν → Nat) :
    (∀ g : Graph ν κ,
      ((∃ e, (g.solve p strategy interrupt budget).outcome = .error (.graph e)) ↔
        ∃ n ∈ g.nodes, ∃ answer ∈ [g.preds n, g.succs n],
          (∃ e, answer = .error e) ∨ ∃ ns, answer = .ok ns ∧ ∃ m ∈ ns, m ∉ g.nodes) ∧
      ∀ e, ((g.solve p strategy interrupt budget).outcome = .error (.graph e) ↔
          g.FirstRejected e) ∧
        ((g.solve p strategy interrupt budget).outcome = .error (.graph e) →
          (g.solve p strategy interrupt budget).calls = [])) ∧
    ∀ g : Graph ν κ, g.Stored → ∀ stack : Stack ν,
      (∀ e, ((stack.view g).solve p strategy interrupt budget).outcome ≠ .error (.graph e)) ∧
      ∀ s, ((stack.view g).solve p strategy interrupt budget).outcome = .ok s →
        ∀ n, (∃ d, s.value n = .ok d) ↔ (stack.view g).contains n = true := by
  refine ⟨fun g => ⟨?_, fun e => ⟨solve_eq_graph_error_iff, fun herror => ?_⟩⟩,
    fun g hg stack => ⟨fun e herror => ?_, fun s hok n => ?_⟩⟩
  · simp only [solve_eq_graph_error_iff, exists_firstRejected_iff, closed_iff_accepts, not_forall,
      not_accepts_iff, exists_prop]
  · rw [solve_of_unread (read_eq_error_iff.2 (solve_eq_graph_error_iff.1 herror))]
  · exact exists_firstRejected_iff.1 ⟨e, solve_eq_graph_error_iff.1 herror⟩
      (stack.sound_view hg.sound).closed
  · rw [exists_value_iff hok, (stack.sound_view hg.sound).contains_iff]

end Solve

end Graph

/-- The second node does not tell its predecessors.  Before that the successors of the first
one are looked up, of which two are not listed. -/
def Table.torn : Table Nat Empty where
  nodes := [1, 2, 3]
  nodeCount := 3
  members := [1, 2, 3]
  succs := [(1, [3, 8, 9]), (2, [1])]
  preds := [(1, [2])]
  badSuccs := []
  badPreds := [2]
  succCounts := []
  predCounts := []
  edges := none
  labels := []

theorem Graph.solve_reads_or_rejects_torn :
    Table.torn.graph.FirstRejected (.invalidNode 8) ∧
      (Table.torn.graph.solve Problem.turning .fifo .never (·.budget 2)).outcome =
        .error (.graph (.invalidNode 8)) ∧
      (Table.torn.graph.solve Problem.turning .fifo .never (·.budget 2)).calls = [] ∧
      Adjacency.looped.graph.Stored ∧
      ∃ s, ((Stack.mixed.view Adjacency.looped.graph).solve Problem.turning .fifo .never
          (·.budget 2)).outcome = .ok s ∧
        ∀ n, (∃ d, s.value n = .ok d) ↔
          (Stack.mixed.view Adjacency.looped.graph).contains n = true := by
  have hfirst : Table.torn.graph.FirstRejected (.invalidNode 8) := by
    refine ⟨[.ok [2]], .ok [3, 8, 9], _, rfl, ?_, ?_⟩
    · rintro answer (_ | ⟨_, ⟨⟩⟩)
      exact ⟨[2], rfl, by decide⟩
    · show Table.torn.graph.Rejects (.ok ([3] ++ 8 :: [9])) (.invalidNode 8)
      exact .stray (by decide) (by decide)
  have hstored : Adjacency.looped.graph.Stored := .adjacency ⟨_, rfl⟩
  obtain ⟨hany, hstacks⟩ :=
    Graph.solve_reads_or_rejects (κ := Empty) Problem.turning .fifo .never (·.budget 2)
  obtain ⟨-, hexact⟩ := hany Table.torn.graph
  obtain ⟨herror, hcalls⟩ := hexact (.invalidNode 8)
  obtain ⟨-, hvalues⟩ := hstacks Adjacency.looped.graph hstored Stack.mixed
  have hok : ((Stack.mixed.view Adjacency.looped.graph).solve Problem.turning .fifo .never
      (·.budget 2)).outcome = .ok ⟨[(1, true), (2, false), (4, false)], 4⟩ := by decide
  exact ⟨hfirst, herror.2 hfirst, hcalls (herror.2 hfirst), hstored, _, hok, hvalues _ hok⟩

end ProgramFlow
