import ProgramFlow.Proofs.Gates

/-!
# How many evaluations a run takes

A change of a value is refused unless the value rises.  This alone bounds a run: if
values can only rise so many times, then so can the values of a whole run, and each rise
queues no more nodes than the raised one has successors.  Neither transfers that are
monotone nor lists of predecessors and successors that fit together are needed for it,
and a node may be listed twice.

* `Problem.Climbs` — every rise is a rise in rank, and ranks are bounded by a height.
* `State.Reached.size_le_iterations_add` — what has been evaluated or is queued, taken
  together, is no less than all nodes.
* `Problem.Climbs.iterations_add_potential_le` — what has been evaluated, and what a run can
  still do, taken together, is no more than it could do at first.
* `Graph.iterations_within` — runs over flags and over sets of one width end, and the
  number of evaluations lies between these bounds.
-/

namespace ProgramFlow

variable {ν κ δ : Type}

/-! ## At least one evaluation for each node -/

namespace State

variable {p : Problem ν δ} {t : Topology ν} {s s' : State ν δ t.size} {strategy : Strategy}

theorem Step.iterations_eq (h : Step p t s s') : s'.iterations = s.iterations + 1 := by
  cases h <;> rfl

/-- A step takes one node off the agenda, and may put others on it. -/
theorem Step.length_queue_le (h : Step p t s s') (hs : s.agenda.Exact) :
    s.agenda.queue.length ≤ s'.agenda.queue.length + 1 := by
  cases h with
  | settled hpop heq =>
      obtain ⟨hqueue, -⟩ := hs.of_pop hpop
      rw [hqueue, List.length_cons]
  | @raised k agenda hpop hne hle =>
      obtain ⟨hqueue, hexact⟩ := hs.of_pop hpop
      have hpush := Agenda.le_length_pushAll hexact (t.succs k)
      rw [hqueue, List.length_cons]
      exact Nat.succ_le_succ hpush

theorem size_le_length_queue_init : t.size ≤ (init p t strategy).agenda.queue.length := by
  have hsub : (List.finRange t.size).Subperm (init p t strategy).agenda.queue :=
    List.subperm_of_subset (List.nodup_finRange t.size) fun i _ => mem_queue_init i
  simpa using hsub.length_le

theorem Reached.size_le_iterations_add (h : Reached p t strategy s) :
    t.size ≤ s.iterations + s.agenda.queue.length := by
  induction h with
  | refl => exact size_le_length_queue_init.trans (Nat.le_add_left _ _)
  | tail hr hstep ih =>
      have hcount := hstep.iterations_eq
      have hqueue := hstep.length_queue_le (Reached.exact hr)
      omega

end State

/-! ## At most one evaluation for each rise of a predecessor -/

/-- Joins and transfers keep values good, and a good value that rises to another one rises
in rank, up to the height. -/
structure Problem.Climbs (p : Problem ν δ) (good : δ → Prop) (rank : δ → Nat) (height : Nat) :
    Prop where
  bottom : good p.domain.bottom
  join : ∀ {a b}, good a → good b → good (p.domain.join a b)
  transfer : ∀ m n {a}, good a → good (p.transfer m n a)
  rank_lt : ∀ {a b}, good a → good b → p.domain.le a b = true → b ≠ a → rank a < rank b
  rank_le : ∀ {a}, good a → rank a ≤ height

namespace Problem.Climbs

variable {p : Problem ν δ} {good : δ → Prop} {rank : δ → Nat} {height : Nat} {t : Topology ν}
  {strategy : Strategy} {s : State ν δ t.size}

theorem good_evaluate (hp : p.Climbs good rank height) {v : Vector δ t.size}
    (hv : ∀ j : Fin t.size, good (v.get j)) (i : Fin t.size) : good (p.evaluate t v i) :=
  p.evaluate_induction hp.bottom fun _ hacc j _ => hp.join hacc (hp.transfer _ _ (hv j))

theorem good_values (hp : p.Climbs good rank height) (hs : State.Reached p t strategy s)
    (i : Fin t.size) : good (s.values.get i) :=
  State.Reached.values (Q := fun _ d => good d) (fun _ => hp.bottom) (fun _ => hp.good_evaluate) hs i

/-- A change that is not refused is a rise in rank. -/
theorem rank_lt_evaluate (hp : p.Climbs good rank height) (hs : State.Reached p t strategy s)
    (i : Fin t.size) (hne : p.evaluate t s.values i ≠ s.values.get i)
    (hle : p.domain.le (s.values.get i) (p.evaluate t s.values i) = true) :
    rank (s.values.get i) < rank (p.evaluate t s.values i) ∧
      rank (p.evaluate t s.values i) ≤ height := by
  have hold := hp.good_values hs i
  have hnew := hp.good_evaluate (hp.good_values hs) i
  exact ⟨hp.rank_lt hold hnew hle hne, hp.rank_le hnew⟩

theorem run_ends [DecidableEq δ] (hp : p.Climbs good rank height) (t : Topology ν)
    (strategy : Strategy) (interrupt : Interrupt ν) :
    ((State.init p t strategy).run p t interrupt (t.budget height)).1 ≠ .running :=
  State.run_ends_of_rank rank fun _ hs => hp.rank_lt_evaluate hs

/-- Every evaluation is paid for by what the run could do at first. -/
theorem iterations_add_potential_le (hp : p.Climbs good rank height)
    (hs : State.Reached p t strategy s) :
    s.iterations + s.potential t rank height ≤ t.size + height * t.edgeCount := by
  induction hs with
  | refl =>
      have hinit : (State.init p t strategy).potential t rank height < t.budget height :=
        State.potential_init_lt_budget rank height
      rw [Topology.budget] at hinit
      show 0 + _ ≤ _
      omega
  | tail hr hstep ih =>
      have hcount := hstep.iterations_eq
      have hless := hstep.potential_lt (State.Reached.exact hr) (hp.rank_lt_evaluate hr)
      omega

end Problem.Climbs

theorem Problem.climbs_flag (transfer : ν → ν → Bool → Bool) :
    (⟨.flag, transfer⟩ : Problem ν Bool).Climbs (fun _ => True) Bool.toNat 1 where
  bottom := trivial
  join _ _ := trivial
  transfer _ _ _ _ := trivial
  rank_lt {a b} _ _ hle hne := by cases a <;> cases b <;> simp_all [Domain.flag, Lattice.flag]
  rank_le {a} _ := a.toNat_le

/-- Sets of one width rise by getting more members. -/
theorem Problem.climbs_sets {w : Nat} {transfer : ν → ν → BitSet → BitSet}
    (hwidth : ∀ m n d, d.width = w → (transfer m n d).width = w) :
    (⟨.sets w, transfer⟩ : Problem ν BitSet).Climbs (fun d => d.width = w) BitSet.count w where
  bottom := BitSet.width_bottom w
  join {a b} ha hb := by
    show max a.width b.width = w
    omega
  transfer m n a ha := hwidth m n a ha
  rank_lt {a b} ha hb hle hne := by
    have hbelow : BitSet.Below w a b := ⟨by omega, BitSet.subset_iff.1 hle⟩
    have hrank := hbelow.rank_lt ha.ge hb.ge hne
    omega
  rank_le {a} ha := ha ▸ a.count_le_width

/-! ## Bounds in terms of the graph -/

/-- The number of edges, counted along the successors of the listed nodes. -/
def Graph.edgeCount (g : Graph ν κ) : Nat :=
  (g.nodes.flatMap fun n => (g.succs n).toOption.getD []).length

namespace Topology.Reads

variable {t : Topology ν} {g : Graph ν κ}

theorem size_eq (h : t.Reads g) : t.size = g.nodes.length := by
  rw [← h.nodes, List.length_map, List.length_finRange]

theorem edgeCount_eq (h : t.Reads g) : t.edgeCount = g.edgeCount := by
  rw [Topology.edgeCount, Graph.edgeCount, ← h.nodes, List.flatMap_map, List.length_flatMap,
    List.length_flatMap]
  simp [h.succs, Except.toOption]

end Topology.Reads

/-- Solving ends: with an error of the graph, with a change that is refused, or with a
solution after at least one evaluation for each node, and at most as many more as there are
edges times the height.  It does so with every budget that allows for this. -/
def Problem.EndsWithin [DecidableEq ν] [DecidableEq δ] (p : Problem ν δ) (g : Graph ν κ)
    (strategy : Strategy) (height : Nat) : Prop :=
  ∃ r : Run ν δ,
    (∀ budget : Topology ν → Nat, (∀ t, t.budget height ≤ budget t) →
      g.solve p strategy .never budget = r) ∧
    ((¬ g.Closed ∧ ∃ e, r.outcome = .error (.graph e)) ∨
      (∃ n ∈ g.nodes, r.outcome = .error (.notMonotone n)) ∨
      ∃ s, r.outcome = .ok s ∧ g.nodes.length ≤ s.iterations ∧
        s.iterations ≤ g.nodes.length + height * g.edgeCount)

theorem Problem.Climbs.endsWithin [DecidableEq ν] [DecidableEq δ] {p : Problem ν δ}
    {good : δ → Prop} {rank : δ → Nat} {height : Nat} (hp : p.Climbs good rank height)
    (g : Graph ν κ) (strategy : Strategy) : p.EndsWithin g strategy height := by
  have hend : ∀ t, Topology.read g = .ok t →
      ((State.init p t strategy).run p t .never (t.budget height)).1 ≠ .running :=
    fun t _ => hp.run_ends t strategy .never
  refine ⟨g.solve p strategy .never (·.budget height),
    fun budget hbudget => Graph.solve_eq_of_le hbudget hend, ?_⟩
  generalize hout : (g.solve p strategy .never (·.budget height)).outcome = out
  cases hout ▸ Graph.ends_solve (g := g) (p := p) with
  | unread hread => exact Or.inl ⟨Topology.not_closed_of_read hread, _, rfl⟩
  | @converged t hread s hs hempty =>
      have hreads := Topology.reads_of_read hread
      have hlow := State.Reached.size_le_iterations_add hs
      have hhigh := hp.iterations_add_potential_le hs
      have hsize := hreads.size_eq
      rw [hempty, List.length_nil] at hlow
      rw [hreads.edgeCount_eq] at hhigh
      refine Or.inr (Or.inr ⟨_, rfl, ?_, ?_⟩)
      · show g.nodes.length ≤ s.iterations
        omega
      · show s.iterations ≤ g.nodes.length + height * g.edgeCount
        omega
  | cancelled _ _ hstop => exact absurd hstop Bool.false_ne_true
  | @notMonotone t hread _ _ i _ =>
      exact Or.inr (Or.inl ⟨_, (Topology.reads_of_read hread).node_mem i, rfl⟩)
  | exhausted hread hrun => exact absurd hrun (hend _ hread)

/-- **Runs over flags and over sets of one width end**, with any transfers, on any graph and
in every order.  A flag can rise once, and a set as often as its width says. -/
theorem Graph.iterations_within [DecidableEq ν] (g : Graph ν κ) (strategy : Strategy) :
    (∀ transfer : ν → ν → Bool → Bool,
      (⟨.flag, transfer⟩ : Problem ν Bool).EndsWithin g strategy 1) ∧
    ∀ (w : Nat) (transfer : ν → ν → BitSet → BitSet),
      (∀ m n d, d.width = w → (transfer m n d).width = w) →
        (⟨.sets w, transfer⟩ : Problem ν BitSet).EndsWithin g strategy w := by
  constructor
  · intro transfer
    exact (Problem.climbs_flag transfer).endsWithin g strategy
  · intro w transfer hwidth
    exact (Problem.climbs_sets hwidth).endsWithin g strategy

/-- The first node is listed twice.  It does not lead to the second one, which draws from it,
and the second one leads to it in turn without its knowing. -/
def Table.lopsided : Table Nat Empty where
  nodes := [1, 2, 1]
  nodeCount := 2
  members := [1, 2]
  succs := [(1, [1]), (2, [2, 1])]
  preds := [(1, [1]), (2, [1, 2])]
  badSuccs := []
  badPreds := []
  succCounts := []
  predCounts := []
  edges := none
  labels := []

/-- The edge of a node to itself adds a bit, and others hand on the bits that are not there. -/
def BitSet.turned (m n : Nat) (facts : BitSet) : BitSet :=
  if m = n then facts.join (.single 0) else (BitSet.top facts.width).minus facts

/-- There are three numbers and four edges, and the sets take seven evaluations. -/
theorem Graph.iterations_within_lopsided :
    (⟨.flag, fun m n d => if m = n then d else !d⟩ : Problem Nat Bool).EndsWithin
        Table.lopsided.graph .lifo 1 ∧
      (∀ m n d, d.width = 2 → (BitSet.turned m n d).width = 2) ∧
      (⟨.sets 2, BitSet.turned⟩ : Problem Nat BitSet).EndsWithin Table.lopsided.graph .lifo 2 ∧
      (Table.lopsided.graph.solve ⟨.sets 2, BitSet.turned⟩ .lifo .never
        (·.budget 2)).outcome.toOption.map Solution.iterations = some 7 := by
  obtain ⟨hflags, hsets⟩ := Graph.iterations_within Table.lopsided.graph .lifo
  have hwidth : ∀ m n d, d.width = 2 → (BitSet.turned m n d).width = 2 := by
    intro m n d hd
    unfold BitSet.turned
    split <;> simp [hd]
  exact ⟨hflags _, hwidth, hsets 2 BitSet.turned hwidth, by decide⟩

end ProgramFlow
