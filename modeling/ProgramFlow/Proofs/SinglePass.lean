import ProgramFlow.Proofs.FinishOrder
import ProgramFlow.Proofs.Iterations

/-!
# One pass over graphs without cycles

If a graph has no cycles, its reverse post-order lists every node before its successors.  A run
in that order starts with all nodes queued in it.  Whatever is queued again when a value rises
comes later in the order, so it is queued still and nothing changes; and the node that is
next has not been evaluated before, so it has the bottom value, from which every change is a
rise.  The run therefore takes the nodes off the agenda one by one and ends.  Neither
monotone transfers nor the agreement of predecessors and successors play a part in this.

* `State.queue_init` — at first the queue is the reverse post-order.
* `State.Follows` — some nodes have been evaluated, once each, and the rest of the order is
  queued; `State.Follows.exists_advance` is a look at the agenda, `State.Follows.exists_run`
  the run to its end.
* `Graph.solve_single_pass` — solving evaluates every node once.
-/

namespace ProgramFlow

variable {ν κ δ : Type}

/-! ## Looks -/

namespace State

variable {p : Problem ν δ} {t : Topology ν} {order done : List (Fin t.size)}
  {s s' : State ν δ t.size}

/-- All numbers are queued at first, in reverse post-order. -/
theorem queue_init (p : Problem ν δ) (t : Topology ν) :
    (init p t .reversePostOrder).agenda.queue = PostOrder.reversePostOrder t.succs := by
  have hranked : (init p t .reversePostOrder).agenda.Ranked (PostOrder.positions t.succs) :=
    (Agenda.ranked_empty _).pushAll _
  have hperm : (init p t .reversePostOrder).agenda.queue.Perm
      (PostOrder.reversePostOrder t.succs) := by
    refine (List.perm_ext_iff_of_nodup exact_init.nodup
      (PostOrder.nodup_reversePostOrder t.succs)).2 fun i => ?_
    exact iff_of_true (mem_queue_init i) (PostOrder.mem_reversePostOrder t.succs i)
  refine hperm.eq_of_pairwise (fun i j _ _ hij hji => ?_) hranked.sorted
    ((PostOrder.pairwise_positions t.succs).imp Nat.le_of_lt)
  exact PostOrder.positions_inj.1 (Nat.le_antisymm hij hji)

/-- The numbers in `done` have been evaluated, in this order and once each.  The rest of the
order is queued, with values that have not changed yet. -/
structure Follows (p : Problem ν δ) (t : Topology ν) (order done : List (Fin t.size))
    (s : State ν δ t.size) : Prop where
  exact : s.agenda.Exact
  order : done ++ s.agenda.queue = order
  iterations : s.iterations = done.length
  calls : s.calls = done.reverse.flatMap t.callsAt
  fresh : ∀ i ∈ s.agenda.queue, s.values.get i = p.domain.bottom

theorem follows_init (p : Problem ν δ) (t : Topology ν) :
    Follows p t (PostOrder.reversePostOrder t.succs) [] (init p t .reversePostOrder) where
  exact := exact_init
  order := queue_init p t
  iterations := rfl
  calls := rfl
  fresh i _ := get_values_init i

/-- Taking the next number off the agenda, and changing no other value, leads on. -/
theorem Follows.next (h : Follows p t order done s) {i : Fin t.size}
    (hpop : s.agenda.pop? = some (i, s'.agenda)) (hiterations : s'.iterations = s.iterations + 1)
    (hcalls : s'.calls = t.callsAt i ++ s.calls)
    (hvalues : ∀ j, i ≠ j → s'.values.get j = s.values.get j) :
    Follows p t order (done ++ [i]) s' := by
  obtain ⟨hqueue, hexact⟩ := h.exact.of_pop hpop
  have hnodup := h.exact.nodup
  rw [hqueue, List.nodup_cons] at hnodup
  refine ⟨hexact, ?_, ?_, ?_, ?_⟩
  · rw [List.append_assoc, List.singleton_append, ← hqueue, h.order]
  · rw [hiterations, h.iterations, List.length_append, List.length_singleton]
  · rw [hcalls, h.calls, List.reverse_append, List.reverse_singleton, List.singleton_append,
      List.flatMap_cons]
  · intro j hj
    have hij : i ≠ j := fun hij => hnodup.1 (hij ▸ hj)
    rw [hvalues j hij]
    exact h.fresh j (hqueue ▸ List.mem_cons_of_mem i hj)

/-- A step leads on, if the successors of the next number are queued behind it. -/
theorem Follows.step (h : Follows p t order done s) {i : Fin t.size} {agenda : Agenda t.size}
    (hpop : s.agenda.pop? = some (i, agenda)) (hsuccs : ∀ j ∈ t.succs i, j ∈ agenda.queue)
    (hstep : Step p t s s') : Follows p t order (done ++ [i]) s' ∧ s'.agenda = agenda := by
  cases hstep with
  | @settled k agenda' hpop' heq =>
      obtain ⟨rfl, rfl⟩ : i = k ∧ agenda = agenda' := by simpa [hpop] using hpop'
      exact ⟨h.next hpop rfl rfl fun j _ => rfl, rfl⟩
  | @raised k agenda' hpop' hne hle =>
      obtain ⟨rfl, rfl⟩ : i = k ∧ agenda = agenda' := by simpa [hpop] using hpop'
      -- the successors are queued already
      have hpush : agenda.pushAll (t.succs i) = agenda :=
        Agenda.pushAll_of_forall_mem (h.exact.of_pop hpop).2 hsuccs
      rw [hpush]
      exact ⟨h.next hpop rfl rfl fun j hij => get_set_of_ne _ hij _, rfl⟩

variable [DecidableEq δ]

/-- In an order that lists successors later, a look at the agenda leads on as long as
something is queued. -/
theorem Follows.exists_advance (h : Follows p t order done s)
    (hbottom : ∀ d, p.domain.le p.domain.bottom d = true)
    (hlater : ∀ before i later, order = before ++ i :: later → ∀ j ∈ t.succs i, j ∈ later)
    {i : Fin t.size} {rest : List (Fin t.size)} (hqueue : s.agenda.queue = i :: rest) :
    ∃ s', s.advance p t .never = (.running, s') ∧ Follows p t order (done ++ [i]) s' ∧
      s'.agenda.queue = rest := by
  obtain ⟨agenda, hpop⟩ : ∃ agenda, s.agenda.pop? = some (i, agenda) := by
    simp [Agenda.pop?, hqueue]
  obtain rfl : agenda.queue = rest := by
    simpa [hqueue, eq_comm] using (h.exact.of_pop hpop).1
  have hsuccs : ∀ j ∈ t.succs i, j ∈ agenda.queue :=
    hlater done i agenda.queue (by rw [← hqueue, h.order])
  have hold : s.values.get i = p.domain.bottom := h.fresh i (by simp [hqueue])
  generalize hout : s.advance p t .never = out
  cases hout ▸ look_advance (s := s) with
  | cancelled hstop => exact absurd hstop Bool.false_ne_true
  | converged _ hnone => simp [hpop] at hnone
  | @running _ s' hstep =>
      obtain ⟨hfollows, rfl⟩ := h.step hpop hsuccs hstep
      exact ⟨s', rfl, hfollows, rfl⟩
  | @notMonotone _ k agenda' hpop' _ hle =>
      obtain ⟨rfl, -⟩ : i = k ∧ agenda = agenda' := by simpa [hpop] using hpop'
      -- every change of the bottom value is a rise
      rw [hold, hbottom] at hle
      cases hle

/-- **The run takes the rest of the order off the agenda**, and then converges. -/
theorem Follows.exists_run (h : Follows p t order done s)
    (hbottom : ∀ d, p.domain.le p.domain.bottom d = true)
    (hlater : ∀ before i later, order = before ++ i :: later → ∀ j ∈ t.succs i, j ∈ later) :
    ∃ r, Follows p t order order r ∧ s.run p t .never (s.agenda.queue.length + 1) =
      (.converged, { r with events := .converged r.iterations :: r.events }) := by
  induction hqueue : s.agenda.queue generalizing s done with
  | nil =>
      have hdone : done = order := by
        rw [← h.order, hqueue, List.append_nil]
      have hpop : s.agenda.pop? = none := Agenda.pop?_eq_none_iff.2 hqueue
      refine ⟨s, hdone ▸ h, ?_⟩
      simp [run, advance, Interrupt.never, hpop]
  | cons i rest ih =>
      obtain ⟨s', hadvance, hfollows, hrest⟩ := h.exists_advance hbottom hlater hqueue
      obtain ⟨r, hr, hrun⟩ := ih hfollows hrest
      refine ⟨r, hr, ?_⟩
      rw [List.length_cons, run, hadvance]
      exact hrun

end State

/-! ## Solving -/

namespace Topology

/-- Over a topology without cycles, solving takes every number once, in reverse post-order. -/
theorem exists_solve_follows [DecidableEq δ] {t : Topology ν} {p : Problem ν δ} {budget : Nat}
    (hacyclic : ∀ i, ∀ j ∈ t.succs i, ¬ PostOrder.Reaches t.succs j i)
    (hbottom : ∀ d, p.domain.le p.domain.bottom d = true) (hbudget : t.size < budget) :
    ∃ s, (t.solve p .reversePostOrder .never budget).outcome = .ok s ∧ s.iterations = t.size ∧
      (t.solve p .reversePostOrder .never budget).calls =
        (PostOrder.reversePostOrder t.succs).flatMap fun i => (t.callsAt i).reverse := by
  have hlater : ∀ before i later, PostOrder.reversePostOrder t.succs = before ++ i :: later →
      ∀ j ∈ t.succs i, j ∈ later := by
    intro before i later hsplit j hj
    have hsettled := PostOrder.settled_reversePostOrder t.succs
    rw [hsplit] at hsettled
    exact hsettled.mem_later hj (hacyclic i j hj)
  obtain ⟨r, hr, hrun⟩ := (State.follows_init p t).exists_run hbottom hlater
  rw [State.queue_init, PostOrder.length_reversePostOrder] at hrun
  have hlonger : (State.init p t .reversePostOrder).run p t .never budget =
      (.converged, { r with events := .converged r.iterations :: r.events }) := by
    rw [State.run_eq_of_le hbudget (by simp [hrun]), hrun]
  refine ⟨⟨t.entries r.values, r.iterations⟩, ?_, ?_, ?_⟩
  · rw [Topology.solve, hlonger]
  · exact hr.iterations.trans (PostOrder.length_reversePostOrder t.succs)
  · rw [Topology.solve, hlonger]
    simp only [hr.calls, List.reverse_flatMap, List.reverse_reverse]
    rfl

theorem Reads.leads_of_mem {t : Topology ν} {g : Graph ν κ} (h : t.Reads g) {i j : Fin t.size}
    (hj : j ∈ t.succs i) : g.Leads (t.node i) (t.node j) :=
  (h.mem_succs_iff (h.last_succs i j hj)).1 hj

theorem Reads.not_reaches {t : Topology ν} {g : Graph ν κ} (h : t.Reads g)
    (hacyclic : ∀ n ∈ g.nodes, ¬ Relation.TransGen g.Leads n n) {i j : Fin t.size}
    (hj : j ∈ t.succs i) : ¬ PostOrder.Reaches t.succs j i := by
  intro hback
  have hcycle : Relation.TransGen (fun u v => v ∈ t.succs u) i i := .head' hj hback
  exact hacyclic _ (h.node_mem i) (hcycle.lift t.node fun _ _ => h.leads_of_mem)

/-- The transfers of an evaluation are those along the edges into the node. -/
theorem Reads.reverse_callsAt {t : Topology ν} {g : Graph ν κ} (h : t.Reads g) (i : Fin t.size) :
    (t.callsAt i).reverse =
      ((g.preds (t.node i)).toOption.getD []).map fun m => (m, t.node i) := by
  simp [Topology.callsAt, h.preds i, Except.toOption]

end Topology

/-- **Without cycles, one pass suffices.**  In reverse post-order, solving over a graph whose
successors are acyclic ends with a solution after as many evaluations as there are nodes: the
nodes are evaluated one by one, each after those that lead to it.  The transfers can be any
functions, and of the values it only matters that the bottom one is below all others. -/
theorem Graph.solve_single_pass [DecidableEq ν] [DecidableEq δ] (g : Graph ν κ)
    (hnodup : g.nodes.Nodup) (hclosed : g.Closed)
    (hacyclic : ∀ n ∈ g.nodes, ¬ Relation.TransGen g.Leads n n) (p : Problem ν δ)
    (hbottom : ∀ d, p.domain.le p.domain.bottom d = true) (budget : Topology ν → Nat)
    (hbudget : ∀ t, t.size < budget t) :
    ∃ s, (g.solve p .reversePostOrder .never budget).outcome = .ok s ∧
      s.iterations = g.nodes.length ∧
      ∃ order : List ν, order.Perm g.nodes ∧ order.Pairwise (fun m n => ¬ g.Leads n m) ∧
        (g.solve p .reversePostOrder .never budget).calls =
          order.flatMap fun n => ((g.preds n).toOption.getD []).map fun m => (m, n) := by
  obtain ⟨t, hread⟩ := Topology.exists_read hclosed
  have hreads := Topology.reads_of_read hread
  have hacyclic' : ∀ i, ∀ j ∈ t.succs i, ¬ PostOrder.Reaches t.succs j i :=
    fun i j => hreads.not_reaches hacyclic
  obtain ⟨s, hok, hiterations, hcalls⟩ :=
    Topology.exists_solve_follows hacyclic' hbottom (hbudget t)
  rw [Graph.solve_of_read hread]
  refine ⟨s, hok, hiterations.trans hreads.size_eq,
    (PostOrder.reversePostOrder t.succs).map t.node, ?_, ?_, ?_⟩
  · rw [← hreads.nodes]
    exact (PostOrder.reversePostOrder_perm t.succs).map t.node
  · rw [List.pairwise_map]
    refine (PostOrder.pairwise_positions t.succs).imp ?_
    intro i j hij hleads
    have hi : i ∈ t.succs j := (hreads.mem_succs_iff (hreads.isLast_of_nodup hnodup i)).2 hleads
    exact absurd (PostOrder.positions_lt hi (hacyclic' j i hi)) (Nat.lt_asymm hij)
  · rw [hcalls, List.flatMap_map]
    exact congrArg (List.flatMap · _) (funext hreads.reverse_callsAt)

/-- A square, listed from its end.  The first node of its paths draws from the last one, which
does not lead to it. -/
def Table.square : Table Nat Empty where
  nodes := [4, 3, 2, 1]
  nodeCount := 4
  members := [1, 2, 3, 4]
  succs := [(1, [2, 3]), (2, [4]), (3, [4])]
  preds := [(4, [2, 3]), (3, [1]), (2, [1]), (1, [4])]
  badSuccs := []
  badPreds := []
  succCounts := []
  predCounts := []
  edges := none
  labels := []

theorem Table.acyclic_square (hclosed : Table.square.graph.Closed) :
    ∀ n ∈ Table.square.graph.nodes, ¬ Relation.TransGen Table.square.graph.Leads n n := by
  have hedge : ∀ a ∈ Table.square.graph.nodes, ∀ b ∈ Table.square.graph.nodes,
      Table.square.graph.Leads a b → a < b := by decide
  have hpath : ∀ {a b}, a ∈ Table.square.graph.nodes →
      Relation.TransGen Table.square.graph.Leads a b → b ∈ Table.square.graph.nodes ∧ a < b := by
    intro a b ha hab
    induction hab with
    | single hab =>
        have hb := hclosed.mem_of_leads ha hab
        exact ⟨hb, hedge _ ha _ hb hab⟩
    | tail _ hbc ih =>
        have hc := hclosed.mem_of_leads ih.1 hbc
        exact ⟨hc, ih.2.trans (hedge _ ih.1 _ hc hbc)⟩
  exact fun n hn hcycle => absurd (hpath hn hcycle).2 (Nat.lt_irrefl n)

/-- Flags are turned around along every edge. -/
theorem Graph.solve_single_pass_square :
    Table.square.graph.nodes.Nodup ∧ Table.square.graph.Closed ∧
      (∀ n ∈ Table.square.graph.nodes, ¬ Relation.TransGen Table.square.graph.Leads n n) ∧
      (∀ d, Domain.flag.le Domain.flag.bottom d = true) ∧
      ∃ s, (Table.square.graph.solve ⟨.flag, fun _ _ d => !d⟩ .reversePostOrder .never
          (·.budget 1)).outcome = .ok s ∧ s.iterations = 4 := by
  have hclosed : Table.square.graph.Closed := by
    obtain ⟨t, hread⟩ : ∃ t, Topology.read Table.square.graph = .ok t := ⟨_, rfl⟩
    exact (Topology.reads_of_read hread).closed
  have hbottom : ∀ d, Domain.flag.le Domain.flag.bottom d = true := by decide
  have hbudget : ∀ t : Topology Nat, t.size < t.budget 1 := by
    intro t
    rw [Topology.budget]
    omega
  obtain ⟨s, hok, hiterations, -⟩ := Graph.solve_single_pass Table.square.graph (by decide) hclosed
    (Table.acyclic_square hclosed) ⟨.flag, fun _ _ d => !d⟩ hbottom (·.budget 1) hbudget
  exact ⟨by decide, hclosed, Table.acyclic_square hclosed, hbottom, s, hok, hiterations⟩

end ProgramFlow
