import ProgramFlow.Proofs.Gates
import ProgramFlow.Proofs.PlainGraph

/-!
# Edges of a node to itself

`Gate.between` has no use for the gate of an edge from a node to itself: on that edge the
facts that the node produces are added, and nothing else happens.  Solving over the
reflexive layer therefore answers to every gate between different nodes, but a gate on an
edge from a node to itself is never asked.  It would only make a difference if it generated
something.  What it passes is part of the node's value anyway.

* `Gate.apply_subset_iff` — a gate adds to a set what it generates.
* `Graph.Arrives.of_between` — what the gates between different nodes bring arrives.
* `Adjacency.solve_absorbs_edges` — which edges of the graph below the reflexive layer a
  solution answers to.
-/

namespace ProgramFlow

variable {ν κ : Type}

/-- What comes out of a gate is in the set that went in, but for what the gate generates. -/
theorem Gate.apply_subset_iff {f : Gate} {s : BitSet} :
    (f.apply s).subset s = true ↔ ∀ i, f.Generates i → i ∈ s := by
  rw [BitSet.subset_iff]
  constructor
  · intro h i hgen
    exact h i (Gate.mem_apply.2 (Or.inl hgen))
  · intro h i hi
    rcases Gate.mem_apply.1 hi with hgen | ⟨-, hmem⟩
    · exact h i hgen
    · exact hmem

section Between

variable [DecidableEq ν] {g : Graph ν κ} {edge : ν → ν → Gate} {own : ν → Option BitSet} {i : Nat}

/-- What arrives at a node and is passed to another, or generated on the way, arrives there. -/
theorem Graph.Arrives.of_between {m n : ν} {before : BitSet} (hm : m ∈ g.nodes) (hmn : m ≠ n)
    (hedge : g.Leads m n) (hbefore : i ∈ before → g.Arrives (Gate.between edge own) i m)
    (hi : i ∈ (edge m n).apply before) : g.Arrives (Gate.between edge own) i n := by
  have hgate : Gate.between edge own m n = edge m n := if_neg hmn
  rcases Gate.mem_apply.1 hi with hgen | ⟨hpass, hi⟩
  · exact .generated hm hedge (hgate ▸ hgen)
  · exact .passed (hbefore hi) hedge (hgate ▸ hpass)

/-- What a node produces arrives at it, if it leads to itself. -/
theorem Graph.Arrives.of_own {n : ν} {facts : BitSet} (hn : n ∈ g.nodes) (hself : g.Leads n n)
    (hown : own n = some facts) (hi : i ∈ facts) : g.Arrives (Gate.between edge own) i n := by
  have hgate : Gate.between edge own n n = .union facts := by
    rw [Gate.between, if_pos rfl, hown]
  refine .generated hn hself ?_
  rw [hgate]
  exact BitSet.mem_join.2 (Or.inr hi)

end Between

/-- **A solution answers to the edges of the graph, unless an edge from a node to itself
generates something.**  Over the reflexive layer of a reachable store, what a gate makes of
the value of a node is part of the value of the next.  For an edge from a node to itself
this holds exactly if the node has everything that the gate generates.  The node has what it
produces. -/
theorem Adjacency.solve_absorbs_edges [DecidableEq ν] (g : Adjacency ν) (hg : g.Reachable)
    (w : Nat) (edge : ν → ν → Gate) (own : ν → Option BitSet) (strategy : Strategy) :
    ∃ s : Solution ν BitSet,
      (g.graph.reflexive.solveGates w (Gate.between edge own) strategy .never).outcome = .ok s ∧
      ∀ m n, g.graph.hasEdge m n = true → ∃ before after,
        s.value m = .ok before ∧ s.value n = .ok after ∧
        (m ≠ n → ((edge m n).apply before).subset after = true) ∧
        (m = n → (((edge m n).apply before).subset after = true ↔
          ∀ i, (edge m n).Generates i → i ∈ after)) ∧
        ∀ facts, own n = some facts → facts.subset after = true := by
  have hsound := hg.sound
  have hrefl := hsound.reflexive
  obtain ⟨s, hout, -, hvalues⟩ :=
    Graph.solveGates_arrives hrefl.closed hrefl.mirrored w (Gate.between edge own) strategy
  refine ⟨s, hout, fun m n hedge => ?_⟩
  obtain ⟨hm, hn⟩ := mem_of_hasEdge hedge
  obtain ⟨before, hbefore, harrive⟩ := hvalues m hm
  obtain ⟨after, hafter, harrive'⟩ := hvalues n hn
  have hleads : ∀ {a b : ν}, a ∈ g.graph.nodes → g.graph.Leads a b ∨ b = a →
      g.graph.reflexive.Leads a b :=
    fun ha => (Graph.leads_reflexive hsound.closed.succs ha).2
  refine ⟨before, after, hbefore, hafter, fun hmn => ?_, ?_, fun facts hown => ?_⟩
  · refine BitSet.subset_iff.2 fun i hi => (harrive' i).2 ?_
    exact .of_between hm hmn (hleads hm (Or.inl (hasEdge_iff.1 hedge))) (harrive i).1 hi
  · rintro rfl
    obtain rfl : before = after := Except.ok.inj (hbefore.symm.trans hafter)
    exact Gate.apply_subset_iff
  · refine BitSet.subset_iff.2 fun i hi => (harrive' i).2 ?_
    exact .of_own hn (hleads hn (Or.inr rfl)) hown hi

/-- Behind a node, its definition takes the place of what was there of it. -/
def Gate.defining (m _ : Nat) : Gate :=
  .killGen ⟨2, BitVec.twoPow 2 m⟩ ⟨2, BitVec.twoPow 2 m⟩

/-- Two nodes, the second with an edge to itself. -/
def Adjacency.loop : Adjacency Nat := .after [.connect 0 1, .connect 1 1]

theorem Adjacency.solve_absorbs_edges_loop :
    Adjacency.loop.Reachable ∧ Adjacency.loop.graph.hasEdge 0 1 = true ∧
      ∃ s : Solution Nat BitSet,
        (Adjacency.loop.graph.reflexive.solveGates 2 (Gate.between Gate.defining fun _ => none)
          .lifo .never).outcome = .ok s ∧
        ∃ before after, s.value 0 = .ok before ∧ s.value 1 = .ok after ∧
          ((Gate.defining 0 1).apply before).subset after = true := by
  have hreach : Adjacency.loop.Reachable := ⟨_, rfl⟩
  have hedge : Adjacency.loop.graph.hasEdge 0 1 = true := by decide
  obtain ⟨s, hout, hedges⟩ := Adjacency.solve_absorbs_edges Adjacency.loop hreach 2
    Gate.defining (fun _ => none) .lifo
  obtain ⟨before, after, hbefore, hafter, hother, -⟩ := hedges 0 1 hedge
  exact ⟨hreach, hedge, s, hout, before, after, hbefore, hafter, hother (by decide)⟩

/-- The definition at a node does not reach the node around its own loop. -/
theorem Adjacency.not_solve_absorbs_loop :
    Adjacency.loop.Reachable ∧ Adjacency.loop.graph.hasEdge 1 1 = true ∧
      ∃ s : Solution Nat BitSet,
        (Adjacency.loop.graph.reflexive.solveGates 2 (Gate.between Gate.defining fun _ => none)
          .fifo .never).outcome = .ok s ∧
        ∃ facts, s.value 1 = .ok facts ∧ ((Gate.defining 1 1).apply facts).subset facts = false := by
  refine ⟨⟨_, rfl⟩, by decide, ⟨[(0, ⟨2, 0#2⟩), (1, ⟨2, 1#2⟩)], 3⟩, by decide +kernel,
    ⟨2, 1#2⟩, by decide, by decide⟩

end ProgramFlow
