import ProgramFlow.Program.Escape
import ProgramFlow.Proofs.Gates
import ProgramFlow.Proofs.Histories

/-!
# The analysis of exceptions is exact

A type escapes from a method if a chain of calls, none of which catches it, leads to
a method that throws it.  In the flow of bits, throwing is generating the bit of the
type on the edge of a method to itself, and a call passes it unless it is caught there.
The self call of a method has no gate of its own: its edge is the one that what the
method throws enters by.  This loses nothing, since a chain can do without self calls.

* `CallGraph.LetsThrough` — a call that does not catch a type.
* `ExceptionFacts.generates_iff`, `ExceptionFacts.passes_iff` — the bit of a type at a gate.
* `CallGraph.arrives_iff` — a bit arrives where its type escapes.
* `CallGraph.escaping_exact` — the analysis reports the types that escape.
-/

namespace ProgramFlow

/-! ## Facts and bits -/

namespace ExceptionFacts

theorem mem_about {α : Type} [DecidableEq α] {facts : List (α × String)} {key : α} {e : String} :
    e ∈ about facts key ↔ (key, e) ∈ facts := by
  rw [about, Names.mem_ofList]
  constructor
  · intro h
    obtain ⟨⟨k, e'⟩, hfilter, rfl⟩ := List.mem_map.1 h
    obtain ⟨hfact, hkey⟩ := List.mem_filter.1 hfilter
    obtain rfl : k = key := of_decide_eq_true hkey
    exact hfact
  · intro h
    exact List.mem_map.2 ⟨(key, e), List.mem_filter.2 ⟨h, by simp⟩, rfl⟩

/-- Every type that is thrown is catalogued. -/
theorem exists_index?_of_thrownBy {f : ExceptionFacts} {n : MethodNode} {e : String}
    (h : e ∈ f.thrownBy n) : ∃ i, (Escape.catalog f).index? e = some i := by
  refine Catalog.exists_index?_ofList ?_
  rw [types, Names.mem_ofList]
  exact List.mem_append_left _ (List.mem_map_of_mem (f := Prod.snd) (mem_about.1 h))

section Bits

variable {f : ExceptionFacts} {c : Catalog String} {e : String} {i : Nat}

theorem not_generates_gate (callee caller : MethodNode) :
    ¬ (f.gate c callee caller).Generates i := by
  unfold gate
  dsimp only
  split <;> simp [Gate.Generates, Gate.apply]

/-- A call passes the bit of a type unless the type is caught there. -/
theorem passes_gate_iff (he : c.index? e = some i) {callee caller : MethodNode} :
    (f.gate c callee caller).Passes i ↔ e ∉ f.caughtAt caller callee := by
  have hbit : i ∈ c.toKnownBits (f.caughtAt caller callee) ↔ e ∈ f.caughtAt caller callee :=
    Catalog.mem_toKnownBits he
  unfold gate
  dsimp only
  split
  · rename_i hnone
    have hnot := mt hbit.2 (BitSet.isBottom_iff.1 hnone i)
    simp [Gate.Passes, Gate.apply, hnot]
  · have hlt := Catalog.lt_size_of_index? he
    simp [Gate.Passes, Gate.apply, hbit, hlt]

theorem generates_iff (he : c.index? e = some i) {m n : MethodNode} :
    (Gate.between (f.gate c) (f.own c) m n).Generates i ↔ m = n ∧ e ∈ f.thrownBy n := by
  have hbit : i ∈ c.toKnownBits (f.thrownBy n) ↔ e ∈ f.thrownBy n := Catalog.mem_toKnownBits he
  unfold Gate.between
  by_cases hmn : m = n
  · rw [if_pos hmn, own]
    by_cases hnone : (c.toKnownBits (f.thrownBy n)).isBottom = true
    · have hnot := mt hbit.2 (BitSet.isBottom_iff.1 hnone i)
      simp [hnone, Gate.Generates, Gate.apply, hnot]
    · simp [hnone, Gate.Generates, Gate.apply, hbit, hmn]
  · rw [if_neg hmn]
    exact ⟨fun h => absurd h (not_generates_gate m n), fun h => absurd h.1 hmn⟩

theorem passes_iff (he : c.index? e = some i) {m n : MethodNode} :
    (Gate.between (f.gate c) (f.own c) m n).Passes i ↔ m = n ∨ e ∉ f.caughtAt n m := by
  unfold Gate.between
  by_cases hmn : m = n
  · rw [if_pos hmn]
    cases f.own c n with
    | none => simp [Gate.Passes, Gate.apply, hmn]
    | some facts => simp [Gate.Passes, Gate.apply, hmn]
  · rw [if_neg hmn, passes_gate_iff he]
    exact ⟨Or.inr, fun h => h.resolve_left hmn⟩

end Bits

end ExceptionFacts

/-! ## Chains of calls -/

namespace CallGraph

/-- The caller calls the callee and does not catch the type there. -/
def LetsThrough (g : CallGraph) (f : ExceptionFacts) (e : String) (caller callee : MethodNode) :
    Prop :=
  g.graph.hasEdge caller callee = true ∧ e ∉ f.caughtAt caller callee

variable {g : CallGraph} {f : ExceptionFacts} {e : String} {i : Nat}

/-- The edges that facts flow along: to the callers, and from each method to itself. -/
theorem leads_flow_iff (hg : g.graph.Sound) {m n : MethodNode} (hm : m ∈ g.graph.nodes)
    (hn : n ∈ g.graph.nodes) :
    g.graph.transpose.reflexive.Leads m n ↔ g.graph.hasEdge n m = true ∨ n = m := by
  rw [Graph.leads_reflexive hg.transpose.closed.succs hm, hg.hasEdge_iff n hn m hm,
    hg.mirrored n hn m hm]
  exact Iff.rfl

/-- **A bit arrives at a method where its type escapes.** -/
theorem arrives_iff (hg : g.graph.Sound) {c : Catalog String} (he : c.index? e = some i)
    {n : MethodNode} (hn : n ∈ g.graph.nodes) :
    g.graph.transpose.reflexive.Arrives (Gate.between (f.gate c) (f.own c)) i n ↔
      ∃ m, Relation.ReflTransGen (g.LetsThrough f e) n m ∧ e ∈ f.thrownBy m := by
  have hclosed := hg.transpose.reflexive.closed
  constructor
  · intro h
    clear hn
    induction h with
    | @generated m n hm hedge hgen =>
        obtain ⟨-, hthrown⟩ := (ExceptionFacts.generates_iff he).1 hgen
        exact ⟨n, .refl, hthrown⟩
    | @passed m n hm hedge hpass ih =>
        have hmem := hm.mem_nodes hclosed
        obtain ⟨k, hchain, hthrown⟩ := ih
        rcases (ExceptionFacts.passes_iff he).1 hpass with rfl | hcaught
        · exact ⟨k, hchain, hthrown⟩
        · rcases (leads_flow_iff hg hmem (hclosed.mem_of_leads hmem hedge)).1 hedge with hcall | rfl
          · exact ⟨k, .head ⟨hcall, hcaught⟩ hchain, hthrown⟩
          · exact ⟨k, hchain, hthrown⟩
  · rintro ⟨m, hchain, hthrown⟩
    -- from the method that throws back to the one it escapes from
    induction hchain using Relation.ReflTransGen.head_induction_on with
    | refl =>
        exact .generated hn ((leads_flow_iff hg hn hn).2 (Or.inr rfl))
          ((ExceptionFacts.generates_iff he).2 ⟨rfl, hthrown⟩)
    | @head n k hcall _ ih =>
        obtain ⟨hedge, hcaught⟩ := hcall
        have hk : k ∈ g.graph.nodes :=
          hg.closed.mem_of_leads hn (Adjacency.hasEdge_iff.1 hedge)
        exact .passed (ih hk) ((leads_flow_iff hg hk hn).2 (Or.inl hedge))
          ((ExceptionFacts.passes_iff he).2 (Or.inr hcaught))

/-- **The analysis of exceptions is exact.**  On a reachable call graph it succeeds,
knows the methods of the graph and no others, and reports of each of them the types for
which some chain of calls that do not catch them leads to a method that throws them. -/
theorem escaping_exact (g : CallGraph) (hg : g.Reachable) (f : ExceptionFacts) :
    ∃ r, Escape.analyze g f .never = .ok r ∧
      ∀ n, (r.escaping n = .error (.unknownNode n) ↔ n ∉ g.graph.nodes) ∧
        (n ∈ g.graph.nodes → ∃ types, r.escaping n = .ok types ∧
          ∀ e, e ∈ types ↔
            ∃ m, Relation.ReflTransGen (g.LetsThrough f e) n m ∧ e ∈ f.thrownBy m) := by
  have hsound := hg.sound
  have hflow := hsound.transpose.reflexive
  obtain ⟨s, hout, hunknown, hvalues⟩ := Graph.solveGates_arrives hflow.closed hflow.mirrored
    (Escape.catalog f).size
    (Gate.between (f.gate (Escape.catalog f)) (f.own (Escape.catalog f))) .fifo
  have hanalyze : Escape.analyze g f .never = .ok ⟨Escape.catalog f, s⟩ := by
    rw [Escape.analyze, Escape.solve, Catalog.solve, hout]
    rfl
  refine ⟨_, hanalyze, fun n => ⟨⟨?_, ?_⟩, ?_⟩⟩
  · intro herror hn
    obtain ⟨facts, hfacts, -⟩ := hvalues n hn
    simp [EscapeReport.escaping, hfacts, Except.map] at herror
  · intro hn
    simp [EscapeReport.escaping, hunknown n hn, Except.map]
  · intro hn
    obtain ⟨facts, hfacts, hbits⟩ := hvalues n hn
    refine ⟨(Escape.catalog f).names facts, by simp [EscapeReport.escaping, hfacts, Except.map], ?_⟩
    intro e
    rw [Catalog.names, Names.mem_ofList, Catalog.mem_toValues]
    constructor
    · rintro ⟨i, hi, hmem⟩
      exact (arrives_iff hsound hi hn).1 ((hbits i).1 hmem)
    · rintro ⟨m, hchain, hthrown⟩
      obtain ⟨i, hi⟩ := ExceptionFacts.exists_index?_of_thrownBy hthrown
      exact ⟨i, hi, (hbits i).2 ((arrives_iff hsound hi hn).2 ⟨m, hchain, hthrown⟩)⟩

/-- Two methods that call each other, the second also itself. -/
def mutualCalls : CallGraph :=
  [Op.addMethod "even", .addMethod "odd", .addCall ⟨0⟩ ⟨1⟩, .addCall ⟨1⟩ ⟨0⟩,
    .addCall ⟨1⟩ ⟨1⟩].foldl perform empty

/-- The second throws two types; one of them is caught by the first, both by the second
where it calls itself. -/
def mutualFacts : ExceptionFacts where
  thrown := [(⟨1⟩, "A"), (⟨1⟩, "B")]
  caught := [((⟨0⟩, ⟨1⟩), "A"), ((⟨1⟩, ⟨1⟩), "A"), ((⟨1⟩, ⟨1⟩), "B")]

theorem escaping_exact_mutualCalls :
    mutualCalls.Reachable ∧
      ∃ r, Escape.analyze mutualCalls mutualFacts .never = .ok r ∧
        ∀ n, (r.escaping n = .error (.unknownNode n) ↔ n ∉ mutualCalls.graph.nodes) ∧
          (n ∈ mutualCalls.graph.nodes → ∃ types, r.escaping n = .ok types ∧
            ∀ e, e ∈ types ↔
              ∃ m, Relation.ReflTransGen (mutualCalls.LetsThrough mutualFacts e) n m ∧
                e ∈ mutualFacts.thrownBy m) :=
  ⟨⟨_, rfl⟩, escaping_exact mutualCalls ⟨_, rfl⟩ mutualFacts⟩

end CallGraph

end ProgramFlow
