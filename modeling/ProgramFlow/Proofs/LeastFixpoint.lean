import Mathlib.Order.WellFounded
import ProgramFlow.Proofs.Adjacency
import ProgramFlow.Proofs.Equations

/-!
# Solving gives the least solution

For a lawful domain without endless ascent and a monotone problem, the solver
returns the least assignment that meets the equations, whatever the order in which
it visits nodes.  Two facts about every state of a run carry this: values stay below
every solution (`Topology.Reads.le_solution`), and they are a solution once nothing is
queued (`Topology.Reads.solves`).

* `Domain.Lawful`, `Domain.NoEndlessAscent`, `Problem.Monotone` — what is asked of the
  domain and of the transfers.
* `Problem.IsLeastSolution` — the least assignment that meets the equations.
* `Graph.exists_solve_below` — a run that ends tells a solution below all others, in any
  order that transfers respect.
* `Graph.solve_least_solution` — the solver returns it, in every order.
-/

namespace ProgramFlow

variable {ν κ δ : Type}

/-! ## Domains and problems -/

/-- Values are partially ordered, with a least one, and joins are least upper bounds. -/
structure Domain.Lawful (d : Domain δ) : Prop where
  le_refl : ∀ a, d.le a a = true
  le_trans : ∀ {a b c}, d.le a b = true → d.le b c = true → d.le a c = true
  le_antisymm : ∀ {a b}, d.le a b = true → d.le b a = true → a = b
  bottom_le : ∀ a, d.le d.bottom a = true
  le_join_left : ∀ a b, d.le a (d.join a b) = true
  le_join_right : ∀ a b, d.le b (d.join a b) = true
  join_le : ∀ {a b c}, d.le a c = true → d.le b c = true → d.le (d.join a b) c = true

/-- No sequence of values rises at every step. -/
def Domain.NoEndlessAscent (d : Domain δ) : Prop :=
  ¬ ∃ chain : Nat → δ, ∀ k, d.le (chain k) (chain (k + 1)) = true ∧ chain (k + 1) ≠ chain k

/-- Every transfer takes greater values to greater ones. -/
def Problem.Monotone (p : Problem ν δ) : Prop :=
  ∀ m n a b, p.domain.le a b = true → p.domain.le (p.transfer m n a) (p.transfer m n b) = true

/-- The assignment meets the equations and is below every other one that does. -/
def Problem.IsLeastSolution (p : Problem ν δ) (g : Graph ν κ) (V : ν → δ) : Prop :=
  p.Solves g V ∧ ∀ W, p.Solves g W → ∀ n ∈ g.nodes, p.domain.le (V n) (W n) = true

theorem Domain.Lawful.join_mono {d : Domain δ} (hd : d.Lawful) {a a' b b' : δ}
    (ha : d.le a a' = true) (hb : d.le b b' = true) : d.le (d.join a b) (d.join a' b') = true := by
  apply hd.join_le
  · exact hd.le_trans ha (hd.le_join_left a' b')
  · exact hd.le_trans hb (hd.le_join_right a' b')

theorem Domain.NoEndlessAscent.wellFounded {d : Domain δ} (h : d.NoEndlessAscent) :
    WellFounded fun new old : δ => d.le old new = true ∧ new ≠ old := by
  rw [wellFounded_iff_isEmpty_descending_chain]
  exact ⟨fun chain => h ⟨chain.1, chain.2⟩⟩

theorem Problem.Monotone.rising {p : Problem ν δ} (hp : p.Monotone) (hd : p.domain.Lawful) :
    p.Rising fun a b => p.domain.le a b = true where
  refl := hd.le_refl
  trans := hd.le_trans
  bottom := hd.bottom_le
  join := hd.join_mono
  transfer m n a b := hp m n a b
  le h := h

/-- There is one least solution. -/
theorem Problem.IsLeastSolution.eq_of_mem {p : Problem ν δ} {g : Graph ν κ} {V W : ν → δ}
    (hd : p.domain.Lawful) (hV : p.IsLeastSolution g V) (hW : p.IsLeastSolution g W) {n : ν}
    (hn : n ∈ g.nodes) : V n = W n :=
  hd.le_antisymm (hV.2 W hW.1 n hn) (hW.2 V hV.1 n hn)

/-! ## Runs below solutions -/

/-- The values of a run stay below every solution: the bottom value is below it, and
what values below a solution demand is below what the solution demands. -/
theorem Topology.Reads.le_solution {p : Problem ν δ} {below : δ → δ → Prop} {g : Graph ν κ}
    {t : Topology ν} {strategy : Strategy} {s : State ν δ t.size} (h : t.Reads g)
    (hp : p.Rising below) (hs : State.Reached p t strategy s) {W : ν → δ} (hW : p.Solves g W)
    (i : Fin t.size) : below (s.values.get i) (W (t.node i)) := by
  refine State.Reached.values (Q := fun i d => below d (W (t.node i))) ?_ ?_ hs i
  · intro i
    exact hp.bottom _
  · intro v hv i
    have hsol : ∀ j : Fin t.size, (Vector.ofFn fun k => W (t.node k)).get j = W (t.node j) :=
      fun j => Vector.getElem_ofFn j.isLt
    have hdemand := h.evaluate_eq_demand (p := p) (fun j _ => hsol j) i
    rw [hW _ (h.node_mem i), ← hdemand]
    exact hp.evaluate_mono (fun j => (hsol j).symm ▸ hv j) i

/-- A run of a monotone problem that ends tells a solution that is below all others. -/
theorem Graph.exists_solve_below [DecidableEq ν] [DecidableEq δ] {p : Problem ν δ}
    {g : Graph ν κ} {below : δ → δ → Prop} {strategy : Strategy} {budget : Topology ν → Nat}
    (hclosed : g.Closed) (hmirror : g.Mirrored) (hp : p.Rising below)
    (hend : ∀ t, Topology.read g = .ok t →
      ((State.init p t strategy).run p t .never (budget t)).1 ≠ .running) :
    ∃ (V : ν → δ) (s : Solution ν δ), p.Solves g V ∧
      (∀ W, p.Solves g W → ∀ n ∈ g.nodes, below (V n) (W n)) ∧
      (g.solve p strategy .never budget).outcome = .ok s ∧ s.Tells g.nodes V := by
  obtain ⟨t, s, ht, hs, hempty, hout⟩ := Graph.exists_converged hclosed hp hend
  have hreads := Topology.reads_of_read ht
  refine ⟨t.assignment s.values p.domain.bottom, _, ?_, fun W hW n hn => ?_, hout,
    hreads.tells p.domain.bottom s.iterations⟩
  · exact hreads.solves hmirror.notifies (State.Reached.settled hs) hempty _
  · obtain ⟨i, rfl, hi⟩ := hreads.exists_last hn
    rw [Topology.assignment_of_isLast hi]
    exact hreads.le_solution hp hs hW i

/-- With a budget that is large enough, the solver returns a least solution. -/
theorem Graph.exists_solve_eq_least [DecidableEq ν] [DecidableEq δ] {p : Problem ν δ}
    {g : Graph ν κ} (hnodup : g.nodes.Nodup) (hclosed : g.Closed) (hmirror : g.Mirrored)
    (hd : p.domain.Lawful) (hascent : p.domain.NoEndlessAscent) (hp : p.Monotone)
    (strategy : Strategy) :
    ∃ enough, ∀ budget : Topology ν → Nat, (∀ t, enough ≤ budget t) →
      ∃ (V : ν → δ) (s : Solution ν δ), p.IsLeastSolution g V ∧
        (g.solve p strategy .never budget).outcome = .ok s ∧
        s.entries = g.nodes.map (fun n => (n, V n)) ∧ ∀ n ∈ g.nodes, s.value n = .ok (V n) := by
  obtain ⟨t, ht⟩ := Topology.exists_read hclosed
  have hsome : ∃ enough, ∀ budget ≥ enough,
      ((State.init p t strategy).run p t .never budget).1 ≠ .running :=
    State.exists_enough hascent.wellFounded
  obtain ⟨enough, hsome⟩ := hsome
  refine ⟨enough, fun budget hbudget => ?_⟩
  have hend : ∀ t', Topology.read g = .ok t' →
      ((State.init p t' strategy).run p t' .never (budget t')).1 ≠ .running := by
    intro t' ht'
    obtain rfl : t = t' := Except.ok.inj (ht.symm.trans ht')
    exact hsome _ (hbudget t)
  obtain ⟨V, s, hV, hleast, hout, htells⟩ :=
    Graph.exists_solve_below hclosed hmirror (hp.rising hd) hend
  exact ⟨V, s, ⟨hV, hleast⟩, hout, htells.entries hnodup, htells.value⟩

/-! ## The main result -/

/-- **The solver returns the least solution.**  On a graph with distinct nodes whose
neighbours are listed and tell of each other, every order gives the same values.  No
budget fits all domains without endless ascent, but every one from some point on does. -/
theorem Graph.solve_least_solution [DecidableEq ν] [DecidableEq δ] (p : Problem ν δ)
    (g : Graph ν κ) (hnodup : g.nodes.Nodup) (hclosed : g.Closed) (hmirror : g.Mirrored)
    (hd : p.domain.Lawful) (hascent : p.domain.NoEndlessAscent) (hp : p.Monotone) :
    ∃ V : ν → δ, p.IsLeastSolution g V ∧
      ∀ strategy, ∃ enough, ∀ budget : Topology ν → Nat, (∀ t, enough ≤ budget t) →
        ∃ s : Solution ν δ, (g.solve p strategy .never budget).outcome = .ok s ∧
          s.entries = g.nodes.map (fun n => (n, V n)) ∧ ∀ n ∈ g.nodes, s.value n = .ok (V n) := by
  have hsolve := exists_solve_eq_least hnodup hclosed hmirror hd hascent hp
  obtain ⟨enough, hfirst⟩ := hsolve .fifo
  obtain ⟨V, -, hV, -⟩ := hfirst (fun _ => enough) (fun _ => Nat.le_refl _)
  refine ⟨V, hV, fun strategy => ?_⟩
  obtain ⟨enough, hrun⟩ := hsolve strategy
  refine ⟨enough, fun budget hbudget => ?_⟩
  obtain ⟨W, s, hW, hout, hentries, hvalue⟩ := hrun budget hbudget
  -- another order may find another least solution, but there is only one
  have heq : ∀ n ∈ g.nodes, W n = V n := fun n hn => hW.eq_of_mem hd hV hn
  refine ⟨s, hout, ?_, fun n hn => ?_⟩
  · rw [hentries]
    exact List.map_congr_left fun n hn => by rw [heq n hn]
  · rw [hvalue n hn, heq n hn]

theorem Domain.lawful_flag : Domain.flag.Lawful := by
  constructor <;> simp [Domain.flag, Lattice.flag]

theorem Domain.noEndlessAscent_flag : Domain.flag.NoEndlessAscent := by
  rintro ⟨chain, hchain⟩
  have hfirst := hchain 0
  have hsecond := hchain 1
  cases h0 : chain 0 <;> cases h1 : chain 1 <;> cases h2 : chain 2 <;>
    simp_all [Domain.flag, Lattice.flag]

/-- Flags that are set on the edge from a node to itself and kept elsewhere. -/
def Problem.selfFlag : Problem Nat Bool where
  domain := .flag
  transfer m n d := d || m == n

theorem Graph.solve_least_solution_knot :
    ∃ V : Nat → Bool, Problem.selfFlag.IsLeastSolution Adjacency.knot.graph V ∧
      ∀ strategy, ∃ enough, ∀ budget : Topology Nat → Nat, (∀ t, enough ≤ budget t) →
        ∃ s : Solution Nat Bool,
          (Adjacency.knot.graph.solve Problem.selfFlag strategy .never budget).outcome = .ok s ∧
            s.entries = Adjacency.knot.graph.nodes.map (fun n => (n, V n)) ∧
            ∀ n ∈ Adjacency.knot.graph.nodes, s.value n = .ok (V n) := by
  have hsound := Adjacency.sound_knot
  refine Graph.solve_least_solution Problem.selfFlag Adjacency.knot.graph hsound.nodup
    hsound.closed hsound.mirrored Domain.lawful_flag Domain.noEndlessAscent_flag ?_
  intro m n a b hab
  simp only [Problem.selfFlag, Domain.flag, Lattice.flag] at hab ⊢
  cases a <;> cases b <;> simp_all

end ProgramFlow
