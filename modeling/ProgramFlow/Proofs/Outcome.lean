import ProgramFlow.Proofs.Run
import ProgramFlow.Proofs.Topology

/-!
# How solving ends

Reading a graph and running over its topology can end in five ways.  Each of them
says something about the last state of the run, and most results about solving only
differ in which of the five they exclude.

* `Graph.Ends`, `Graph.ends_solve` — the outcomes with what they say about the run.
* `Graph.solve_ne_notMonotone` — a monotone problem never ends in an error of its own.
* `Graph.solve_of_unread` — a graph that cannot be read gives the same error whatever else is
  asked for.
* `Graph.solve_eq_of_le` — a budget beyond one that suffices changes nothing.
-/

namespace ProgramFlow

variable {ν κ δ : Type} [DecidableEq ν] [DecidableEq δ]

namespace Graph

/-- The outcomes of solving, and what the run was like that led to them. -/
inductive Ends (g : Graph ν κ) (p : Problem ν δ) (strategy : Strategy) (interrupt : Interrupt ν)
    (budget : Topology ν → Nat) : Except (SolveError ν) (Solution ν δ) → Prop where
  /-- There was no run, since the graph cannot be read. -/
  | unread {e : GraphError ν} (hread : Topology.read g = .error e) :
      Ends g p strategy interrupt budget (.error (.graph e))
  /-- Nothing was queued any more. -/
  | converged {t : Topology ν} (hread : Topology.read g = .ok t) {s : State ν δ t.size}
      (hs : State.Reached p t strategy s) (hempty : s.agenda.queue = []) :
      Ends g p strategy interrupt budget (.ok ⟨t.entries s.values, s.iterations⟩)
  /-- The run was interrupted. -/
  | cancelled {t : Topology ν} (hread : Topology.read g = .ok t) {s : State ν δ t.size}
      (hs : State.Reached p t strategy s) (hstop : interrupt s.calls = true) :
      Ends g p strategy interrupt budget (.error .cancelled)
  /-- The value of a node would have changed without rising. -/
  | notMonotone {t : Topology ν} (hread : Topology.read g = .ok t) {s : State ν δ t.size}
      (hs : State.Reached p t strategy s) {i : Fin t.size}
      (hle : p.domain.le (s.values.get i) (p.evaluate t s.values i) = false) :
      Ends g p strategy interrupt budget (.error (.notMonotone (t.node i)))
  /-- The budget did not suffice. -/
  | exhausted {t : Topology ν} (hread : Topology.read g = .ok t)
      (hrun : ((State.init p t strategy).run p t interrupt (budget t)).1 = .running) :
      Ends g p strategy interrupt budget (.error .exhausted)

variable {g : Graph ν κ} {p : Problem ν δ} {strategy : Strategy} {interrupt : Interrupt ν}
  {budget : Topology ν → Nat}

theorem ends_solve :
    g.Ends p strategy interrupt budget (g.solve p strategy interrupt budget).outcome := by
  unfold Graph.solve
  split
  · exact .unread ‹_›
  · rename_i t hread
    unfold Topology.solve
    dsimp only
    by_cases hrun : ((State.init p t strategy).run p t interrupt (budget t)).1 = .running
    · rw [hrun]
      exact .exhausted hread hrun
    · obtain ⟨s, hs, hlast⟩ := State.exists_reached_advance hrun
      rw [← hlast] at hrun ⊢
      generalize hout : s.advance p t interrupt = out at hrun ⊢
      cases hout ▸ State.look_advance (s := s) with
      | cancelled hstop => exact .cancelled hread hs hstop
      | converged _ hpop => exact .converged (s := s) hread hs (Agenda.pop?_eq_none_iff.1 hpop)
      | running _ _ => exact absurd rfl hrun
      | notMonotone _ hpop hne hle => exact .notMonotone hread hs hle

/-- A monotone problem has no change that is refused, whatever the graph is like. -/
theorem solve_ne_notMonotone {below : δ → δ → Prop} (hp : p.Rising below) (n : ν) :
    (g.solve p strategy interrupt budget).outcome ≠ .error (.notMonotone n) := by
  intro h
  cases h ▸ ends_solve (g := g) (p := p) with
  | @notMonotone t _ s hs i hle =>
      have hrise := hp.le (State.Reached.ascending hp hs i)
      rw [hle] at hrise
      cases hrise

/-- Without a topology there is no run to interrupt, and nothing to spend a budget on. -/
theorem solve_of_unread {e : GraphError ν} (hread : Topology.read g = .error e) :
    g.solve p strategy interrupt budget = ⟨.error (.graph e), [], []⟩ := by
  rw [Graph.solve, hread]

theorem solve_of_read {t : Topology ν} (hread : Topology.read g = .ok t) :
    g.solve p strategy interrupt budget = t.solve p strategy interrupt (budget t) := by
  rw [Graph.solve, hread]

/-- A budget beyond one that suffices changes nothing. -/
theorem solve_eq_of_le {budget' : Topology ν → Nat} (hle : ∀ t, budget t ≤ budget' t)
    (hend : ∀ t, Topology.read g = .ok t →
      ((State.init p t strategy).run p t interrupt (budget t)).1 ≠ .running) :
    g.solve p strategy interrupt budget' = g.solve p strategy interrupt budget := by
  cases hread : Topology.read g with
  | error e => rw [solve_of_unread hread, solve_of_unread hread]
  | ok t =>
      rw [solve_of_read hread, solve_of_read hread, Topology.solve, Topology.solve,
        State.run_eq_of_le (hle t) (hend t hread)]

end Graph

end ProgramFlow
