import ProgramFlow.Proofs.Equations

/-!
# Interrupted runs

A run asks before each evaluation whether it should stop, and before it finds that there is
nothing left to evaluate.  A run that is asked to stop after some number of transfers
therefore makes the same looks as the run that is never interrupted, up to the first look at
which that many transfers have been made.  There always is such a look if the whole run makes
that many transfers: should the last of them belong to the last evaluation, then it is the
look that would have found the agenda empty.

* `State.run_afterCalls_of_lt` — with fewer transfers than that, the runs are the same.
* `State.run_afterCalls_of_le` — otherwise the run is cancelled on the way.
* `Graph.solve_cancelled_after` — the same of solving, and errors of the graph come first.
-/

namespace ProgramFlow

variable {ν κ δ : Type} [DecidableEq δ]

namespace State

variable {p : Problem ν δ} {t : Topology ν} {interrupt : Interrupt ν} {s s' : State ν δ t.size}

/-! ## Looks -/

/-- Until it is asked to stop, a run looks at the agenda as if it never were. -/
theorem advance_of_quiet (h : interrupt s.calls = false) :
    s.advance p t interrupt = s.advance p t .never := by
  simp only [advance, h, Interrupt.never, Bool.false_eq_true, if_false]

theorem run_of_stop (h : interrupt s.calls = true) (budget : Nat) :
    s.run p t interrupt (budget + 1) =
      (.cancelled, { s with events := .cancelled s.iterations :: s.events }) := by
  rw [run, advance, if_pos h]

omit [DecidableEq δ] in
theorem Step.calls_suffix (h : Step p t s s') : s.calls <:+ s'.calls := by
  cases h with
  | settled hpop heq => exact List.suffix_append _ _
  | raised hpop hne hle => exact List.suffix_append _ _

theorem calls_suffix_advance : s.calls <:+ (s.advance p t interrupt).2.calls := by
  generalize hout : s.advance p t interrupt = out
  cases hout ▸ look_advance (s := s) with
  | cancelled _ => exact List.suffix_rfl
  | converged _ _ => exact List.suffix_rfl
  | running _ hstep => exact hstep.calls_suffix
  | notMonotone _ _ _ _ => exact List.suffix_append _ _

/-- A look that finds the agenda empty makes no transfer. -/
theorem calls_of_converged (h : (s.advance p t interrupt).1 = .converged) :
    (s.advance p t interrupt).2.calls = s.calls := by
  generalize hout : s.advance p t interrupt = out at h ⊢
  cases hout ▸ look_advance (s := s) with
  | cancelled _ => cases h
  | converged _ _ => rfl
  | running _ _ => cases h
  | notMonotone _ _ _ _ => cases h

/-! ## Runs -/

/-- The transfers of a run are added to those before it. -/
theorem calls_suffix_run (budget : Nat) : s.calls <:+ (s.run p t interrupt budget).2.calls := by
  fun_induction run p t interrupt budget s with
  | case1 s => exact List.suffix_rfl
  | case2 budget s s' hadv ih => exact (step_of_advance hadv).calls_suffix.trans ih
  | case3 budget s _ => exact calls_suffix_advance

theorem run_afterCalls_of_lt {k budget : Nat}
    (h : (s.run p t .never budget).2.calls.length < k) :
    s.run p t (.afterCalls k) budget = s.run p t .never budget := by
  fun_induction run p t .never budget s with
  | case1 s => rfl
  | case2 budget s s' hadv ih =>
      have hstep := (step_of_advance hadv).calls_suffix.length_le
      have hrest : s'.calls.length ≤ (s'.run p t .never budget).2.calls.length :=
        (calls_suffix_run budget).length_le
      have hquiet : Interrupt.afterCalls k s.calls = false := decide_eq_false (by omega)
      rw [run, advance_of_quiet hquiet, hadv]
      exact ih h
  | case3 budget s hended =>
      have hlook : s.calls.length ≤ (s.advance p t .never).2.calls.length :=
        calls_suffix_advance.length_le
      have hquiet : Interrupt.afterCalls k s.calls = false := decide_eq_false (by omega)
      rw [← advance_of_quiet hquiet] at hended ⊢
      exact run_succ_of_ended hended budget

/-- The induction follows the run that is not interrupted, as long as too few transfers have
been made.  It cannot converge before there are enough. -/
theorem run_afterCalls_of_le {k budget : Nat} (hend : (s.run p t .never budget).1 = .converged)
    (hk : k ≤ (s.run p t .never budget).2.calls.length) :
    (s.run p t (.afterCalls k) budget).1 = .cancelled ∧
      k ≤ (s.run p t (.afterCalls k) budget).2.calls.length ∧
      (s.run p t (.afterCalls k) budget).2.calls <:+ (s.run p t .never budget).2.calls := by
  fun_induction run p t .never budget s with
  | case1 s => cases hend
  | case2 budget s s' hadv ih =>
      by_cases hstop : k ≤ s.calls.length
      · rw [run_of_stop (decide_eq_true hstop)]
        exact ⟨rfl, hstop, (step_of_advance hadv).calls_suffix.trans (calls_suffix_run budget)⟩
      · have hquiet : Interrupt.afterCalls k s.calls = false := decide_eq_false hstop
        rw [run, advance_of_quiet hquiet, hadv]
        exact ih hend hk
  | case3 budget s _ =>
      -- the look that would have found the agenda empty comes too late
      have hstop : k ≤ s.calls.length := calls_of_converged hend ▸ hk
      rw [run_of_stop (decide_eq_true hstop)]
      exact ⟨rfl, hstop, calls_suffix_advance (s := s)⟩

end State

/-! ## Solving -/

variable [DecidableEq ν] {g : Graph ν κ} {p : Problem ν δ} {strategy : Strategy}
  {budget : Topology ν → Nat}

/-- The run behind a solution. -/
theorem Graph.exists_run_of_solve_eq_ok {s : Solution ν δ}
    (h : (g.solve p strategy .never budget).outcome = .ok s) :
    ∃ t, Topology.read g = .ok t ∧
      ((State.init p t strategy).run p t .never (budget t)).1 = .converged := by
  cases hread : Topology.read g with
  | error e =>
      rw [Graph.solve_of_unread hread] at h
      cases h
  | ok t =>
      refine ⟨t, rfl, ?_⟩
      rw [Graph.solve_of_read hread, Topology.solve] at h
      rcases hrun : (State.init p t strategy).run p t .never (budget t) with ⟨verdict, r⟩
      rw [hrun] at h
      cases verdict with
      | converged => rfl
      | running => cases h
      | cancelled => cases h
      | notMonotone i => cases h

/-- **A run that is to stop after some number of transfers is cancelled exactly if the whole
run makes that many.**  It is then cancelled even if these are all transfers of the whole run,
or if there are none, and the transfers it made are the first ones of the whole run.  With
fewer transfers the runs are the same in all they return and report.  A graph that cannot
be read gives the same error whether the run is to stop or not. -/
theorem Graph.solve_cancelled_after (g : Graph ν κ) (p : Problem ν δ) (strategy : Strategy)
    (budget : Topology ν → Nat) :
    (∀ s, (g.solve p strategy .never budget).outcome = .ok s → ∀ k,
      (k ≤ (g.solve p strategy .never budget).calls.length →
        (g.solve p strategy (.afterCalls k) budget).outcome = .error .cancelled ∧
          k ≤ (g.solve p strategy (.afterCalls k) budget).calls.length ∧
          (g.solve p strategy (.afterCalls k) budget).calls <+:
            (g.solve p strategy .never budget).calls) ∧
      ((g.solve p strategy .never budget).calls.length < k →
        g.solve p strategy (.afterCalls k) budget = g.solve p strategy .never budget)) ∧
    (¬ g.Closed → ∃ e, Topology.read g = .error e ∧
      ∀ interrupt, (g.solve p strategy interrupt budget).outcome = .error (.graph e)) := by
  refine ⟨fun s hok k => ?_, fun hclosed => ?_⟩
  · obtain ⟨t, hread, hend⟩ := Graph.exists_run_of_solve_eq_ok hok
    simp only [Graph.solve_of_read hread, Topology.solve, List.length_reverse,
      List.reverse_prefix]
    constructor
    · intro hk
      obtain ⟨hcancelled, hcalls, hfirst⟩ := State.run_afterCalls_of_le hend hk
      rw [hcancelled]
      exact ⟨rfl, hcalls, hfirst⟩
    · intro hk
      rw [State.run_afterCalls_of_lt hk]
  · obtain ⟨e, hread⟩ := Topology.exists_read_error hclosed
    exact ⟨e, hread, fun interrupt => by rw [Graph.solve_of_unread hread]⟩

/-- The third node is not listed, though others lead to it. -/
def Table.cut : Table Nat Empty := { Table.eager with nodes := [1, 2] }

/-- The whole run makes five transfers, of which the last two belong to its last evaluation. -/
theorem Graph.solve_cancelled_after_eager :
    (Table.eager.graph.solve Problem.turning .fifo .never (·.budget 2)).calls.length = 5 ∧
      (Table.eager.graph.solve Problem.turning .fifo (.afterCalls 5) (·.budget 2)).outcome =
        .error .cancelled ∧
      Table.eager.graph.solve Problem.turning .fifo (.afterCalls 6) (·.budget 2) =
        Table.eager.graph.solve Problem.turning .fifo .never (·.budget 2) ∧
      ¬ Table.cut.graph.Closed ∧
      ∃ e, Topology.read Table.cut.graph = .error e ∧ ∀ interrupt,
        (Table.cut.graph.solve Problem.turning .fifo interrupt (·.budget 2)).outcome =
          .error (.graph e) := by
  have hok : (Table.eager.graph.solve Problem.turning .fifo .never (·.budget 2)).outcome =
      .ok ⟨[(1, false), (2, true), (3, false)], 4⟩ := by decide
  have hcalls : (Table.eager.graph.solve Problem.turning .fifo .never
      (·.budget 2)).calls.length = 5 := by decide
  have hcut : ¬ Table.cut.graph.Closed :=
    Topology.not_closed_of_read (e := .invalidNode 3) rfl
  obtain ⟨hruns, -⟩ :=
    Graph.solve_cancelled_after Table.eager.graph Problem.turning .fifo (·.budget 2)
  obtain ⟨-, hunread⟩ :=
    Graph.solve_cancelled_after Table.cut.graph Problem.turning .fifo (·.budget 2)
  obtain ⟨hcancelled, -, -⟩ := (hruns _ hok 5).1 hcalls.ge
  exact ⟨hcalls, hcancelled, (hruns _ hok 6).2 (hcalls ▸ Nat.lt_succ_self 5), hcut, hunread hcut⟩

end ProgramFlow
