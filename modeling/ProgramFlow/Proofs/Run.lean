import Mathlib.Algebra.BigOperators.Fin
import Mathlib.Algebra.Order.BigOperators.Group.Finset
import Mathlib.Data.DFinsupp.WellFounded
import Mathlib.Logic.Relation
import ProgramFlow.Fixpoint.Solve
import ProgramFlow.Proofs.Agenda

/-!
# Runs of the solver

A look at the agenda that does not end the run is a *step*, and there are two
kinds of it: a node is found settled, or its value is raised and its successors
are queued.  Everything a run keeps is proved of a step first, and then of every
state that steps reach from the first one.

* `State.Step` — what a look that does not end the run does; `State.look_advance` adds how
  a look ends a run.
* `State.Reached` — the states of a run; `State.exists_reached_advance` says that
  a run which ends does so with a look at one of them, `State.run_eq_of_le` that it
  is not changed by a larger budget, and `State.exists_values_between` that values only
  change by steps.
* `State.Reached.settled` — the queueing invariant: a node that is told about
  changes of its predecessors, and is not queued, has the value they demand.
* `Problem.Rising`, `State.Reached.ascending` — in a monotone problem every value
  is below what its predecessors demand, so that no look ends in an error.
* `State.run_ends_of_rank`, `State.exists_enough` — runs end: within a computed
  budget where values have ranks, within some budget where they cannot rise forever.
-/

namespace ProgramFlow

variable {ν δ : Type}

/-! ## Evaluations -/

/-- An evaluation looks at the predecessors only. -/
theorem Problem.evaluate_congr (p : Problem ν δ) {t : Topology ν} {v w : Vector δ t.size}
    {i : Fin t.size} (h : ∀ j ∈ t.preds i, v.get j = w.get j) :
    p.evaluate t v i = p.evaluate t w i := by
  unfold Problem.evaluate
  refine List.foldl_ext _ _ _ ?_
  intro acc j hj
  rw [h j hj]

theorem Problem.evaluate_set_of_not_mem (p : Problem ν δ) {t : Topology ν} {v : Vector δ t.size}
    {i k : Fin t.size} {d : δ} (h : k ∉ t.preds i) :
    p.evaluate t (v.set k d k.isLt) i = p.evaluate t v i := by
  refine p.evaluate_congr fun j hj => ?_
  have hkj : k ≠ j := fun hkj => h (hkj ▸ hj)
  exact get_set_of_ne v hkj d

/-- Whatever holds of the bottom value and is kept by joining what arrives holds of
what a node is given. -/
theorem Problem.evaluate_induction (p : Problem ν δ) {t : Topology ν} {v : Vector δ t.size}
    {i : Fin t.size} {P : δ → Prop} (hbot : P p.domain.bottom)
    (hjoin : ∀ acc, P acc → ∀ j ∈ t.preds i,
      P (p.domain.join acc (p.transfer (t.node j) (t.node i) (v.get j)))) :
    P (p.evaluate t v i) :=
  List.foldlRecOn _ _ hbot fun acc hacc j hj => hjoin acc hacc j hj

namespace State

/-! ## Steps -/

/-- What a look at the agenda does that does not end the run. -/
inductive Step (p : Problem ν δ) (t : Topology ν) (s : State ν δ t.size) :
    State ν δ t.size → Prop where
  /-- The next node has the value that its predecessors demand. -/
  | settled {i : Fin t.size} {agenda : Agenda t.size} (hpop : s.agenda.pop? = some (i, agenda))
      (heq : p.evaluate t s.values i = s.values.get i) :
      Step p t s { s with
        agenda
        iterations := s.iterations + 1
        calls := t.callsAt i ++ s.calls }
  /-- Its value rises, and its successors are queued. -/
  | raised {i : Fin t.size} {agenda : Agenda t.size} (hpop : s.agenda.pop? = some (i, agenda))
      (hne : p.evaluate t s.values i ≠ s.values.get i)
      (hle : p.domain.le (s.values.get i) (p.evaluate t s.values i) = true) :
      Step p t s {
        values := s.values.set i (p.evaluate t s.values i) i.isLt
        agenda := agenda.pushAll (t.succs i)
        iterations := s.iterations + 1
        calls := t.callsAt i ++ s.calls
        events := .raised (t.node i) (s.values.get i) (p.evaluate t s.values i) :: s.events }

/-- What a look at the agenda finds, and the state it leaves. -/
inductive Look (p : Problem ν δ) (t : Topology ν) (interrupt : Interrupt ν)
    (s : State ν δ t.size) : Verdict t.size × State ν δ t.size → Prop where
  | cancelled (hstop : interrupt s.calls = true) :
      Look p t interrupt s (.cancelled, { s with events := .cancelled s.iterations :: s.events })
  | converged (hgo : interrupt s.calls = false) (hpop : s.agenda.pop? = none) :
      Look p t interrupt s (.converged, { s with events := .converged s.iterations :: s.events })
  | running (hgo : interrupt s.calls = false) {s' : State ν δ t.size} (hstep : Step p t s s') :
      Look p t interrupt s (.running, s')
  | notMonotone (hgo : interrupt s.calls = false) {i : Fin t.size} {agenda : Agenda t.size}
      (hpop : s.agenda.pop? = some (i, agenda)) (hne : p.evaluate t s.values i ≠ s.values.get i)
      (hle : p.domain.le (s.values.get i) (p.evaluate t s.values i) = false) :
      Look p t interrupt s (.notMonotone i, { s with
        agenda
        iterations := s.iterations + 1
        calls := t.callsAt i ++ s.calls })

/-- The states that steps lead to from the first one. -/
abbrev Reached (p : Problem ν δ) (t : Topology ν) (strategy : Strategy) :
    State ν δ t.size → Prop :=
  Relation.ReflTransGen (Step p t) (init p t strategy)

section Looks

variable [DecidableEq δ] {p : Problem ν δ} {t : Topology ν} {interrupt : Interrupt ν}
  {s s' : State ν δ t.size}

theorem look_advance : Look p t interrupt s (s.advance p t interrupt) := by
  unfold advance
  split
  · exact .cancelled ‹_›
  · rename_i hstop
    have hgo := Bool.eq_false_iff.2 hstop
    split
    · exact .converged hgo ‹_›
    · rename_i i agenda hpop
      unfold evaluate
      dsimp only
      split
      · exact .running hgo (.settled hpop ‹_›)
      · rename_i hne
        split
        · exact .running hgo (.raised hpop hne ‹_›)
        · rename_i hle
          exact .notMonotone hgo hpop hne (Bool.eq_false_iff.2 hle)

theorem step_of_advance (h : s.advance p t interrupt = (.running, s')) : Step p t s s' := by
  cases h ▸ look_advance (s := s) with
  | running _ hstep => exact hstep

/-! ## Runs -/

/-- A look that ends the run ends it with any budget. -/
theorem run_succ_of_ended (h : ∀ r, s.advance p t interrupt ≠ (.running, r)) (budget : Nat) :
    s.run p t interrupt (budget + 1) = s.advance p t interrupt := by
  rw [run]
  split
  · rename_i r hadv
    exact absurd hadv (h r)
  · rfl

/-- A run that ends does so with a look at a state that steps lead to. -/
theorem exists_reached_advance {budget : Nat} (h : (s.run p t interrupt budget).1 ≠ .running) :
    ∃ r, Relation.ReflTransGen (Step p t) s r ∧
      r.advance p t interrupt = s.run p t interrupt budget := by
  fun_induction run p t interrupt budget s with
  | case1 s => exact absurd rfl h
  | case2 budget s s' hadv ih =>
      obtain ⟨r, hr, hlast⟩ := ih h
      exact ⟨r, .head (step_of_advance hadv) hr, hlast⟩
  | case3 budget s _ => exact ⟨s, .refl, rfl⟩

/-- A run that has not ended goes on where its budget left it. -/
theorem run_add_of_running {k : Nat} (h : s.run p t interrupt k = (.running, s')) (l : Nat) :
    s.run p t interrupt (k + l) = s'.run p t interrupt l := by
  fun_induction run p t interrupt k s with
  | case1 s =>
      obtain rfl : s = s' := congrArg Prod.snd h
      rw [Nat.zero_add]
  | case2 k s r hadv ih =>
      rw [Nat.succ_add, run, hadv]
      exact ih h
  | case3 k s hended => exact (hended _ h).elim

/-- Once a run has ended, a larger budget changes nothing. -/
theorem run_eq_of_le {k l : Nat} (hkl : k ≤ l) (h : (s.run p t interrupt k).1 ≠ .running) :
    s.run p t interrupt l = s.run p t interrupt k := by
  fun_induction run p t interrupt k s generalizing l with
  | case1 s => exact absurd rfl h
  | case2 k s s' hadv ih =>
      obtain ⟨m, rfl⟩ := Nat.exists_eq_add_of_le hkl
      rw [Nat.succ_add, run, hadv]
      exact ih (Nat.le_add_right k m) h
  | case3 k s hended =>
      obtain ⟨m, rfl⟩ := Nat.exists_eq_add_of_le hkl
      rw [Nat.succ_add]
      exact run_succ_of_ended hended (k + m)

theorem steps_of_run {k : Nat} (h : s.run p t interrupt k = (.running, s')) :
    Relation.ReflTransGen (Step p t) s s' := by
  fun_induction run p t interrupt k s with
  | case1 s =>
      obtain rfl : s = s' := congrArg Prod.snd h
      exact .refl
  | case2 k s r hadv ih => exact .head (step_of_advance hadv) (ih h)
  | case3 k s hended => exact (hended _ h).elim

/-- The values after any number of looks are those of a state that steps lead to. -/
theorem exists_values_run (p : Problem ν δ) (interrupt : Interrupt ν) (s : State ν δ t.size)
    (k : Nat) :
    ∃ r, Relation.ReflTransGen (Step p t) s r ∧ (s.run p t interrupt k).2.values = r.values := by
  by_cases hrun : (s.run p t interrupt k).1 = .running
  · exact ⟨_, steps_of_run (Prod.ext hrun rfl), rfl⟩
  · obtain ⟨r, hr, hlast⟩ := exists_reached_advance hrun
    refine ⟨r, hr, ?_⟩
    rw [← hlast] at hrun ⊢
    generalize hout : r.advance p t interrupt = out at hrun ⊢
    -- a look that ends the run leaves the values alone
    cases hout ▸ look_advance (s := r) with
    | cancelled _ => rfl
    | converged _ _ => rfl
    | running _ _ => exact absurd rfl hrun
    | notMonotone _ _ _ _ => rfl

/-- Between some looks and more of them, the values change as they do by steps. -/
theorem exists_values_between (p : Problem ν δ) (interrupt : Interrupt ν) (s : State ν δ t.size)
    {k l : Nat} (hkl : k ≤ l) :
    ∃ r r', Relation.ReflTransGen (Step p t) s r ∧ Relation.ReflTransGen (Step p t) r r' ∧
      (s.run p t interrupt k).2.values = r.values ∧
      (s.run p t interrupt l).2.values = r'.values := by
  by_cases hrun : (s.run p t interrupt k).1 = .running
  · have hmid : s.run p t interrupt k = (.running, (s.run p t interrupt k).2) := Prod.ext hrun rfl
    obtain ⟨m, rfl⟩ := Nat.exists_eq_add_of_le hkl
    obtain ⟨r', hr', hvalues⟩ := exists_values_run p interrupt (s.run p t interrupt k).2 m
    exact ⟨_, r', steps_of_run hmid, hr', rfl, by rw [run_add_of_running hmid, hvalues]⟩
  · obtain ⟨r, hr, hvalues⟩ := exists_values_run p interrupt s k
    exact ⟨r, r, hr, .refl, hvalues, by rw [run_eq_of_le hkl hrun, hvalues]⟩

/-- A run ends within any budget that exceeds a measure which every step lowers. -/
theorem run_ends_of_measure {budget : Nat} {μ : State ν δ t.size → Nat}
    (hμ : ∀ r r', Relation.ReflTransGen (Step p t) s r → Step p t r r' → μ r' < μ r)
    (h : μ s < budget) : (s.run p t interrupt budget).1 ≠ .running := by
  fun_induction run p t interrupt budget s with
  | case1 s => omega
  | case2 budget s s' hadv ih =>
      have hstep := step_of_advance hadv
      have hlt := hμ s s' .refl hstep
      exact ih (fun r r' hr => hμ r r' (.head hstep hr)) (by omega)
  | case3 budget s hended => exact fun hrun => hended _ (Prod.ext hrun rfl)

/-- Where steps go down in a well-founded relation, a run ends within every budget
that is large enough. -/
theorem run_ends_of_wellFounded {R : State ν δ t.size → State ν δ t.size → Prop}
    (hR : WellFounded R)
    (hstep : ∀ r r', Relation.ReflTransGen (Step p t) s r → Step p t r r' → R r' r) :
    ∃ enough, ∀ budget ≥ enough, (s.run p t interrupt budget).1 ≠ .running := by
  induction s using hR.induction with
  | _ s ih =>
      rcases hadv : s.advance p t interrupt with ⟨verdict, s'⟩
      cases verdict with
      | running =>
          have hs := step_of_advance hadv
          obtain ⟨enough, hend⟩ :=
            ih s' (hstep s s' .refl hs) fun r r' hr => hstep r r' (.head hs hr)
          refine ⟨enough + 1, ?_⟩
          rintro (_ | budget) hb
          · omega
          · rw [run, hadv]
            exact hend budget (by omega)
      | _ =>
          refine ⟨1, ?_⟩
          rintro (_ | budget) hb
          · omega
          · rw [run, hadv]
            simp

end Looks

/-! ## What steps keep -/

section Invariants

variable {p : Problem ν δ} {t : Topology ν} {s s' : State ν δ t.size} {strategy : Strategy}

theorem exact_init : (init p t strategy).agenda.Exact :=
  (Agenda.exact_empty _).pushAll _

theorem mem_queue_init (i : Fin t.size) : i ∈ (init p t strategy).agenda.queue :=
  (Agenda.mem_pushAll (Agenda.exact_empty _)).2 (Or.inr (List.mem_finRange i))

/-- Every node has the bottom value at first. -/
theorem get_values_init (i : Fin t.size) : (init p t strategy).values.get i = p.domain.bottom :=
  Vector.getElem_replicate i.isLt

theorem Step.exact (h : Step p t s s') (hs : s.agenda.Exact) : s'.agenda.Exact := by
  cases h with
  | settled hpop heq => exact (hs.of_pop hpop).2
  | raised hpop hne hle => exact (hs.of_pop hpop).2.pushAll _

theorem Reached.exact (h : Reached p t strategy s) : s.agenda.Exact := by
  induction h with
  | refl => exact exact_init
  | tail _ hstep ih => exact hstep.exact ih

/-- Every node that is told about the changes of its predecessors, and is not
queued, has the value that they demand. -/
def Settled (p : Problem ν δ) (t : Topology ν) (s : State ν δ t.size) : Prop :=
  ∀ i, (∀ j ∈ t.preds i, i ∈ t.succs j) → i ∉ s.agenda.queue →
    s.values.get i = p.evaluate t s.values i

theorem Step.settles (h : Step p t s s') (hs : s.agenda.Exact) (hsettled : Settled p t s) :
    Settled p t s' := by
  intro i htold hi
  cases h with
  | @settled k agenda hpop heq =>
      obtain ⟨hqueue, -⟩ := hs.of_pop hpop
      by_cases hik : i = k
      · rw [hik]
        exact heq.symm
      · exact hsettled i htold (by simp [hqueue, hik, show i ∉ agenda.queue from hi])
  | @raised k agenda hpop hne hle =>
      obtain ⟨hqueue, hexact⟩ := hs.of_pop hpop
      obtain ⟨hagenda, hsucc⟩ := not_or.1 (mt (Agenda.mem_pushAll hexact).2 hi)
      -- the raised node is no predecessor of `i`, or `i` would have been queued again
      have hpred : k ∉ t.preds i := fun hk => hsucc (htold k hk)
      show (s.values.set k _).get i = p.evaluate t (s.values.set k _) i
      rw [p.evaluate_set_of_not_mem hpred]
      by_cases hik : i = k
      · subst hik
        rw [get_set_self]
      · rw [get_set_of_ne _ (Ne.symm hik)]
        exact hsettled i htold (by simp [hqueue, hik, hagenda])

theorem Reached.settled (h : Reached p t strategy s) : Settled p t s := by
  induction h with
  | refl => exact fun i _ hi => absurd (mem_queue_init i) hi
  | tail hr hstep ih => exact hstep.settles (Reached.exact hr) ih

/-- What every evaluation establishes from the values before it, and the bottom
value has, all values have. -/
theorem Reached.values {Q : Fin t.size → δ → Prop} (hbot : ∀ i, Q i p.domain.bottom)
    (heval : ∀ v : Vector δ t.size, (∀ j : Fin t.size, Q j (v.get j)) → ∀ i, Q i (p.evaluate t v i))
    (h : Reached p t strategy s) : ∀ i : Fin t.size, Q i (s.values.get i) := by
  induction h with
  | refl =>
      intro i
      rw [get_values_init]
      exact hbot i
  | @tail r r' _ hstep ih =>
      cases hstep with
      | settled hpop heq => exact ih
      | @raised k agenda hpop hne hle =>
          intro i
          show Q i ((r.values.set k _ k.isLt).get i)
          rw [get_set]
          split
          · rename_i hki
            exact hki ▸ heval _ ih k
          · exact ih i

end Invariants

end State

/-! ## Monotone problems -/

/-- A relation between values that joins and transfers respect, with the bottom value
below all others, and finer than the order that runs compare by. -/
structure Problem.Rising (p : Problem ν δ) (below : δ → δ → Prop) : Prop where
  refl : ∀ a, below a a
  trans : ∀ {a b c}, below a b → below b c → below a c
  bottom : ∀ a, below p.domain.bottom a
  join : ∀ {a a' b b'}, below a a' → below b b' → below (p.domain.join a b) (p.domain.join a' b')
  transfer : ∀ m n {a b}, below a b → below (p.transfer m n a) (p.transfer m n b)
  le : ∀ {a b}, below a b → p.domain.le a b = true

namespace Problem.Rising

variable {p : Problem ν δ} {below : δ → δ → Prop} {t : Topology ν}

/-- Greater values demand greater values. -/
theorem evaluate_mono (hp : p.Rising below) {v w : Vector δ t.size}
    (h : ∀ j : Fin t.size, below (v.get j) (w.get j)) (i : Fin t.size) :
    below (p.evaluate t v i) (p.evaluate t w i) := by
  unfold Problem.evaluate
  suffices hfold : ∀ (js : List (Fin t.size)) (a b : δ), below a b →
      below
        (js.foldl (fun acc j => p.domain.join acc (p.transfer (t.node j) (t.node i) (v.get j))) a)
        (js.foldl (fun acc j => p.domain.join acc (p.transfer (t.node j) (t.node i) (w.get j))) b)
      from hfold _ _ _ (hp.refl _)
  intro js
  induction js with
  | nil => exact fun a b hab => hab
  | cons j js ih =>
      intro a b hab
      exact ih _ _ (hp.join hab (hp.transfer _ _ (h j)))

end Problem.Rising

namespace State

section Ascent

variable {p : Problem ν δ} {below : δ → δ → Prop} {t : Topology ν} {s s' : State ν δ t.size}
  {strategy : Strategy}

/-- Every value is below the one that its predecessors demand. -/
def Ascending (p : Problem ν δ) (below : δ → δ → Prop) (t : Topology ν) (s : State ν δ t.size) :
    Prop :=
  ∀ i : Fin t.size, below (s.values.get i) (p.evaluate t s.values i)

/-- No step lowers a value. -/
theorem Step.rises (h : Step p t s s') (hp : p.Rising below) (hs : Ascending p below t s)
    (i : Fin t.size) : below (s.values.get i) (s'.values.get i) := by
  cases h with
  | settled hpop heq => exact hp.refl _
  | @raised k agenda hpop hne hle =>
      show below (s.values.get i) ((s.values.set k _ k.isLt).get i)
      rw [get_set]
      split
      · rename_i hki
        exact hki ▸ hs k
      · exact hp.refl _

theorem Step.ascends (h : Step p t s s') (hp : p.Rising below) (hs : Ascending p below t s) :
    Ascending p below t s' := by
  have hrise := h.rises hp hs
  cases h with
  | settled hpop heq => exact hs
  | @raised k agenda hpop hne hle =>
      intro i
      have hdemand := hp.evaluate_mono hrise i
      show below ((s.values.set k _).get i) (p.evaluate t (s.values.set k _) i)
      rw [get_set]
      split
      · rename_i hki
        subst hki
        exact hdemand
      · exact hp.trans (hs i) hdemand

theorem Reached.ascending (hp : p.Rising below) (h : Reached p t strategy s) :
    Ascending p below t s := by
  induction h with
  | refl =>
      intro i
      rw [get_values_init]
      exact hp.bottom _
  | tail _ hstep ih => exact hstep.ascends hp ih

end Ascent

/-! ## Runs end -/

section Ending

variable {p : Problem ν δ} {t : Topology ν} {strategy : Strategy}

/-- How much a run can still do: the queued nodes, and for each node its successors as
often as its value can still rise. -/
def potential (t : Topology ν) (rank : δ → Nat) (height : Nat) (s : State ν δ t.size) : Nat :=
  s.agenda.queue.length + ∑ i : Fin t.size, (height - rank (s.values.get i)) * (t.succs i).length

theorem potential_init_lt_budget (rank : δ → Nat) (height : Nat) :
    potential t rank height (init p t strategy) < t.budget height := by
  have hqueue : (init p t strategy).agenda.queue.length ≤ t.size := by
    have hpush := Agenda.length_pushAll_le (Agenda.exact_empty (strategy.discipline t.succs))
      (List.finRange t.size)
    rw [List.length_finRange, show (Agenda.empty _).queue.length = 0 from rfl,
      Nat.zero_add] at hpush
    exact hpush
  have hsum : ∑ i : Fin t.size,
      (height - rank ((init p t strategy).values.get i)) * (t.succs i).length
      ≤ height * t.edgeCount := by
    rw [Topology.edgeCount, List.length_flatMap, ← Fin.sum_univ_def, Finset.mul_sum]
    exact Finset.sum_le_sum fun i _ => Nat.mul_le_mul_right _ (Nat.sub_le _ _)
  unfold potential Topology.budget
  omega

/-- Raising one value lowers the sum by the number of its successors. -/
theorem sum_set_add_le {rank : δ → Nat} {height : Nat} {v : Vector δ t.size} {k : Fin t.size}
    {d : δ} (hlt : rank (v.get k) < rank d) (hle : rank d ≤ height) :
    (∑ i : Fin t.size, (height - rank ((v.set k d k.isLt).get i)) * (t.succs i).length) +
        (t.succs k).length ≤
      ∑ i : Fin t.size, (height - rank (v.get i)) * (t.succs i).length := by
  rw [← Finset.add_sum_erase _ _ (Finset.mem_univ k),
    ← Finset.add_sum_erase _ _ (Finset.mem_univ k)]
  have hrest : ∑ i ∈ Finset.univ.erase k,
      (height - rank ((v.set k d k.isLt).get i)) * (t.succs i).length =
      ∑ i ∈ Finset.univ.erase k, (height - rank (v.get i)) * (t.succs i).length := by
    refine Finset.sum_congr rfl fun i hi => ?_
    rw [get_set_of_ne v (Finset.ne_of_mem_erase hi).symm]
  have hone : (height - rank d) * (t.succs k).length + (t.succs k).length ≤
      (height - rank (v.get k)) * (t.succs k).length := by
    rw [← Nat.succ_mul]
    exact Nat.mul_le_mul_right _ (by omega)
  rw [hrest, get_set_self]
  omega

theorem Step.potential_lt {rank : δ → Nat} {height : Nat} {s s' : State ν δ t.size}
    (h : Step p t s s') (hs : s.agenda.Exact)
    (hrank : ∀ i : Fin t.size, p.evaluate t s.values i ≠ s.values.get i →
      p.domain.le (s.values.get i) (p.evaluate t s.values i) = true →
        rank (s.values.get i) < rank (p.evaluate t s.values i) ∧
          rank (p.evaluate t s.values i) ≤ height) :
    potential t rank height s' < potential t rank height s := by
  cases h with
  | settled hpop heq =>
      obtain ⟨hqueue, -⟩ := hs.of_pop hpop
      simp only [potential, hqueue, List.length_cons]
      omega
  | @raised k agenda hpop hne hle =>
      obtain ⟨hqueue, hexact⟩ := hs.of_pop hpop
      obtain ⟨hlt, hheight⟩ := hrank k hne hle
      have hsum := sum_set_add_le (v := s.values) hlt hheight
      have hpush := Agenda.length_pushAll_le hexact (t.succs k)
      simp only [potential, hqueue, List.length_cons]
      omega

/-- **Runs end within the budget** if every rise is a rise in rank, and ranks do not
exceed the height that the budget is computed for. -/
theorem run_ends_of_rank [DecidableEq δ] {interrupt : Interrupt ν} (rank : δ → Nat) {height : Nat}
    (hrank : ∀ s, Reached p t strategy s → ∀ i : Fin t.size,
      p.evaluate t s.values i ≠ s.values.get i →
        p.domain.le (s.values.get i) (p.evaluate t s.values i) = true →
          rank (s.values.get i) < rank (p.evaluate t s.values i) ∧
            rank (p.evaluate t s.values i) ≤ height) :
    ((init p t strategy).run p t interrupt (t.budget height)).1 ≠ .running :=
  run_ends_of_measure
    (fun r _ hr hstep => hstep.potential_lt (Reached.exact hr) (hrank r hr))
    (potential_init_lt_budget rank height)

/-- **Runs end within some budget** if values cannot rise forever.  Values go down in
the reversed order at one number and stay elsewhere, or they all stay and the queue
gets shorter. -/
theorem exists_enough [DecidableEq δ] {interrupt : Interrupt ν}
    (hrise : WellFounded fun new old : δ => p.domain.le old new = true ∧ new ≠ old) :
    ∃ enough, ∀ budget ≥ enough,
      ((init p t strategy).run p t interrupt budget).1 ≠ .running := by
  have hvalues : WellFounded (Pi.Lex (· < ·) fun {_ : Fin t.size} (new old : δ) =>
      p.domain.le old new = true ∧ new ≠ old) :=
    Pi.Lex.wellFounded _ fun _ => hrise
  have hpairs := WellFounded.prod_lex hvalues (wellFounded_lt (α := Nat))
  refine run_ends_of_wellFounded
    (InvImage.wf (fun s : State ν δ t.size =>
      ((fun i : Fin t.size => s.values.get i), s.agenda.queue.length)) hpairs) ?_
  intro s s' hs hstep
  have hexact := Reached.exact hs
  cases hstep with
  | settled hpop heq =>
      obtain ⟨hqueue, -⟩ := hexact.of_pop hpop
      refine Prod.Lex.right _ ?_
      rw [hqueue, List.length_cons]
      exact Nat.lt_succ_self _
  | @raised k agenda hpop hne hle =>
      refine Prod.Lex.left _ _ ⟨k, ?_, ?_⟩
      · intro j hj
        exact get_set_of_ne _ hj.ne' _
      · show p.domain.le (s.values.get k) ((s.values.set k _ k.isLt).get k) = true ∧
          (s.values.set k _ k.isLt).get k ≠ s.values.get k
        rw [get_set_self]
        exact ⟨hle, hne⟩

end Ending

end State

end ProgramFlow
