import Mathlib.Data.List.Perm.Subperm
import Mathlib.Data.List.Chain
import ProgramFlow.Fixpoint.Gates
import ProgramFlow.Proofs.Adjacency
import ProgramFlow.Proofs.Equations

/-!
# What arrives through gates

A gate treats every bit by itself: it generates the bit, or passes it on, or holds
it back (`Gate.mem_apply`).  A bit therefore arrives at a node if some edge generates
it and the edges from there on pass it.  The solver finds exactly these bits, within
the budget computed for it and without an error.

* `Graph.Arrives` — a bit is generated on an edge and passed on from there.
* `Problem.rising_gates`, `State.run_ends_gates` — values rise in bits and in width, at
  most as often as the budget allows for.
* `Graph.solveGates_arrives` — the solver finds the bits that arrive.
* `Graph.solveGates_all_paths` — they are the bits that some path from the empty set
  brings.
-/

namespace ProgramFlow

variable {ν κ : Type}

/-! ## One bit at a gate -/

namespace Gate

/-- The gate puts the bit in by itself. -/
def Generates (f : Gate) (i : Nat) : Prop := i ∈ f.apply (.bottom 0)

/-- The bit comes out if it goes in. -/
def Passes (f : Gate) (i : Nat) : Prop := i ∈ f.apply (.single i)

theorem mem_apply {f : Gate} {i : Nat} {s : BitSet} :
    i ∈ f.apply s ↔ f.Generates i ∨ f.Passes i ∧ i ∈ s := by
  cases f with
  | identity => simp [apply, Generates, Passes]
  | union facts =>
      simp only [apply, Generates, Passes, BitSet.mem_join, BitSet.not_mem_bottom,
        BitSet.mem_single]
      tauto
  | filter mask =>
      simp only [apply, Generates, Passes, BitSet.mem_meet, BitSet.not_mem_bottom,
        BitSet.mem_single]
      tauto
  | killGen kill generate =>
      simp only [apply, Generates, Passes, BitSet.mem_join, BitSet.mem_minus,
        BitSet.not_mem_bottom, BitSet.mem_single]
      tauto
  | constant facts =>
      simp only [apply, Generates, Passes]
      tauto

/-- With more bits going in, more come out. -/
theorem mem_apply_of_forall_mem {f : Gate} {s t : BitSet} (h : ∀ i ∈ s, i ∈ t) {i : Nat}
    (hi : i ∈ f.apply s) : i ∈ f.apply t := by
  rcases mem_apply.1 hi with hgen | ⟨hpass, hi⟩
  · exact mem_apply.2 (Or.inl hgen)
  · exact mem_apply.2 (Or.inr ⟨hpass, h i hi⟩)

theorem width_apply_le (f : Gate) (s : BitSet) : (f.apply s).width ≤ max s.width f.width := by
  cases f <;> simp only [apply, width, BitSet.width_join, BitSet.width_meet, BitSet.width_minus] <;>
    omega

end Gate

/-! ## Widths and bits rise -/

namespace BitSet

/-- The left set has no more bits, and no more width, where widths up to `w` count alike. -/
def Below (w : Nat) (s t : BitSet) : Prop :=
  max w s.width ≤ max w t.width ∧ ∀ i ∈ s, i ∈ t

theorem nodup_toList (s : BitSet) : s.toList.Nodup := by
  rw [toList_eq_filter]
  exact List.nodup_range.filter _

theorem count_le_width (s : BitSet) : s.count ≤ s.width := by
  rw [count, toList_eq_filter]
  exact (List.length_filter_le _ _).trans_eq List.length_range

/-- A set that is below another one of the widths that count has a smaller rank. -/
theorem Below.rank_lt {w : Nat} {s t : BitSet} (h : Below w s t) (hs : w ≤ s.width)
    (ht : w ≤ t.width) (hne : t ≠ s) : s.width + s.count < t.width + t.count := by
  obtain ⟨hwidth, hbits⟩ := h
  have hsub : s.toList.Subperm t.toList :=
    List.subperm_of_subset s.nodup_toList fun i hi => mem_toList.2 (hbits i (mem_toList.1 hi))
  have hcount : s.count ≤ t.count := hsub.length_le
  by_contra hlt
  -- with equal widths and counts the sets would be equal
  have hperm : s.toList.Perm t.toList := hsub.perm_of_length_le (by unfold count at *; omega)
  refine hne (ext_iff_mem.2 ⟨by omega, fun i => ?_⟩)
  rw [← mem_toList, ← mem_toList (s := s), hperm.mem_iff]

end BitSet

theorem Problem.rising_gates (w : Nat) (gate : ν → ν → Gate) :
    (Problem.gates w gate).Rising (BitSet.Below w) where
  refl _ := ⟨Nat.le_refl _, fun _ hi => hi⟩
  trans hab hbc := ⟨hab.1.trans hbc.1, fun i hi => hbc.2 i (hab.2 i hi)⟩
  bottom a := by
    refine ⟨?_, fun i hi => absurd hi (BitSet.not_mem_bottom i w)⟩
    show max w w ≤ max w a.width
    omega
  join {a a' b b'} ha hb := by
    obtain ⟨hwa, hia⟩ := ha
    obtain ⟨hwb, hib⟩ := hb
    constructor
    · show max w (max a.width b.width) ≤ max w (max a'.width b'.width)
      omega
    · intro i hi
      rcases BitSet.mem_join.1 hi with hi | hi
      · exact BitSet.mem_join.2 (Or.inl (hia i hi))
      · exact BitSet.mem_join.2 (Or.inr (hib i hi))
  transfer m n a b hab := by
    obtain ⟨hw, hi⟩ := hab
    constructor
    · simp only [Problem.gates]
      cases gate m n <;> simp only [Gate.apply, BitSet.width_join, BitSet.width_meet,
        BitSet.width_minus] <;> omega
    · intro i
      exact Gate.mem_apply_of_forall_mem hi
  le hab := BitSet.subset_iff.2 hab.2

/-! ## The budget suffices -/

theorem le_foldl_of_le {α : Type} {f : Nat → α → Nat} (hf : ∀ w a, w ≤ f w a) (as : List α)
    (w : Nat) : w ≤ as.foldl f w := by
  induction as generalizing w with
  | nil => exact Nat.le_refl w
  | cons a as ih => exact (hf w a).trans (ih (f w a))

theorem le_foldl_of_mem {α : Type} {f : Nat → α → Nat} (hf : ∀ w a, w ≤ f w a) {as : List α}
    {a : α} (ha : a ∈ as) {b : Nat} (hb : ∀ w, b ≤ f w a) (w : Nat) : b ≤ as.foldl f w := by
  induction as generalizing w with
  | nil => cases ha
  | cons c as ih =>
      rw [List.foldl_cons]
      rcases List.mem_cons.1 ha with rfl | ha
      · exact (hb w).trans (le_foldl_of_le hf as _)
      · exact ih ha _

namespace Topology

variable (t : Topology ν) (w : Nat) (gate : ν → ν → Gate)

/-- A round of `maxWidth` over the predecessors of one number does not lower the width. -/
theorem le_widths (i : Fin t.size) (w : Nat) :
    w ≤ (t.preds i).foldl (fun w j => max w (gate (t.node j) (t.node i)).width) w :=
  le_foldl_of_le (fun w j => Nat.le_max_left w (gate (t.node j) (t.node i)).width) _ w

theorem le_maxWidth : w ≤ t.maxWidth w gate :=
  le_foldl_of_le (fun w i => t.le_widths gate i w) _ w

theorem width_le_maxWidth {i j : Fin t.size} (hj : j ∈ t.preds i) :
    (gate (t.node j) (t.node i)).width ≤ t.maxWidth w gate := by
  refine le_foldl_of_mem (fun w i => t.le_widths gate i w) (List.mem_finRange i) ?_ w
  intro w
  exact le_foldl_of_mem (fun w j => Nat.le_max_left w (gate (t.node j) (t.node i)).width) hj
    (fun w => Nat.le_max_right w _) w

end Topology

section Runs

variable {w : Nat} {gate : ν → ν → Gate} {t : Topology ν} {strategy : Strategy}

theorem Problem.width_evaluate_gates {v : Vector BitSet t.size}
    (hv : ∀ j : Fin t.size, (v.get j).width ≤ t.maxWidth w gate) (i : Fin t.size) :
    w ≤ ((Problem.gates w gate).evaluate t v i).width ∧
      ((Problem.gates w gate).evaluate t v i).width ≤ t.maxWidth w gate := by
  refine Problem.evaluate_induction (Problem.gates w gate)
    (P := fun d => w ≤ d.width ∧ d.width ≤ t.maxWidth w gate)
    ⟨Nat.le_refl w, t.le_maxWidth w gate⟩ ?_
  intro acc hacc j hj
  show w ≤ max acc.width ((gate (t.node j) (t.node i)).apply (v.get j)).width ∧
    max acc.width ((gate (t.node j) (t.node i)).apply (v.get j)).width ≤ t.maxWidth w gate
  have happly := (gate (t.node j) (t.node i)).width_apply_le (v.get j)
  have hgate := t.width_le_maxWidth w gate hj
  have hvj := hv j
  omega

theorem State.Reached.widths {s : State ν BitSet t.size}
    (h : State.Reached (Problem.gates w gate) t strategy s) (i : Fin t.size) :
    w ≤ (s.values.get i).width ∧ (s.values.get i).width ≤ t.maxWidth w gate :=
  State.Reached.values (Q := fun _ d => w ≤ d.width ∧ d.width ≤ t.maxWidth w gate)
    (fun _ => ⟨Nat.le_refl w, t.le_maxWidth w gate⟩)
    (fun _ hv => Problem.width_evaluate_gates fun j => (hv j).2) h i

/-- **Runs over gates end within their budget.**  Width and number of bits rise together
at most twice as often as the largest width says. -/
theorem State.run_ends_gates (interrupt : Interrupt ν) :
    ((State.init (Problem.gates w gate) t strategy).run (Problem.gates w gate) t interrupt
      (t.budget (2 * t.maxWidth w gate))).1 ≠ .running := by
  refine State.run_ends_of_rank (fun d => d.width + d.count) ?_
  intro s hs i hne _
  have hwidth := State.Reached.widths hs
  obtain ⟨hlow, hhigh⟩ := Problem.width_evaluate_gates (fun j => (hwidth j).2) i
  have hrise := State.Reached.ascending (Problem.rising_gates w gate) hs i
  refine ⟨hrise.rank_lt (hwidth i).1 hlow hne, ?_⟩
  have hcount := BitSet.count_le_width ((Problem.gates w gate).evaluate t s.values i)
  omega

end Runs

/-! ## The bits that arrive -/

/-- A bit is generated on an edge that leads to the node, or passed on one from a node
where it arrives. -/
inductive Graph.Arrives (g : Graph ν κ) (gate : ν → ν → Gate) (i : Nat) : ν → Prop where
  | generated {m n : ν} (hm : m ∈ g.nodes) (hedge : g.Leads m n)
      (hgen : (gate m n).Generates i) : Arrives g gate i n
  | passed {m n : ν} (hm : Arrives g gate i m) (hedge : g.Leads m n)
      (hpass : (gate m n).Passes i) : Arrives g gate i n

theorem Graph.Arrives.mem_nodes {g : Graph ν κ} {gate : ν → ν → Gate} {i : Nat} {n : ν}
    (h : g.Arrives gate i n) (hclosed : g.Closed) : n ∈ g.nodes := by
  induction h with
  | generated hm hedge _ => exact hclosed.mem_of_leads hm hedge
  | passed _ hedge _ ih => exact hclosed.mem_of_leads ih hedge

theorem Problem.mem_evaluate_gates {w : Nat} {gate : ν → ν → Gate} {t : Topology ν}
    {v : Vector BitSet t.size} {k : Fin t.size} {i : Nat} :
    i ∈ (Problem.gates w gate).evaluate t v k ↔
      ∃ j ∈ t.preds k, i ∈ (gate (t.node j) (t.node k)).apply (v.get j) := by
  refine BitSet.mem_foldl_join.trans ?_
  exact or_iff_right (BitSet.not_mem_bottom i w)

section Arrivals

variable {g : Graph ν κ} {w : Nat} {gate : ν → ν → Gate} {t : Topology ν} {strategy : Strategy}
  {s : State ν BitSet t.size} {i : Nat}

/-- A run invents no bit: at any time a value has only bits that arrive. -/
theorem Topology.Reads.arrives_of_mem (h : t.Reads g) (hmirror : g.Mirrored)
    (hs : State.Reached (Problem.gates w gate) t strategy s) (k : Fin t.size)
    (hi : i ∈ s.values.get k) : g.Arrives gate i (t.node k) := by
  refine State.Reached.values (Q := fun k d => i ∈ d → g.Arrives gate i (t.node k)) ?_ ?_ hs k hi
  · intro k hi
    exact absurd hi (BitSet.not_mem_bottom i w)
  · intro v hv k hi
    obtain ⟨j, hj, hi⟩ := Problem.mem_evaluate_gates.1 hi
    have hedge : g.Leads (t.node j) (t.node k) :=
      (hmirror _ (h.node_mem j) _ (h.node_mem k)).2 ((h.mem_preds_iff (h.last_preds k j hj)).1 hj)
    rcases Gate.mem_apply.1 hi with hgen | ⟨hpass, hi⟩
    · exact .generated (h.node_mem j) hedge hgen
    · exact .passed (hv j hi) hedge hpass

/-- A run that is done has lost no bit. -/
theorem Topology.Reads.mem_of_arrives [DecidableEq ν] (h : t.Reads g) (hclosed : g.Closed)
    (hmirror : g.Mirrored) (hsettled : s.Settled (Problem.gates w gate) t)
    (hempty : s.agenda.queue = []) {n : ν} (hn : g.Arrives gate i n) :
    ∀ k, t.IsLast k → t.node k = n → i ∈ s.values.get k := by
  -- what an edge brings to the value of its end
  have hedge : ∀ {m : ν} {k : Fin t.size}, m ∈ g.nodes → t.IsLast k → g.Leads m (t.node k) →
      (∀ j, t.IsLast j → t.node j = m → i ∈ (gate m (t.node k)).apply (s.values.get j)) →
      i ∈ s.values.get k := by
    intro m k hm hk hedge hbrings
    obtain ⟨j, rfl, hj⟩ := h.exists_last hm
    have hpred : j ∈ t.preds k :=
      (h.mem_preds_iff hj).2 ((hmirror _ hm _ (h.node_mem k)).1 hedge)
    rw [hsettled k (h.notified hmirror.notifies hk) (by simp [hempty])]
    exact Problem.mem_evaluate_gates.2 ⟨j, hpred, hbrings j hj rfl⟩
  induction hn with
  | generated hm hleads hgen =>
      rintro k hk rfl
      exact hedge hm hk hleads fun j _ _ => Gate.mem_apply.2 (Or.inl hgen)
  | passed hm hleads hpass ih =>
      rintro k hk rfl
      exact hedge (hm.mem_nodes hclosed) hk hleads fun j hj hjm =>
        Gate.mem_apply.2 (Or.inr ⟨hpass, ih j hj hjm⟩)

end Arrivals

/-- **The solver finds the bits that arrive**, and has no value for other nodes. -/
theorem Graph.solveGates_arrives [DecidableEq ν] {g : Graph ν κ} (hclosed : g.Closed)
    (hmirror : g.Mirrored) (w : Nat) (gate : ν → ν → Gate) (strategy : Strategy) :
    ∃ s : Solution ν BitSet, (g.solveGates w gate strategy .never).outcome = .ok s ∧
      (∀ n ∉ g.nodes, s.value n = .error (.unknownNode n)) ∧
      ∀ n ∈ g.nodes, ∃ facts, s.value n = .ok facts ∧ ∀ i, i ∈ facts ↔ g.Arrives gate i n := by
  have hend : ∀ t, Topology.read g = .ok t →
      ((State.init (Problem.gates w gate) t strategy).run (Problem.gates w gate) t .never
        (t.budget (2 * t.maxWidth w gate))).1 ≠ .running :=
    fun t _ => State.run_ends_gates .never
  obtain ⟨t, s, ht, hs, hempty, hout⟩ :=
    Graph.exists_converged hclosed (Problem.rising_gates w gate) hend
  have hreads := Topology.reads_of_read ht
  refine ⟨_, hout, fun n hn => Solution.value_of_not_mem hreads hn _, fun n hn => ?_⟩
  obtain ⟨k, rfl, hk⟩ := hreads.exists_last hn
  refine ⟨s.values.get k, Solution.value_of_isLast hk _, fun i => ⟨?_, ?_⟩⟩
  · exact hreads.arrives_of_mem hmirror hs k
  · intro hi
    exact hreads.mem_of_arrives hclosed hmirror (State.Reached.settled hs) hempty hi k hk rfl

/-! ## Paths -/

/-- What a path makes of a set: the gates of its edges, one after the other. -/
def Gate.along (gate : ν → ν → Gate) : ν → List ν → BitSet → BitSet
  | _, [], s => s
  | m, n :: rest, s => Gate.along gate n rest ((gate m n).apply s)

theorem Gate.along_append (gate : ν → ν → Gate) (first : ν) (rest : List ν) {m : ν}
    (hm : (first :: rest).getLast? = some m) (n : ν) (s : BitSet) :
    Gate.along gate first (rest ++ [n]) s = (gate m n).apply (Gate.along gate first rest s) := by
  induction rest generalizing first s with
  | nil =>
      obtain rfl : first = m := by simpa using hm
      rfl
  | cons second rest ih => exact ih second (by simpa using hm) _

/-- If a bit in the set arrived at the start, one that a path makes of it arrives at the end. -/
theorem Graph.Arrives.of_along {g : Graph ν κ} {gate : ν → ν → Gate} {i : Nat} (hclosed : g.Closed)
    (rest : List ν) : ∀ {first n : ν} {s : BitSet}, first ∈ g.nodes →
      (first :: rest).IsChain g.Leads → (first :: rest).getLast? = some n →
      (i ∈ s → g.Arrives gate i first) → i ∈ Gate.along gate first rest s → g.Arrives gate i n := by
  induction rest with
  | nil =>
      intro first n s _ _ hn hs hi
      obtain rfl : first = n := by simpa using hn
      exact hs hi
  | cons second rest ih =>
      intro first n s hfirst hchain hn hs hi
      obtain ⟨hedge, hchain⟩ := List.isChain_cons_cons.1 hchain
      refine ih (hclosed.mem_of_leads hfirst hedge) hchain (by simpa using hn) ?_ hi
      intro hbit
      rcases Gate.mem_apply.1 hbit with hgen | ⟨hpass, hbit⟩
      · exact .generated hfirst hedge hgen
      · exact .passed (hs hbit) hedge hpass

/-- A bit that arrives is brought by a path with at least one edge. -/
theorem Graph.Arrives.exists_path {g : Graph ν κ} {gate : ν → ν → Gate} {i : Nat} {n : ν}
    (h : g.Arrives gate i n) (w : Nat) :
    ∃ first rest, first ∈ g.nodes ∧ (first :: rest).IsChain g.Leads ∧ rest.getLast? = some n ∧
      i ∈ Gate.along gate first rest (.bottom w) := by
  induction h with
  | @generated m n hm hedge hgen =>
      exact ⟨m, [n], hm, by simpa using hedge, rfl, Gate.mem_apply.2 (Or.inl hgen)⟩
  | @passed m n _ hedge hpass ih =>
      obtain ⟨first, rest, hfirst, hchain, hlast, hi⟩ := ih
      have hend : (first :: rest).getLast? = some m := by
        rw [List.getLast?_cons, hlast, Option.getD_some]
      refine ⟨first, rest ++ [n], hfirst, ?_, by simp, ?_⟩
      · rw [← List.cons_append, List.isChain_append]
        refine ⟨hchain, by simp, fun a ha b hb => ?_⟩
        obtain rfl : m = a := Option.some.inj (hend.symm.trans ha)
        obtain rfl : n = b := by simpa using hb
        exact hedge
      · rw [Gate.along_append gate first rest hend]
        exact Gate.mem_apply.2 (Or.inr ⟨hpass, hi⟩)

/-- **The solver joins over all paths.**  In every order, a node gets the bits that the
gates of some path to it, with at least one edge, make of the empty set. -/
theorem Graph.solveGates_all_paths [DecidableEq ν] (g : Graph ν κ) (hclosed : g.Closed)
    (hmirror : g.Mirrored) (w : Nat) (gate : ν → ν → Gate) (strategy : Strategy) :
    ∃ s : Solution ν BitSet, (g.solveGates w gate strategy .never).outcome = .ok s ∧
      ∀ n ∈ g.nodes, ∃ facts, s.value n = .ok facts ∧
        ∀ i, i ∈ facts ↔ ∃ first rest, first ∈ g.nodes ∧ (first :: rest).IsChain g.Leads ∧
          rest.getLast? = some n ∧ i ∈ Gate.along gate first rest (.bottom w) := by
  obtain ⟨s, hout, -, hvalues⟩ := Graph.solveGates_arrives hclosed hmirror w gate strategy
  refine ⟨s, hout, fun n hn => ?_⟩
  obtain ⟨facts, hvalue, hfacts⟩ := hvalues n hn
  refine ⟨facts, hvalue, fun i => (hfacts i).trans ⟨fun h => h.exists_path w, ?_⟩⟩
  rintro ⟨first, rest, hfirst, hchain, hlast, hi⟩
  refine Graph.Arrives.of_along hclosed rest hfirst hchain ?_ ?_ hi
  · rw [List.getLast?_cons, hlast, Option.getD_some]
  · intro hbot
    exact absurd hbot (BitSet.not_mem_bottom i w)

/-- Gates of all kinds on the edges of the knot. -/
def Gate.knotted : Nat → Nat → Gate
  | 1, 2 => .killGen (.single 0) (.single 1)
  | 2, 1 => .union (.single 0)
  | 2, 2 => .constant (.single 2)
  | 2, 3 => .filter (.single 1)
  | _, _ => .identity

theorem Graph.solveGates_all_paths_knot :
    ∃ s : Solution Nat BitSet,
      (Adjacency.knot.graph.solveGates 3 Gate.knotted .lifo .never).outcome = .ok s ∧
        ∀ n ∈ Adjacency.knot.graph.nodes, ∃ facts, s.value n = .ok facts ∧
          ∀ i, i ∈ facts ↔ ∃ first rest, first ∈ Adjacency.knot.graph.nodes ∧
            (first :: rest).IsChain Adjacency.knot.graph.Leads ∧ rest.getLast? = some n ∧
            i ∈ Gate.along Gate.knotted first rest (.bottom 3) :=
  Graph.solveGates_all_paths Adjacency.knot.graph Adjacency.sound_knot.closed
    Adjacency.sound_knot.mirrored 3 Gate.knotted .lifo

end ProgramFlow
