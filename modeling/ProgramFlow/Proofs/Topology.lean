import Mathlib.Data.Finset.Max
import Mathlib.Data.Fintype.Basic
import ProgramFlow.Fixpoint.Topology
import ProgramFlow.Proofs.Lookup
import ProgramFlow.Proofs.Sound

/-!
# What a topology says about its graph

A topology replaces nodes by numbers, and a graph may list a node under several
of them.  The numbers in its neighbour lists are always the last ones of their
nodes, so a node that is listed twice has copies that nobody mentions.  Turning
the numbers back into nodes gives the neighbour lists of the graph, in order.

* `Topology.IsLast` — no later number has the same node.
* `Topology.Reads` — the topology tells the nodes and the neighbours of a graph.
* `Topology.reads_of_read`, `Topology.exists_read` — reading a closed graph
  succeeds, and the result reads that graph.
* `Topology.Reads.closed`, `Topology.exists_read_error` — only closed graphs have one.
* `Topology.Reads.notified` — if the graph notifies, a predecessor of a last
  number has it among its successors.
-/

namespace ProgramFlow

/-! ## Numbers -/

section Numbers

variable {α : Type} [DecidableEq α]

theorem lastIndex?_eq_none_iff {as : List α} {a : α} : lastIndex? as a = none ↔ a ∉ as := by
  induction as with
  | nil => simp [lastIndex?]
  | cons b bs ih =>
      rw [lastIndex?, List.mem_cons, not_or, ← ih]
      cases h : lastIndex? bs a with
      | none => simp [eq_comm]
      | some i => simp

/-- The last index of a value is an index of it, and none is later. -/
theorem lastIndex?_eq_some {as : List α} {a : α} {i : Fin as.length}
    (h : lastIndex? as a = some i) : as.get i = a ∧ ∀ k, as.get k = a → k ≤ i := by
  induction as with
  | nil => cases h
  | cons b bs ih =>
      rw [lastIndex?] at h
      cases hbs : lastIndex? bs a with
      | some j =>
          rw [hbs] at h
          obtain rfl : j.succ = i := Option.some.inj h
          obtain ⟨hget, hlast⟩ := ih hbs
          refine ⟨hget, fun k hk => ?_⟩
          cases k using Fin.cases with
          | zero => exact Fin.zero_le _
          | succ k => exact Fin.succ_le_succ_iff.2 (hlast k hk)
      | none =>
          rw [hbs] at h
          have hnot := lastIndex?_eq_none_iff.1 hbs
          by_cases hb : b = a
          · simp only [hb, if_true, Option.some.injEq] at h
            subst h
            refine ⟨hb, fun k hk => ?_⟩
            cases k using Fin.cases with
            | zero => exact Nat.le_refl _
            | succ k => exact absurd (hk ▸ List.get_mem bs k) hnot
          · simp [hb] at h

end Numbers

variable {ν κ : Type}

namespace Topology

/-- No later number has the same node. -/
def IsLast (t : Topology ν) (i : Fin t.size) : Prop := ∀ k, t.node k = t.node i → k ≤ i

theorem IsLast.unique {t : Topology ν} {i j : Fin t.size} (hi : t.IsLast i) (hj : t.IsLast j)
    (h : t.node i = t.node j) : i = j :=
  Fin.le_antisymm (hj i h) (hi j h.symm)

/-- The topology tells the nodes and the neighbours of the graph. -/
structure Reads (t : Topology ν) (g : Graph ν κ) : Prop where
  nodes : (List.finRange t.size).map t.node = g.nodes
  preds : ∀ i, g.preds (t.node i) = .ok ((t.preds i).map t.node)
  succs : ∀ i, g.succs (t.node i) = .ok ((t.succs i).map t.node)
  last_preds : ∀ i, ∀ j ∈ t.preds i, t.IsLast j
  last_succs : ∀ i, ∀ j ∈ t.succs i, t.IsLast j

/-! ## Reading -/

section Read

variable [DecidableEq ν] {g : Graph ν κ}

theorem number_eq_ok {n : ν} {i : Fin g.nodes.length} (h : g.number n = .ok i) :
    g.nodes.get i = n ∧ ∀ k, g.nodes.get k = n → k ≤ i := by
  rw [Graph.number] at h
  cases hi : lastIndex? g.nodes n with
  | none => simp [hi] at h
  | some j =>
      simp only [hi, Except.ok.injEq] at h
      exact h ▸ lastIndex?_eq_some hi

theorem exists_number {n : ν} (h : n ∈ g.nodes) : ∃ i, g.number n = .ok i := by
  rw [Graph.number]
  cases hi : lastIndex? g.nodes n with
  | none => exact absurd h (lastIndex?_eq_none_iff.1 hi)
  | some i => exact ⟨i, rfl⟩

theorem numbers_eq_ok {ns : List ν} {is : List (Fin g.nodes.length)}
    (h : ns.mapM g.number = .ok is) :
    is.map g.nodes.get = ns ∧ ∀ i ∈ is, ∀ k, g.nodes.get k = g.nodes.get i → k ≤ i := by
  have hall := mapM_eq_ok_iff.1 h
  clear h
  induction hall with
  | nil => exact ⟨rfl, fun i hi => absurd hi List.not_mem_nil⟩
  | @cons n i ns is hn _ ih =>
      obtain ⟨hget, hlast⟩ := number_eq_ok hn
      refine ⟨by rw [List.map_cons, hget, ih.1], ?_⟩
      intro j hj
      rcases List.mem_cons.1 hj with rfl | hj
      · exact fun k hk => hlast k (hk.trans hget)
      · exact ih.2 j hj

/-- What a successful look at one node found. -/
theorem readNode_eq_ok {n : ν} {row : List (Fin g.nodes.length) × List (Fin g.nodes.length)}
    (h : readNode g n = .ok row) :
    (∃ ps, g.preds n = .ok ps ∧ ps.mapM g.number = .ok row.1) ∧
      ∃ ss, g.succs n = .ok ss ∧ ss.mapM g.number = .ok row.2 := by
  unfold readNode at h
  obtain ⟨ps, hps, h⟩ := bind_eq_ok_iff.1 h
  obtain ⟨is, his, h⟩ := bind_eq_ok_iff.1 h
  obtain ⟨ss, hss, h⟩ := bind_eq_ok_iff.1 h
  obtain ⟨js, hjs, h⟩ := bind_eq_ok_iff.1 h
  obtain rfl : (is, js) = row := Except.ok.inj h
  exact ⟨⟨ps, hps, his⟩, ss, hss, hjs⟩

/-- **A topology that was read reads its graph.** -/
theorem reads_of_read {t : Topology ν} (h : read g = .ok t) : t.Reads g := by
  unfold read at h
  obtain ⟨rows, hrows, h⟩ := bind_eq_ok_iff.1 h
  have hall := mapM_eq_ok_iff.1 hrows
  obtain rfl := Except.ok.inj h
  -- the row of a number is what looking at its node found
  have hrow : ∀ i : Fin g.nodes.length, ∃ row, rows.toArray[i.val]? = some row ∧
      readNode g (g.nodes.get i) = .ok row := by
    intro i
    have hlt : i.val < rows.length := hall.length_eq ▸ i.isLt
    exact ⟨rows[i.val], by simp [hlt], hall.get i.isLt hlt⟩
  constructor
  · exact List.map_get_finRange g.nodes
  all_goals
    intro i
    obtain ⟨row, hi, hread⟩ := hrow i
    obtain ⟨⟨ps, hps, hpred⟩, ss, hss, hsucc⟩ := readNode_eq_ok hread
    simp only [hi, Option.map_some, Option.getD_some]
  · exact hps.trans (congrArg _ (numbers_eq_ok hpred).1.symm)
  · exact hss.trans (congrArg _ (numbers_eq_ok hsucc).1.symm)
  · exact (numbers_eq_ok hpred).2
  · exact (numbers_eq_ok hsucc).2

/-- A closed graph has a topology. -/
theorem exists_read (h : g.Closed) : ∃ t, read g = .ok t := by
  have hnode : ∀ n ∈ g.nodes, ∃ row, readNode g n = .ok row := by
    intro n hn
    obtain ⟨ps, hps, hps'⟩ := h.preds n hn
    obtain ⟨ss, hss, hss'⟩ := h.succs n hn
    obtain ⟨is, his⟩ := exists_mapM_eq_ok (f := g.number) fun p hp => exists_number (hps' p hp)
    obtain ⟨js, hjs⟩ := exists_mapM_eq_ok (f := g.number) fun s hs => exists_number (hss' s hs)
    exact ⟨(is, js), by simp [readNode, hps, hss, his, hjs, bind, Except.bind, pure, Except.pure]⟩
  obtain ⟨rows, hrows⟩ := exists_mapM_eq_ok hnode
  exact ⟨_, by rw [read, hrows]; rfl⟩

theorem not_closed_of_read {e : GraphError ν} (h : read g = .error e) : ¬ g.Closed := by
  intro hclosed
  obtain ⟨t, ht⟩ := exists_read hclosed
  rw [h] at ht
  cases ht

end Read

/-! ## Nodes and their last numbers -/

namespace Reads

variable {t : Topology ν} {g : Graph ν κ}

theorem node_mem (h : t.Reads g) (i : Fin t.size) : t.node i ∈ g.nodes := by
  rw [← h.nodes]
  exact List.mem_map_of_mem (List.mem_finRange i)

theorem exists_last (h : t.Reads g) {n : ν} (hn : n ∈ g.nodes) :
    ∃ i, t.node i = n ∧ t.IsLast i := by
  classical
  rw [← h.nodes] at hn
  obtain ⟨j, -, hj⟩ := List.mem_map.1 hn
  -- the numbers of the node are a finite set that is not empty
  obtain ⟨i, hi, hmax⟩ :=
    (Finset.univ.filter fun k => t.node k = n).exists_max_image id ⟨j, by simpa using hj⟩
  have hin : t.node i = n := by simpa using hi
  refine ⟨i, hin, fun k hk => hmax k ?_⟩
  simpa using hk.trans hin

/-- Only a closed graph can be read. -/
theorem closed (h : t.Reads g) : g.Closed := by
  have htotal : ∀ (f : ν → Lookup ν (List ν)) (neighbours : Fin t.size → List (Fin t.size)),
      (∀ i, f (t.node i) = .ok ((neighbours i).map t.node)) → TotalOn g.nodes f := by
    intro f neighbours hf n hn
    obtain ⟨i, rfl, -⟩ := h.exists_last hn
    refine ⟨_, hf i, fun m hm => ?_⟩
    obtain ⟨j, -, rfl⟩ := List.mem_map.1 hm
    exact h.node_mem j
  exact ⟨htotal _ _ h.preds, htotal _ _ h.succs⟩

theorem isLast_of_nodup (h : t.Reads g) (hnodup : g.nodes.Nodup) (i : Fin t.size) :
    t.IsLast i := by
  intro k hk
  rw [← h.nodes] at hnodup
  exact le_of_eq (List.inj_on_of_nodup_map hnodup (List.mem_finRange k) (List.mem_finRange i) hk)

/-- Among last numbers, the numbers of an answer are those of the nodes it holds. -/
theorem mem_iff_of_last {ns : Lookup ν (List ν)} {js : List (Fin t.size)}
    (hns : ns = .ok (js.map t.node)) (hlast : ∀ j ∈ js, t.IsLast j) {j : Fin t.size}
    (hj : t.IsLast j) : j ∈ js ↔ ∃ ms, ns = .ok ms ∧ t.node j ∈ ms := by
  subst hns
  constructor
  · exact fun hmem => ⟨_, rfl, List.mem_map_of_mem hmem⟩
  · rintro ⟨ms, hms, hmem⟩
    rw [← Except.ok.inj hms] at hmem
    obtain ⟨k, hk, hkj⟩ := List.mem_map.1 hmem
    exact (hlast k hk).unique hj hkj ▸ hk

theorem mem_preds_iff (h : t.Reads g) {i j : Fin t.size} (hj : t.IsLast j) :
    j ∈ t.preds i ↔ g.Draws (t.node i) (t.node j) :=
  mem_iff_of_last (h.preds i) (h.last_preds i) hj

theorem mem_succs_iff (h : t.Reads g) {i j : Fin t.size} (hj : t.IsLast j) :
    j ∈ t.succs i ↔ g.Leads (t.node i) (t.node j) :=
  mem_iff_of_last (h.succs i) (h.last_succs i) hj

/-- A predecessor of a last number has it among its successors. -/
theorem notified (h : t.Reads g) (hg : g.Notifies) {i : Fin t.size} (hi : t.IsLast i) :
    ∀ j ∈ t.preds i, i ∈ t.succs j := by
  intro j hj
  have hdraws := (h.mem_preds_iff (h.last_preds i j hj)).1 hj
  exact (h.mem_succs_iff hi).2 (hg _ (h.node_mem j) _ (h.node_mem i) hdraws)

end Reads

/-- Reading a graph that is not closed fails. -/
theorem exists_read_error [DecidableEq ν] {g : Graph ν κ} (h : ¬ g.Closed) :
    ∃ e, read g = .error e := by
  cases hread : read g with
  | error e => exact ⟨e, rfl⟩
  | ok t => exact absurd (reads_of_read hread).closed h

end Topology

end ProgramFlow
