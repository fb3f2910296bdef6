import Mathlib.Data.Fintype.Card
import Mathlib.Data.List.Forall2
import Mathlib.Data.List.Nodup
import ProgramFlow.Fixpoint.PostOrder
import ProgramFlow.Proofs.Agenda

/-!
# The loop is a recursive search

The search for the reverse post-order is a loop over a stack of frames.  Told recursively it
is simpler: visiting a node that has not been seen marks it as seen, visits its
successors one after the other, and then appends the node to the post-order.  A frame stands
for a visit that has been begun.  What is left of it is to visit the rest of the
successors and to append the node, and what is left of a stack is that for each of its frames,
the top one first.

* `turn`, `turnsLeft`, `iterate_turn` — the loop turn by turn, and after how many turns its
  stack is empty.
* `Trail`, `Trail.visitAll`, `Trail.visit` — the recursive search; `Trail.visit_eq` is the
  equation of the recursion.
* `Trail.unwind`, `trail_explore` — what is left of a stack, and that the loop does it.
* `numbering_eq_depthFirst` — the loop ends, and gives the positions of the recursive search.
-/

namespace ProgramFlow

namespace PostOrder

variable {n : Nat} {succs : Fin n → List (Fin n)}

/-! ## Turns of the loop -/

/-- One turn of the loop: finish the top node, or look at its next successor and enter that
unless it has been visited. -/
def turn (succs : Fin n → List (Fin n)) :
    Progress n × List (Frame n) → Progress n × List (Frame n)
  | (p, []) => (p, [])
  | (p, ⟨v, []⟩ :: stack) => ({ p with finished := v :: p.finished }, stack)
  | (p, ⟨v, s :: rest⟩ :: stack) =>
      if p.visited.get s then (p, ⟨v, rest⟩ :: stack)
      else
        ({ p with visited := p.visited.set s true s.isLt }, ⟨s, succs s⟩ :: ⟨v, rest⟩ :: stack)

theorem explore_turn (c : Progress n × List (Frame n)) :
    explore succs (turn succs c).1 (turn succs c).2 = explore succs c.1 c.2 := by
  obtain ⟨p, _ | ⟨⟨v, _ | ⟨s, rest⟩⟩, stack⟩⟩ := c
  · rfl
  · rw [turn, explore]
  · rw [turn, explore]
    split <;> rfl

/-- The frames of the nodes that have not been visited. -/
def unentered (succs : Fin n → List (Fin n)) (p : Progress n) : List (Frame n) :=
  ((List.finRange n).filter fun v => !p.visited.get v).map fun v => ⟨v, succs v⟩

/-- How many turns there are at most: what is left to do on the stack, and what there would be
to do for each node that may still be entered. -/
def turnsLeft (succs : Fin n → List (Fin n)) (c : Progress n × List (Frame n)) : Nat :=
  workload c.2 + workload (unentered succs c.1)

@[simp] theorem workload_nil : workload ([] : List (Frame n)) = 0 := rfl

@[simp] theorem workload_cons (f : Frame n) (stack : List (Frame n)) :
    workload (f :: stack) = f.rest.length + 1 + workload stack := rfl

theorem workload_perm {stack stack' : List (Frame n)} (h : stack.Perm stack') :
    workload stack = workload stack' := by
  induction h with
  | nil => rfl
  | cons f _ ih => simp [ih]
  | swap f f' stack =>
      simp only [workload_cons]
      omega
  | trans _ _ ih ih' => exact ih.trans ih'

/-- Entering a node moves its frame from those that have not been entered. -/
theorem unentered_perm (succs : Fin n → List (Fin n)) {p : Progress n} {s : Fin n}
    (hs : p.visited.get s = false) :
    (unentered succs p).Perm
      (⟨s, succs s⟩ :: unentered succs { p with visited := p.visited.set s true s.isLt }) := by
  suffices hnodes : ((List.finRange n).filter fun v => !p.visited.get v).Perm
      (s :: (List.finRange n).filter fun v => !(p.visited.set s true s.isLt).get v) from
    hnodes.map fun v => (⟨v, succs v⟩ : Frame n)
  refine (List.perm_ext_iff_of_nodup ?_ ?_).2 fun v => ?_
  · exact (List.nodup_finRange n).filter _
  · refine List.nodup_cons.2 ⟨?_, (List.nodup_finRange n).filter _⟩
    simp [get_set_self]
  · simp only [List.mem_cons, List.mem_filter, List.mem_finRange, true_and, Bool.not_eq_true',
      get_set]
    by_cases hv : s = v
    · simp [← hv, hs]
    · simp [hv, Ne.symm hv]

/-- Every turn is one turn less. -/
theorem turnsLeft_turn (succs : Fin n → List (Fin n)) {c : Progress n × List (Frame n)}
    (h : c.2 ≠ []) :
    turnsLeft succs (turn succs c) + 1 = turnsLeft succs c := by
  obtain ⟨p, _ | ⟨⟨v, _ | ⟨s, rest⟩⟩, stack⟩⟩ := c
  · exact absurd rfl h
  · simp only [turn, turnsLeft, unentered, workload_cons, List.length_nil]
    omega
  · by_cases hs : p.visited.get s = true
    · rw [turn, if_pos hs]
      simp only [turnsLeft, workload_cons, List.length_cons]
      omega
    · have hmove := workload_perm (unentered_perm succs (Bool.eq_false_iff.2 hs))
      rw [turn, if_neg hs]
      simp only [turnsLeft, workload_cons, List.length_cons] at hmove ⊢
      omega

/-- **The loop ends**, at the latest when no turn is left. -/
theorem iterate_turn {c : Progress n × List (Frame n)} {k : Nat} (hk : turnsLeft succs c ≤ k) :
    (turn succs)^[k] c = (explore succs c.1 c.2, []) := by
  induction k generalizing c with
  | zero =>
      obtain ⟨p, _ | ⟨f, stack⟩⟩ := c
      · rw [Function.iterate_zero_apply, explore]
      · simp only [turnsLeft, workload_cons] at hk
        omega
  | succ k ih =>
      by_cases hstack : c.2 = []
      · obtain ⟨p, _ | ⟨f, stack⟩⟩ := c
        · rw [Function.iterate_fixed (by rw [turn]), explore]
        · cases hstack
      · have hturn := turnsLeft_turn succs hstack
        rw [Function.iterate_succ_apply, ih (by omega), explore_turn]

/-! ## The recursive search -/

/-- What a recursive search has seen, and the nodes in the order in which it left them. -/
structure Trail (n : Nat) where
  seen : Finset (Fin n)
  postOrder : List (Fin n)

namespace Trail

/-- Mark a node as seen. -/
def enter (r : Trail n) (v : Fin n) : Trail n := { r with seen := insert v r.seen }

/-- Append a node to the post-order. -/
def leave (r : Trail n) (v : Fin n) : Trail n := { r with postOrder := r.postOrder ++ [v] }

theorem card_compl_enter_lt {r : Trail n} {v : Fin n} (h : v ∉ r.seen) :
    (r.enter v).seenᶜ.card < r.seenᶜ.card := by
  refine Finset.card_lt_card ?_
  rw [Finset.compl_ssubset_compl]
  exact Finset.ssubset_insert h

/-- Visit the nodes of a list one after the other, those that have been seen apart.  Nothing
that was seen is forgotten, which is why the nodes that come later can be visited at all: no
more nodes are unseen then. -/
def search (succs : Fin n → List (Fin n)) (r : Trail n) :
    List (Fin n) → { r' : Trail n // r.seen ⊆ r'.seen }
  | [] => ⟨r, Finset.Subset.refl _⟩
  | v :: vs =>
      if v ∈ r.seen then search succs r vs
      else
        let below := search succs (r.enter v) (succs v)
        let rest := search succs (below.1.leave v) vs
        ⟨rest.1, ((Finset.subset_insert v r.seen).trans below.2).trans rest.2⟩
  termination_by vs => (r.seenᶜ.card, vs.length)
  decreasing_by
    · exact Prod.Lex.right _ (Nat.lt_succ_self _)
    · exact Prod.Lex.left _ _ (card_compl_enter_lt ‹_›)
    · refine Prod.Lex.left _ _ (Nat.lt_of_le_of_lt (Finset.card_le_card ?_)
        (card_compl_enter_lt ‹_›))
      exact Finset.compl_subset_compl.2 below.2

/-- The trail after visiting the nodes of a list. -/
def visitAll (succs : Fin n → List (Fin n)) (r : Trail n) (vs : List (Fin n)) : Trail n :=
  (search succs r vs).1

/-- The trail after visiting a node. -/
def visit (succs : Fin n → List (Fin n)) (r : Trail n) (v : Fin n) : Trail n :=
  visitAll succs r [v]

section Equations

variable {r : Trail n} {v : Fin n} {vs : List (Fin n)}

@[simp] theorem visitAll_nil : visitAll succs r [] = r := by
  rw [visitAll, search]

theorem visitAll_cons_of_mem (h : v ∈ r.seen) :
    visitAll succs r (v :: vs) = visitAll succs r vs := by
  rw [visitAll, search, if_pos h, visitAll]

theorem visitAll_cons_of_not_mem (h : v ∉ r.seen) :
    visitAll succs r (v :: vs) =
      visitAll succs ((visitAll succs (r.enter v) (succs v)).leave v) vs := by
  rw [visitAll, search, if_neg h]
  rfl

theorem visitAll_cons : visitAll succs r (v :: vs) = visitAll succs (visit succs r v) vs := by
  by_cases h : v ∈ r.seen
  · rw [visit, visitAll_cons_of_mem h, visitAll_cons_of_mem h, visitAll_nil]
  · rw [visit, visitAll_cons_of_not_mem h, visitAll_cons_of_not_mem h, visitAll_nil]

theorem visitAll_eq_foldl : visitAll succs r vs = vs.foldl (visit succs) r := by
  induction vs generalizing r with
  | nil => exact visitAll_nil
  | cons v vs ih => rw [visitAll_cons, ih, List.foldl_cons]

/-- **The recursion**: a node that has been seen is skipped, any other is entered, its
successors are visited in the order of the list, and it is left. -/
theorem visit_eq (succs : Fin n → List (Fin n)) (r : Trail n) (v : Fin n) :
    visit succs r v =
      if v ∈ r.seen then r else ((succs v).foldl (visit succs) (r.enter v)).leave v := by
  split
  · rw [visit, visitAll_cons_of_mem ‹_›, visitAll_nil]
  · rw [visit, visitAll_cons_of_not_mem ‹_›, visitAll_nil, visitAll_eq_foldl]

/-- What holds of every visit follows the recursion: a visited list is empty, or its first node
has been seen, or it is entered and left before the others are visited. -/
theorem visitAll_induction (succs : Fin n → List (Fin n))
    {motive : Trail n → List (Fin n) → Prop} (nil : ∀ r, motive r [])
    (skip : ∀ r v vs, v ∈ r.seen → motive r vs → motive r (v :: vs))
    (enter : ∀ r v vs, v ∉ r.seen → motive (r.enter v) (succs v) →
      motive ((visitAll succs (r.enter v) (succs v)).leave v) vs → motive r (v :: vs))
    (r : Trail n) (vs : List (Fin n)) : motive r vs := by
  fun_induction search succs r vs with
  | case1 r => exact nil r
  | case2 r v vs hv ih => exact skip r v vs hv ih
  | case3 r v vs hv below rest ihbelow ihrest => exact enter r v vs hv ihbelow ihrest

theorem subset_visitAll (succs : Fin n → List (Fin n)) (r : Trail n) (vs : List (Fin n)) :
    r.seen ⊆ (visitAll succs r vs).seen :=
  (search succs r vs).2

end Equations

/-- The nodes that no successor list points to come first, then all nodes, both in ascending
order. -/
def roots (succs : Fin n → List (Fin n)) : List (Fin n) :=
  (List.finRange n).filter (fun v => !((List.finRange n).flatMap succs).contains v) ++
    List.finRange n

/-- The trail of the search of the whole graph. -/
def ofGraph (succs : Fin n → List (Fin n)) : Trail n :=
  (roots succs).foldl (visit succs) ⟨∅, []⟩

end Trail

/-! ## The loop does what the recursion does -/

/-- The trail that a search with frames has left. -/
def Progress.trail (p : Progress n) : Trail n :=
  ⟨Finset.univ.filter fun v => p.visited.get v = true, p.finished.reverse⟩

theorem mem_seen_trail {p : Progress n} {v : Fin n} :
    v ∈ p.trail.seen ↔ p.visited.get v = true := by
  simp [Progress.trail]

theorem trail_enter (p : Progress n) (v : Fin n) :
    ({ p with visited := p.visited.set v true v.isLt } : Progress n).trail = p.trail.enter v := by
  have hseen : (Finset.univ.filter fun u => (p.visited.set v true v.isLt).get u = true) =
      insert v (Finset.univ.filter fun u => p.visited.get u = true) := by
    ext u
    simp only [Finset.mem_filter, Finset.mem_univ, true_and, Finset.mem_insert, get_set]
    by_cases hu : v = u
    · simp [hu]
    · simp [hu, Ne.symm hu]
  rw [Progress.trail, Progress.trail, Trail.enter, hseen]

theorem trail_leave (p : Progress n) (v : Fin n) :
    ({ p with finished := v :: p.finished } : Progress n).trail = p.trail.leave v := by
  rw [Progress.trail, Progress.trail, Trail.leave, List.reverse_cons]

/-- What is left of the visits on a stack: for each node to visit the rest of its successors,
and to leave it. -/
def Trail.unwind (succs : Fin n → List (Fin n)) (r : Trail n) (stack : List (Frame n)) : Trail n :=
  stack.foldl (fun r f => (r.visitAll succs f.rest).leave f.node) r

/-- **The loop does what is left of the visits on its stack.** -/
theorem trail_explore (p : Progress n) (stack : List (Frame n)) :
    (explore succs p stack).trail = p.trail.unwind succs stack := by
  fun_induction explore succs p stack with
  | case1 p => rfl
  | case2 p v stack ih =>
      rw [ih, trail_leave]
      simp [Trail.unwind]
  | case3 p v s rest stack hs ih =>
      rw [ih]
      simp [Trail.unwind, Trail.visitAll_cons_of_mem (mem_seen_trail.2 hs)]
  | case4 p v s rest stack hs ih =>
      rw [ih, trail_enter]
      simp [Trail.unwind, Trail.visitAll_cons_of_not_mem (mt mem_seen_trail.1 hs)]

theorem trail_visit (p : Progress n) (root : Fin n) :
    (visit succs p root).trail = p.trail.visit succs root := by
  rw [visit, Trail.visit]
  split
  · rw [Trail.visitAll_cons_of_mem (mem_seen_trail.2 ‹_›), Trail.visitAll_nil]
  · rw [trail_explore, trail_enter,
      Trail.visitAll_cons_of_not_mem (mt mem_seen_trail.1 ‹_›), Trail.visitAll_nil]
    rfl

theorem trail_search : (search succs).trail = Trail.ofGraph succs := by
  have hunseen : ∀ v : Fin n, (Vector.replicate n false).get v = false := fun v =>
    Vector.getElem_replicate v.isLt
  have hstart : (⟨Vector.replicate n false, []⟩ : Progress n).trail = ⟨∅, []⟩ := by
    simp only [Progress.trail, hunseen, Bool.false_eq_true, Finset.filter_false, List.reverse_nil]
  have hroots : sources succs ++ List.finRange n = Trail.roots succs := by
    refine congrArg (· ++ List.finRange n) (List.filter_congr fun v _ => ?_)
    rw [Bool.eq_iff_iff]
    simp
  rw [search, hroots, Trail.ofGraph, ← hstart]
  exact (List.foldl_hom Progress.trail fun p root => (trail_visit p root).symm).symm

/-- The reverse post-order is the reverse of the post-order. -/
theorem reversePostOrder_eq (succs : Fin n → List (Fin n)) :
    reversePostOrder succs = (Trail.ofGraph succs).postOrder.reverse := by
  rw [← trail_search, reversePostOrder, Progress.trail, List.reverse_reverse]

/-! ## Successor lists over plain numbers -/

/-- Looking things up one after the other succeeds if each lookup does. -/
theorem exists_mapM_eq_some {α β : Type} {f : α → Option β} {R : α → β → Prop} {as : List α}
    (h : ∀ a ∈ as, ∃ b, f a = some b ∧ R a b) :
    ∃ bs, as.mapM f = some bs ∧ List.Forall₂ R as bs := by
  induction as with
  | nil => exact ⟨[], rfl, .nil⟩
  | cons a as ih =>
      obtain ⟨b, hb, hR⟩ := h a (by simp)
      obtain ⟨bs, hbs, hall⟩ := ih fun a' ha' => h a' (List.mem_cons_of_mem _ ha')
      exact ⟨b :: bs, by simp [hb, hbs], .cons hR hall⟩

/-- Lists with all successors in range are those of a graph. -/
theorem exists_ofLists? {rows : List (List Nat)}
    (h : ∀ row ∈ rows, ∀ v ∈ row, v < rows.length) :
    ∃ succs, ofLists? rows = some succs ∧ ∀ i, (succs i).map Fin.val = rows.get i := by
  have hrow : ∀ row ∈ rows, ∃ js, row.mapM (node? rows.length) = some js ∧
      row = js.map Fin.val := by
    intro row hmem
    have hnode : ∀ v ∈ row, ∃ j, node? rows.length v = some j ∧ v = j.val := fun v hv =>
      ⟨⟨v, h row hmem v hv⟩, dif_pos (h row hmem v hv), rfl⟩
    obtain ⟨js, hjs, hall⟩ := exists_mapM_eq_some hnode
    exact ⟨js, hjs, List.forall₂_eq_eq_eq ▸ List.forall₂_map_right_iff.2 hall⟩
  obtain ⟨table, htable, hall⟩ := exists_mapM_eq_some hrow
  refine ⟨_, by rw [ofLists?, htable]; rfl, fun i => ?_⟩
  have hi : i.val < table.length := hall.length_eq ▸ i.isLt
  simpa [hi] using (hall.get i.isLt hi).symm

/-- **The loop is the recursive search.**  For lists with all successors in range the loop
ends, from wherever it is started.  The positions are those in the reverse of the post-order
that the recursion gives when it visits the roots: nodes that have been seen are skipped, the
successors of any other are visited in order, and the node is appended behind them. -/
theorem numbering_eq_depthFirst (rows : List (List Nat))
    (h : ∀ row ∈ rows, ∀ v ∈ row, v < rows.length) :
    ∃ succs : Fin rows.length → List (Fin rows.length),
      ofLists? rows = some succs ∧ (∀ i, (succs i).map Fin.val = rows.get i) ∧
      (∀ c k, turnsLeft succs c ≤ k → (turn succs)^[k] c = (explore succs c.1 c.2, [])) ∧
      (∀ r v, Trail.visit succs r v =
        if v ∈ r.seen then r else ((succs v).foldl (Trail.visit succs) (r.enter v)).leave v) ∧
      positions? rows = some ((List.finRange rows.length).map fun i =>
        ((Trail.roots succs).foldl (Trail.visit succs) ⟨∅, []⟩).postOrder.reverse.idxOf i) := by
  obtain ⟨succs, hsuccs, hrows⟩ := exists_ofLists? h
  refine ⟨succs, hsuccs, hrows, fun c k => iterate_turn, Trail.visit_eq succs, ?_⟩
  rw [positions?, hsuccs, Option.map_some, positions, reversePostOrder_eq, Vector.toList_ofFn,
    List.ofFn_eq_map]
  rfl

/-- The last node leads into a cycle of two, by way of repeated edges and of a node with an edge
to itself. -/
def tangled : List (List Nat) := [[1, 1, 2], [3], [2, 3], [1], [0]]

theorem numbering_eq_depthFirst_tangled :
    (∀ row ∈ tangled, ∀ v ∈ row, v < tangled.length) ∧
      ∃ succs : Fin tangled.length → List (Fin tangled.length),
        (∀ i, (succs i).map Fin.val = tangled.get i) ∧
        (∀ c, (turn succs)^[turnsLeft succs c] c = (explore succs c.1 c.2, [])) ∧
        positions? tangled = some ((List.finRange tangled.length).map fun i =>
          ((Trail.roots succs).foldl (Trail.visit succs) ⟨∅, []⟩).postOrder.reverse.idxOf i) := by
  have hrange : ∀ row ∈ tangled, ∀ v ∈ row, v < tangled.length := by decide
  obtain ⟨succs, -, hrows, hends, -, hpositions⟩ := numbering_eq_depthFirst tangled hrange
  exact ⟨hrange, succs, hrows, fun c => hends c _ (Nat.le_refl _), hpositions⟩

end PostOrder

end ProgramFlow
