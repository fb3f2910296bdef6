import Mathlib.Logic.Relation
import ProgramFlow.Proofs.DepthFirst

/-!
# Reverse post-orders are topological, as far as cycles allow

While a search runs, a node is *open* if it has been seen and not been left yet.  Every node
that is visited meanwhile can be reached from all open ones.  So when a node is left, each of
its successors has been left before or is open, and an open one leads back to the node.  Read
from the end, the post-order therefore lists the successors of a node behind it, those apart
that the node can be reached from.

* `Reaches` — there is a path from one node to another.
* `Trail.Open`, `Trail.Orderly` — what holds of the trail of a search at any time.
* `Trail.Completes`, `Trail.Orderly.completes` — visiting keeps a trail orderly, sees what it
  should, and leaves open what was open.
* `Settled` — successors come later, or lead back; `settled_reversePostOrder` and
  `reversePostOrder_perm` say what the order is like.
* `numbering_topological` — what the positions tell about an edge.
-/

namespace ProgramFlow

namespace PostOrder

variable {n : Nat} {succs : Fin n → List (Fin n)}

/-- There is a path from the first node to the second. -/
def Reaches (succs : Fin n → List (Fin n)) : Fin n → Fin n → Prop :=
  Relation.ReflTransGen fun u v => v ∈ succs u

/-- Each node stands before its successors, those apart that lead back to it. -/
inductive Settled (succs : Fin n → List (Fin n)) : List (Fin n) → Prop where
  | nil : Settled succs []
  | cons {u : Fin n} {later : List (Fin n)} (hsuccs : ∀ v ∈ succs u, v ∈ later ∨ Reaches succs v u)
      (hlater : Settled succs later) : Settled succs (u :: later)

/-! ## What a search keeps -/

namespace Trail

/-- The node has been seen and not been left. -/
def Open (r : Trail n) (v : Fin n) : Prop := v ∈ r.seen ∧ v ∉ r.postOrder

/-- The nodes that have been left were seen, are listed once, and are settled from the end. -/
structure Orderly (succs : Fin n → List (Fin n)) (r : Trail n) : Prop where
  seen : ∀ v ∈ r.postOrder, v ∈ r.seen
  nodup : r.postOrder.Nodup
  settled : Settled succs r.postOrder.reverse

variable {r : Trail n} {v : Fin n} {vs : List (Fin n)}

theorem open_enter (hr : r.Orderly succs) (hv : v ∉ r.seen) {g : Fin n} :
    (r.enter v).Open g ↔ g = v ∨ r.Open g := by
  have hpost : v ∉ r.postOrder := fun hmem => hv (hr.seen v hmem)
  simp only [Open, enter, Finset.mem_insert]
  constructor
  · rintro ⟨rfl | hseen, hleft⟩
    · exact Or.inl rfl
    · exact Or.inr ⟨hseen, hleft⟩
  · rintro (rfl | ⟨hseen, hleft⟩)
    · exact ⟨Or.inl rfl, hpost⟩
    · exact ⟨Or.inr hseen, hleft⟩

theorem open_leave {g : Fin n} : (r.leave v).Open g ↔ r.Open g ∧ g ≠ v := by
  simp [Open, leave, and_assoc]

theorem Orderly.enter (hr : r.Orderly succs) (v : Fin n) : (r.enter v).Orderly succs where
  seen u hu := Finset.mem_insert_of_mem (hr.seen u hu)
  nodup := hr.nodup
  settled := hr.settled

/-- An open node may be left if all its successors have been seen, and the open ones of them
lead back. -/
theorem Orderly.leave (hr : r.Orderly succs) (hv : r.Open v) (hsuccs : ∀ w ∈ succs v, w ∈ r.seen)
    (hback : ∀ w ∈ succs v, r.Open w → Reaches succs w v) : (r.leave v).Orderly succs where
  seen u hu := by
    rcases List.mem_append.1 hu with hu | hu
    · exact hr.seen u hu
    · rw [List.mem_singleton.1 hu]
      exact hv.1
  nodup := List.nodup_append.2 ⟨hr.nodup, List.nodup_singleton v, by
    intro a ha b hb hab
    exact hv.2 (List.mem_singleton.1 hb ▸ hab ▸ ha)⟩
  settled := by
    show Settled succs (r.postOrder ++ [v]).reverse
    rw [List.reverse_append, List.reverse_singleton, List.singleton_append]
    refine .cons (fun w hw => ?_) hr.settled
    by_cases hleft : w ∈ r.postOrder
    · exact Or.inl (List.mem_reverse.2 hleft)
    · exact Or.inr (hback w hw ⟨hsuccs w hw, hleft⟩)

/-- What visiting the nodes of a list makes of a trail: it is orderly, the nodes have been seen,
and the same nodes are open as before. -/
structure Completes (succs : Fin n → List (Fin n)) (vs : List (Fin n)) (r r' : Trail n) : Prop where
  orderly : r'.Orderly succs
  seen : ∀ v ∈ vs, v ∈ r'.seen
  open_iff : ∀ g, r'.Open g ↔ r.Open g

/-- A node is entered, its successors are visited, and it is left.  A successor that is open
by then is the node itself, or it was open before and leads to the node. -/
theorem Completes.leave {below : Trail n} (h : Completes succs (succs v) (r.enter v) below)
    (hr : r.Orderly succs) (hv : v ∉ r.seen) (hopen : ∀ g, r.Open g → Reaches succs g v) :
    Completes succs [v] r (below.leave v) := by
  have hbelow : ∀ g, below.Open g ↔ g = v ∨ r.Open g := fun g =>
    (h.open_iff g).trans (open_enter hr hv)
  have hself : below.Open v := (hbelow v).2 (Or.inl rfl)
  refine ⟨h.orderly.leave hself h.seen fun w _ hw => ?_, by simpa [Trail.leave] using hself.1,
    fun g => ?_⟩
  · rcases (hbelow w).1 hw with rfl | hw
    · exact .refl
    · exact hopen w hw
  · rw [open_leave, hbelow]
    constructor
    · rintro ⟨hg | hg, hne⟩
      · exact absurd hg hne
      · exact hg
    · intro hg
      exact ⟨Or.inr hg, fun hgv => hv (hgv ▸ hg.1)⟩

/-- **What visiting does.**  The induction follows the recursion.  It is carried by all open
nodes leading to the ones to be visited: the node that is entered is open while its
successors are visited, and leads to them. -/
theorem Orderly.completes (hr : r.Orderly succs)
    (hopen : ∀ g, r.Open g → ∀ v ∈ vs, Reaches succs g v) :
    Completes succs vs r (r.visitAll succs vs) := by
  induction r, vs using visitAll_induction succs with
  | nil r => exact ⟨by simpa using hr, by simp, by simp⟩
  | skip r v vs hv ih =>
      have hrest := ih hr fun g hg w hw => hopen g hg w (by simp [hw])
      rw [visitAll_cons_of_mem hv]
      exact ⟨hrest.orderly,
        List.forall_mem_cons.2 ⟨subset_visitAll succs r vs hv, hrest.seen⟩, hrest.open_iff⟩
  | enter r v vs hv ihbelow ihrest =>
      have hbelow := ihbelow (hr.enter v) (by
        intro g hg w hw
        rcases (open_enter hr hv).1 hg with rfl | hg
        · exact .single hw
        · exact (hopen g hg v (by simp)).tail hw)
      have hnode := hbelow.leave hr hv fun g hg => hopen g hg v (by simp)
      have hrest := ihrest hnode.orderly fun g hg w hw =>
        hopen g ((hnode.open_iff g).1 hg) w (by simp [hw])
      have hv' := subset_visitAll succs _ vs (hnode.seen v (by simp))
      rw [visitAll_cons_of_not_mem hv]
      exact ⟨hrest.orderly, List.forall_mem_cons.2 ⟨hv', hrest.seen⟩,
        fun g => (hrest.open_iff g).trans (hnode.open_iff g)⟩

/-- The whole search leaves every node, and in an orderly way. -/
theorem orderly_ofGraph (succs : Fin n → List (Fin n)) :
    (ofGraph succs).Orderly succs ∧ ∀ v, v ∈ (ofGraph succs).postOrder := by
  have hstart : (⟨∅, []⟩ : Trail n).Orderly succs :=
    ⟨by simp, List.nodup_nil, .nil⟩
  have hopen : ∀ g, (⟨∅, []⟩ : Trail n).Open g → ∀ v ∈ roots succs, Reaches succs g v := by
    simp [Open]
  have hall : Completes succs (roots succs) ⟨∅, []⟩ (ofGraph succs) := by
    rw [ofGraph, ← visitAll_eq_foldl]
    exact hstart.completes hopen
  refine ⟨hall.orderly, fun v => ?_⟩
  have hroot : v ∈ roots succs := List.mem_append_right _ (List.mem_finRange v)
  have hclosed : ¬ (ofGraph succs).Open v := fun hv => by simpa [Open] using (hall.open_iff v).1 hv
  exact not_not.1 fun hleft => hclosed ⟨hall.seen v hroot, hleft⟩

end Trail

/-! ## The order -/

theorem nodup_reversePostOrder (succs : Fin n → List (Fin n)) :
    (reversePostOrder succs).Nodup := by
  rw [reversePostOrder_eq, List.nodup_reverse]
  exact (Trail.orderly_ofGraph succs).1.nodup

theorem mem_reversePostOrder (succs : Fin n → List (Fin n)) (v : Fin n) :
    v ∈ reversePostOrder succs := by
  rw [reversePostOrder_eq, List.mem_reverse]
  exact (Trail.orderly_ofGraph succs).2 v

/-- Every node is listed once. -/
theorem reversePostOrder_perm (succs : Fin n → List (Fin n)) :
    (reversePostOrder succs).Perm (List.finRange n) := by
  refine (List.perm_ext_iff_of_nodup (nodup_reversePostOrder succs) (List.nodup_finRange n)).2 ?_
  intro v
  exact iff_of_true (mem_reversePostOrder succs v) (List.mem_finRange v)

theorem length_reversePostOrder (succs : Fin n → List (Fin n)) :
    (reversePostOrder succs).length = n := by
  rw [(reversePostOrder_perm succs).length_eq, List.length_finRange]

/-- **Successors come later, or lead back.** -/
theorem settled_reversePostOrder (succs : Fin n → List (Fin n)) :
    Settled succs (reversePostOrder succs) := by
  rw [reversePostOrder_eq]
  exact (Trail.orderly_ofGraph succs).1.settled

namespace Settled

variable {order : List (Fin n)} {u v : Fin n}

theorem mem_later {before later : List (Fin n)} (h : Settled succs (before ++ u :: later))
    (hv : v ∈ succs u) (hback : ¬ Reaches succs v u) : v ∈ later := by
  induction before with
  | nil =>
      cases h with
      | cons hsuccs _ => exact (hsuccs v hv).resolve_right hback
  | cons w before ih =>
      cases h with
      | cons _ hlater => exact ih hlater

/-- In a settled order without repetitions, a node stands before a successor that does not
lead back to it. -/
theorem idxOf_lt (h : Settled succs order) (hnodup : order.Nodup) (hu : u ∈ order)
    (hv : v ∈ succs u) (hback : ¬ Reaches succs v u) : order.idxOf u < order.idxOf v := by
  obtain ⟨before, later, rfl⟩ := List.append_of_mem hu
  obtain ⟨-, hrest, hapart⟩ := List.nodup_append.1 hnodup
  have hlater : v ∈ later := h.mem_later hv hback
  have hne : u ≠ v := fun huv => (List.nodup_cons.1 hrest).1 (huv ▸ hlater)
  have hu' : u ∉ before := fun hmem => hapart u hmem u (by simp) rfl
  have hv' : v ∉ before := fun hmem => hapart v hmem v (by simp [hlater]) rfl
  rw [List.idxOf_append_of_notMem hu', List.idxOf_append_of_notMem hv', List.idxOf_cons_self,
    List.idxOf_cons_ne _ hne]
  omega

end Settled

/-! ## Positions -/

theorem get_positions (succs : Fin n → List (Fin n)) (v : Fin n) :
    (positions succs).get v = (reversePostOrder succs).idxOf v :=
  Vector.getElem_ofFn v.isLt

/-- The positions are the numbers below `n`, each of them once. -/
theorem positions_perm (succs : Fin n → List (Fin n)) :
    (positions succs).toList.Perm (List.range n) := by
  have hself : (reversePostOrder succs).map (reversePostOrder succs).idxOf = List.range n := by
    refine List.ext_getElem (by simp [length_reversePostOrder]) fun i hi _ => ?_
    rw [List.length_map] at hi
    rw [List.getElem_map, List.getElem_range, (nodup_reversePostOrder succs).idxOf_getElem i hi]
  rw [positions, Vector.toList_ofFn, List.ofFn_eq_map, ← hself]
  exact (reversePostOrder_perm succs).symm.map _

/-- Along the order the positions rise. -/
theorem pairwise_positions (succs : Fin n → List (Fin n)) :
    (reversePostOrder succs).Pairwise fun u v =>
      (positions succs).get u < (positions succs).get v := by
  have hnodup := nodup_reversePostOrder succs
  rw [List.pairwise_iff_getElem]
  intro i j hi hj hij
  rw [get_positions, get_positions, hnodup.idxOf_getElem i hi, hnodup.idxOf_getElem j hj]
  exact hij

theorem positions_inj {u v : Fin n} :
    (positions succs).get u = (positions succs).get v ↔ u = v := by
  rw [get_positions, get_positions]
  exact List.idxOf_inj (mem_reversePostOrder succs u)

theorem positions_lt {u v : Fin n} (hv : v ∈ succs u) (hback : ¬ Reaches succs v u) :
    (positions succs).get u < (positions succs).get v := by
  rw [get_positions, get_positions]
  exact (settled_reversePostOrder succs).idxOf_lt (nodup_reversePostOrder succs)
    (mem_reversePostOrder succs u) hv hback

/-! ## Successor lists over plain numbers -/

/-- The row of the first number holds the second one. -/
def Points (rows : List (List Nat)) (u v : Nat) : Prop := v ∈ rows[u]?.getD []

instance (rows : List (List Nat)) (u v : Nat) : Decidable (Points rows u v) :=
  inferInstanceAs (Decidable (v ∈ rows[u]?.getD []))

/-- The first number has a smaller position than the second one. -/
def Before (order : List Nat) (u v : Nat) : Prop :=
  ∃ i j, order[u]? = some i ∧ order[v]? = some j ∧ i < j

theorem points_iff {rows : List (List Nat)} {succs : Fin rows.length → List (Fin rows.length)}
    (hrows : ∀ i, (succs i).map Fin.val = rows.get i) {u v : Fin rows.length} :
    Points rows u v ↔ v ∈ succs u := by
  have hrow : rows[u.val]?.getD [] = (succs u).map Fin.val := by
    rw [hrows u, List.getElem?_eq_getElem u.isLt]
    rfl
  rw [Points, hrow]
  exact List.mem_map_of_injective Fin.val_injective

theorem Points.lt_length {rows : List (List Nat)}
    (h : ∀ row ∈ rows, ∀ v ∈ row, v < rows.length) {u v : Nat} (huv : Points rows u v) :
    u < rows.length ∧ v < rows.length := by
  cases hrow : rows[u]? with
  | none => simp [Points, hrow] at huv
  | some row =>
      obtain ⟨hu, hget⟩ := List.getElem?_eq_some_iff.1 hrow
      refine ⟨hu, h row (hget ▸ List.getElem_mem hu) v ?_⟩
      simpa [Points, hrow] using huv

theorem before_positions {u v : Fin n} (h : (positions succs).get u < (positions succs).get v) :
    Before (positions succs).toList u v := by
  refine ⟨_, _, ?_, ?_, h⟩
  · rw [Vector.getElem?_toList, Vector.getElem?_eq_getElem u.isLt]
    rfl
  · rw [Vector.getElem?_toList, Vector.getElem?_eq_getElem v.isLt]
    rfl

/-- **The positions are a permutation, and topological as far as cycles allow.**  An edge goes
to a greater position unless it can be followed back; if there are no cycles, then every edge
does. -/
theorem numbering_topological (rows : List (List Nat))
    (h : ∀ row ∈ rows, ∀ v ∈ row, v < rows.length) :
    ∃ order, positions? rows = some order ∧ order.Perm (List.range rows.length) ∧
      (∀ u v, Points rows u v → ¬ Relation.ReflTransGen (Points rows) v u → Before order u v) ∧
      ((∀ u, ¬ Relation.TransGen (Points rows) u u) → ∀ u v, Points rows u v →
        Before order u v) := by
  obtain ⟨succs, hsuccs, hrows⟩ := exists_ofLists? h
  have hbefore : ∀ u v, Points rows u v → ¬ Relation.ReflTransGen (Points rows) v u →
      Before (positions succs).toList u v := by
    intro u v huv hback
    obtain ⟨hu, hv⟩ := huv.lt_length h
    lift u to Fin rows.length using hu
    lift v to Fin rows.length using hv
    refine before_positions (positions_lt ((points_iff hrows).1 huv) fun hreach => hback ?_)
    exact hreach.lift Fin.val fun a b hab => (points_iff hrows).2 hab
  refine ⟨(positions succs).toList, by rw [positions?, hsuccs, Option.map_some],
    positions_perm succs, hbefore, fun hacyclic u v huv => ?_⟩
  exact hbefore u v huv fun hback => hacyclic u (.head' huv hback)

theorem not_reaches_tangled : ¬ Relation.ReflTransGen (Points tangled) 3 2 := by
  -- the nodes 1 and 3 only point to each other
  have hcycle : ∀ v, Relation.ReflTransGen (Points tangled) 3 v → v = 1 ∨ v = 3 := by
    intro v hv
    induction hv with
    | refl => exact Or.inr rfl
    | tail _ hpoints ih =>
        rcases ih with rfl | rfl
        · exact Or.inr (by simpa [Points, tangled] using hpoints)
        · exact Or.inl (by simpa [Points, tangled] using hpoints)
  intro h
  simpa using hcycle 2 h

/-- All edges go to smaller numbers. -/
def descending : List (List Nat) := [[], [0], [1, 0], [1, 2, 1]]

theorem acyclic_descending (u : Nat) : ¬ Relation.TransGen (Points descending) u u := by
  have hall : ∀ u < descending.length, ∀ v < descending.length,
      Points descending u v → v < u := by decide
  have hedge : ∀ u v, Points descending u v → v < u := by
    intro u v huv
    obtain ⟨hu, hv⟩ := huv.lt_length (by decide)
    exact hall u hu v hv huv
  intro h
  have hlt : u > u := Relation.transGen_minimal (fun a b => hedge a b) u u h
  exact Nat.lt_irrefl u hlt

theorem numbering_topological_tangled :
    (∀ row ∈ tangled, ∀ v ∈ row, v < tangled.length) ∧
      (∃ order, positions? tangled = some order ∧ order.Perm (List.range tangled.length) ∧
        Before order 2 3) ∧
      (∀ row ∈ descending, ∀ v ∈ row, v < descending.length) ∧
      ∃ order, positions? descending = some order ∧ Before order 3 1 := by
  have hrange : ∀ row ∈ tangled, ∀ v ∈ row, v < tangled.length := by decide
  have hrange' : ∀ row ∈ descending, ∀ v ∈ row, v < descending.length := by decide
  obtain ⟨order, hvalue, hperm, hbefore, -⟩ := numbering_topological tangled hrange
  obtain ⟨order', hvalue', -, -, hbefore'⟩ := numbering_topological descending hrange'
  refine ⟨hrange, ⟨order, hvalue, hperm, ?_⟩, hrange', order', hvalue', ?_⟩
  · exact hbefore 2 3 (by decide) not_reaches_tangled
  · exact hbefore' acyclic_descending 3 1 (by decide)

end PostOrder

end ProgramFlow
