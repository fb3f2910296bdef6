import Mathlib.Order.Bounds.Basic
import ProgramFlow.Proofs.Closure
import ProgramFlow.Proofs.PlainGraph

/-!
# Slices list their nodes breadth first

A closure promises an order and not only a set of nodes.  The seeds come first; then nodes
that are nearer to the seeds come before nodes that are further away; and of two nodes that
are no seeds, the one that was found from an earlier node comes first, or the one that the
node from which both were found lists first.

All of it follows from one invariant of the search.  A node that is found now is found from
the node at the present position: an earlier node that leads to it would have been expanded,
and would have found it.  So the positions from which nodes were found never decrease
along the slice (`Queued.append`).  Depths do not either, since the depth of a node is one
more than that of the node it was found from; and no path can be shorter than that, because
its last but one node comes no earlier than the first one with an edge to the last.

* `Slice.Steps`, `Slice.Distance` — how far a node is from the seeds.
* `Slice.FoundFrom` — the position of the first node that leads to a node.
* `Slice.Queued`, `Slice.Queued.append`, `Slice.exists_queued` — what the search keeps.
* `Slice.Depth`, `Slice.Queued.distance_of_depth` — depths in the slice are distances.
* `Slice.BreadthFirst`, `Labelled.closure_breadthFirst` — the order of closures.
-/

namespace ProgramFlow

variable {ν κ : Type}

/-- The neighbours to which a direction leads. -/
def Graph.neighbours (g : Graph ν κ) : Direction → ν → Lookup ν (List ν)
  | .forward => g.succs
  | .backward => g.preds

theorem Slice.succs_facing (g : Graph ν κ) (direction : Direction) :
    (facing direction g).succs = g.neighbours direction := by
  cases direction <;> rfl

namespace Slice

/-! ## Distances and first parents -/

/-- Some seed leads to the node in the given number of steps. -/
inductive Steps (R : ν → ν → Prop) (seeds : List ν) : Nat → ν → Prop
  | seed {s : ν} (h : s ∈ seeds) : Steps R seeds 0 s
  | step {n : Nat} {a b : ν} (h : Steps R seeds n a) (hab : R a b) : Steps R seeds (n + 1) b

/-- The least number of steps that lead to the node from the seeds. -/
def Distance (R : ν → ν → Prop) (seeds : List ν) (x : ν) (d : Nat) : Prop :=
  IsLeast {n | Steps R seeds n x} d

/-- The position of the earliest node of the slice that leads to the node. -/
def FoundFrom (R : ν → ν → Prop) (slice : Slice ν) (x : ν) (k : Nat) : Prop :=
  IsLeast {k | ∃ p, slice.get? k = some p ∧ R p x} k

/-- The first node was found from an earlier node than the second, or both were found from
the same node and the first is listed before the second among its neighbours. -/
def FoundBefore (R : ν → ν → Prop) (neighbours : ν → Lookup ν (List ν)) (slice : Slice ν)
    (x y : ν) : Prop :=
  ∃ k m, FoundFrom R slice x k ∧ FoundFrom R slice y m ∧
    (k < m ∨ k = m ∧ ∃ p ns, slice.get? k = some p ∧ neighbours p = .ok ns ∧ [x, y].Sublist ns)

section Extend

variable {R : ν → ν → Prop} {neighbours : ν → Lookup ν (List ν)} {slice larger : Slice ν}

/-- Later nodes do not change which node is the earliest. -/
theorem FoundFrom.extend {x : ν} {k : Nat} (h : FoundFrom R slice x k)
    (hext : slice.toList <+: larger.toList) : FoundFrom R larger x k := by
  obtain ⟨⟨p, hp, hpx⟩, hleast⟩ := h
  refine ⟨⟨p, Roster.get?_of_extends hext hp, hpx⟩, ?_⟩
  rintro m ⟨q, hq, hqx⟩
  by_contra hmk
  have hlt : m < slice.size := by
    have hk := Roster.lt_size_of_get? hp
    omega
  obtain ⟨q', hq'⟩ := Roster.exists_get? hlt
  obtain rfl : q' = q := Option.some.inj ((Roster.get?_of_extends hext hq').symm.trans hq)
  exact hmk (hleast ⟨q', hq', hqx⟩)

theorem FoundBefore.extend {x y : ν} (h : FoundBefore R neighbours slice x y)
    (hext : slice.toList <+: larger.toList) : FoundBefore R neighbours larger x y := by
  obtain ⟨k, m, hx, hy, hkm⟩ := h
  refine ⟨k, m, hx.extend hext, hy.extend hext, ?_⟩
  rcases hkm with hlt | ⟨heq, p, ns, hp, hns, hxy⟩
  · exact Or.inl hlt
  · exact Or.inr ⟨heq, p, ns, Roster.get?_of_extends hext hp, hns, hxy⟩

end Extend

/-! ## What the search keeps -/

variable [DecidableEq ν]

/-- The seeds come first, and the others are listed in the order in which they were found
from nodes before the position. -/
structure Queued (R : ν → ν → Prop) (neighbours : ν → Lookup ν (List ν)) (seeds : List ν)
    (slice : Slice ν) (i : Nat) : Prop where
  starts : seeds.eraseDups <+: slice.toList
  found : ∀ j x, slice.get? j = some x → x ∉ seeds →
    ∃ k, FoundFrom R slice x k ∧ k < i ∧ k < j
  ordered : slice.toList.Pairwise fun x y => x ∉ seeds → y ∉ seeds →
    FoundBefore R neighbours slice x y

/-- **What one step appends comes last in the order.**  It is found from the position, while
all that was there is found from before; and it is in the order of the neighbours there. -/
theorem Queued.append {R : ν → ν → Prop} {neighbours : ν → Lookup ν (List ν)} {seeds : List ν}
    {slice larger : Slice ν} {i : Nat} {n : ν} {new ns : List ν}
    (h : Queued R neighbours seeds slice i) (hlist : larger.toList = slice.toList ++ new)
    (hi : slice.get? i = some n) (hns : neighbours n = .ok ns) (hsub : new.Sublist ns)
    (hnew : ∀ x ∈ new, FoundFrom R slice x i) : Queued R neighbours seeds larger (i + 1) := by
  have hext : slice.toList <+: larger.toList := ⟨new, hlist.symm⟩
  have hsize : i < slice.size := Roster.lt_size_of_get? hi
  refine ⟨h.starts.trans hext, ?_, ?_⟩
  · intro j x hj hx
    rw [Roster.get?, hlist] at hj
    rcases Nat.lt_or_ge j slice.size with hlt | hge
    · rw [List.getElem?_append_left hlt] at hj
      obtain ⟨k, hk, hki, hkj⟩ := h.found j x hj hx
      exact ⟨k, hk.extend hext, by omega, hkj⟩
    · rw [List.getElem?_append_right hge] at hj
      exact ⟨i, (hnew x (List.mem_of_getElem? hj)).extend hext, by omega, by omega⟩
  · rw [hlist, List.pairwise_append]
    refine ⟨?_, ?_, ?_⟩
    · exact h.ordered.imp fun hxy hx hy => (hxy hx hy).extend hext
    · -- both are new
      rw [List.pairwise_iff_forall_sublist]
      intro x y hxy _ _
      have hmem : x ∈ new ∧ y ∈ new := by simpa using hxy.subset
      exact ⟨i, i, (hnew x hmem.1).extend hext, (hnew y hmem.2).extend hext,
        Or.inr ⟨rfl, n, ns, Roster.get?_of_extends hext hi, hns, hxy.trans hsub⟩⟩
    · -- only the second is new
      intro x hx y hy hxseed _
      obtain ⟨j, hj⟩ := Roster.mem_iff_get?.1 hx
      obtain ⟨k, hk, hki, -⟩ := h.found j x hj hxseed
      exact ⟨k, i, hk.extend hext, (hnew y hy).extend hext, Or.inl hki⟩

theorem queued_ofList (R : ν → ν → Prop) (neighbours : ν → Lookup ν (List ν))
    (seeds : List ν) : Queued R neighbours seeds (.ofList seeds) 0 := by
  have hseed : ∀ x ∈ (Roster.ofList seeds).toList, x ∈ seeds := fun x hx => Roster.mem_ofList.1 hx
  refine ⟨?_, ?_, ?_⟩
  · rw [Roster.toList_ofList]
  · intro j x hj hx
    exact absurd (hseed x (List.mem_of_getElem? hj)) hx
  · rw [List.pairwise_iff_forall_sublist]
    intro x y hxy hx _
    exact absurd (hseed x (hxy.subset (by simp))) hx

section Search

variable {g : Graph ν κ} {follow : ν → ν → Bool}

omit [DecidableEq ν] in
/-- No node before the position leads to a node that is not in the slice, so that such a
node is found from the position. -/
theorem Done.foundFrom {slice : Slice ν} {i : Nat} {n x : ν} (hdone : Done g follow slice i)
    (hi : slice.get? i = some n) (hx : x ∉ slice) (hedge : Edge g follow n x) :
    FoundFrom (Edge g follow) slice x i := by
  refine ⟨⟨n, hi, hedge⟩, ?_⟩
  rintro m ⟨q, hq, hqx⟩
  by_contra hmi
  exact hx (hdone m (by omega) q hq x hqx)

/-- One step of the search. -/
theorem Queued.succ {seeds : List ν} {slice : Slice ν} {i : Nat} {n : ν} {ss : List ν}
    (h : Queued (Edge g follow) g.succs seeds slice i) (hdone : Done g follow slice i)
    (hi : slice.get? i = some n) (hss : g.succs n = .ok ss) :
    Queued (Edge g follow) g.succs seeds
      (slice.insertAll (ss.filter fun s => s ≠ n ∧ follow n s)) (i + 1) := by
  obtain ⟨new, hlist, hsub, hnew⟩ :=
    slice.exists_toList_insertAll (ss.filter fun s => s ≠ n ∧ follow n s)
  refine h.append hlist hi hss (hsub.trans List.filter_sublist) ?_
  intro x hx
  have hx' := List.mem_filter.1 (hsub.subset hx)
  simp only [decide_eq_true_eq] at hx'
  exact hdone.foundFrom hi (hnew x hx) ⟨⟨ss, hss, hx'.1⟩, hx'.2.2⟩

/-- **The whole search.** -/
theorem exists_queued {seeds : List ν} {out : Slice ν}
    (h : expand g follow (.ofList seeds) 0 = .ok out) :
    ∃ i, Queued (Edge g follow) g.succs seeds out i := by
  have hstart : Done g follow (.ofList seeds) 0 := fun j hj => absurd hj (Nat.not_lt_zero j)
  obtain ⟨i, -, hqueued⟩ := expand_induction
    (P := fun slice i => Done g follow slice i ∧ Queued (Edge g follow) g.succs seeds slice i) h
    ⟨hstart, queued_ofList _ _ seeds⟩
    fun slice i n ss hP hi hss => ⟨hP.1.succ hi hss, hP.2.succ hP.1 hi hss⟩
  exact ⟨i, hqueued⟩

end Search

/-! ## Depths -/

/-- The depth of the node at a position: zero for a seed, and otherwise one more than the
depth of the earliest node that leads to it. -/
inductive Depth (R : ν → ν → Prop) (seeds : List ν) (slice : Slice ν) : Nat → Nat → Prop
  | seed {j : Nat} {s : ν} (hj : slice.get? j = some s) (hs : s ∈ seeds) : Depth R seeds slice j 0
  | child {j k d : Nat} {x : ν} (hj : slice.get? j = some x) (hx : x ∉ seeds)
      (hk : FoundFrom R slice x k) (h : Depth R seeds slice k d) : Depth R seeds slice j (d + 1)

namespace Queued

variable {R : ν → ν → Prop} {neighbours : ν → Lookup ν (List ν)} {seeds : List ν}
  {slice : Slice ν} {i : Nat}

/-- Nothing stands before a seed but seeds. -/
theorem mem_seeds_of_le (h : Queued R neighbours seeds slice i) {j l : Nat} {x s : ν}
    (hjl : j ≤ l) (hj : slice.get? j = some x) (hl : slice.get? l = some s) (hs : s ∈ seeds) :
    x ∈ seeds := by
  obtain ⟨m, hm⟩ := List.mem_iff_getElem?.1 (List.mem_eraseDups.2 hs)
  obtain ⟨hlt, hget⟩ := List.getElem?_eq_some_iff.1 hm
  have hm' : slice.get? m = some s := by
    rw [← hget]
    exact List.prefix_iff_getElem?.1 h.starts m hlt
  obtain rfl : m = l := Roster.get?_inj hm' hl
  have hj' := List.prefix_iff_getElem?.1 h.starts j (by omega)
  obtain rfl : x = _ := Option.some.inj (hj.symm.trans hj')
  exact List.mem_eraseDups.1 (List.getElem_mem _)

/-- Of two nodes that are no seeds, the later one was not found from an earlier node. -/
theorem foundFrom_le (h : Queued R neighbours seeds slice i) {j l k m : Nat} {x y : ν}
    (hjl : j ≤ l) (hj : slice.get? j = some x) (hl : slice.get? l = some y) (hx : x ∉ seeds)
    (hy : y ∉ seeds) (hk : FoundFrom R slice x k) (hm : FoundFrom R slice y m) : k ≤ m := by
  rcases Nat.eq_or_lt_of_le hjl with rfl | hlt
  · obtain rfl : x = y := Option.some.inj (hj.symm.trans hl)
    exact Nat.le_of_eq (hk.unique hm)
  · obtain ⟨hjsize, rfl⟩ := List.getElem?_eq_some_iff.1 hj
    obtain ⟨hlsize, rfl⟩ := List.getElem?_eq_some_iff.1 hl
    obtain ⟨k', m', hk', hm', hle⟩ :=
      List.pairwise_iff_getElem.1 h.ordered j l hjsize hlsize hlt hx hy
    rw [hk.unique hk', hm.unique hm']
    omega

theorem exists_depth (h : Queued R neighbours seeds slice i) {j : Nat} (hj : j < slice.size) :
    ∃ d, Depth R seeds slice j d := by
  induction j using Nat.strong_induction_on with
  | _ j ih =>
      obtain ⟨x, hx⟩ := Roster.exists_get? hj
      by_cases hseed : x ∈ seeds
      · exact ⟨0, .seed hx hseed⟩
      · obtain ⟨k, hk, -, hkj⟩ := h.found j x hx hseed
        obtain ⟨d, hd⟩ := ih k hkj (by omega)
        exact ⟨d + 1, .child hx hseed hk hd⟩

/-- **Depths do not decrease along the slice.** -/
theorem depth_le (h : Queued R neighbours seeds slice i) {j l d e : Nat} (hjl : j ≤ l)
    (hd : Depth R seeds slice j d) (he : Depth R seeds slice l e) : d ≤ e := by
  induction hd generalizing l e with
  | seed hj hs => exact Nat.zero_le e
  | child hj hx hk _ ih =>
      cases he with
      | seed hl hs => exact absurd (h.mem_seeds_of_le hjl hj hl hs) hx
      | child hl hy hm he =>
          have hkm := h.foundFrom_le hjl hj hl hx hy hk hm
          exact Nat.succ_le_succ (ih hkm he)

omit [DecidableEq ν] in
/-- As many steps as the depth says lead to a node. -/
theorem steps_of_depth {j d : Nat} (hd : Depth R seeds slice j d) {x : ν}
    (hj : slice.get? j = some x) : Steps R seeds d x := by
  induction hd generalizing x with
  | seed hs hmem =>
      obtain rfl := Option.some.inj (hs.symm.trans hj)
      exact .seed hmem
  | child hx _ hk _ ih =>
      obtain rfl := Option.some.inj (hx.symm.trans hj)
      obtain ⟨p, hp, hedge⟩ := hk.1
      exact .step (ih hp) hedge

/-- **No path is shorter than the depth.**  The last but one node of the path comes no
earlier than the first node that leads to the last one, so that it is at least as deep. -/
theorem exists_depth_le (h : Queued R neighbours seeds slice i)
    (hclosed : ∀ a ∈ slice, ∀ b, R a b → b ∈ slice) {n : Nat} {x : ν} (hn : Steps R seeds n x) :
    ∃ j d, slice.get? j = some x ∧ Depth R seeds slice j d ∧ d ≤ n := by
  induction hn with
  | seed hs =>
      obtain ⟨j, hj⟩ := Roster.mem_iff_get?.1 (h.starts.mem (List.mem_eraseDups.2 hs))
      exact ⟨j, 0, hj, .seed hj hs, Nat.le_refl 0⟩
  | step _ hab ih =>
      rename_i n a b _
      obtain ⟨l, e, hl, he, hen⟩ := ih
      obtain ⟨j, hj⟩ := Roster.mem_iff_get?.1 (hclosed a (Roster.mem_iff_get?.2 ⟨l, hl⟩) b hab)
      by_cases hb : b ∈ seeds
      · exact ⟨j, 0, hj, .seed hj hb, Nat.zero_le _⟩
      · obtain ⟨k, hk, -, hkj⟩ := h.found j b hj hb
        have hjsize : j < slice.size := Roster.lt_size_of_get? hj
        obtain ⟨d, hd⟩ := h.exists_depth (j := k) (by omega)
        have hkl : k ≤ l := hk.2 ⟨a, hl, hab⟩
        have hde : d ≤ e := h.depth_le hkl hd he
        exact ⟨j, d + 1, hj, .child hj hb hk hd, by omega⟩

/-- **Depths are distances.** -/
theorem distance_of_depth (h : Queued R neighbours seeds slice i)
    (hclosed : ∀ a ∈ slice, ∀ b, R a b → b ∈ slice) {j d : Nat} {x : ν}
    (hj : slice.get? j = some x) (hd : Depth R seeds slice j d) : Distance R seeds x d := by
  refine ⟨steps_of_depth hd hj, ?_⟩
  intro n hn
  obtain ⟨l, e, hl, he, hen⟩ := h.exists_depth_le hclosed hn
  obtain rfl : j = l := Roster.get?_inj hj hl
  exact Nat.le_trans (h.depth_le (Nat.le_refl j) hd he) hen

end Queued

/-! ## The order of a slice -/

/-- The slice lists what the seeds lead to: the seeds first, each at its first occurrence,
then the others by their distance, and whatever their distance in the order in which they
were found. -/
structure BreadthFirst (R : ν → ν → Prop) (neighbours : ν → Lookup ν (List ν)) (seeds : List ν)
    (slice : Slice ν) : Prop where
  mem_iff : ∀ x, x ∈ slice ↔ ∃ d, Distance R seeds x d
  starts : seeds.eraseDups <+: slice.toList
  sorted : slice.toList.Pairwise fun x y =>
    ∃ d e, Distance R seeds x d ∧ Distance R seeds y e ∧ d ≤ e
  ordered : slice.toList.Pairwise fun x y => x ∉ seeds → y ∉ seeds →
    FoundBefore R neighbours slice x y

theorem Queued.breadthFirst {R : ν → ν → Prop} {neighbours : ν → Lookup ν (List ν)}
    {seeds : List ν} {slice : Slice ν} {i : Nat} (h : Queued R neighbours seeds slice i)
    (hclosed : ∀ a ∈ slice, ∀ b, R a b → b ∈ slice) : BreadthFirst R neighbours seeds slice where
  mem_iff x := by
    constructor
    · intro hx
      obtain ⟨j, hj⟩ := Roster.mem_iff_get?.1 hx
      obtain ⟨d, hd⟩ := h.exists_depth (Roster.lt_size_of_get? hj)
      exact ⟨d, h.distance_of_depth hclosed hj hd⟩
    · rintro ⟨d, hd, -⟩
      obtain ⟨j, -, hj, -⟩ := h.exists_depth_le hclosed hd
      exact Roster.mem_iff_get?.2 ⟨j, hj⟩
  starts := h.starts
  sorted := by
    rw [List.pairwise_iff_getElem]
    intro j l hj hl hjl
    obtain ⟨d, hd⟩ := h.exists_depth hj
    obtain ⟨e, he⟩ := h.exists_depth hl
    refine ⟨d, e, ?_, ?_, h.depth_le (Nat.le_of_lt hjl) hd he⟩
    · exact h.distance_of_depth hclosed (List.getElem?_eq_getElem hj) hd
    · exact h.distance_of_depth hclosed (List.getElem?_eq_getElem hl) he
  ordered := h.ordered

/-- Searches in sound graphs succeed and list their nodes in order. -/
theorem exists_reach_breadthFirst {g : Graph ν κ} (hg : g.Sound) (follow : ν → ν → Bool)
    {seeds : List ν} (hseeds : ∀ s ∈ seeds, g.contains s = true) :
    ∃ slice, reach g follow seeds = .ok slice ∧
      BreadthFirst (Edge g follow) g.succs seeds slice := by
  obtain ⟨slice, hexpand, hexp⟩ := exists_expand hg.closed follow (.ofList seeds) 0
    (fun s hs => (hg.contains_iff s).1 (hseeds s (Roster.mem_ofList.1 hs)))
    (fun j hj => absurd hj (Nat.not_lt_zero j))
  obtain ⟨i, hqueued⟩ := exists_queued hexpand
  refine ⟨slice, ?_, hqueued.breadthFirst hexp.closed⟩
  exact bind_eq_ok_iff.2 ⟨.ofList seeds, ofSeeds_eq_ok_iff.2 ⟨hseeds, rfl⟩, hexpand⟩

end Slice

/-- **Closures list their nodes breadth first.**  A closure of nodes of a reachable store
starts with the distinct seeds in their order.  The distance from the seeds along accepted
edges does not decrease from one node to a later one.  Of two nodes that are no seeds, the
first one has its earliest accepted edge from an earlier node of the slice than the second,
or both have it from the same node, and the first stands before the second among the
neighbours of that node. -/
theorem Labelled.closure_breadthFirst [DecidableEq ν] (g : Labelled ν Dependence)
    (hg : g.Reachable) (seeds : List ν) (hseeds : ∀ s ∈ seeds, g.graph.contains s = true)
    (direction : Direction) (policy : Policy) :
    ∃ slice, Slice.closure g.graph seeds direction policy = .ok slice ∧
      Slice.BreadthFirst (g.graph.Follows policy direction) (g.graph.neighbours direction) seeds
        slice := by
  have hsound := Slice.sound_facing hg.sound direction
  rw [← Slice.edge_facing, ← Slice.succs_facing]
  refine Slice.exists_reach_breadthFirst hsound _ ?_
  intro s hs
  rw [Slice.contains_facing]
  exact hseeds s hs

/-- Two ways from the second statement to the sixth, and a dependence that is not followed
straight to it. -/
def Labelled.crossing : Labelled Nat Dependence :=
  ((((((empty.connect 2 4 .value).connect 2 3 .heap).connect 1 3 .cast).connect 1 5
    .value).connect 4 6 .value).connect 3 6 .value).connect 2 6 .control

/-- What the second and the first statement lead to without control. -/
def Slice.beyondCrossing : Slice Nat := ⟨[2, 1, 4, 3, 5, 6], by decide⟩

theorem Labelled.closure_breadthFirst_crossing :
    Labelled.crossing.Reachable ∧
      (∀ s ∈ [2, 1, 2], Labelled.crossing.graph.contains s = true) ∧
      Slice.closure Labelled.crossing.graph [2, 1, 2] .forward ⟨.full, .none⟩ =
        .ok Slice.beyondCrossing ∧
      Slice.BreadthFirst (Labelled.crossing.graph.Follows ⟨.full, .none⟩ .forward)
        (Labelled.crossing.graph.neighbours .forward) [2, 1, 2] Slice.beyondCrossing := by
  have hreachable : Labelled.crossing.Reachable :=
    ⟨[.connect 2 4 .value, .connect 2 3 .heap, .connect 1 3 .cast, .connect 1 5 .value,
      .connect 4 6 .value, .connect 3 6 .value, .connect 2 6 .control], rfl⟩
  have hseeds : ∀ s ∈ [2, 1, 2], Labelled.crossing.graph.contains s = true := by decide
  have hslice : Slice.closure Labelled.crossing.graph [2, 1, 2] .forward ⟨.full, .none⟩ =
      .ok Slice.beyondCrossing := by cbv
  obtain ⟨slice, hclosure, horder⟩ := Labelled.closure_breadthFirst Labelled.crossing hreachable
    [2, 1, 2] hseeds .forward ⟨.full, .none⟩
  obtain rfl : slice = Slice.beyondCrossing := Except.ok.inj (hclosure.symm.trans hslice)
  exact ⟨hreachable, hseeds, hslice, horder⟩

end ProgramFlow
