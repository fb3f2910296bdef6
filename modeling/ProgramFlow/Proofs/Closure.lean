import Mathlib.Logic.Relation
import ProgramFlow.Proofs.Histories
import ProgramFlow.Proofs.Lookup
import ProgramFlow.Slicing.Closure

/-!
# Closures are exact

The search for a slice keeps three things: what it starts from stays, what it adds is
led to from there, and every node before the position it has come to has been
expanded.  When the position passes the last node, the slice is closed under the edges
that it follows, so it holds what the seeds lead to and nothing else.

* `Slice.Expanded` — one slice is the closure of another.
* `Slice.Done`, `Slice.Done.succ` — what the search keeps, and that a step keeps it.
* `Slice.exists_expand` — the search succeeds and finds the closure.
* `Graph.Follows` — the edges that a closure follows in a direction.
* `Labelled.closure_exact` — closures through stacks of layers over reachable stores.
-/

namespace ProgramFlow

variable {ν κ : Type} [DecidableEq ν]

namespace Slice

/-! ## The search -/

omit [DecidableEq ν] in
/-- The second slice holds what the relation leads to from the first, and no more. -/
structure Expanded (R : ν → ν → Prop) (slice out : Slice ν) : Prop where
  keeps : ∀ a ∈ slice, a ∈ out
  sound : ∀ x ∈ out, ∃ s ∈ slice, Relation.ReflTransGen R s x
  closed : ∀ a ∈ out, ∀ b, R a b → b ∈ out

omit [DecidableEq ν] in
theorem Expanded.mem_iff {R : ν → ν → Prop} {slice out : Slice ν} (h : Expanded R slice out)
    {x : ν} : x ∈ out ↔ ∃ s ∈ slice, Relation.ReflTransGen R s x := by
  refine ⟨h.sound x, ?_⟩
  rintro ⟨s, hs, hpath⟩
  induction hpath with
  | refl => exact h.keeps s hs
  | tail _ hstep ih => exact h.closed _ ih _ hstep

/-- An edge that the search follows. -/
def Edge (g : Graph ν κ) (follow : ν → ν → Bool) (a b : ν) : Prop :=
  g.Leads a b ∧ follow a b = true

omit [DecidableEq ν] in
/-- Edges that the search follows lead from listed nodes to listed nodes. -/
theorem mem_nodes_of_path {g : Graph ν κ} {follow : ν → ν → Bool} (hg : g.Closed) {a b : ν}
    (ha : a ∈ g.nodes) (h : Relation.ReflTransGen (Edge g follow) a b) : b ∈ g.nodes := by
  induction h with
  | refl => exact ha
  | tail _ hedge ih => exact hg.mem_of_leads ih hedge.1

/-- What one expansion adds are the nodes one edge away; the node itself is there already. -/
theorem mem_insertAll_succs {g : Graph ν κ} {follow : ν → ν → Bool} {slice : Slice ν} {n : ν}
    {ss : List ν} (hn : n ∈ slice) (hss : g.succs n = .ok ss) {x : ν} :
    x ∈ slice.insertAll (ss.filter fun s => s ≠ n ∧ follow n s) ↔
      x ∈ slice ∨ Edge g follow n x := by
  have hedge : Edge g follow n x ↔ x ∈ ss ∧ follow n x = true := by
    simp [Edge, Graph.Leads, hss]
  rw [Roster.mem_insertAll, List.mem_filter, hedge]
  simp only [ne_eq, decide_eq_true_eq]
  constructor
  · rintro (hx | ⟨hx, -, hfollow⟩)
    · exact Or.inl hx
    · exact Or.inr ⟨hx, hfollow⟩
  · rintro (hx | ⟨hx, hfollow⟩)
    · exact Or.inl hx
    · by_cases hxn : x = n
      · exact Or.inl (hxn ▸ hn)
      · exact Or.inr ⟨hx, hxn, hfollow⟩

/-- Behind the last node of the slice the search ends. -/
theorem expand_of_none {g : Graph ν κ} {follow : ν → ν → Bool} {slice : Slice ν} {i : Nat}
    (hi : slice.get? i = none) : expand g follow slice i = .ok slice := by
  rw [expand]
  split
  · rfl
  · simp_all

/-- One step of the search. -/
theorem expand_of_some {g : Graph ν κ} {follow : ν → ν → Bool} {slice : Slice ν} {i : Nat} {n : ν}
    {ss : List ν} (hi : slice.get? i = some n) (hss : g.succs n = .ok ss) :
    expand g follow slice i =
      expand g follow (slice.insertAll (ss.filter fun s => s ≠ n ∧ follow n s)) (i + 1) := by
  rw [expand]
  split
  · simp_all
  · rename_i m hm
    obtain rfl : n = m := Option.some.inj (hi.symm.trans hm)
    split
    · simp_all
    · rename_i ss' hss'
      obtain rfl : ss = ss' := Except.ok.inj (hss.symm.trans hss')
      rfl

/-- What every step of the search keeps, it has at its end. -/
theorem expand_induction {g : Graph ν κ} {follow : ν → ν → Bool} {P : Slice ν → Nat → Prop}
    {slice out : Slice ν} {i : Nat} (h : expand g follow slice i = .ok out) (hstart : P slice i)
    (hstep : ∀ slice i n ss, P slice i → slice.get? i = some n → g.succs n = .ok ss →
      P (slice.insertAll (ss.filter fun s => s ≠ n ∧ follow n s)) (i + 1)) :
    ∃ j, P out j := by
  fun_induction expand g follow slice i with
  | case1 slice i hi => exact ⟨i, Except.ok.inj h ▸ hstart⟩
  | case2 slice i n hi e hn => cases h
  | case3 slice i n hi ss hss ih => exact ih h (hstep slice i n ss hstart hi hss)

/-- Nothing that is in the slice gets lost in the search. -/
theorem mem_of_expand {g : Graph ν κ} {follow : ν → ν → Bool} {slice out : Slice ν} {i : Nat}
    (h : expand g follow slice i = .ok out) {a : ν} (ha : a ∈ slice) : a ∈ out := by
  obtain ⟨-, hout⟩ := expand_induction (P := fun slice _ => a ∈ slice) h ha
    fun slice _ _ _ hmem _ _ => Roster.subset_insertAll slice _ hmem
  exact hout

/-- The nodes before the position have been expanded: what they lead to is in the slice. -/
def Done (g : Graph ν κ) (follow : ν → ν → Bool) (slice : Slice ν) (i : Nat) : Prop :=
  ∀ j < i, ∀ a, slice.get? j = some a → ∀ b, Edge g follow a b → b ∈ slice

/-- One expansion moves the position on by one.  Nodes keep their positions, so those
before it are the same as they were. -/
theorem Done.succ {g : Graph ν κ} {follow : ν → ν → Bool} {slice : Slice ν} {i : Nat} {n : ν}
    {ss : List ν} (h : Done g follow slice i) (hi : slice.get? i = some n)
    (hss : g.succs n = .ok ss) :
    Done g follow (slice.insertAll (ss.filter fun s => s ≠ n ∧ follow n s)) (i + 1) := by
  intro j hj a ha b hab
  have hn : n ∈ slice := Roster.mem_iff_get?.2 ⟨i, hi⟩
  have hlt : i < slice.size := Roster.lt_size_of_get? hi
  have hjlt : j < slice.size := by omega
  obtain ⟨c, hc⟩ := Roster.exists_get? hjlt
  obtain rfl : c = a := Option.some.inj ((Roster.get?_insertAll hc _).symm.trans ha)
  refine (mem_insertAll_succs hn hss).2 ?_
  rcases Nat.lt_succ_iff_lt_or_eq.1 hj with hji | rfl
  · exact Or.inl (h j hji c hc b hab)
  · obtain rfl : n = c := Option.some.inj (hi.symm.trans hc)
    exact Or.inr hab

/-- **The search succeeds and is exact**, if the nodes of the slice are listed and those
before the position have been expanded. -/
theorem exists_expand {g : Graph ν κ} (hclosed : g.Closed) (follow : ν → ν → Bool)
    (slice : Slice ν) (i : Nat) (hlisted : ∀ a ∈ slice, a ∈ g.nodes)
    (hdone : Done g follow slice i) :
    ∃ out, expand g follow slice i = .ok out ∧ Expanded (Edge g follow) slice out := by
  fun_induction expand g follow slice i with
  | case1 slice i hi =>
      refine ⟨slice, rfl, fun a ha => ha, fun x hx => ⟨x, hx, .refl⟩, fun a ha b hab => ?_⟩
      obtain ⟨j, hj⟩ := Roster.mem_iff_get?.1 ha
      have hlt : j < slice.size := Roster.lt_size_of_get? hj
      have hle : slice.size ≤ i := List.getElem?_eq_none_iff.1 hi
      exact hdone j (by omega) a hj b hab
  | case2 slice i n hi e hn =>
      -- the lookup of a listed node does not fail
      obtain ⟨ss, hss, -⟩ := hclosed.succs n (hlisted n (Roster.mem_iff_get?.2 ⟨i, hi⟩))
      rw [hss] at hn
      cases hn
  | case3 slice i n hi ss hss ih =>
      have hn : n ∈ slice := Roster.mem_iff_get?.2 ⟨i, hi⟩
      have hlarger : ∀ x, x ∈ slice.insertAll (ss.filter fun s => s ≠ n ∧ follow n s) ↔
          x ∈ slice ∨ Edge g follow n x :=
        fun x => mem_insertAll_succs hn hss
      have hlisted' : ∀ a ∈ slice.insertAll (ss.filter fun s => s ≠ n ∧ follow n s),
          a ∈ g.nodes := by
        intro a ha
        rcases (hlarger a).1 ha with ha | ha
        · exact hlisted a ha
        · exact hclosed.mem_of_leads (hlisted n hn) ha.1
      obtain ⟨out, hout, hexp⟩ := ih hlisted' (hdone.succ hi hss)
      refine ⟨out, hout, ?_, ?_, hexp.closed⟩
      · intro a ha
        exact hexp.keeps a ((hlarger a).2 (Or.inl ha))
      · intro x hx
        obtain ⟨s, hs, hpath⟩ := hexp.sound x hx
        rcases (hlarger s).1 hs with hs | hs
        · exact ⟨s, hs, hpath⟩
        · exact ⟨n, hn, .head hs hpath⟩

/-! ## Seeds -/

theorem ofSeeds_eq_ok_iff {g : Graph ν κ} {seeds : List ν} {slice : Slice ν} :
    ofSeeds g seeds = .ok slice ↔ (∀ s ∈ seeds, g.contains s = true) ∧ .ofList seeds = slice := by
  have hfind : seeds.find? (fun s => !g.contains s) = none ↔ ∀ s ∈ seeds, g.contains s = true := by
    simp
  unfold ofSeeds
  split
  · rename_i s hs
    rw [hs] at hfind
    simp [← hfind]
  · rename_i hnone
    rw [Except.ok.injEq]
    exact ⟨fun hslice => ⟨hfind.1 hnone, hslice⟩, And.right⟩

/-- The first seed that is no node of the graph is reported. -/
theorem reach_eq_error {g : Graph ν κ} (follow : ν → ν → Bool) {before after : List ν} {s : ν}
    (hbefore : ∀ b ∈ before, g.contains b = true) (hs : g.contains s = false) :
    reach g follow (before ++ s :: after) = .error (.invalidNode s) := by
  have hfind : (before ++ s :: after).find? (fun s => !g.contains s) = some s := by
    rw [List.find?_append, List.find?_eq_none.2 (by simpa using hbefore)]
    simp [hs]
  simp only [reach, ofSeeds, hfind]
  rfl

theorem exists_reach {g : Graph ν κ} (hg : g.Sound) (follow : ν → ν → Bool) {seeds : List ν}
    (hseeds : ∀ s ∈ seeds, g.contains s = true) :
    ∃ slice, reach g follow seeds = .ok slice ∧
      ∀ x, x ∈ slice ↔ ∃ s ∈ seeds, Relation.ReflTransGen (Edge g follow) s x := by
  obtain ⟨slice, hslice, hexp⟩ := exists_expand hg.closed follow (.ofList seeds) 0
    (fun a ha => (hg.contains_iff a).1 (hseeds a (Roster.mem_ofList.1 ha)))
    (fun j hj => absurd hj (Nat.not_lt_zero j))
  refine ⟨slice, ?_, fun x => ?_⟩
  · exact bind_eq_ok_iff.2 ⟨.ofList seeds, ofSeeds_eq_ok_iff.2 ⟨hseeds, rfl⟩, hslice⟩
  · rw [hexp.mem_iff]
    simp only [Roster.mem_ofList]

end Slice

/-! ## Closures -/

omit [DecidableEq ν] in
/-- An edge in a direction, with at least one label that the policy accepts.  The labels
are those of the edge as the graph has it, whichever way it is followed. -/
def Graph.Follows (g : Graph ν Dependence) (policy : Policy) : Direction → ν → ν → Prop
  | .forward, a, b => g.Leads a b ∧ ∃ l ∈ g.labels a b, policy.accepts l = true
  | .backward, a, b => g.Draws a b ∧ ∃ l ∈ g.labels b a, policy.accepts l = true

omit [DecidableEq ν] in
/-- The edges that a closure follows are those that the search follows in its direction. -/
theorem Slice.edge_facing (g : Graph ν Dependence) (policy : Policy) (direction : Direction) :
    Edge (facing direction g) (follows policy (facing direction g)) =
      g.Follows policy direction := by
  funext a b
  cases direction with
  | forward => simp only [Edge, follows, facing, Graph.Follows, List.any_eq_true]
  | backward =>
      simp only [Edge, follows, facing, Graph.Follows, List.any_eq_true]
      rfl

omit [DecidableEq ν] in
theorem Slice.sound_facing {g : Graph ν Dependence} (hg : g.Sound) (direction : Direction) :
    (facing direction g).Sound := by
  cases direction with
  | forward => exact hg
  | backward => exact hg.transpose

omit [DecidableEq ν] in
theorem Slice.nodes_facing (g : Graph ν Dependence) (direction : Direction) :
    (facing direction g).nodes = g.nodes := by
  cases direction <;> rfl

omit [DecidableEq ν] in
theorem Slice.contains_facing (g : Graph ν Dependence) (direction : Direction) (n : ν) :
    (facing direction g).contains n = g.contains n := by
  cases direction <;> rfl

omit [DecidableEq ν] in
/-- Edges that are followed from nodes of the graph lead to nodes of the graph. -/
theorem Graph.Sound.mem_of_follows {g : Graph ν Dependence} (hg : g.Sound) {policy : Policy}
    {direction : Direction} {a b : ν} (ha : a ∈ g.nodes)
    (h : Relation.ReflTransGen (g.Follows policy direction) a b) : b ∈ g.nodes := by
  rw [← Slice.edge_facing] at h
  rw [← Slice.nodes_facing g direction] at ha ⊢
  exact Slice.mem_nodes_of_path (Slice.sound_facing hg direction).closed ha h

/-- A closure reports the first seed that is no node of the graph. -/
theorem Slice.closure_eq_error {g : Graph ν Dependence} {before after : List ν} {s : ν}
    (hbefore : ∀ b ∈ before, g.contains b = true) (hs : g.contains s = false)
    (direction : Direction) (policy : Policy) :
    closure g (before ++ s :: after) direction policy = .error (.invalidNode s) := by
  apply reach_eq_error
  · intro b hb
    rw [contains_facing]
    exact hbefore b hb
  · rw [contains_facing]
    exact hs

/-- A closure of nodes of a sound graph holds what the edges it follows lead to. -/
theorem Slice.exists_closure {g : Graph ν Dependence} (hg : g.Sound) {seeds : List ν}
    (hseeds : ∀ s ∈ seeds, g.contains s = true) (direction : Direction) (policy : Policy) :
    ∃ slice, closure g seeds direction policy = .ok slice ∧
      ∀ x, x ∈ slice ↔ ∃ s ∈ seeds, Relation.ReflTransGen (g.Follows policy direction) s x := by
  rw [← edge_facing]
  refine exists_reach (sound_facing hg direction) _ fun s hs => ?_
  rw [contains_facing]
  exact hseeds s hs

/-- **Closures are exact.**  Through any stack of layers over a reachable store, the first
seed that the view does not contain is reported; otherwise the slice lists, once each,
the nodes that accepted edges lead to from the seeds. -/
theorem Labelled.closure_exact (g : Labelled ν Dependence) (hg : g.Reachable) (stack : Stack ν)
    (seeds : List ν) (direction : Direction) (policy : Policy) :
    (∀ before s after, seeds = before ++ s :: after →
      (∀ b ∈ before, (stack.view g.graph).contains b = true) →
      (stack.view g.graph).contains s = false →
        Slice.closure (stack.view g.graph) seeds direction policy = .error (.invalidNode s)) ∧
    ((∀ s ∈ seeds, (stack.view g.graph).contains s = true) →
      ∃ slice, Slice.closure (stack.view g.graph) seeds direction policy = .ok slice ∧
        slice.toList.Nodup ∧
        ∀ x, x ∈ slice ↔ ∃ s ∈ seeds,
          Relation.ReflTransGen ((stack.view g.graph).Follows policy direction) s x) := by
  constructor
  · rintro before s after rfl hbefore hs
    exact Slice.closure_eq_error hbefore hs direction policy
  · intro hseeds
    have hsound := stack.sound_view hg.sound
    obtain ⟨slice, hslice, hmem⟩ := Slice.exists_closure hsound hseeds direction policy
    exact ⟨slice, hslice, slice.nodup, hmem⟩

/-- Three statements that depend on each other in a circle, and one that only control
leads to. -/
def Labelled.circle : Labelled Nat Dependence :=
  (((empty.connect 1 2 .value).connect 2 3 .heap).connect 3 1 .cast).connect 3 4 .control

theorem Labelled.reachable_circle : circle.Reachable :=
  ⟨[.connect 1 2 .value, .connect 2 3 .heap, .connect 3 1 .cast, .connect 3 4 .control], rfl⟩

theorem Labelled.closure_exact_circle :
    Labelled.circle.Reachable ∧
      Slice.closure (Stack.view [.transpose, .reflexive] Labelled.circle.graph) [2, 7, 8]
        .backward ⟨.noHeap, .full⟩ = .error (.invalidNode 7) ∧
      ∃ slice, Slice.closure (Stack.view [.transpose, .reflexive] Labelled.circle.graph) [2]
          .backward ⟨.noHeap, .full⟩ = .ok slice ∧
        slice.toList.Nodup ∧
        ∀ x, x ∈ slice ↔ ∃ s ∈ [2], Relation.ReflTransGen
          ((Stack.view [.transpose, .reflexive] Labelled.circle.graph).Follows
            ⟨.noHeap, .full⟩ .backward) s x := by
  refine ⟨Labelled.reachable_circle, ?_, ?_⟩
  · exact (Labelled.closure_exact Labelled.circle Labelled.reachable_circle
      [.transpose, .reflexive] [2, 7, 8] .backward ⟨.noHeap, .full⟩).1 [2] 7 [8] rfl
      (by decide) (by decide)
  · exact (Labelled.closure_exact Labelled.circle Labelled.reachable_circle
      [.transpose, .reflexive] [2] .backward ⟨.noHeap, .full⟩).2 (by decide)

end ProgramFlow
