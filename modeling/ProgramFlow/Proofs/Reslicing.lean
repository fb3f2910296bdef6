import ProgramFlow.Proofs.Closure

/-!
# Slicing again what a slice shows

A slice is computed from the whole graph, and then only the part of the graph that it shows
is kept.  Slicing that part from the same seeds gives the same slice, node for node in the
same order.  The two searches run in step: a node that is expanded is kept, and so are
the neighbours that the search follows from there, since they end up in the slice.  The
others are left out before they are asked for instead of being passed over, which does not
change the order of the rest.

None of this needs the graph to be sound, and any restriction that keeps the slice will do.

* `Slice.filter_restrict` — one step of both searches.
* `Slice.expand_restrict` — the searches as a whole.
* `Slice.closure_restrict` — closures under a restriction that keeps them.
* `Labelled.closure_project` — closures in what they show.
-/

namespace ProgramFlow

variable {ν κ : Type}

/-- What is left out does not depend on the direction of the edges. -/
theorem Graph.transpose_restrict (g : Graph ν κ) (keep : ν → Bool) :
    (g.restrict keep).transpose = g.transpose.restrict keep := by
  refine Graph.ext rfl rfl rfl rfl rfl rfl rfl ?_ ?_ rfl
  · funext a b
    show (keep b && keep a && g.hasEdge b a) = (keep a && keep b && g.hasEdge b a)
    rw [Bool.and_comm (keep b)]
  · funext a b
    show (if keep b && keep a then g.labels b a else []) =
      if keep a && keep b then g.labels b a else []
    rw [Bool.and_comm (keep b)]

variable [DecidableEq ν]

namespace Slice

/-! ## The search -/

section Restrict

variable {keep : ν → Bool} {follow follow' : ν → ν → Bool}

/-- **One step of both searches.**  If the neighbours that are followed are kept, they are the
same, in the same order, among the neighbours that are kept. -/
theorem filter_restrict {n : ν} {ss : List ν}
    (hkeep : ∀ s ∈ ss.filter fun s => s ≠ n ∧ follow n s, keep s = true)
    (hfollow : ∀ s, keep s = true → follow' n s = follow n s) :
    ((ss.filter keep).filter fun s => s ≠ n ∧ follow' n s) =
      ss.filter fun s => s ≠ n ∧ follow n s := by
  rw [List.filter_filter]
  refine List.filter_congr fun s hs => ?_
  by_cases hs' : keep s = true
  · rw [hfollow s hs', hs', Bool.and_true]
  · have hpassed : ¬ (s ≠ n ∧ follow n s = true) := fun h =>
      hs' (hkeep s (List.mem_filter.2 ⟨hs, decide_eq_true h⟩))
    rw [decide_eq_false hpassed, Bool.eq_false_iff.2 hs', Bool.and_false]

/-- **The searches run in step** if the restriction keeps what the first of them finds, and
both follow the same edges between nodes that are kept. -/
theorem expand_restrict {g : Graph ν κ} {slice out : Slice ν} {i : Nat}
    (h : expand g follow slice i = .ok out) (hkeep : ∀ a ∈ out, keep a = true)
    (hfollow : ∀ a b, keep a = true → keep b = true → follow' a b = follow a b) :
    expand (g.restrict keep) follow' slice i = .ok out := by
  fun_induction expand g follow slice i with
  | case1 slice i hi => exact (expand_of_none hi).trans h
  | case2 slice i n hi e hn => cases h
  | case3 slice i n hi ss hss ih =>
      -- the slice after this step is part of what is found in the end
      have hout : ∀ a ∈ slice.insertAll (ss.filter fun s => s ≠ n ∧ follow n s), keep a = true :=
        fun a ha => hkeep a (mem_of_expand h ha)
      have hn : keep n = true :=
        hout n (Roster.mem_insertAll.2 (Or.inl (Roster.mem_iff_get?.2 ⟨i, hi⟩)))
      have hss' : (g.restrict keep).succs n = .ok (ss.filter keep) := by
        simp [Graph.restrict, hss, hn, Except.map]
      have hstep : ((ss.filter keep).filter fun s => s ≠ n ∧ follow' n s) =
          ss.filter fun s => s ≠ n ∧ follow n s :=
        filter_restrict (fun s hs => hout s (Roster.mem_insertAll.2 (Or.inr hs)))
          fun s hs => hfollow n s hn hs
      rw [expand_of_some hi hss', hstep]
      exact ih h

/-! ## Closures -/

theorem reach_restrict {g : Graph ν κ} {seeds : List ν} {out : Slice ν}
    (h : reach g follow seeds = .ok out) (hkeep : ∀ a ∈ out, keep a = true)
    (hfollow : ∀ a b, keep a = true → keep b = true → follow' a b = follow a b) :
    reach (g.restrict keep) follow' seeds = .ok out := by
  obtain ⟨slice, hseeds, hexpand⟩ := bind_eq_ok_iff.1 h
  obtain ⟨hcontains, rfl⟩ := ofSeeds_eq_ok_iff.1 hseeds
  have hcontains' : ∀ s ∈ seeds, (g.restrict keep).contains s = true := by
    intro s hs
    have hkept : keep s = true := hkeep s (mem_of_expand hexpand (Roster.mem_ofList.2 hs))
    exact Bool.and_eq_true_iff.2 ⟨hkept, hcontains s hs⟩
  refine bind_eq_ok_iff.2 ⟨.ofList seeds, ofSeeds_eq_ok_iff.2 ⟨hcontains', rfl⟩, ?_⟩
  exact expand_restrict hexpand hkeep hfollow

end Restrict

omit [DecidableEq ν] in
theorem facing_restrict (direction : Direction) (g : Graph ν κ) (keep : ν → Bool) :
    facing direction (g.restrict keep) = (facing direction g).restrict keep := by
  cases direction with
  | forward => rfl
  | backward => exact g.transpose_restrict keep

omit [DecidableEq ν] in
/-- Edges between nodes that are kept have the labels that they had. -/
theorem follows_restrict (policy : Policy) (g : Graph ν Dependence) {keep : ν → Bool} {a b : ν}
    (ha : keep a = true) (hb : keep b = true) :
    follows policy (g.restrict keep) a b = follows policy g a b := by
  simp [follows, Graph.restrict, ha, hb]

/-- **A restriction that keeps a closure does not change it.** -/
theorem closure_restrict {g : Graph ν Dependence} {seeds : List ν} {direction : Direction}
    {policy : Policy} {slice : Slice ν} (h : closure g seeds direction policy = .ok slice)
    {keep : ν → Bool} (hkeep : ∀ a ∈ slice, keep a = true) :
    closure (g.restrict keep) seeds direction policy = .ok slice := by
  unfold closure
  rw [facing_restrict]
  exact reach_restrict h hkeep fun a b ha hb => follows_restrict policy _ ha hb

end Slice

/-- **Slicing again gives the same slice.**  Whatever slice is computed from a reachable
store, the part of the graph that it shows has the same slice, with the same nodes in the
same order; and there is such a slice if the seeds are nodes of the graph. -/
theorem Labelled.closure_project (g : Labelled ν Dependence) (hg : g.Reachable) (seeds : List ν)
    (direction : Direction) (policy : Policy) :
    (∀ slice, Slice.closure g.graph seeds direction policy = .ok slice →
      Slice.closure (slice.project g.graph) seeds direction policy = .ok slice) ∧
    ((∀ s ∈ seeds, g.graph.contains s = true) →
      ∃ slice, Slice.closure g.graph seeds direction policy = .ok slice) := by
  constructor
  · intro slice hslice
    exact Slice.closure_restrict hslice fun a ha => Roster.contains_iff.2 ha
  · intro hseeds
    obtain ⟨slice, hslice, -⟩ := Slice.exists_closure hg.sound hseeds direction policy
    exact ⟨slice, hslice⟩

/-- What the second statement of the circle depends on, other than through the heap. -/
def Slice.aroundCircle : Slice Nat := ⟨[2, 1, 3], by decide⟩

theorem Labelled.closure_project_circle :
    Labelled.circle.Reachable ∧
      Slice.closure Labelled.circle.graph [2] .backward ⟨.noHeap, .full⟩ =
        .ok Slice.aroundCircle ∧
      Slice.closure (Slice.aroundCircle.project Labelled.circle.graph) [2] .backward
        ⟨.noHeap, .full⟩ = .ok Slice.aroundCircle := by
  have hslice : Slice.closure Labelled.circle.graph [2] .backward ⟨.noHeap, .full⟩ =
      .ok Slice.aroundCircle := by cbv
  exact ⟨Labelled.reachable_circle, hslice,
    (Labelled.closure_project Labelled.circle Labelled.reachable_circle [2] .backward
      ⟨.noHeap, .full⟩).1 Slice.aroundCircle hslice⟩

end ProgramFlow
