import ProgramFlow.Proofs.Closure
import ProgramFlow.Proofs.Iterations
import ProgramFlow.Proofs.LeastFixpoint

/-!
# Flags that spread are slices

A slice can also be found by solving for flags.  Over the reflexive layer, a seed sets its
flag on the edge to itself, and other edges hand a flag on if they are followed.  The flags
of a solution say at which nodes a search for the closure of the seeds arrives, although a
search and a run have nothing in common: one expands each node once, in the order in which
it was found, the other evaluates nodes again until nothing changes.  Both are compared with
the edges between them: the closure meets the equations of the flags
(`Slice.solves_contains`), and every assignment that meets them has the flags of all nodes
that edges lead to from the seeds (`Slice.flag_of_path`).  The run finds the least such
assignment.

* `Slice.spread` — how flags spread.
* `Labelled.solveFlags_eq_closure` — the flags of a run are those of the slice.
-/

namespace ProgramFlow

variable {ν κ : Type}

/-! ## Flags -/

theorem foldl_or_eq_true_iff {α : Type} {f : α → Bool} {as : List α} {flag : Bool} :
    as.foldl (fun acc a => acc || f a) flag = true ↔ flag = true ∨ ∃ a ∈ as, f a = true := by
  induction as generalizing flag with
  | nil => simp
  | cons a as ih =>
      rw [List.foldl_cons, ih, Bool.or_eq_true, or_assoc]
      simp only [List.mem_cons, exists_eq_or_imp]

/-- A flag is demanded of a node if some predecessor hands one on. -/
theorem Problem.demand_flag_iff {transfer : ν → ν → Bool → Bool} {g : Graph ν κ} {V : ν → Bool}
    {n : ν} :
    (⟨.flag, transfer⟩ : Problem ν Bool).demand g V n = true ↔
      ∃ m, g.Draws n m ∧ transfer m n (V m) = true := by
  unfold Problem.demand
  cases hn : g.preds n with
  | error e => simp [Graph.Draws, hn, Domain.flag, Lattice.flag]
  | ok ps =>
      refine foldl_or_eq_true_iff.trans ?_
      simp [Graph.Draws, hn, Domain.flag, Lattice.flag]

namespace Slice

variable [DecidableEq ν]

/-- Seeds set their flags on the edge to themselves; other edges hand a flag on if they are
followed. -/
def spread (follow : ν → ν → Bool) (seeds : List ν) (pred succ : ν) (flag : Bool) : Bool :=
  if pred = succ then flag || seeds.contains succ else flag && follow pred succ

theorem monotone_spread (follow : ν → ν → Bool) (seeds : List ν) :
    (⟨.flag, spread follow seeds⟩ : Problem ν Bool).Monotone := by
  intro m n a b hab
  simp only [Domain.flag, Lattice.flag, spread] at hab ⊢
  split <;> cases a <;> cases b <;> simp_all

section Solutions

variable {g : Graph ν κ} {follow : ν → ν → Bool} {seeds : List ν} {slice : Slice ν}

/-- A slice meets the equations of the flags, if it is the closure of the seeds. -/
theorem solves_contains (hg : g.Sound)
    (hslice : ∀ x, x ∈ slice ↔ ∃ s ∈ seeds, Relation.ReflTransGen (Edge g follow) s x) :
    (⟨.flag, spread follow seeds⟩ : Problem ν Bool).Solves g.reflexive slice.contains := by
  intro n hn
  rw [Bool.eq_iff_iff, Problem.demand_flag_iff, Roster.contains_iff]
  simp only [Graph.draws_reflexive hg.closed.preds hn]
  constructor
  · intro hmem
    exact ⟨n, Or.inr rfl, by simp [spread, hmem]⟩
  · rintro ⟨m, hdraws, hflag⟩
    by_cases hmn : m = n
    · subst hmn
      simp only [spread, if_true, Bool.or_eq_true, Roster.contains_iff, List.contains_iff_mem]
        at hflag
      rcases hflag with hmem | hseed
      · exact hmem
      · exact (hslice m).2 ⟨m, hseed, .refl⟩
    · simp only [spread, if_neg hmn, Bool.and_eq_true, Roster.contains_iff] at hflag
      have hpred := hdraws.resolve_right hmn
      have hm : m ∈ g.nodes := hg.transpose.closed.mem_of_leads hn hpred
      have hedge : Edge g follow m n := ⟨(hg.mirrored m hm n hn).2 hpred, hflag.2⟩
      obtain ⟨s, hs, hpath⟩ := (hslice m).1 hflag.1
      exact (hslice n).2 ⟨s, hs, hpath.tail hedge⟩

/-- An assignment that meets the equations has the flags of all nodes that followed edges
lead to from the seeds. -/
theorem flag_of_path (hg : g.Sound) {V : ν → Bool}
    (hV : (⟨.flag, spread follow seeds⟩ : Problem ν Bool).Solves g.reflexive V) {s x : ν}
    (hs : s ∈ seeds) (hlisted : s ∈ g.nodes) (hpath : Relation.ReflTransGen (Edge g follow) s x) :
    V x = true := by
  -- what some neighbour hands on is demanded, and the equations grant what is demanded
  have hgrant : ∀ {m n : ν}, n ∈ g.nodes → g.Draws n m ∨ m = n →
      spread follow seeds m n (V m) = true → V n = true := by
    intro m n hn hdraws hflag
    rw [hV n hn, Problem.demand_flag_iff]
    exact ⟨m, (Graph.draws_reflexive hg.closed.preds hn).2 hdraws, hflag⟩
  induction hpath with
  | refl => exact hgrant hlisted (Or.inr rfl) (by simp [spread, hs])
  | @tail m n hbefore hedge ih =>
      by_cases hmn : m = n
      · exact hmn ▸ ih
      · obtain ⟨hleads, hfollow⟩ := hedge
        have hm := mem_nodes_of_path hg.closed hlisted hbefore
        have hn := hg.closed.mem_of_leads hm hleads
        refine hgrant hn (Or.inl ((hg.mirrored m hm n hn).1 hleads)) ?_
        simp [spread, hmn, ih, hfollow]

/-- The flags of a run are those of the nodes that followed edges lead to from the seeds. -/
theorem exists_solveFlags_tells (hg : g.Sound) (hseeds : ∀ s ∈ seeds, s ∈ g.nodes)
    (hslice : ∀ x, x ∈ slice ↔ ∃ s ∈ seeds, Relation.ReflTransGen (Edge g follow) s x)
    (strategy : Strategy) :
    ∃ out : Solution ν Bool,
      (g.reflexive.solveFlags (spread follow seeds) strategy .never).outcome = .ok out ∧
        out.Tells g.nodes slice.contains := by
  have hmono := monotone_spread follow seeds
  have hrefl := hg.reflexive
  have hend : ∀ t, Topology.read g.reflexive = .ok t →
      ((State.init ⟨.flag, spread follow seeds⟩ t strategy).run ⟨.flag, spread follow seeds⟩ t
        .never (t.budget 1)).1 ≠ .running :=
    fun t _ => (Problem.climbs_flag _).run_ends t strategy .never
  obtain ⟨V, out, hV, hleast, hout, htells⟩ := Graph.exists_solve_below hrefl.closed
    hrefl.mirrored (hmono.rising Domain.lawful_flag) hend
  refine ⟨out, hout, htells.congr fun n hn => ?_⟩
  have hle := hleast slice.contains (solves_contains hg hslice) n hn
  rw [Bool.eq_iff_iff, Roster.contains_iff]
  constructor
  · intro hflag
    rw [hflag] at hle
    simpa [Domain.flag, Lattice.flag] using hle
  · intro hmem
    obtain ⟨s, hs, hpath⟩ := (hslice n).1 hmem
    exact flag_of_path hg hV hs (hseeds s hs) hpath

end Solutions

end Slice

/-! ## The main result -/

/-- The graph in which edges lead from what a slice holds to what it takes in: the store's
own, or backward the transposed one. -/
def Labelled.heading [DecidableEq ν] (g : Labelled ν Dependence) : Direction → Graph ν Dependence
  | .forward => g.graph
  | .backward => g.graph.transpose

/-- **The flags of a run are those of the slice.**  In either direction over a reachable
store, with any policy and any strategy, a run over the reflexive layer sets the flags of
the nodes in the closure of the seeds and of no others, where an edge between different
nodes hands a flag on if one of its labels is accepted.  These are the nodes that edges
with an accepted label lead to from the seeds. -/
theorem Labelled.solveFlags_eq_closure [DecidableEq ν] (g : Labelled ν Dependence)
    (hg : g.Reachable) (seeds : List ν) (hseeds : ∀ s ∈ seeds, s ∈ g.graph.nodes)
    (direction : Direction) (policy : Policy) :
    ∃ slice, Slice.closure g.graph seeds direction policy = .ok slice ∧
      (∀ n, n ∈ slice ↔
        ∃ s ∈ seeds, Relation.ReflTransGen (g.graph.Follows policy direction) s n) ∧
      (∀ n ∈ slice, n ∈ g.graph.nodes) ∧
      ∀ strategy, ∃ out : Solution ν Bool,
        ((g.heading direction).reflexive.solveFlags
          (Slice.spread
            (fun pred succ => ((g.heading direction).labels pred succ).any policy.accepts) seeds)
          strategy .never).outcome = .ok out ∧
        out.Tells g.graph.nodes slice.contains := by
  obtain ⟨slice, hslice, hmem⟩ := Slice.exists_closure hg.sound
    (fun s hs => (hg.sound.contains_iff s).2 (hseeds s hs)) direction policy
  refine ⟨slice, hslice, hmem, fun n hn => ?_, ?_⟩
  · obtain ⟨s, hs, hpath⟩ := (hmem n).1 hn
    exact hg.sound.mem_of_follows (hseeds s hs) hpath
  · have hheading : Slice.facing direction g.graph = g.heading direction := by
      cases direction <;> rfl
    have hsound := Slice.sound_facing hg.sound direction
    rw [← Slice.edge_facing] at hmem
    rw [← Slice.nodes_facing g.graph direction] at hseeds ⊢
    rw [hheading] at hsound hmem hseeds ⊢
    exact Slice.exists_solveFlags_tells hsound hseeds hmem

/-- Backward from the second statement.  The third one is reached through the first, and the
second is not reached again, since that edge is one of the heap. -/
theorem Labelled.solveFlags_eq_closure_circle :
    Labelled.circle.Reachable ∧ 2 ∈ Labelled.circle.graph.nodes ∧
      ∃ slice, Slice.closure Labelled.circle.graph [2, 2] .backward ⟨.noHeap, .full⟩ = .ok slice ∧
        slice.toList = [2, 1, 3] ∧
        ∀ strategy, ∃ out : Solution Nat Bool,
          (Labelled.circle.graph.transpose.reflexive.solveFlags
            (Slice.spread (fun pred succ =>
              (Labelled.circle.graph.labels succ pred).any
                (Policy.accepts ⟨.noHeap, .full⟩)) [2, 2])
            strategy .never).outcome = .ok out ∧
          out.entries = [(1, true), (2, true), (3, true), (4, false)] := by
  obtain ⟨slice, hslice, -, -, hflags⟩ := Labelled.solveFlags_eq_closure Labelled.circle
    Labelled.reachable_circle [2, 2] (by decide) .backward ⟨.noHeap, .full⟩
  have hlist : slice.toList = [2, 1, 3] := by
    have hvalue : (Slice.closure Labelled.circle.graph [2, 2] .backward
        ⟨.noHeap, .full⟩).map Roster.toList = .ok [2, 1, 3] := by cbv
    rw [hslice] at hvalue
    exact Except.ok.inj hvalue
  refine ⟨Labelled.reachable_circle, by decide, slice, hslice, hlist, fun strategy => ?_⟩
  obtain ⟨out, hout, htells⟩ := hflags strategy
  refine ⟨out, hout, ?_⟩
  rw [htells.entries (by decide)]
  simp only [Roster.contains, Roster.mem_def, hlist]
  decide

end ProgramFlow
