import ProgramFlow.Proofs.Views

/-!
# Nodes that a stack of layers leaves out

A restriction leaves nodes out, but their neighbours can still be looked up: there are
none.  A reflexive layer above puts the node on this empty list without asking whether the
node is contained.  It does ask before it tells an edge.  A node that one layer leaves out
and a later one puts on its own list is *exposed*: it is its own neighbour and has no edge
to itself.  This is the only way in which edges and neighbours can disagree, whatever the
stack and whatever the nodes, listed or not.

Numbers of neighbours go wrong a little later.  A reflexive layer counts the node unless
there is an edge to itself, so it counts a node that is exposed below a second time.

* `Graph.Confined`, `Graph.Guarded` — what is asked of the graph below.
* `Stack.exposes`, `Stack.recounts` — the nodes for which edges and numbers go wrong.
* `Stack.neighbours_view_of_left_out` — what is seen of a node that is left out.
* `Stack.leads_view_iff` — edges against neighbours.
* `Stack.succCount_view_iff` — numbers against neighbours.
* `Adjacency.view_agrees_unless_exposed` — both for the adjacency store.
-/

namespace ProgramFlow

variable {ν κ : Type}

/-! ## Edges and lookups outside a graph -/

namespace Graph

/-- Edges are between listed nodes. -/
def Confined (g : Graph ν κ) : Prop := ∀ a b, g.hasEdge a b = true → a ∈ g.nodes ∧ b ∈ g.nodes

/-- The neighbours of a node that is not listed cannot be looked up. -/
def Guarded (g : Graph ν κ) : Prop :=
  ∀ n, n ∉ g.nodes → ∃ e, g.succs n = .error e ∧ g.preds n = .error e

theorem Confined.transpose {g : Graph ν κ} (h : g.Confined) : g.transpose.Confined :=
  fun a b hab => (h b a hab).symm

theorem Confined.reflexive [DecidableEq ν] {g : Graph ν κ} (h : g.Confined) (hg : g.Sound) :
    g.reflexive.Confined := by
  intro a b hab
  have hedge : (if a = b then g.contains a else g.hasEdge a b) = true := hab
  split at hedge
  · rename_i heq
    have ha := (hg.contains_iff a).1 hedge
    exact ⟨ha, heq ▸ ha⟩
  · exact h a b hedge

theorem Confined.restrict {g : Graph ν κ} (h : g.Confined) (keep : ν → Bool) :
    (g.restrict keep).Confined := by
  intro a b hab
  have hedge : (keep a && keep b && g.hasEdge a b) = true := hab
  rw [Bool.and_eq_true, Bool.and_eq_true] at hedge
  obtain ⟨⟨ha, hb⟩, hab⟩ := hedge
  obtain ⟨hamem, hbmem⟩ := h a b hab
  exact ⟨List.mem_filter.2 ⟨hamem, ha⟩, List.mem_filter.2 ⟨hbmem, hb⟩⟩

/-- Without an edge to itself a node is counted besides its neighbours. -/
theorem counts_reflexive_of_no_edge [DecidableEq ν] {g : Graph ν κ} {n : ν}
    (h : g.hasEdge n n = false) :
    g.reflexive.succCount n = g.succCount n >>= countSelf n ∧
      g.reflexive.predCount n = g.predCount n >>= countSelf n := by
  simp [reflexive, h]

end Graph

namespace Stack

/-! ## Exposed nodes -/

/-- Does some layer leave the node out and a reflexive layer above put it on its own list,
with no restriction further up that leaves it out again? -/
def exposes : Stack ν → ν → Bool
  | [], _ => false
  | .transpose :: stack, n => exposes stack n
  | .reflexive :: stack, n => exposes stack n || !keeps stack n
  | .restrict keep :: stack, n => keep n && exposes stack n
  | .readOnly :: stack, n => exposes stack n

/-- Is the topmost layer that counts a reflexive one, above layers that expose the node?
Restrictions count anew what they show. -/
def recounts : Stack ν → ν → Bool
  | [], _ => false
  | .transpose :: stack, n => recounts stack n
  | .reflexive :: stack, n => exposes stack n
  | .restrict _ :: _, _ => false
  | .readOnly :: stack, n => recounts stack n

theorem exposes_of_keeps {stack : Stack ν} {n : ν} (h : stack.keeps n = true) :
    stack.exposes n = false := by
  induction stack with
  | nil => rfl
  | cons layer stack ih =>
      obtain ⟨-, hbelow⟩ := Bool.and_eq_true_iff.1 h
      have hkeeps : Stack.keeps stack n = true := hbelow
      cases layer <;> simp [exposes, ih hbelow, hkeeps]

/-- An exposed node is left out. -/
theorem keeps_of_exposes {stack : Stack ν} {n : ν} (h : stack.exposes n = true) :
    stack.keeps n = false := by
  refine Bool.eq_false_iff.2 fun hkeep => ?_
  rw [exposes_of_keeps hkeep] at h
  cases h

theorem exposes_of_recounts {stack : Stack ν} {n : ν} (h : stack.recounts n = true) :
    stack.exposes n = true := by
  induction stack with
  | nil => cases h
  | cons layer stack ih =>
      cases layer with
      | transpose => exact ih h
      | reflexive => exact Bool.or_eq_true_iff.2 (Or.inl h)
      | restrict keep => cases h
      | readOnly => exact ih h

/-- Only an exposed node is counted twice. -/
theorem recounts_of_not_exposes {stack : Stack ν} {n : ν} (h : stack.exposes n = false) :
    stack.recounts n = false :=
  Bool.eq_false_iff.2 fun htwice => Bool.eq_false_iff.1 h (exposes_of_recounts htwice)

/-- The list of a node that is left out: the node itself if it is exposed. -/
def remnant (stack : Stack ν) (n : ν) : List ν := if stack.exposes n then [n] else []

theorem mem_remnant {stack : Stack ν} {n m : ν} :
    m ∈ stack.remnant n ↔ m = n ∧ stack.exposes n = true := by
  unfold remnant
  split <;> simp_all

theorem filter_remnant {keep : ν → Bool} {stack : Stack ν} {n : ν} {ns : List ν}
    (h : keep n = true → ns = stack.remnant n) :
    (if keep n then ns.filter keep else []) = remnant (.restrict keep :: stack) n := by
  cases hkeep : keep n with
  | false => simp [remnant, exposes, hkeep]
  | true =>
      rw [h hkeep]
      cases hexp : stack.exposes n <;> simp [remnant, exposes, hexp, hkeep]

variable [DecidableEq ν]

theorem addSelf_remnant (stack : Stack ν) {n : ν} (hout : stack.keeps n = false) :
    Graph.addSelf n (stack.remnant n) = remnant (.reflexive :: stack) n := by
  cases hexp : stack.exposes n <;> simp [remnant, Graph.addSelf, exposes, hexp, hout]

/-! ## What is seen of a node that is left out -/

/-- A lookup that fails in the graph fails through every stack. -/
theorem neighbours_view_of_error (stack : Stack ν) {g : Graph ν κ} {n : ν} {e : GraphError ν}
    (hsuccs : g.succs n = .error e) (hpreds : g.preds n = .error e) :
    (stack.view g).succs n = .error e ∧ (stack.view g).preds n = .error e := by
  induction stack with
  | nil => exact ⟨hsuccs, hpreds⟩
  | cons layer stack ih =>
      obtain ⟨hs, hp⟩ := ih
      cases layer with
      | transpose => exact ⟨hp, hs⟩
      | reflexive => exact ⟨congrArg (Except.map _) hs, congrArg (Except.map _) hp⟩
      | restrict keep => exact ⟨congrArg (Except.map _) hs, congrArg (Except.map _) hp⟩
      | readOnly => exact ⟨hs, hp⟩

/-- A lookup that succeeds in the graph succeeds through every stack. -/
theorem exists_neighbours_view (stack : Stack ν) {g : Graph ν κ} (hg : g.Closed) {n : ν}
    (hn : n ∈ g.nodes) :
    (∃ ss, (stack.view g).succs n = .ok ss) ∧ ∃ ps, (stack.view g).preds n = .ok ps := by
  induction stack with
  | nil =>
      obtain ⟨ss, hss, -⟩ := hg.succs n hn
      obtain ⟨ps, hps, -⟩ := hg.preds n hn
      exact ⟨⟨ss, hss⟩, ps, hps⟩
  | cons layer stack ih =>
      obtain ⟨⟨ss, hs⟩, ps, hp⟩ := ih
      cases layer with
      | transpose => exact ⟨⟨ps, hp⟩, ss, hs⟩
      | reflexive => exact ⟨⟨_, congrArg (Except.map _) hs⟩, _, congrArg (Except.map _) hp⟩
      | restrict keep => exact ⟨⟨_, congrArg (Except.map _) hs⟩, _, congrArg (Except.map _) hp⟩
      | readOnly => exact ⟨⟨ss, hs⟩, ps, hp⟩

/-- **A node that is left out** has no neighbours, or only itself. -/
theorem neighbours_view_of_left_out (stack : Stack ν) {g : Graph ν κ} (hg : g.Closed) {n : ν}
    (hn : n ∈ g.nodes) (hout : stack.keeps n = false) :
    (stack.view g).succs n = .ok (stack.remnant n) ∧
      (stack.view g).preds n = .ok (stack.remnant n) := by
  induction stack with
  | nil => cases hout
  | cons layer stack ih =>
      cases layer with
      | transpose => exact (ih hout).symm
      | reflexive =>
          obtain ⟨hs, hp⟩ := ih hout
          rw [← addSelf_remnant stack hout]
          exact ⟨congrArg (Except.map _) hs, congrArg (Except.map _) hp⟩
      | restrict keep =>
          -- the node may be kept below, but then this restriction empties its list
          obtain ⟨⟨ss, hs⟩, ps, hp⟩ := exists_neighbours_view stack hg hn
          have hbelow : keep n = true → Stack.keeps stack n = false := by
            intro hkeep
            simpa [keeps, Layer.keeps, hkeep] using hout
          have hss : keep n = true → ss = remnant stack n := fun hkeep =>
            Except.ok.inj (hs.symm.trans (ih (hbelow hkeep)).1)
          have hps : keep n = true → ps = remnant stack n := fun hkeep =>
            Except.ok.inj (hp.symm.trans (ih (hbelow hkeep)).2)
          constructor
          · rw [← filter_remnant hss]
            exact congrArg (Except.map _) hs
          · rw [← filter_remnant hps]
            exact congrArg (Except.map _) hp
      | readOnly => exact ih hout

/-! ## Edges against neighbours -/

theorem mem_nodes_view_iff (stack : Stack ν) {g : Graph ν κ} {n : ν} :
    n ∈ (stack.view g).nodes ↔ n ∈ g.nodes ∧ stack.keeps n = true := by
  rw [nodes_view, List.mem_filter]

theorem confined_view (stack : Stack ν) {g : Graph ν κ} (h : g.Confined) (hg : g.Sound) :
    (stack.view g).Confined := by
  induction stack with
  | nil => exact h
  | cons layer stack ih =>
      cases layer with
      | transpose => exact ih.transpose
      | reflexive => exact ih.reflexive (Stack.sound_view stack hg)
      | restrict keep => exact ih.restrict keep
      | readOnly => exact ih

/-- Nodes that are left out have no edges. -/
theorem hasEdge_view_of_left_out (stack : Stack ν) {g : Graph ν κ} (hg : g.Sound)
    (hconf : g.Confined) {a : ν} (hout : stack.keeps a = false) (b : ν) :
    (stack.view g).hasEdge a b = false := by
  refine Bool.eq_false_iff.2 fun hedge => ?_
  obtain ⟨ha, -⟩ := stack.confined_view hconf hg a b hedge
  rw [((stack.mem_nodes_view_iff).1 ha).2] at hout
  cases hout

/-- **A node leads to what it has an edge to**, and to itself if it is exposed. -/
theorem leads_view_iff (stack : Stack ν) {g : Graph ν κ} (hg : g.Sound) (hconf : g.Confined)
    (hguard : g.Guarded) {a b : ν} :
    (stack.view g).Leads a b ↔ (stack.view g).hasEdge a b = true ∨
      a = b ∧ a ∈ g.nodes ∧ stack.exposes a = true := by
  have hsound := stack.sound_view hg
  by_cases ha : a ∈ g.nodes
  · cases hkeep : stack.keeps a with
    | true =>
        have hlisted := (stack.mem_nodes_view_iff).2 ⟨ha, hkeep⟩
        have hhidden := exposes_of_keeps hkeep
        constructor
        · intro hleads
          have hb := hsound.closed.mem_of_leads hlisted hleads
          exact Or.inl ((hsound.hasEdge_iff a hlisted b hb).2 hleads)
        · rintro (hedge | ⟨-, -, hexp⟩)
          · obtain ⟨-, hb⟩ := stack.confined_view hconf hg a b hedge
            exact (hsound.hasEdge_iff a hlisted b hb).1 hedge
          · rw [hhidden] at hexp
            cases hexp
    | false =>
        obtain ⟨hsuccs, -⟩ := stack.neighbours_view_of_left_out hg.closed ha hkeep
        have hedge := stack.hasEdge_view_of_left_out hg hconf hkeep b
        have hleads : (stack.view g).Leads a b ↔ b ∈ stack.remnant a := by
          simp [Graph.Leads, hsuccs]
        rw [hleads, mem_remnant, hedge]
        constructor
        · rintro ⟨rfl, hexp⟩
          exact Or.inr ⟨rfl, ha, hexp⟩
        · rintro (hfalse | ⟨rfl, -, hexp⟩)
          · cases hfalse
          · exact ⟨rfl, hexp⟩
  · obtain ⟨e, hs, hp⟩ := hguard a ha
    obtain ⟨hsuccs, -⟩ := stack.neighbours_view_of_error hs hp
    refine iff_of_false ?_ ?_
    · rintro ⟨ss, hss, -⟩
      rw [hsuccs] at hss
      cases hss
    · rintro (hedge | ⟨-, hmem, -⟩)
      · obtain ⟨hlisted, -⟩ := stack.confined_view hconf hg a b hedge
        exact ha ((stack.mem_nodes_view_iff).1 hlisted).1
      · exact ha hmem

/-- The same for predecessors, which are the successors through one more transposing layer. -/
theorem draws_view_iff (stack : Stack ν) {g : Graph ν κ} (hg : g.Sound) (hconf : g.Confined)
    (hguard : g.Guarded) {a b : ν} :
    (stack.view g).Draws b a ↔ (stack.view g).hasEdge a b = true ∨
      b = a ∧ b ∈ g.nodes ∧ stack.exposes b = true :=
  leads_view_iff (.transpose :: stack) hg hconf hguard

/-! ## Numbers against neighbours -/

/-- A node that is not counted twice is counted right. -/
theorem counts_view_of_left_out (stack : Stack ν) {g : Graph ν κ} (hg : g.Sound)
    (hconf : g.Confined) {n : ν} (hn : n ∈ g.nodes) (hout : stack.keeps n = false)
    (honce : stack.recounts n = false) :
    (stack.view g).succCount n = .ok (stack.remnant n).length ∧
      (stack.view g).predCount n = .ok (stack.remnant n).length := by
  induction stack with
  | nil => cases hout
  | cons layer stack ih =>
      cases layer with
      | transpose => exact (ih hout honce).symm
      | reflexive =>
          have hhidden : Stack.exposes stack n = false := honce
          obtain ⟨hs, hp⟩ := ih hout (recounts_of_not_exposes hhidden)
          obtain ⟨hsucc, hpred⟩ := Graph.counts_reflexive_of_no_edge
            (hasEdge_view_of_left_out stack hg hconf hout n)
          have hnone : (remnant stack n).length = 0 := by simp [remnant, hhidden]
          have hself : (remnant (.reflexive :: stack) n).length = 1 := by
            rw [← addSelf_remnant stack hout]
            simp [remnant, Graph.addSelf, hhidden]
          have hone : Graph.countSelf n 0 = .ok 1 :=
            Graph.countSelf_eq_ok_iff.2 ⟨rfl, by decide⟩
          rw [hself]
          rw [hs, hnone] at hsucc
          rw [hp, hnone] at hpred
          exact ⟨hsucc.trans hone, hpred.trans hone⟩
      | restrict keep =>
          obtain ⟨hs, hp⟩ := neighbours_view_of_left_out (.restrict keep :: stack) hg.closed hn hout
          exact ⟨congrArg (Except.map List.length) hs, congrArg (Except.map List.length) hp⟩
      | readOnly => exact ih hout honce

/-- A node that is exposed is counted at least once, and at least twice if a reflexive
layer above counts it again. -/
theorem le_count_view_of_exposes (stack : Stack ν) {g : Graph ν κ} (hg : g.Sound)
    (hconf : g.Confined) {n : ν} (hn : n ∈ g.nodes) (hexp : stack.exposes n = true) {k : Nat}
    (hk : (stack.view g).succCount n = .ok k ∨ (stack.view g).predCount n = .ok k) :
    1 ≤ k ∧ (stack.recounts n = true → 2 ≤ k) := by
  have hout := keeps_of_exposes hexp
  induction stack generalizing k with
  | nil => cases hout
  | cons layer stack ih =>
      cases layer with
      | transpose => exact ih hexp hk.symm hout
      | reflexive =>
          obtain ⟨hsucc, hpred⟩ := Graph.counts_reflexive_of_no_edge
            (hasEdge_view_of_left_out stack hg hconf hout n)
          obtain ⟨j, hj, rfl⟩ : ∃ j, ((Stack.view stack g).succCount n = .ok j ∨
              (Stack.view stack g).predCount n = .ok j) ∧ k = j + 1 := by
            rcases hk with hk | hk
            · obtain ⟨j, hj, hself⟩ := bind_eq_ok_iff.1 (hsucc.symm.trans hk)
              exact ⟨j, Or.inl hj, (Graph.countSelf_eq_ok_iff.1 hself).1⟩
            · obtain ⟨j, hj, hself⟩ := bind_eq_ok_iff.1 (hpred.symm.trans hk)
              exact ⟨j, Or.inr hj, (Graph.countSelf_eq_ok_iff.1 hself).1⟩
          refine ⟨by omega, fun hbelow => ?_⟩
          have hle := (ih hbelow hj hout).1
          omega
      | restrict keep =>
          obtain ⟨hs, hp⟩ := neighbours_view_of_left_out (.restrict keep :: stack) hg.closed hn hout
          have hlen : (remnant (.restrict keep :: stack) n).length = 1 := by simp [remnant, hexp]
          have hcount : (remnant (.restrict keep :: stack) n).length = k := by
            rcases hk with hk | hk
            · exact Except.ok.inj ((congrArg (Except.map List.length) hs).symm.trans hk)
            · exact Except.ok.inj ((congrArg (Except.map List.length) hp).symm.trans hk)
          exact ⟨by omega, fun h => by cases h⟩
      | readOnly => exact ih hexp hk hout

/-- **The number of successors is that of the list**, unless the node is counted twice. -/
theorem succCount_view_iff (stack : Stack ν) {g : Graph ν κ} (hg : g.Sound) (hconf : g.Confined)
    (hguard : g.Guarded) (hcounted : g.Counted) (hsize : g.nodes.length ≤ maxCount) {n : ν}
    {ss : List ν} (hss : (stack.view g).succs n = .ok ss) :
    (stack.view g).succCount n = .ok ss.length ↔ stack.recounts n = false := by
  have hn : n ∈ g.nodes := by
    by_contra hn
    obtain ⟨e, hs, hp⟩ := hguard n hn
    rw [(stack.neighbours_view_of_error hs hp).1] at hss
    cases hss
  cases hkeep : stack.keeps n with
  | true =>
      have hlisted := (stack.mem_nodes_view_iff).2 ⟨hn, hkeep⟩
      have hcount := (stack.counted_view hcounted hg hsize).succs n hlisted
      rw [hss] at hcount
      exact iff_of_true hcount (recounts_of_not_exposes (exposes_of_keeps hkeep))
  | false =>
      obtain ⟨hsuccs, -⟩ := stack.neighbours_view_of_left_out hg.closed hn hkeep
      obtain rfl := Except.ok.inj (hss.symm.trans hsuccs)
      constructor
      · intro hcount
        refine Bool.eq_false_iff.2 fun htwice => ?_
        have hexp := exposes_of_recounts htwice
        have hle := (stack.le_count_view_of_exposes hg hconf hn hexp (Or.inl hcount)).2 htwice
        simp [remnant, hexp] at hle
      · exact fun honce => (stack.counts_view_of_left_out hg hconf hn hkeep honce).1

theorem predCount_view_iff (stack : Stack ν) {g : Graph ν κ} (hg : g.Sound) (hconf : g.Confined)
    (hguard : g.Guarded) (hcounted : g.Counted) (hsize : g.nodes.length ≤ maxCount) {n : ν}
    {ps : List ν} (hps : (stack.view g).preds n = .ok ps) :
    (stack.view g).predCount n = .ok ps.length ↔ stack.recounts n = false :=
  succCount_view_iff (.transpose :: stack) hg hconf hguard hcounted hsize hps

end Stack

/-! ## The adjacency store -/

namespace Adjacency

variable [DecidableEq ν]

theorem confined (g : Adjacency ν) : g.graph.Confined := fun _ _ h => mem_of_hasEdge h

theorem guarded (g : Adjacency ν) : g.graph.Guarded := by
  intro n hn
  have hnumber := number_eq_error (show n ∉ g.nodes from hn)
  exact ⟨.invalidNode n, congrArg (Except.map _) hnumber, congrArg (Except.map _) hnumber⟩

/-- **Edges and neighbours agree unless a node is exposed.**  Through any stack over a
reachable store and for any two nodes, listed or not, there is an edge if the second node is
a successor of the first, and if the first is a predecessor of the second, except for the
edge of an exposed node to itself: such a node is its own and only neighbour, and there is
no edge.  Wherever neighbours can be looked up, their number is that of the list, unless
the topmost layer that counts is a reflexive one above layers that expose the node. -/
theorem view_agrees_unless_exposed (g : Adjacency ν) (hg : g.Reachable) (stack : Stack ν)
    (a b : ν) :
    (¬ (a = b ∧ a ∈ g.graph.nodes ∧ stack.exposes a = true) →
      ((stack.view g.graph).hasEdge a b = true ↔ (stack.view g.graph).Leads a b) ∧
      ((stack.view g.graph).hasEdge a b = true ↔ (stack.view g.graph).Draws b a)) ∧
    (a ∈ g.graph.nodes → stack.exposes a = true →
      (stack.view g.graph).hasEdge a a = false ∧ (stack.view g.graph).succs a = .ok [a] ∧
      (stack.view g.graph).preds a = .ok [a]) ∧
    (g.graph.nodes.length ≤ maxCount →
      (∀ ss, (stack.view g.graph).succs a = .ok ss →
        ((stack.view g.graph).succCount a = .ok ss.length ↔ stack.recounts a = false)) ∧
      (∀ ps, (stack.view g.graph).preds a = .ok ps →
        ((stack.view g.graph).predCount a = .ok ps.length ↔ stack.recounts a = false))) := by
  have hsound := hg.sound
  have hcounted := hg.paired.counted
  refine ⟨fun hnot => ⟨?_, ?_⟩, fun ha hexp => ?_, fun hsize => ⟨fun ss => ?_, fun ps => ?_⟩⟩
  · rw [stack.leads_view_iff hsound g.confined g.guarded, or_iff_left hnot]
  · have hnot' : ¬ (b = a ∧ b ∈ g.graph.nodes ∧ stack.exposes b = true) := by
      rintro ⟨rfl, hb⟩
      exact hnot ⟨rfl, hb⟩
    rw [stack.draws_view_iff hsound g.confined g.guarded, or_iff_left hnot']
  · have hout := Stack.keeps_of_exposes hexp
    have hlist : stack.remnant a = [a] := if_pos hexp
    have hneighbours := stack.neighbours_view_of_left_out hsound.closed ha hout
    rw [hlist] at hneighbours
    exact ⟨stack.hasEdge_view_of_left_out hsound g.confined hout a, hneighbours⟩
  · exact stack.succCount_view_iff hsound g.confined g.guarded hcounted hsize
  · exact stack.predCount_view_iff hsound g.confined g.guarded hcounted hsize

end Adjacency

/-- Two reflexive layers above a restriction that leaves a node out. -/
def Stack.doubled : Stack Nat := [.reflexive, .reflexive, .restrict (· ≠ 3)]

theorem Adjacency.view_agrees_unless_exposed_looped :
    Adjacency.looped.Reachable ∧
      ((Stack.doubled.view Adjacency.looped.graph).hasEdge 4 2 = true ↔
        (Stack.doubled.view Adjacency.looped.graph).Leads 4 2) ∧
      (Stack.doubled.view Adjacency.looped.graph).hasEdge 3 3 = false ∧
      (Stack.doubled.view Adjacency.looped.graph).succs 3 = .ok [3] ∧
      (Stack.doubled.view Adjacency.looped.graph).succCount 4 = .ok 2 := by
  have hreach : Adjacency.looped.Reachable := ⟨_, rfl⟩
  obtain ⟨hedges, -, hcounts⟩ :=
    Adjacency.view_agrees_unless_exposed Adjacency.looped hreach Stack.doubled 4 2
  obtain ⟨-, hexposed, -⟩ :=
    Adjacency.view_agrees_unless_exposed Adjacency.looped hreach Stack.doubled 3 3
  obtain ⟨hno, hself, -⟩ := hexposed (by decide) (by decide)
  have hcount := (hcounts (by decide)).1 [2, 4] (by decide)
  exact ⟨hreach, (hedges (by decide)).1, hno, hself, hcount.2 (by decide)⟩

/-- An exposed node is its own neighbour without an edge, and is counted twice. -/
theorem Adjacency.not_view_agrees_looped :
    Adjacency.looped.Reachable ∧
      ¬ ((Stack.doubled.view Adjacency.looped.graph).hasEdge 3 3 = true ↔
        (Stack.doubled.view Adjacency.looped.graph).Leads 3 3) ∧
      (Stack.doubled.view Adjacency.looped.graph).succs 3 = .ok [3] ∧
      (Stack.doubled.view Adjacency.looped.graph).succCount 3 = .ok 2 := by
  have hsuccs : (Stack.doubled.view Adjacency.looped.graph).succs 3 = .ok [3] := by decide
  refine ⟨⟨_, rfl⟩, fun h => ?_, hsuccs, by decide⟩
  have hedge := h.2 ⟨[3], hsuccs, by decide⟩
  exact absurd hedge (by decide)

end ProgramFlow
