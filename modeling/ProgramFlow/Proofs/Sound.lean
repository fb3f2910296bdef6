import ProgramFlow.Graph.Layer

/-!
# Sound graphs, and what layers keep of them

A `Graph` promises little, so what an algorithm relies on has to be said.  A
graph is *closed* if the neighbours of listed nodes can be looked up and are
listed; it is *mirrored* if both directions tell the same edges.  A *sound*
graph is closed and mirrored, lists no node twice, contains exactly what it
lists, and its edges are those that its successor lists show.

Layers are built to be stacked, so each of them has to hand on all of this.

* `Graph.Leads`, `Graph.Draws` — the edges, read forward and read backward.
* `Graph.Closed`, `Graph.Mirrored`, `Graph.Sound` — what can be relied on;
  `Graph.Notifies` is the half of being mirrored that changes need to be told.
* `Graph.leads_reflexive`, `Graph.leads_restrict` — the edges through a layer.
* `Stack.sound_view` — a sound graph is sound through every stack of layers.
-/

namespace ProgramFlow

variable {ν κ : Type}

/-! ## Neighbour lookups -/

/-- The neighbours of the listed nodes can be looked up, and are listed nodes. -/
def TotalOn (nodes : List ν) (f : ν → Lookup ν (List ν)) : Prop :=
  ∀ n ∈ nodes, ∃ ns, f n = .ok ns ∧ ∀ m ∈ ns, m ∈ nodes

/-- No answer of a lookup holds a node twice. -/
def Repetitionless (f : ν → Lookup ν (List ν)) : Prop := ∀ n ns, f n = .ok ns → ns.Nodup

namespace Graph

/-- The second node is a successor of the first. -/
def Leads (g : Graph ν κ) (a b : ν) : Prop := ∃ ss, g.succs a = .ok ss ∧ b ∈ ss

/-- The second node is a predecessor of the first. -/
def Draws (g : Graph ν κ) (a b : ν) : Prop := ∃ ps, g.preds a = .ok ps ∧ b ∈ ps

/-- The neighbours of listed nodes are listed, in both directions. -/
structure Closed (g : Graph ν κ) : Prop where
  preds : TotalOn g.nodes g.preds
  succs : TotalOn g.nodes g.succs

/-- Between listed nodes both directions tell the same edges. -/
def Mirrored (g : Graph ν κ) : Prop :=
  ∀ a ∈ g.nodes, ∀ b ∈ g.nodes, g.Leads a b ↔ g.Draws b a

/-- Between listed nodes, a predecessor has the node among its successors.  It may have
others that do not know of it. -/
def Notifies (g : Graph ν κ) : Prop :=
  ∀ a ∈ g.nodes, ∀ b ∈ g.nodes, g.Draws b a → g.Leads a b

theorem Mirrored.notifies {g : Graph ν κ} (h : g.Mirrored) : g.Notifies :=
  fun a ha b hb => (h a ha b hb).2

instance [DecidableEq ν] (g : Graph ν κ) (a b : ν) : Decidable (g.Leads a b) :=
  match h : g.succs a with
  | .ok ss => decidable_of_iff (b ∈ ss) (by simp [Leads, h])
  | .error _ => isFalse (by simp [Leads, h])

instance [DecidableEq ν] (g : Graph ν κ) (a b : ν) : Decidable (g.Draws a b) :=
  match h : g.preds a with
  | .ok ps => decidable_of_iff (b ∈ ps) (by simp [Draws, h])
  | .error _ => isFalse (by simp [Draws, h])

instance [DecidableEq ν] (g : Graph ν κ) : Decidable g.Notifies :=
  inferInstanceAs (Decidable (∀ a ∈ g.nodes, ∀ b ∈ g.nodes, g.Draws b a → g.Leads a b))

/-- The parts of the graph agree with each other. -/
structure Sound (g : Graph ν κ) : Prop where
  nodup : g.nodes.Nodup
  contains_iff : ∀ n, g.contains n = true ↔ n ∈ g.nodes
  closed : g.Closed
  nodup_preds : Repetitionless g.preds
  nodup_succs : Repetitionless g.succs
  mirrored : g.Mirrored
  hasEdge_iff : ∀ a ∈ g.nodes, ∀ b ∈ g.nodes, (g.hasEdge a b = true ↔ g.Leads a b)

theorem Closed.mem_of_leads {g : Graph ν κ} (h : g.Closed) {a b : ν} (ha : a ∈ g.nodes)
    (hab : g.Leads a b) : b ∈ g.nodes := by
  obtain ⟨ss, hss, hb⟩ := hab
  obtain ⟨ss', hss', hall⟩ := h.succs a ha
  rw [hss, Except.ok.injEq] at hss'
  exact hall b (hss' ▸ hb)

/-! ## Transposing -/

theorem Closed.transpose {g : Graph ν κ} (h : g.Closed) : g.transpose.Closed :=
  ⟨h.succs, h.preds⟩

theorem Mirrored.transpose {g : Graph ν κ} (h : g.Mirrored) : g.transpose.Mirrored :=
  fun a ha b hb => (h b hb a ha).symm

theorem Sound.transpose {g : Graph ν κ} (h : g.Sound) : g.transpose.Sound where
  nodup := h.nodup
  contains_iff := h.contains_iff
  closed := h.closed.transpose
  nodup_preds := h.nodup_succs
  nodup_succs := h.nodup_preds
  mirrored := h.mirrored.transpose
  hasEdge_iff a ha b hb := (h.hasEdge_iff b hb a ha).trans (h.mirrored b hb a ha)

/-! ## Adding every node to its neighbours -/

section Reflexive

variable [DecidableEq ν]

theorem nodup_addSelf {n : ν} {ns : List ν} (h : ns.Nodup) : (addSelf n ns).Nodup := by
  unfold addSelf
  split
  · exact h
  · rename_i hn
    exact List.nodup_append.2 ⟨h, by simp, fun a ha b hb hab => hn (by simp_all)⟩

theorem totalOn_addSelf {nodes : List ν} {f : ν → Lookup ν (List ν)} (h : TotalOn nodes f) :
    TotalOn nodes fun n => (f n).map (addSelf n) := by
  intro n hn
  obtain ⟨ns, hns, hall⟩ := h n hn
  refine ⟨addSelf n ns, by simp [hns, Except.map], ?_⟩
  intro m hm
  rcases mem_addSelf.1 hm with hm | rfl
  · exact hall m hm
  · exact hn

theorem repetitionless_addSelf {f : ν → Lookup ν (List ν)} (h : Repetitionless f) :
    Repetitionless fun n => (f n).map (addSelf n) := by
  intro n ns hns
  cases hn : f n with
  | error e => simp [hn, Except.map] at hns
  | ok ks =>
      simp only [hn, Except.map, Except.ok.injEq] at hns
      exact hns ▸ nodup_addSelf (h n ks hn)

/-- A node leads to itself and to what it led to. -/
theorem leads_reflexive {g : Graph ν κ} (h : TotalOn g.nodes g.succs) {a b : ν}
    (ha : a ∈ g.nodes) : g.reflexive.Leads a b ↔ g.Leads a b ∨ b = a := by
  obtain ⟨ss, hss, -⟩ := h a ha
  have hrefl : g.reflexive.succs a = .ok (addSelf a ss) := by simp [reflexive, hss, Except.map]
  simp only [Leads, hrefl, hss, Except.ok.injEq, exists_eq_left']
  exact mem_addSelf

theorem draws_reflexive {g : Graph ν κ} (h : TotalOn g.nodes g.preds) {a b : ν}
    (ha : a ∈ g.nodes) : g.reflexive.Draws a b ↔ g.Draws a b ∨ b = a :=
  leads_reflexive (g := g.transpose) h ha

theorem Sound.reflexive {g : Graph ν κ} (h : g.Sound) : g.reflexive.Sound where
  nodup := h.nodup
  contains_iff := h.contains_iff
  closed := ⟨totalOn_addSelf h.closed.preds, totalOn_addSelf h.closed.succs⟩
  nodup_preds := repetitionless_addSelf h.nodup_preds
  nodup_succs := repetitionless_addSelf h.nodup_succs
  mirrored a ha b hb := by
    rw [leads_reflexive h.closed.succs ha, draws_reflexive h.closed.preds hb,
      h.mirrored a ha b hb, eq_comm]
  hasEdge_iff a ha b hb := by
    rw [leads_reflexive h.closed.succs ha, ← h.hasEdge_iff a ha b hb]
    show (if a = b then g.contains a else g.hasEdge a b) = true ↔ _
    by_cases hab : a = b
    · rw [if_pos hab]
      exact ⟨fun _ => Or.inr hab.symm, fun _ => (h.contains_iff a).2 ha⟩
    · rw [if_neg hab]
      exact ⟨Or.inl, fun he => he.resolve_right (Ne.symm hab)⟩

end Reflexive

/-! ## Leaving nodes out -/

section Restrict

variable {keep : ν → Bool}

theorem totalOn_filter {nodes : List ν} {f : ν → Lookup ν (List ν)} (h : TotalOn nodes f) :
    TotalOn (nodes.filter keep)
      fun n => (f n).map fun ns => if keep n then ns.filter keep else [] := by
  intro n hn
  obtain ⟨hmem, hkeep⟩ := List.mem_filter.1 hn
  obtain ⟨ns, hns, hall⟩ := h n hmem
  refine ⟨ns.filter keep, by simp [hns, Except.map, hkeep], ?_⟩
  intro m hm
  obtain ⟨hm, hkeepm⟩ := List.mem_filter.1 hm
  exact List.mem_filter.2 ⟨hall m hm, hkeepm⟩

theorem repetitionless_filter {f : ν → Lookup ν (List ν)} (h : Repetitionless f) :
    Repetitionless fun n => (f n).map fun ns => if keep n then ns.filter keep else [] := by
  intro n ns hns
  cases hn : f n with
  | error e => simp [hn, Except.map] at hns
  | ok ks =>
      simp only [hn, Except.map, Except.ok.injEq] at hns
      subst hns
      split
      · exact (h n ks hn).filter _
      · exact List.nodup_nil

/-- The edges that remain are those between nodes that are kept. -/
theorem leads_restrict {g : Graph ν κ} {a b : ν} :
    (g.restrict keep).Leads a b ↔ keep a = true ∧ keep b = true ∧ g.Leads a b := by
  cases hs : g.succs a with
  | error e => simp [Leads, restrict, hs, Except.map]
  | ok ss =>
      have hrest : (g.restrict keep).succs a = .ok (if keep a then ss.filter keep else []) := by
        simp [restrict, hs, Except.map]
      simp only [Leads, hrest, hs, Except.ok.injEq, exists_eq_left']
      by_cases ha : keep a = true
      · rw [if_pos ha, List.mem_filter]
        exact ⟨fun h => ⟨ha, h.2, h.1⟩, fun h => ⟨h.2.2, h.2.1⟩⟩
      · rw [if_neg ha]
        exact ⟨fun h => absurd h List.not_mem_nil, fun h => absurd h.1 ha⟩

theorem draws_restrict {g : Graph ν κ} {a b : ν} :
    (g.restrict keep).Draws a b ↔ keep a = true ∧ keep b = true ∧ g.Draws a b :=
  leads_restrict (g := g.transpose)

theorem Sound.restrict {g : Graph ν κ} (h : g.Sound) (keep : ν → Bool) :
    (g.restrict keep).Sound where
  nodup := h.nodup.filter _
  contains_iff n := by
    show (keep n && g.contains n) = true ↔ n ∈ g.nodes.filter keep
    rw [Bool.and_eq_true, h.contains_iff, List.mem_filter, and_comm]
  closed := ⟨totalOn_filter h.closed.preds, totalOn_filter h.closed.succs⟩
  nodup_preds := repetitionless_filter h.nodup_preds
  nodup_succs := repetitionless_filter h.nodup_succs
  mirrored a ha b hb := by
    rw [leads_restrict, draws_restrict,
      h.mirrored a (List.mem_filter.1 ha).1 b (List.mem_filter.1 hb).1, and_left_comm]
  hasEdge_iff a ha b hb := by
    show (keep a && keep b && g.hasEdge a b) = true ↔ _
    rw [leads_restrict, Bool.and_eq_true, Bool.and_eq_true, and_assoc,
      h.hasEdge_iff a (List.mem_filter.1 ha).1 b (List.mem_filter.1 hb).1]

end Restrict

end Graph

/-! ## Stacks -/

variable [DecidableEq ν]

theorem Layer.sound_view (layer : Layer ν) {g : Graph ν κ} (h : g.Sound) :
    (layer.view g).Sound := by
  cases layer with
  | transpose => exact h.transpose
  | reflexive => exact h.reflexive
  | restrict keep => exact h.restrict keep
  | readOnly => exact h

/-- **A sound graph stays sound** through any number of layers in any order. -/
theorem Stack.sound_view (stack : Stack ν) {g : Graph ν κ} (h : g.Sound) :
    (stack.view g).Sound := by
  induction stack with
  | nil => exact h
  | cons layer stack ih => exact layer.sound_view ih

end ProgramFlow
