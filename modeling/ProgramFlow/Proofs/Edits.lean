import ProgramFlow.Proofs.Adjacency

/-!
# What edits do to the edges

An edit names one or two nodes.  If one of them is missing, the edit is refused and the
store stays as it is.  Otherwise it succeeds, and what it does can be said edge by edge:
`Edit.adds` is the edge that it makes, `Edit.removes` are the edges that it takes away.

* `Edit.adds_transpose`, `Edit.removes_transpose` — a transposed edit does the same to the
  reversed edges.
* `Adjacency.edit_refused` — the first node that is missing is reported.
* `Adjacency.exists_edit` — an edit whose nodes are there does what it says.
* `Adjacency.hasEdge_addNode`, `Adjacency.hasEdge_connect` — the same for the other
  operations of the store.
-/

namespace ProgramFlow

variable {ν : Type}

/-! ## Edits, edge by edge -/

namespace Edit

/-- The nodes that an edit names, in the order in which they are looked up. -/
def ends : Edit ν → List ν
  | addEdge src dst => [src, dst]
  | removeEdge src dst => [src, dst]
  | removeIncident n => [n]
  | removeIncoming n => [n]
  | removeOutgoing n => [n]

variable [DecidableEq ν]

/-- Is there an edge between two nodes once the edit is done, whatever was there? -/
def adds : Edit ν → ν → ν → Bool
  | addEdge src dst, a, b => a = src ∧ b = dst
  | _, _, _ => false

/-- Is there no edge between two nodes once the edit is done, whatever was there? -/
def removes : Edit ν → ν → ν → Bool
  | addEdge _ _, _, _ => false
  | removeEdge src dst, a, b => a = src ∧ b = dst
  | removeIncident n, a, b => a = n ∨ b = n
  | removeIncoming n, _, b => b = n
  | removeOutgoing n, a, _ => a = n

/-- An edge is made between nodes that the edit names. -/
theorem mem_ends_of_adds {e : Edit ν} {a b : ν} (h : e.adds a b = true) :
    a ∈ e.ends ∧ b ∈ e.ends := by
  cases e with
  | addEdge src dst =>
      simp only [adds, decide_eq_true_eq] at h
      simp [ends, h]
  | _ => cases h

/-- An edit that removes an edge names no other nodes than its ends. -/
theorem eq_or_eq_of_removes {e : Edit ν} {a b n : ν} (h : e.removes a b = true) (hn : n ∈ e.ends) :
    n = a ∨ n = b := by
  cases e with
  | addEdge src dst => cases h
  | removeEdge src dst =>
      obtain ⟨rfl, rfl⟩ : a = src ∧ b = dst := of_decide_eq_true h
      simpa [ends] using hn
  | removeIncident m =>
      obtain rfl : n = m := by simpa [ends] using hn
      exact (of_decide_eq_true h : a = n ∨ b = n).imp Eq.symm Eq.symm
  | removeIncoming m =>
      obtain rfl : n = m := by simpa [ends] using hn
      exact Or.inr (of_decide_eq_true h : b = n).symm
  | removeOutgoing m =>
      obtain rfl : n = m := by simpa [ends] using hn
      exact Or.inl (of_decide_eq_true h : a = n).symm

omit [DecidableEq ν] in
/-- A transposed edit names the same nodes, an edge's in the other order. -/
@[simp] theorem mem_ends_transpose {e : Edit ν} {n : ν} : n ∈ e.transpose.ends ↔ n ∈ e.ends := by
  cases e with
  | addEdge src dst => simp [transpose, ends, or_comm]
  | removeEdge src dst => simp [transpose, ends, or_comm]
  | _ => rfl

@[simp] theorem adds_transpose (e : Edit ν) (a b : ν) : e.transpose.adds a b = e.adds b a := by
  cases e with
  | addEdge src dst => simp [transpose, adds, and_comm]
  | _ => rfl

@[simp] theorem removes_transpose (e : Edit ν) (a b : ν) :
    e.transpose.removes a b = e.removes b a := by
  cases e with
  | removeEdge src dst => simp [transpose, removes, and_comm]
  | removeIncident n => simp [transpose, removes, or_comm]
  | _ => rfl

end Edit

/-! ## Edges and arcs -/

namespace Adjacency

theorem Paired.lt_of_arc {g : Adjacency ν} (hg : g.Paired) {i j : Nat} (h : g.Arc i j) :
    i < g.nodes.size ∧ j < g.nodes.size := by
  constructor
  · refine Nat.lt_of_not_le fun hi => ?_
    exact not_mem_row_of_le (hg.length_succs ▸ hi) h
  · refine Nat.lt_of_not_le fun hj => ?_
    exact not_mem_row_of_le (hg.length_preds ▸ hj) ((hg.mem_preds_iff i j).2 h)

variable [DecidableEq ν]

/-- Between nodes with numbers, an edge is an arc. -/
theorem hasEdge_iff_arc {g : Adjacency ν} {a b : ν} {i j : Nat} (hi : g.nodes.get? i = some a)
    (hj : g.nodes.get? j = some b) : g.hasEdge a b = true ↔ g.Arc i j := by
  rw [hasEdge_iff, leads_iff]
  constructor
  · rintro ⟨i', j', hi', hj', harc⟩
    exact Roster.get?_inj hi' hi ▸ Roster.get?_inj hj' hj ▸ harc
  · exact fun harc => ⟨i, j, hi, hj, harc⟩

/-- Edges are between nodes of the store. -/
theorem mem_of_hasEdge {g : Adjacency ν} {a b : ν} (h : g.hasEdge a b = true) :
    a ∈ g.nodes ∧ b ∈ g.nodes := by
  rw [hasEdge_iff, leads_iff] at h
  obtain ⟨i, j, hi, hj, -⟩ := h
  exact ⟨Roster.mem_iff_get?.2 ⟨i, hi⟩, Roster.mem_iff_get?.2 ⟨j, hj⟩⟩

/-- What can be said of the arcs between the numbers of two nodes can be said of the edge
between them. -/
theorem hasEdge_iff_of_arc {g : Adjacency ν} {a b : ν} {Q : Prop}
    (hmem : Q → a ∈ g.nodes ∧ b ∈ g.nodes)
    (harc : ∀ i j, g.nodes.get? i = some a → g.nodes.get? j = some b → (g.Arc i j ↔ Q)) :
    g.hasEdge a b = true ↔ Q := by
  by_cases hab : a ∈ g.nodes ∧ b ∈ g.nodes
  · obtain ⟨i, hi⟩ := Roster.mem_iff_get?.1 hab.1
    obtain ⟨j, hj⟩ := Roster.mem_iff_get?.1 hab.2
    rw [hasEdge_iff_arc hi hj, harc i j hi hj]
  · exact iff_of_false (mt mem_of_hasEdge hab) (mt hmem hab)

omit [DecidableEq ν] in
/-- Numbers of nodes are equal if the nodes are. -/
theorem number_eq_iff {g : Adjacency ν} {a b : ν} {i j : Nat} (hi : g.nodes.get? i = some a)
    (hj : g.nodes.get? j = some b) : i = j ↔ a = b := by
  constructor
  · rintro rfl
    exact Option.some.inj (hi.symm.trans hj)
  · rintro rfl
    exact Roster.get?_inj hi hj

/-! ## Edits that are refused -/

theorem number_eq_error {g : Adjacency ν} {n : ν} (h : n ∉ g.nodes) :
    g.number n = .error (.invalidNode n) := by
  rw [number, Roster.index?_eq_none_iff.2 h]

theorem exists_number {g : Adjacency ν} {n : ν} (h : n ∈ g.nodes) :
    ∃ i, g.number n = .ok i ∧ g.nodes.get? i = some n := by
  obtain ⟨i, hi⟩ := Roster.mem_iff_get?.1 h
  exact ⟨i, number_eq_ok_iff.2 hi, hi⟩

theorem on_numberM_bind_of_ok {α : Type} {n : ν} {k : Nat → EditM ν (Adjacency ν) α}
    {g : Adjacency ν} {i : Nat} (h : g.number n = .ok i) :
    (numberM n >>= k).on g = (k i).on g := by
  rw [on_numberM_bind, h]

theorem on_numberM_bind_of_not_mem {α : Type} {n : ν} {k : Nat → EditM ν (Adjacency ν) α}
    {g : Adjacency ν} (h : n ∉ g.nodes) :
    (numberM n >>= k).on g = (.error (.invalidNode n), g) := by
  rw [on_numberM_bind, number_eq_error h]

/-- Two numbers are asked for; the first node that is missing is reported. -/
theorem on_numberM_numberM_refused {src dst n : ν} {f : Nat → Nat → EditM ν (Adjacency ν) Unit}
    {g : Adjacency ν} (h : [src, dst].find? (fun m => m ∉ g.nodes) = some n) :
    (do let i ← numberM src; let j ← numberM dst; f i j : EditM ν (Adjacency ν) Unit).on g =
      (.error (.invalidNode n), g) := by
  by_cases hsrc : src ∈ g.nodes
  · obtain ⟨i, hi, -⟩ := exists_number hsrc
    have hdst : dst ∉ g.nodes ∧ dst = n := by simpa [hsrc] using h
    rw [on_numberM_bind_of_ok hi, ← hdst.2]
    exact on_numberM_bind_of_not_mem hdst.1
  · have hsrc' : src = n := by simpa [hsrc] using h
    rw [← hsrc']
    exact on_numberM_bind_of_not_mem hsrc

/-- **An edit of which a node is missing is refused.**  It reports the first one and
changes nothing. -/
theorem edit_refused {g : Adjacency ν} {e : Edit ν} {n : ν}
    (h : e.ends.find? (fun m => m ∉ g.nodes) = some n) :
    (edit e).on g = (.error (.invalidNode n), g) := by
  have hone : ∀ m, [m].find? (fun m => decide (m ∉ g.nodes)) = some n → m ∉ g.nodes ∧ m = n := by
    intro m hm
    simpa using hm
  cases e with
  | addEdge src dst => exact on_numberM_numberM_refused h
  | removeEdge src dst => exact on_numberM_numberM_refused h
  | removeIncident m =>
      obtain ⟨hm, rfl⟩ := hone m h
      show (removeIncident m).on g = _
      rw [removeIncident, EditM.on_bind, removeIncoming, on_numberM_bind_of_not_mem hm]
  | removeIncoming m =>
      obtain ⟨hm, rfl⟩ := hone m h
      exact on_numberM_bind_of_not_mem hm
  | removeOutgoing m =>
      obtain ⟨hm, rfl⟩ := hone m h
      exact on_numberM_bind_of_not_mem hm

/-! ## Edits that succeed -/

/-- The store after an edit, as far as nodes and edges go. -/
structure Edited (e : Edit ν) (g g' : Adjacency ν) : Prop where
  nodes : g'.nodes = g.nodes
  hasEdge : ∀ a b, g'.hasEdge a b = true ↔
    g.hasEdge a b = true ∧ e.removes a b = false ∨ e.adds a b = true

/-- To see what an edit does it is enough to look at arcs between numbers of nodes. -/
theorem Edited.of_arc {e : Edit ν} {g g' : Adjacency ν} (hnodes : g'.nodes = g.nodes)
    (hends : ∀ n ∈ e.ends, n ∈ g.nodes)
    (harc : ∀ a b i j, g.nodes.get? i = some a → g.nodes.get? j = some b →
      (g'.Arc i j ↔ g.Arc i j ∧ e.removes a b = false ∨ e.adds a b = true)) : Edited e g g' where
  nodes := hnodes
  hasEdge a b := by
    refine hasEdge_iff_of_arc ?_ fun i j hi hj => ?_
    · rw [hnodes]
      rintro (⟨hedge, -⟩ | hadds)
      · exact mem_of_hasEdge hedge
      · obtain ⟨ha, hb⟩ := Edit.mem_ends_of_adds hadds
        exact ⟨hends a ha, hends b hb⟩
    · rw [hnodes] at hi hj
      rw [harc a b i j hi hj, hasEdge_iff_arc hi hj]

theorem edited_link {g : Adjacency ν} (hg : g.Paired) {src dst : ν} {p q : Nat}
    (hp : g.nodes.get? p = some src) (hq : g.nodes.get? q = some dst) :
    Edited (.addEdge src dst) g (g.link p q) := by
  have hsrc : src ∈ g.nodes := Roster.mem_iff_get?.2 ⟨p, hp⟩
  have hdst : dst ∈ g.nodes := Roster.mem_iff_get?.2 ⟨q, hq⟩
  refine .of_arc rfl (by simp [Edit.ends, hsrc, hdst]) fun a b i j hi hj => ?_
  rw [arc_link hg (Roster.lt_size_of_get? hp), number_eq_iff hi hp, number_eq_iff hj hq]
  simp [Edit.removes, Edit.adds]

theorem on_removeIncoming {g : Adjacency ν} (hg : g.Paired) {n : ν} (hn : n ∈ g.nodes) :
    ∃ g', (removeIncoming n).on g = (.ok (), g') ∧ g'.Paired ∧ Edited (.removeIncoming n) g g' := by
  obtain ⟨k, hk, hget⟩ := exists_number hn
  refine ⟨g.isolateBefore k, on_numberM_bind_of_ok hk, hg.isolateBefore k, ?_⟩
  refine .of_arc rfl (by simpa [Edit.ends] using hn) fun a b i j hi hj => ?_
  rw [arc_isolateBefore hg, Ne, number_eq_iff hj hget]
  simp [Edit.removes, Edit.adds]

theorem on_removeOutgoing {g : Adjacency ν} (hg : g.Paired) {n : ν} (hn : n ∈ g.nodes) :
    ∃ g', (removeOutgoing n).on g = (.ok (), g') ∧ g'.Paired ∧ Edited (.removeOutgoing n) g g' := by
  obtain ⟨k, hk, hget⟩ := exists_number hn
  refine ⟨g.isolateAfter k, on_numberM_bind_of_ok hk, hg.isolateAfter k, ?_⟩
  refine .of_arc rfl (by simpa [Edit.ends] using hn) fun a b i j hi hj => ?_
  rw [arc_isolateAfter, Ne, number_eq_iff hi hget]
  simp [Edit.removes, Edit.adds]

/-- **An edit of which no node is missing succeeds** and does what it says. -/
theorem exists_edit {g : Adjacency ν} (hg : g.Paired) {e : Edit ν}
    (hends : ∀ n ∈ e.ends, n ∈ g.nodes) :
    ∃ g', (edit e).on g = (.ok (), g') ∧ Edited e g g' := by
  cases e with
  | addEdge src dst =>
      obtain ⟨p, hp, hsrc⟩ := exists_number (hends src (by simp [Edit.ends]))
      obtain ⟨q, hq, hdst⟩ := exists_number (hends dst (by simp [Edit.ends]))
      exact ⟨g.link p q, (on_numberM_bind_of_ok hp).trans (on_numberM_bind_of_ok hq),
        edited_link hg hsrc hdst⟩
  | removeEdge src dst =>
      obtain ⟨p, hp, hsrc⟩ := exists_number (hends src (by simp [Edit.ends]))
      obtain ⟨q, hq, hdst⟩ := exists_number (hends dst (by simp [Edit.ends]))
      refine ⟨g.unlink p q, (on_numberM_bind_of_ok hp).trans (on_numberM_bind_of_ok hq), ?_⟩
      refine .of_arc rfl hends fun a b i j hi hj => ?_
      rw [arc_unlink, number_eq_iff hi hsrc, number_eq_iff hj hdst]
      simp [Edit.removes, Edit.adds]
  | removeIncident n =>
      have hn : n ∈ g.nodes := hends n (by simp [Edit.ends])
      obtain ⟨g₁, hon₁, hg₁, hed₁⟩ := on_removeIncoming hg hn
      obtain ⟨g₂, hon₂, -, hed₂⟩ := on_removeOutgoing hg₁ (hed₁.nodes ▸ hn)
      refine ⟨g₂, ?_, hed₂.nodes.trans hed₁.nodes, fun a b => ?_⟩
      · show (removeIncident n).on g = _
        rw [removeIncident, EditM.on_bind, hon₁]
        exact hon₂
      · rw [hed₂.hasEdge, hed₁.hasEdge]
        simp [Edit.removes, Edit.adds, and_assoc, and_comm]
  | removeIncoming n =>
      obtain ⟨g', hon, -, hed⟩ := on_removeIncoming hg (hends n (by simp [Edit.ends]))
      exact ⟨g', hon, hed⟩
  | removeOutgoing n =>
      obtain ⟨g', hon, -, hed⟩ := on_removeOutgoing hg (hends n (by simp [Edit.ends]))
      exact ⟨g', hon, hed⟩

/-- An edit is refused or succeeds. -/
theorem edit_cases {g : Adjacency ν} (hg : g.Paired) (e : Edit ν) :
    (∃ n ∈ e.ends, n ∉ g.nodes ∧ (edit e).on g = (.error (.invalidNode n), g)) ∨
      (∀ n ∈ e.ends, n ∈ g.nodes) ∧ ∃ g', (edit e).on g = (.ok (), g') ∧ Edited e g g' := by
  cases hfind : e.ends.find? (fun m => m ∉ g.nodes) with
  | some n =>
      have hn : n ∉ g.nodes := by simpa using List.find?_some hfind
      exact Or.inl ⟨n, List.mem_of_find?_eq_some hfind, hn, edit_refused hfind⟩
  | none =>
      have hends : ∀ n ∈ e.ends, n ∈ g.nodes := by simpa using hfind
      exact Or.inr ⟨hends, exists_edit hg hends⟩

/-- No edit changes the nodes. -/
theorem nodes_edit {g : Adjacency ν} (hg : g.Paired) (e : Edit ν) :
    ((edit e).on g).2.nodes = g.nodes := by
  rcases edit_cases hg e with ⟨n, -, -, hon⟩ | ⟨-, g', hon, hedited⟩
  · rw [hon]
  · rw [hon]
    exact hedited.nodes

/-! ## Nodes and edges together -/

theorem nodes_addNode (g : Adjacency ν) (n : ν) : (g.addNode n).nodes = g.nodes.insert n := by
  unfold addNode
  split
  · rename_i hn
    exact (Roster.insert_of_mem hn).symm
  · rfl

theorem get?_addNode_of_lt {g : Adjacency ν} {n : ν} {i : Nat}
    (h : i < g.nodes.size) : (g.addNode n).nodes.get? i = g.nodes.get? i := by
  obtain ⟨m, hm⟩ := Roster.exists_get? h
  rw [nodes_addNode, hm]
  exact Roster.get?_insertAll hm [n]

/-- A new node has no edges. -/
theorem hasEdge_addNode {g : Adjacency ν} (hg : g.Paired) {n a b : ν} :
    (g.addNode n).hasEdge a b = true ↔ g.hasEdge a b = true := by
  rw [hasEdge_iff, hasEdge_iff, leads_iff, leads_iff]
  constructor
  · rintro ⟨i, j, hi, hj, harc⟩
    -- arcs are between numbers that were given before
    have harc' : g.Arc i j := arc_addNode.1 harc
    obtain ⟨hilt, hjlt⟩ := hg.lt_of_arc harc'
    rw [get?_addNode_of_lt hilt] at hi
    rw [get?_addNode_of_lt hjlt] at hj
    exact ⟨i, j, hi, hj, harc'⟩
  · rintro ⟨i, j, hi, hj, harc⟩
    refine ⟨i, j, ?_, ?_, arc_addNode.2 harc⟩
    · rw [get?_addNode_of_lt (Roster.lt_size_of_get? hi), hi]
    · rw [get?_addNode_of_lt (Roster.lt_size_of_get? hj), hj]

theorem hasEdge_connect {g : Adjacency ν} (hg : g.Paired) {src dst a b : ν} :
    (g.connect src dst).hasEdge a b = true ↔ g.hasEdge a b = true ∨ a = src ∧ b = dst := by
  have hsrc : src ∈ ((g.addNode src).addNode dst).nodes := by simp [mem_nodes_addNode]
  have hdst : dst ∈ ((g.addNode src).addNode dst).nodes := by simp [mem_nodes_addNode]
  have hlink := edited_link ((hg.addNode src).addNode dst) (Roster.get?_position hsrc)
    (Roster.get?_position hdst)
  refine (hlink.hasEdge a b).trans ?_
  rw [hasEdge_addNode (hg.addNode src), hasEdge_addNode hg]
  simp [Edit.removes, Edit.adds]

theorem nodes_connect (g : Adjacency ν) (src dst : ν) :
    (g.connect src dst).nodes = (g.nodes.insert src).insert dst := by
  show ((g.addNode src).addNode dst).nodes = _
  rw [nodes_addNode, nodes_addNode]

end Adjacency

end ProgramFlow
