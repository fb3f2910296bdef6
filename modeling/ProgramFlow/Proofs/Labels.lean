import Mathlib.Data.List.Infix
import ProgramFlow.Proofs.PlainGraph
import ProgramFlow.Slicing.Policy

/-!
# The labels of an edge and its history

The store for labelled edges holds edges and labels apart: the edges in an adjacency
store, the labels in a list of marks.  Each operation changes both.  Plain labels have no
edges of their own: two nodes have an edge between them if they have a label.  The same
operations can be run on plain labels, and the store stays in step with them, so that what
the store says of an edge and what it says of the labels cannot come apart.

* `PlainLabels.perform` — the operations on plain labels.
* `Labelled.Refines.perform` — an operation keeps a store and plain labels in step.
* `Labelled.Refines.labels_perform` — the label that an edge is given joins those it has.
* `Labelled.exists_since_absent` — the labels of an edge are those that it was given since it
  was last absent.
* `Labelled.labels_history` — the edges and labels of a store after a history of operations.
-/

namespace ProgramFlow

namespace Labelled

variable {ν κ : Type} [DecidableEq ν] [DecidableEq κ]

/-! ## Labels and marks -/

omit [DecidableEq κ] in
theorem mem_labels {g : Labelled ν κ} {a b : ν} {l : κ} :
    l ∈ g.labels a b ↔ ⟨a, b, l⟩ ∈ g.marks := by
  simp only [labels, List.mem_map, List.mem_filter, decide_eq_true_eq]
  constructor
  · rintro ⟨⟨src, dst, label⟩, ⟨hmem, rfl, rfl⟩, rfl⟩
    exact hmem
  · exact fun hmem => ⟨⟨a, b, l⟩, ⟨hmem, rfl, rfl⟩, rfl⟩

/-- A new mark adds its label to the labels of its edge, unless it is one of them. -/
theorem labels_mark (g : Labelled ν κ) (src dst : ν) (l : κ) (a b : ν) :
    (g.mark ⟨src, dst, l⟩).labels a b =
      if a = src ∧ b = dst ∧ l ∉ g.labels a b then g.labels a b ++ [l] else g.labels a b := by
  by_cases hmark : (⟨src, dst, l⟩ : Mark ν κ) ∈ g.marks
  · rw [mark, if_pos hmark, if_neg]
    rintro ⟨rfl, rfl, hnot⟩
    exact hnot (mem_labels.2 hmark)
  · rw [mark, if_neg hmark]
    by_cases hedge : a = src ∧ b = dst
    · obtain ⟨rfl, rfl⟩ := hedge
      rw [if_pos ⟨rfl, rfl, mt mem_labels.1 hmark⟩]
      simp [labels]
    · have hother : ¬ (src = a ∧ dst = b) := fun h => hedge ⟨h.1.symm, h.2.symm⟩
      rw [if_neg fun h => hedge ⟨h.1, h.2.1⟩]
      simp [labels, List.filter_append, hother]

omit [DecidableEq κ] in
theorem labels_unmark (g : Labelled ν κ) (gone : ν → ν → Bool) (a b : ν) :
    (g.unmark gone).labels a b = if gone a b then [] else g.labels a b := by
  unfold unmark labels
  rw [List.filter_filter]
  by_cases hgone : gone a b = true
  · rw [if_pos hgone, List.map_eq_nil_iff, List.filter_eq_nil_iff]
    rintro m - hm
    simp only [Bool.and_eq_true, decide_eq_true_eq, Bool.not_eq_true'] at hm
    obtain ⟨⟨rfl, rfl⟩, hkept⟩ := hm
    rw [hgone] at hkept
    cases hkept
  · rw [if_neg hgone]
    congr 1
    refine List.filter_congr fun m _ => ?_
    by_cases hm : m.src = a ∧ m.dst = b
    · simp [hm.1, hm.2, hgone]
    · simp [hm]

/-! ## What edits do -/

omit [DecidableEq ν] [DecidableEq κ] in
theorem on_onBase_modify_of_ok {m : EditM ν (Adjacency ν) Unit} {f : Labelled ν κ → Labelled ν κ}
    {g : Labelled ν κ} {base : Adjacency ν} (h : m.on g.base = (.ok (), base)) :
    (do onBase m; modify f : EditM ν (Labelled ν κ) Unit).on g =
      (.ok (), f { g with base := base }) := by
  rw [EditM.on_bind, onBase, EditM.on_within, h]
  rfl

omit [DecidableEq ν] [DecidableEq κ] in
theorem on_onBase_modify_of_error {m : EditM ν (Adjacency ν) Unit}
    {f : Labelled ν κ → Labelled ν κ} {g : Labelled ν κ} {e : GraphError ν}
    (h : m.on g.base = (.error e, g.base)) :
    (do onBase m; modify f : EditM ν (Labelled ν κ) Unit).on g = (.error e, g) := by
  rw [EditM.on_bind, onBase, EditM.on_within, h]

omit [DecidableEq κ] in
/-- Edits other than adding an edge change the adjacency store and forget the labels of the
edges that they remove. -/
theorem edit_eq {e : Edit ν} (h : e.operation ≠ .addEdge) :
    (edit e : EditM ν (Labelled ν κ) Unit) =
      (do onBase (Adjacency.edit e); modify (·.unmark e.removes)) := by
  cases e with
  | addEdge src dst => exact absurd rfl h
  | _ => rfl

omit [DecidableEq κ] in
/-- An edit fails and changes nothing, and then the edges that it would remove are not there;
or it succeeds, removes edges with their labels, and adds none. -/
theorem edit_cases {g : Labelled ν κ} (hg : g.base.Paired) (e : Edit ν) :
    (∃ err, (edit e).on g = (.error err, g) ∧
      ∀ a b, e.removes a b = true → g.base.hasEdge a b = false) ∨
    (∀ n ∈ e.ends, n ∈ g.base.nodes) ∧
      ∃ base, (edit e).on g = (.ok (), { g with base := base }.unmark e.removes) ∧
        base.nodes = g.base.nodes ∧
        ∀ a b, base.hasEdge a b = true ↔ g.base.hasEdge a b = true ∧ e.removes a b = false := by
  by_cases hop : e.operation = .addEdge
  · cases e with
    | addEdge src dst => exact Or.inl ⟨.unsupported .addEdge, rfl, fun a b h => by cases h⟩
    | _ => cases hop
  · rw [edit_eq hop]
    rcases Adjacency.edit_cases hg e with ⟨n, hn, hmissing, hon⟩ | ⟨hends, base, hon, hedited⟩
    · refine Or.inl ⟨.invalidNode n, on_onBase_modify_of_error hon, fun a b hremoves => ?_⟩
      -- the missing node is an end of the edge
      refine Bool.eq_false_iff.2 fun hedge => hmissing ?_
      obtain ⟨ha, hb⟩ := Adjacency.mem_of_hasEdge hedge
      rcases Edit.eq_or_eq_of_removes hremoves hn with rfl | rfl
      · exact ha
      · exact hb
    · refine Or.inr ⟨hends, base, on_onBase_modify_of_ok hon, hedited.nodes, fun a b => ?_⟩
      have hadds : e.adds a b = false := by
        cases e with
        | addEdge src dst => exact absurd rfl hop
        | _ => rfl
      simp [hedited.hasEdge, hadds]

end Labelled

/-! ## Plain labels -/

/-- A set of nodes, and the labels from one node to another.  Where there is none, there is
no edge. -/
structure PlainLabels (ν κ : Type) where
  nodes : Finset ν
  labels : ν → ν → List κ

namespace PlainLabels

variable {ν κ : Type}

/-- No nodes and no labels. -/
def empty : PlainLabels ν κ := ⟨∅, fun _ _ => []⟩

/-- The same labels with all edges reversed. -/
def reverse (p : PlainLabels ν κ) : PlainLabels ν κ := { p with labels := fun a b => p.labels b a }

variable [DecidableEq ν]

/-- Take the labels of the edges that an edit removes, if the nodes that it names are there.
An edge cannot be added without a label. -/
def edit (p : PlainLabels ν κ) (e : Edit ν) : PlainLabels ν κ :=
  if ∀ n ∈ e.ends, n ∈ p.nodes then
    { p with labels := fun a b => if e.removes a b then [] else p.labels a b }
  else p

variable [DecidableEq κ]

/-- Add a label behind those of an edge, unless it is one of them. -/
def give (p : PlainLabels ν κ) (src dst : ν) (l : κ) : PlainLabels ν κ :=
  { p with labels := fun a b =>
      if a = src ∧ b = dst ∧ l ∉ p.labels a b then p.labels a b ++ [l] else p.labels a b }

/-- Perform an operation. -/
def perform (p : PlainLabels ν κ) : Labelled.Op ν κ → PlainLabels ν κ
  | .addNode n => { p with nodes := insert n p.nodes }
  | .connect src dst l => { p with nodes := insert dst (insert src p.nodes) }.give src dst l
  | .addLabel src dst l => if src ∈ p.nodes ∧ dst ∈ p.nodes then p.give src dst l else p
  | .edit e => p.edit e
  | .through stack e => stack.enter edit reverse p e

/-- What a history of operations makes of no labels. -/
def after (history : List (Labelled.Op ν κ)) : PlainLabels ν κ := history.foldl perform empty

theorem after_concat (history : List (Labelled.Op ν κ)) (o : Labelled.Op ν κ) :
    after (history ++ [o]) = (after history).perform o := by
  rw [after, List.foldl_append]
  rfl

/-- An edge is there once it has been given a label. -/
theorem labels_give_ne_nil_iff {p : PlainLabels ν κ} {src dst a b : ν} {l : κ} :
    (p.give src dst l).labels a b ≠ [] ↔ p.labels a b ≠ [] ∨ a = src ∧ b = dst := by
  unfold give
  by_cases hedge : a = src ∧ b = dst
  · obtain ⟨rfl, rfl⟩ := hedge
    by_cases hl : l ∈ p.labels a b
    · simp [hl, List.ne_nil_of_mem hl]
    · simp [hl]
  · have hother : ¬ (a = src ∧ b = dst ∧ l ∉ p.labels a b) := fun h => hedge ⟨h.1, h.2.1⟩
    simp [hother, hedge]

/-- A label that is given joins the labels that an edge has been given. -/
theorem labels_give_eq {p : PlainLabels ν κ} {src dst a b : ν} {l : κ} {ls : List κ}
    (hls : p.labels a b = ls.eraseDups) :
    (p.give src dst l).labels a b =
      (ls ++ (if a = src ∧ b = dst then some l else none).toList).eraseDups := by
  show (if a = src ∧ b = dst ∧ l ∉ p.labels a b then p.labels a b ++ [l] else p.labels a b) = _
  by_cases hedge : a = src ∧ b = dst
  · rw [if_pos hedge, Option.toList_some, eraseDups_concat, hls]
    by_cases hl : l ∈ ls
    · simp [hl]
    · simp [hl, hedge]
  · rw [if_neg fun h => hedge ⟨h.1, h.2.1⟩, if_neg hedge, Option.toList_none, List.append_nil, hls]

omit [DecidableEq κ] in
theorem labels_edit (p : PlainLabels ν κ) (e : Edit ν) (a b : ν) :
    (p.edit e).labels a b =
      if (∀ n ∈ e.ends, n ∈ p.nodes) ∧ e.removes a b = true then [] else p.labels a b := by
  unfold edit
  by_cases hall : ∀ n ∈ e.ends, n ∈ p.nodes
  · rw [if_pos hall]
    exact (if_congr (and_iff_right hall) rfl rfl).symm
  · rw [if_neg hall, if_neg fun h => hall h.1]

omit [DecidableEq κ] in
/-- An edit leaves the labels of an edge alone or takes all of them. -/
theorem labels_edit_eq {p : PlainLabels ν κ} {a b : ν} (e : Edit ν)
    (h : (p.edit e).labels a b ≠ []) :
    (p.edit e).labels a b = p.labels a b := by
  rw [labels_edit] at h ⊢
  split at h
  · exact absurd rfl h
  · rename_i hkept
    rw [if_neg hkept]

omit [DecidableEq κ] in
theorem nodes_edit (p : PlainLabels ν κ) (e : Edit ν) : (p.edit e).nodes = p.nodes := by
  unfold edit
  split <;> rfl

omit [DecidableEq κ] in
/-- A transposed edit does what the edit does where the edges are reversed. -/
theorem edit_transpose (p : PlainLabels ν κ) (e : Edit ν) :
    p.edit e.transpose = (p.reverse.edit e).reverse := by
  have hends : (∀ n ∈ e.transpose.ends, n ∈ p.nodes) ↔ ∀ n ∈ e.ends, n ∈ p.nodes := by simp
  have hlabels : (p.edit e.transpose).labels = (p.reverse.edit e).reverse.labels := by
    funext a b
    show _ = (p.reverse.edit e).labels b a
    rw [labels_edit, labels_edit, Edit.removes_transpose]
    simp only [hends]
    rfl
  have hnodes : (p.edit e.transpose).nodes = (p.reverse.edit e).reverse.nodes := by
    rw [nodes_edit]
    exact (nodes_edit p.reverse e).symm
  exact congrArg₂ mk hnodes hlabels

end PlainLabels

/-! ## In step with plain labels -/

namespace Labelled

variable {ν κ : Type} [DecidableEq ν] [DecidableEq κ]

/-- What a history of operations makes of the empty store. -/
def after (history : List (Op ν κ)) : Labelled ν κ := history.foldl perform empty

theorem after_concat (history : List (Op ν κ)) (o : Op ν κ) :
    after (history ++ [o]) = (after history).perform o := by
  rw [after, List.foldl_append]
  rfl

omit [DecidableEq κ] in
/-- The store has the nodes and the labels, and an edge where there is a label. -/
structure Refines (g : Labelled ν κ) (p : PlainLabels ν κ) : Prop where
  paired : g.base.Paired
  nodes : ∀ n, n ∈ g.base.nodes ↔ n ∈ p.nodes
  labels : ∀ a b, g.labels a b = p.labels a b
  hasEdge_iff : ∀ a b, g.base.hasEdge a b = true ↔ p.labels a b ≠ []

omit [DecidableEq κ] in
theorem refines_empty : (empty : Labelled ν κ).Refines .empty where
  paired := Adjacency.paired_empty
  nodes n := iff_of_false List.not_mem_nil (Finset.notMem_empty n)
  labels _ _ := rfl
  hasEdge_iff _ _ :=
    iff_of_false (fun h => List.not_mem_nil (Adjacency.mem_of_hasEdge h).1) (fun h => h rfl)

namespace Refines

variable {g : Labelled ν κ} {p : PlainLabels ν κ}

omit [DecidableEq κ] in
/-- Labels are between nodes that are there. -/
theorem mem_of_labels (h : g.Refines p) {a b : ν} (hlabels : p.labels a b ≠ []) :
    a ∈ p.nodes ∧ b ∈ p.nodes := by
  obtain ⟨ha, hb⟩ := Adjacency.mem_of_hasEdge ((h.hasEdge_iff a b).2 hlabels)
  exact ⟨(h.nodes a).1 ha, (h.nodes b).1 hb⟩

omit [DecidableEq κ] in
theorem labels_eq_nil (h : g.Refines p) {a b : ν} (habsent : g.base.hasEdge a b = false) :
    p.labels a b = [] :=
  not_not.1 (mt (h.hasEdge_iff a b).2 (by simp [habsent]))

/-- Giving a label to an edge and making sure that the edge is there. -/
theorem mark (h : g.Refines p) {base : Adjacency ν} {nodes : Finset ν} {src dst : ν} {l : κ}
    (hpaired : base.Paired) (hnodes : ∀ n, n ∈ base.nodes ↔ n ∈ nodes)
    (hbase : ∀ a b, base.hasEdge a b = true ↔ g.base.hasEdge a b = true ∨ a = src ∧ b = dst) :
    ({ g with base := base }.mark ⟨src, dst, l⟩).Refines
      ({ p with nodes := nodes }.give src dst l) where
  paired := by
    rw [base_mark]
    exact hpaired
  nodes n := by
    rw [base_mark]
    exact hnodes n
  labels a b := by
    refine (labels_mark { g with base := base } src dst l a b).trans ?_
    show (if a = src ∧ b = dst ∧ l ∉ g.labels a b then g.labels a b ++ [l] else g.labels a b) = _
    rw [h.labels]
    rfl
  hasEdge_iff a b := by
    rw [base_mark, PlainLabels.labels_give_ne_nil_iff]
    exact (hbase a b).trans (or_congr_left (h.hasEdge_iff a b))

omit [DecidableEq κ] in
theorem edit (h : g.Refines p) (e : Edit ν) : ((edit e).on g).2.Refines (p.edit e) := by
  have hpaired := paired_edit h.paired e
  rcases edit_cases h.paired e with ⟨err, hon, habsent⟩ | ⟨hends, base, hon, hnodes, hbase⟩
  · -- where an edge would be removed there is no label to take
    have hlabels : ∀ a b, (p.edit e).labels a b = p.labels a b := by
      intro a b
      rw [PlainLabels.labels_edit]
      split
      · rename_i hremoved
        exact (h.labels_eq_nil (habsent a b hremoved.2)).symm
      · rfl
    rw [hon]
    refine ⟨h.paired, fun n => ?_, fun a b => ?_, fun a b => ?_⟩
    · rw [PlainLabels.nodes_edit, h.nodes]
    · rw [hlabels, h.labels]
    · rw [hlabels, h.hasEdge_iff]
  · have hall : ∀ n ∈ e.ends, n ∈ p.nodes := fun n hn => (h.nodes n).1 (hends n hn)
    have hlabels : ∀ a b, (p.edit e).labels a b = if e.removes a b then [] else p.labels a b := by
      intro a b
      simp only [PlainLabels.labels_edit, and_iff_right hall]
    rw [hon] at hpaired ⊢
    refine ⟨hpaired, fun n => ?_, fun a b => ?_, fun a b => ?_⟩
    · show n ∈ base.nodes ↔ _
      rw [hnodes, PlainLabels.nodes_edit, h.nodes]
    · refine (labels_unmark { g with base := base } e.removes a b).trans ?_
      show (if e.removes a b then [] else g.labels a b) = _
      rw [hlabels, h.labels]
    · show base.hasEdge a b = true ↔ _
      rw [hbase, h.hasEdge_iff, hlabels]
      cases e.removes a b <;> simp

/-- **An operation keeps a store and plain labels in step**, also one that fails. -/
theorem perform (h : g.Refines p) (o : Op ν κ) : (g.perform o).Refines (p.perform o) := by
  cases o with
  | addNode n =>
      refine ⟨h.paired.addNode n, fun _ => Adjacency.mem_nodes_addNode_iff h.nodes, h.labels,
        fun a b => ?_⟩
      exact (Adjacency.hasEdge_addNode h.paired).trans (h.hasEdge_iff a b)
  | connect src dst l =>
      exact h.mark (h.paired.connect src dst) (fun _ => Adjacency.mem_nodes_connect_iff h.nodes)
        fun _ _ => Adjacency.hasEdge_connect h.paired
  | addLabel src dst l =>
      show ((do onBase (Adjacency.edit (.addEdge src dst))
                modify (·.mark ⟨src, dst, l⟩) : EditM ν (Labelled ν κ) Unit).on g).2.Refines
        (if src ∈ p.nodes ∧ dst ∈ p.nodes then p.give src dst l else p)
      have hpaired := h.paired.edit (.addEdge src dst)
      rcases Adjacency.edit_cases h.paired (.addEdge src dst) with
        ⟨n, hn, hmissing, hon⟩ | ⟨hends, base, hon, hedited⟩
      · have hnot : ¬ (src ∈ p.nodes ∧ dst ∈ p.nodes) := by
          rintro ⟨hsrc, hdst⟩
          have hends : n = src ∨ n = dst := by simpa [Edit.ends] using hn
          rcases hends with rfl | rfl
          · exact hmissing ((h.nodes n).2 hsrc)
          · exact hmissing ((h.nodes n).2 hdst)
        rw [on_onBase_modify_of_error hon, if_neg hnot]
        exact h
      · have hboth : src ∈ p.nodes ∧ dst ∈ p.nodes := by simpa [Edit.ends, h.nodes] using hends
        rw [on_onBase_modify_of_ok hon, if_pos hboth]
        rw [hon] at hpaired
        refine h.mark hpaired (fun n => ?_) fun a b => ?_
        · rw [hedited.nodes, h.nodes]
        · simp [hedited.hasEdge, Edit.adds, Edit.removes]
  | edit e => exact h.edit e
  | through stack e => exact Store.keeps_step PlainLabels.edit_transpose h h.edit stack e

end Refines

/-- A history keeps them in step. -/
theorem refines_after (history : List (Op ν κ)) : (after history).Refines (.after history) := by
  induction history using List.reverseRecOn with
  | nil => exact refines_empty
  | append_singleton history o ih =>
      rw [after_concat, PlainLabels.after_concat]
      exact ih.perform o

/-! ## Since the edge was absent -/

/-- The label that an operation gives to an edge. -/
def Op.labelFor (a b : ν) : Op ν κ → Option κ
  | .connect src dst label => if a = src ∧ b = dst then some label else none
  | .addLabel src dst label => if a = src ∧ b = dst then some label else none
  | _ => none

/-- Is the operation an edit that removes the edge, seen from where it enters, and that no
layer refuses? -/
def Op.removes (a b : ν) : Op ν κ → Bool
  | .edit e => e.removes a b
  | .through stack e => !stack.refuses && if stack.turns then e.removes b a else e.removes a b
  | _ => false

variable {a b : ν}

/-- Where an edge is there after an operation, the label that it was given, if any, is added
to those that it had. -/
theorem Refines.labels_perform {g : Labelled ν κ} {p : PlainLabels ν κ} (h : g.Refines p)
    {o : Op ν κ} (hedge : (g.perform o).base.hasEdge a b = true) {ls : List κ}
    (hls : g.labels a b = ls.eraseDups) :
    (g.perform o).labels a b = (ls ++ (o.labelFor a b).toList).eraseDups := by
  have hthere : (p.perform o).labels a b ≠ [] := ((h.perform o).hasEdge_iff a b).1 hedge
  rw [h.labels] at hls
  rw [(h.perform o).labels]
  -- all operations but two give no label
  have hkept : (p.perform o).labels a b = p.labels a b → o.labelFor a b = none →
      (p.perform o).labels a b = (ls ++ (o.labelFor a b).toList).eraseDups := by
    intro hsame hnone
    rw [hsame, hls, hnone, Option.toList_none, List.append_nil]
  cases o with
  | addNode n => exact hkept rfl rfl
  | connect src dst l => exact PlainLabels.labels_give_eq hls
  | addLabel src dst l =>
      rw [PlainLabels.perform] at hthere hkept ⊢
      by_cases hboth : src ∈ p.nodes ∧ dst ∈ p.nodes
      · rw [if_pos hboth]
        exact PlainLabels.labels_give_eq hls
      · rw [if_neg hboth] at hthere hkept ⊢
        refine hkept rfl (if_neg ?_)
        rintro ⟨rfl, rfl⟩
        exact hboth (h.mem_of_labels hthere)
  | edit e => exact hkept (PlainLabels.labels_edit_eq e hthere) rfl
  | through stack e =>
      refine hkept ?_ rfl
      rw [PlainLabels.perform] at hthere ⊢
      cases hrefuses : stack.refuses with
      | true => rw [Stack.enter_of_refuses hrefuses]
      | false =>
          rw [Stack.enter_eq PlainLabels.edit_transpose hrefuses] at hthere ⊢
          exact PlainLabels.labels_edit_eq _ hthere

/-- The edge is absent after the first operations, and there after each of the others. -/
structure SinceAbsent (a b : ν) (before since : List (Op ν κ)) : Prop where
  absent : (after before).base.hasEdge a b = false
  present : ∀ first, first <+: since → first ≠ [] →
    (after (before ++ first)).base.hasEdge a b = true

/-- An operation that leaves the edge there prolongs the time since it was absent. -/
theorem SinceAbsent.concat {before since : List (Op ν κ)} {o : Op ν κ}
    (h : SinceAbsent a b before since)
    (hedge : (after (before ++ (since ++ [o]))).base.hasEdge a b = true) :
    SinceAbsent a b before (since ++ [o]) where
  absent := h.absent
  present first hfirst hne := by
    rcases List.prefix_concat_iff.1 hfirst with rfl | hprefix
    · exact hedge
    · exact h.present first hprefix hne

theorem sinceAbsent_nil {before : List (Op ν κ)}
    (h : (after before).base.hasEdge a b = false) : SinceAbsent a b before [] :=
  ⟨h, fun _ hfirst hne => absurd (List.prefix_nil.1 hfirst) hne⟩

theorem hasEdge_after_iff {history : List (Op ν κ)} :
    (after history).base.hasEdge a b = true ↔ (after history).labels a b ≠ [] := by
  rw [(refines_after history).hasEdge_iff, (refines_after history).labels]

/-- **The labels of an edge are those given to it since it was last absent**, in the order in
which they were first given. -/
theorem exists_since_absent (history : List (Op ν κ)) (a b : ν) :
    ∃ before since, history = before ++ since ∧ SinceAbsent a b before since ∧
      (after history).labels a b = (since.filterMap (Op.labelFor a b)).eraseDups := by
  have hnone : ∀ history : List (Op ν κ), (after history).base.hasEdge a b = false →
      (after history).labels a b = [] := by
    intro history habsent
    rw [(refines_after history).labels]
    exact (refines_after history).labels_eq_nil habsent
  induction history using List.reverseRecOn with
  | nil => exact ⟨[], [], rfl, sinceAbsent_nil rfl, rfl⟩
  | append_singleton history o ih =>
      have hstep : ∀ ls : List κ, (after (history ++ [o])).base.hasEdge a b = true →
          (after history).labels a b = ls.eraseDups →
          (after (history ++ [o])).labels a b = (ls ++ (o.labelFor a b).toList).eraseDups := by
        intro ls hedge hls
        rw [after_concat] at hedge ⊢
        exact (refines_after history).labels_perform hedge hls
      have hgiven : [o].filterMap (Op.labelFor a b) = (o.labelFor a b).toList := by
        cases h : o.labelFor a b <;> simp [h]
      cases hedge : (after (history ++ [o])).base.hasEdge a b with
      | false =>
          refine ⟨history ++ [o], [], (List.append_nil _).symm, sinceAbsent_nil hedge, ?_⟩
          exact hnone _ hedge
      | true =>
          cases hbefore : (after history).base.hasEdge a b with
          | false =>
              -- the operation has made the edge, so it is the first since it was absent
              refine ⟨history, [o], rfl, (sinceAbsent_nil hbefore).concat hedge, ?_⟩
              rw [hgiven]
              exact hstep [] hedge (hnone _ hbefore)
          | true =>
              obtain ⟨before, since, rfl, hsince, hlabels⟩ := ih
              have hassoc : before ++ since ++ [o] = before ++ (since ++ [o]) :=
                List.append_assoc ..
              refine ⟨before, since ++ [o], hassoc, hsince.concat (hassoc ▸ hedge), ?_⟩
              rw [List.filterMap_append, hgiven]
              exact hstep _ hedge hlabels

omit [DecidableEq κ] in
/-- An edit that removes an edge leaves it without labels, also when it fails. -/
theorem Refines.labels_edit_of_removes {g : Labelled ν κ} {p : PlainLabels ν κ} (h : g.Refines p)
    {e : Edit ν} (hremoves : e.removes a b = true) : (p.edit e).labels a b = [] := by
  rw [PlainLabels.labels_edit]
  rcases edit_cases h.paired e with ⟨err, -, habsent⟩ | ⟨hends, -⟩
  · rw [h.labels_eq_nil (habsent a b hremoves), ite_self]
  · exact if_pos ⟨fun n hn => (h.nodes n).1 (hends n hn), hremoves⟩

theorem Refines.labels_perform_of_removes {g : Labelled ν κ} {p : PlainLabels ν κ}
    (h : g.Refines p) {o : Op ν κ} (hremoves : o.removes a b = true) :
    (p.perform o).labels a b = [] := by
  cases o with
  | edit e => exact h.labels_edit_of_removes hremoves
  | through stack e =>
      obtain ⟨hrefuses, hturned⟩ := Bool.and_eq_true_iff.1 hremoves
      rw [PlainLabels.perform, Stack.enter_eq PlainLabels.edit_transpose (by simpa using hrefuses)]
      refine h.labels_edit_of_removes ?_
      cases hturns : stack.turns <;> simpa [hturns] using hturned
  | _ => cases hremoves

/-- **Edges and labels agree after every history of operations.**  The nodes and labels are
those that the same operations leave of plain labels, where giving a label is what makes an
edge.  An edge is there if it has a label; its labels are those that it was given since it
was last absent, each where it came first; and an edit that removes the edge, through
whatever layers, leaves neither the edge nor a label. -/
theorem labels_history (history : List (Op ν κ)) (a b : ν) :
    (a ∈ (after history).graph.nodes ↔ a ∈ (PlainLabels.after history).nodes) ∧
    (after history).graph.labels a b = (PlainLabels.after history).labels a b ∧
    ((after history).graph.hasEdge a b = true ↔ (after history).graph.labels a b ≠ []) ∧
    (∃ before since, history = before ++ since ∧
      (after before).graph.hasEdge a b = false ∧
      (∀ first, first <+: since → first ≠ [] →
        (after (before ++ first)).graph.hasEdge a b = true) ∧
      (after history).graph.labels a b = (since.filterMap (Op.labelFor a b)).eraseDups) ∧
    (∀ o : Op ν κ, o.removes a b = true →
      (after (history ++ [o])).graph.hasEdge a b = false ∧
        (after (history ++ [o])).graph.labels a b = []) := by
  have h := refines_after history
  refine ⟨h.nodes a, h.labels a b, hasEdge_after_iff, ?_, fun o hremoves => ?_⟩
  · obtain ⟨before, since, hsplit, hsince, hlabels⟩ := exists_since_absent history a b
    exact ⟨before, since, hsplit, hsince.absent, hsince.present, hlabels⟩
  · have hlabels : (after (history ++ [o])).labels a b = [] := by
      rw [after_concat, (h.perform o).labels]
      exact h.labels_perform_of_removes hremoves
    exact ⟨Bool.eq_false_iff.2 fun hedge => hasEdge_after_iff.1 hedge hlabels, hlabels⟩

/-- An edge with a label is removed through a transposing layer and made again with others.
Afterwards a layer refuses to remove it, and an edge without a label is not added. -/
def relabelled : List (Op Nat Dependence) :=
  [.connect 1 2 .value, .through [.transpose] (.removeIncoming 1), .connect 1 2 .heap,
    .addLabel 1 2 .cast, .addLabel 1 3 .value, .connect 1 2 .heap,
    .through [.readOnly] (.removeEdge 1 2), .edit (.addEdge 2 1)]

theorem labels_history_relabelled :
    (after (relabelled.take 1)).graph.labels 1 2 = [.value] ∧
      (after (relabelled.take 2)).graph.labels 1 2 = [] ∧
      (after relabelled).graph.labels 1 2 = [.heap, .cast] ∧
      (after relabelled).graph.hasEdge 1 2 = true ∧
      (after relabelled).graph.hasEdge 2 1 = false ∧
      (after (relabelled ++ [.through [.transpose] (.removeOutgoing 2)])).graph.labels 1 2 = [] := by
  obtain ⟨-, hfirst, -⟩ := labels_history (relabelled.take 1) 1 2
  obtain ⟨-, hsecond, -⟩ := labels_history (relabelled.take 2) 1 2
  obtain ⟨-, hlabels, hedge, -, hremoved⟩ := labels_history relabelled 1 2
  obtain ⟨-, hback, hbackEdge, -⟩ := labels_history relabelled 2 1
  have hvalue : (after relabelled).graph.labels 1 2 = [.heap, .cast] := hlabels.trans (by decide)
  have hnone : (after relabelled).graph.labels 2 1 = [] := hback.trans (by decide)
  refine ⟨hfirst.trans (by decide), hsecond.trans (by decide), hvalue, hedge.2 (by simp [hvalue]),
    Bool.eq_false_iff.2 fun h => hbackEdge.1 h hnone, ?_⟩
  exact (hremoved (.through [.transpose] (.removeOutgoing 2)) (by decide)).2

end Labelled

end ProgramFlow
