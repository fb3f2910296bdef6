import ProgramFlow.Proofs.Labels

/-!
# Operations that fail change nothing

An operation on a store can fail in two ways: some layer or the store itself has no such
operation, or a node that it names is missing.  `EditM` would let a failed operation leave
a changed store behind, and some operations consist of several changes, so that a failure
leaves nothing behind has to be shown for each of them.  It can be shown step by step:
running an operation on a part of a larger store and changing the store after it has
succeeded both keep it.

* `AllOrNothing` — when an operation fails, how, and what it leaves behind.
* `AllOrNothing.within`, `AllOrNothing.bind_modify` — the two ways to build larger operations.
* `AllOrNothing.through` — edits that enter through a stack of layers.
* `edits_all_or_nothing` — all operations of the three stores that can fail.
-/

namespace ProgramFlow

variable {ν κ σ τ : Type}

/-- An operation fails if there is no such operation or if one of the nodes that it names is
missing from the listed ones.  Otherwise it succeeds. -/
structure AllOrNothing (m : EditM ν σ Unit) (unsupported : Prop) (named nodes : List ν) (s : σ) :
    Prop where
  /-- A failure leaves the store as it is. -/
  unchanged : ∀ err, (m.on s).1 = .error err → (m.on s).2 = s
  unsupported_iff : (∃ o, (m.on s).1 = .error (.unsupported o)) ↔ unsupported
  invalidNode_iff : (∃ n, (m.on s).1 = .error (.invalidNode n)) ↔
    ¬ unsupported ∧ ∃ n ∈ named, n ∉ nodes
  /-- Only a node that is named and missing is reported. -/
  reported : ∀ n, (m.on s).1 = .error (.invalidNode n) → n ∈ named ∧ n ∉ nodes
  ok_iff : (m.on s).1 = .ok () ↔ ¬ unsupported ∧ ∀ n ∈ named, n ∈ nodes

namespace AllOrNothing

variable {m : EditM ν σ Unit} {unsupported : Prop} {named nodes : List ν} {s : σ}

/-! ## The three outcomes -/

theorem of_unsupported {o : Operation} (h : unsupported)
    (hon : m.on s = (.error (.unsupported o), s)) : AllOrNothing m unsupported named nodes s where
  unchanged _ _ := by rw [hon]
  unsupported_iff := by simp [hon, h]
  invalidNode_iff := by simp [hon, h]
  reported n hn := by simp [hon] at hn
  ok_iff := by simp [hon, h]

theorem of_missing {n : ν} (h : ¬ unsupported) (hn : n ∈ named) (hmissing : n ∉ nodes)
    (hon : m.on s = (.error (.invalidNode n), s)) : AllOrNothing m unsupported named nodes s where
  unchanged _ _ := by rw [hon]
  unsupported_iff := by simp [hon, h]
  invalidNode_iff := by
    refine iff_of_true ⟨n, ?_⟩ ⟨h, n, hn, hmissing⟩
    rw [hon]
  reported k hk := by
    obtain rfl : n = k := by simpa [hon] using hk
    exact ⟨hn, hmissing⟩
  ok_iff := by
    refine iff_of_false ?_ fun hall => hmissing (hall.2 n hn)
    simp [hon]

theorem of_ok {t : σ} (h : ¬ unsupported) (hall : ∀ n ∈ named, n ∈ nodes)
    (hon : m.on s = (.ok (), t)) : AllOrNothing m unsupported named nodes s where
  unchanged err herr := by simp [hon] at herr
  unsupported_iff := by simp [hon, h]
  invalidNode_iff := by
    refine iff_of_false ?_ fun ⟨_, n, hn, hmissing⟩ => hmissing (hall n hn)
    simp [hon]
  reported n hn := by simp [hon] at hn
  ok_iff := by
    refine iff_of_true ?_ ⟨h, hall⟩
    rw [hon]

/-! ## Larger operations -/

/-- What another operation comes to, if it has the same outcome and leaves nothing behind
where it fails. -/
theorem transfer (h : AllOrNothing m unsupported named nodes s) {m' : EditM ν τ Unit} {t : τ}
    (houtcome : (m'.on t).1 = (m.on s).1)
    (hunchanged : ∀ err, (m.on s).1 = .error err → (m'.on t).2 = t) :
    AllOrNothing m' unsupported named nodes t where
  unchanged err herr := hunchanged err (houtcome ▸ herr)
  unsupported_iff := by rw [houtcome, h.unsupported_iff]
  invalidNode_iff := by rw [houtcome, h.invalidNode_iff]
  reported n hn := h.reported n (houtcome ▸ hn)
  ok_iff := by rw [houtcome, h.ok_iff]

/-- The operation is told apart by its outcome, and the nodes by which of them it names. -/
theorem congr (h : AllOrNothing m unsupported named nodes s) {m' : EditM ν σ Unit}
    {unsupported' : Prop} {named' : List ν} (hon : m'.on s = m.on s)
    (hsame : unsupported' ↔ unsupported) (hnamed : ∀ n, n ∈ named' ↔ n ∈ named) :
    AllOrNothing m' unsupported' named' nodes s where
  unchanged := by
    rw [hon]
    exact h.unchanged
  unsupported_iff := by rw [hon, h.unsupported_iff, hsame]
  invalidNode_iff := by
    simp only [hon, h.invalidNode_iff, hsame, hnamed]
  reported n hn := by
    rw [hnamed]
    exact h.reported n (hon ▸ hn)
  ok_iff := by
    simp only [hon, h.ok_iff, hsame, hnamed]

/-- An operation on a part of a larger store. -/
theorem within {part : τ → σ} {put : τ → σ → τ} {t : τ} (hput : put t (part t) = t)
    (h : AllOrNothing m unsupported named nodes (part t)) :
    AllOrNothing (m.within part put) unsupported named nodes t := by
  refine h.transfer rfl fun err herr => ?_
  rw [EditM.on_within, h.unchanged err herr]
  exact hput

/-- An operation with a change after it, which is made only if the operation succeeds. -/
theorem bind_modify (h : AllOrNothing m unsupported named nodes s) (f : σ → σ) :
    AllOrNothing (do m; modify f) unsupported named nodes s := by
  refine h.transfer ?_ fun err herr => ?_
  · rw [EditM.on_bind]
    rcases m.on s with ⟨outcome, t⟩
    cases outcome <;> rfl
  · have hpair : m.on s = (.error err, s) := Prod.ext herr (h.unchanged err herr)
    rw [EditM.on_bind, hpair]

end AllOrNothing

/-! ## Through layers -/

theorem Edit.operation_transpose_eq_addEdge_iff {e : Edit ν} :
    e.transpose.operation = .addEdge ↔ e.operation = .addEdge := by
  cases e <;> simp [transpose, operation]

/-- **Edits through layers are all or nothing if edits of the store are.**  Some layer
refuses the edit before anything is looked up, or the store gets it, perhaps transposed, which
names the same nodes. -/
theorem AllOrNothing.through [Store σ ν κ] {unsupported : Edit ν → Prop} {nodes : List ν} {s : σ}
    (htranspose : ∀ e, unsupported e.transpose ↔ unsupported e)
    (hedit : ∀ e, AllOrNothing (Store.edit e) (unsupported e) e.ends nodes s) (stack : Stack ν)
    (e : Edit ν) :
    AllOrNothing (Store.editThrough stack e) (stack.refuses = true ∨ unsupported e) e.ends nodes
      s := by
  cases hrefuses : stack.refuses with
  | true =>
      obtain ⟨o, hon⟩ := Store.exists_on_editThrough hrefuses e s
      exact .of_unsupported (Or.inl rfl) hon
  | false =>
      have hon := Store.on_editThrough_eq hrefuses e s
      cases hturns : stack.turns with
      | true =>
          rw [hturns] at hon
          exact (hedit e.transpose).congr hon (by simp [htranspose]) fun _ =>
            Edit.mem_ends_transpose.symm
      | false =>
          rw [hturns] at hon
          exact (hedit e).congr hon (by simp) fun _ => Iff.rfl

/-! ## The stores -/

theorem Adjacency.Paired.allOrNothing_edit [DecidableEq ν] {g : Adjacency ν} (hg : g.Paired)
    (e : Edit ν) : AllOrNothing (Adjacency.edit e) False e.ends g.graph.nodes g := by
  rcases edit_cases hg e with ⟨n, hn, hmissing, hon⟩ | ⟨hall, g', hon, -⟩
  · exact .of_missing id hn hmissing hon
  · exact .of_ok id hall hon

namespace Labelled

variable [DecidableEq ν] [DecidableEq κ] {g : Labelled ν κ}

omit [DecidableEq κ] in
theorem allOrNothing_onBase (hg : g.base.Paired) (e : Edit ν) :
    AllOrNothing (onBase (Adjacency.edit e)) False e.ends g.graph.nodes g :=
  (hg.allOrNothing_edit e).within rfl

omit [DecidableEq κ] in
/-- The edges are edited first, and the labels once that has succeeded. -/
theorem allOrNothing_edit (hg : g.base.Paired) (e : Edit ν) :
    AllOrNothing (edit e) (e.operation = .addEdge) e.ends g.graph.nodes g := by
  by_cases hop : e.operation = .addEdge
  · cases e with
    | addEdge src dst => exact .of_unsupported hop rfl
    | _ => cases hop
  · have hboth := (allOrNothing_onBase hg e).bind_modify (·.unmark e.removes)
    rw [edit_eq hop]
    exact hboth.congr rfl (iff_of_false hop id) fun _ => Iff.rfl

theorem allOrNothing_addLabel (hg : g.base.Paired) (src dst : ν) (l : κ) :
    AllOrNothing (addLabel src dst l) False [src, dst] g.graph.nodes g :=
  (allOrNothing_onBase hg (.addEdge src dst)).bind_modify (·.mark ⟨src, dst, l⟩)

end Labelled

namespace CallGraph

variable {g : CallGraph}

theorem allOrNothing_edit (hg : g.calls.Paired) (e : Edit MethodNode) :
    AllOrNothing (edit e) False e.ends g.graph.nodes g :=
  (hg.allOrNothing_edit e).within rfl

theorem allOrNothing_addEntrypoint (g : CallGraph) (n : MethodNode) :
    AllOrNothing (addEntrypoint n) False [n] g.graph.nodes g := by
  have hon := on_addEntrypoint n g
  by_cases hn : n ∈ g.graph.nodes
  · rw [if_pos hn] at hon
    exact .of_ok id (by simpa using hn) hon
  · rw [if_neg hn] at hon
    exact .of_missing id (by simp) hn hon

end CallGraph

/-- **Operations are all or nothing.**  On a reachable store of any of the three kinds an
edit through a stack of layers, and likewise adding a label, a call or an entry point, leaves
the store exactly as it was if it fails.  It is unsupported if the stack has a reflexive, a
restricting or a read-only layer, or if an edge is to be added to a store of labelled edges;
otherwise it reports a node if and only if one of the nodes that it names is missing, and
succeeds in all remaining cases. -/
theorem edits_all_or_nothing (ν κ : Type) [DecidableEq ν] [DecidableEq κ] :
    (∀ g : Adjacency ν, g.Reachable → ∀ stack e,
      AllOrNothing (Store.editThrough stack e) (stack.refuses = true) e.ends g.graph.nodes g) ∧
    (∀ g : Labelled ν κ, g.Reachable →
      (∀ stack e, AllOrNothing (Store.editThrough stack e)
        (stack.refuses = true ∨ e.operation = .addEdge) e.ends g.graph.nodes g) ∧
      ∀ src dst l, AllOrNothing (Labelled.addLabel src dst l) False [src, dst] g.graph.nodes g) ∧
    (∀ g : CallGraph, g.Reachable →
      (∀ stack e,
        AllOrNothing (Store.editThrough stack e) (stack.refuses = true) e.ends g.graph.nodes g) ∧
      (∀ caller callee,
        AllOrNothing (CallGraph.addCall caller callee) False [caller, callee] g.graph.nodes g) ∧
      ∀ n, AllOrNothing (CallGraph.addEntrypoint n) False [n] g.graph.nodes g) := by
  refine ⟨fun g hg stack e => ?_, fun g hg => ⟨fun stack e => ?_, fun src dst l => ?_⟩,
    fun g hg => ⟨fun stack e => ?_, fun caller callee => ?_, fun n => ?_⟩⟩
  · have hthrough := AllOrNothing.through (fun _ => Iff.rfl) hg.paired.allOrNothing_edit stack e
    exact hthrough.congr rfl (by simp) fun _ => Iff.rfl
  · exact AllOrNothing.through (fun _ => Edit.operation_transpose_eq_addEdge_iff)
      (Labelled.allOrNothing_edit hg.paired) stack e
  · exact Labelled.allOrNothing_addLabel hg.paired src dst l
  · have hthrough := AllOrNothing.through (fun _ => Iff.rfl)
      (CallGraph.allOrNothing_edit hg.paired) stack e
    exact hthrough.congr rfl (by simp) fun _ => Iff.rfl
  · exact CallGraph.allOrNothing_edit hg.paired (.addEdge caller callee)
  · exact g.allOrNothing_addEntrypoint n

theorem edits_all_or_nothing_knot :
    (Adjacency.knot.Reachable ∧
      ((Store.editThrough [.transpose, .readOnly] (.removeEdge 1 2) :
        EditM Nat (Adjacency Nat) Unit).on Adjacency.knot).2 = Adjacency.knot) ∧
    ((Labelled.after Labelled.relabelled).Reachable ∧
      ∃ n, (Labelled.addLabel 2 9 .heap).on (Labelled.after Labelled.relabelled) =
        (.error (.invalidNode n), Labelled.after Labelled.relabelled)) ∧
    ((CallGraph.empty.addMethod "main").Reachable ∧
      ((CallGraph.addEntrypoint ⟨0⟩).on (CallGraph.empty.addMethod "main")).1 = .ok ()) := by
  have hknot : Adjacency.knot.Reachable :=
    ⟨[.connect 1 2, .connect 2 1, .connect 2 2, .connect 2 3], rfl⟩
  have hlabelled : (Labelled.after Labelled.relabelled).Reachable := ⟨_, rfl⟩
  have hcalls : (CallGraph.empty.addMethod "main").Reachable := ⟨[.addMethod "main"], rfl⟩
  obtain ⟨hadjacency, hlabels, hmethods⟩ := edits_all_or_nothing Nat Dependence
  refine ⟨⟨hknot, ?_⟩, ⟨hlabelled, ?_⟩, hcalls, ?_⟩
  · have hedit := hadjacency _ hknot [.transpose, .readOnly] (.removeEdge 1 2)
    obtain ⟨o, ho⟩ := hedit.unsupported_iff.2 rfl
    exact hedit.unchanged _ ho
  · have hadd := (hlabels _ hlabelled).2 2 9 .heap
    obtain ⟨n, hn⟩ := hadd.invalidNode_iff.2 ⟨id, 9, by simp, by decide⟩
    exact ⟨n, Prod.ext hn (hadd.unchanged _ hn)⟩
  · exact ((hmethods _ hcalls).2.2 ⟨0⟩).ok_iff.2 ⟨id, by decide⟩

end ProgramFlow
