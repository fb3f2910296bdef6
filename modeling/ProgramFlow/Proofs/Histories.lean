import ProgramFlow.Graph.Labelled
import ProgramFlow.Program.CallGraph
import ProgramFlow.Proofs.Adjacency

/-!
# What a history of operations leads to

A store is what operations have made of the empty one.  For each of the three
stores `Op` lists its operations, with edits entering directly or through any
stack of layers, and `perform` says what an operation leaves behind, also when it
fails.  A store is *reachable* if some list of operations leads to it.

* `Led.induction` — what the first store has and operations keep, reachable stores have.
* `Stack.refuses`, `Stack.turns` — what a stack of layers makes of edits.
* `Store.exists_on_editThrough`, `Store.on_editThrough_eq` — an edit through a stack is
  refused, or it edits the store itself.
* `Stack.enter`, `Store.keeps_step` — the same said of something simpler than a store, and
  that it stays in step with the store.
* `Adjacency.Reachable.sound`, `Labelled.Reachable.sound`, `CallGraph.Reachable.sound` —
  every reachable store is a sound graph.
-/

namespace ProgramFlow

/-- A list of operations leads from the first state to the second. -/
def Led {σ ο : Type} (perform : σ → ο → σ) (start s : σ) : Prop :=
  ∃ history : List ο, history.foldl perform start = s

theorem Led.induction {σ ο : Type} {perform : σ → ο → σ} {start s : σ} {P : σ → Prop}
    (h : Led perform start s) (hstart : P start) (hstep : ∀ s o, P s → P (perform s o)) : P s := by
  obtain ⟨history, rfl⟩ := h
  exact List.foldlRecOn history perform hstart fun s hs o _ => hstep s o hs

/-! ## Edits through layers -/

section Through

variable {σ ν κ : Type}

/-- Does the layer refuse every edit? -/
def Layer.refuses : Layer ν → Bool
  | .transpose => false
  | .reflexive => true
  | .restrict _ => true
  | .readOnly => true

/-- Does the layer reverse the edges? -/
def Layer.isTranspose : Layer ν → Bool
  | .transpose => true
  | _ => false

namespace Stack

/-- Does some layer refuse every edit? -/
def refuses (stack : Stack ν) : Bool := stack.any Layer.refuses

/-- Does the stack reverse the edges?  Layers that do cancel out in pairs. -/
def turns (stack : Stack ν) : Bool := stack.countP Layer.isTranspose % 2 == 1

theorem turns_cons_transpose (stack : Stack ν) : turns (.transpose :: stack) = !stack.turns := by
  have hcount : List.countP Layer.isTranspose (.transpose :: stack) =
      stack.countP Layer.isTranspose + 1 := List.countP_cons_of_pos rfl
  unfold turns
  rw [hcount]
  rcases Nat.mod_two_eq_zero_or_one (stack.countP Layer.isTranspose) with h | h
  · simp [h, Nat.add_mod]
  · simp [h, Nat.add_mod]

theorem turns_cons_of_not {layer : Layer ν} (h : layer.isTranspose = false) (stack : Stack ν) :
    turns (layer :: stack) = stack.turns := by
  simp [turns, h]

theorem exists_route_eq_error {stack : Stack ν} (h : stack.refuses = true) (e : Edit ν) :
    ∃ o, stack.route e = .error (.unsupported o) := by
  induction stack generalizing e with
  | nil => cases h
  | cons layer stack ih =>
      cases layer with
      | transpose => exact ih h e.transpose
      | _ => exact ⟨e.operation, rfl⟩

theorem route_eq_ok {stack : Stack ν} (h : stack.refuses = false) (e : Edit ν) :
    stack.route e = .ok (if stack.turns then e.transpose else e) := by
  induction stack generalizing e with
  | nil => rfl
  | cons layer stack ih =>
      cases layer with
      | transpose =>
          show Stack.route stack e.transpose = _
          rw [ih h, turns_cons_transpose]
          cases Stack.turns stack with
          | true => exact congrArg Except.ok e.transpose_transpose
          | false => rfl
      | _ => cases h

/-- What becomes of something that can be edited and reversed when an edit enters through the
stack.  If some layer refuses the edit, nothing does; if the stack reverses the edges, the edit
is made on what is seen there, the reverse. -/
def enter {π : Type} (edit : π → Edit ν → π) (reverse : π → π) (stack : Stack ν) (p : π)
    (e : Edit ν) : π :=
  if stack.refuses then p
  else if stack.turns then reverse (edit (reverse p) e)
  else edit p e

section Enter

variable {π : Type} {edit : π → Edit ν → π} {reverse : π → π} {stack : Stack ν}

theorem enter_of_refuses (h : stack.refuses = true) (p : π) (e : Edit ν) :
    stack.enter edit reverse p e = p := by
  rw [enter, if_pos h]

theorem enter_eq (htranspose : ∀ p e, edit p e.transpose = reverse (edit (reverse p) e))
    (h : stack.refuses = false) (p : π) (e : Edit ν) :
    stack.enter edit reverse p e = edit p (if stack.turns then e.transpose else e) := by
  rw [enter, h]
  cases stack.turns with
  | true => exact (htranspose p e).symm
  | false => rfl

end Enter

end Stack

variable [Store σ ν κ]

/-- An edit through a stack is refused, or it is the edit that the stack makes of it. -/
theorem Store.on_editThrough (stack : Stack ν) (e : Edit ν) (s : σ) :
    (Store.editThrough stack e : EditM ν σ Unit).on s =
      match stack.route e with
      | .ok e' => (Store.edit e' : EditM ν σ Unit).on s
      | .error err => (.error err, s) := by
  rw [Store.editThrough, EditM.on_bind, EditM.on_ofLookup]
  cases stack.route e with
  | error err => rfl
  | ok e' => rfl

/-- An edit that some layer refuses is unsupported, whatever the store. -/
theorem Store.exists_on_editThrough {stack : Stack ν} (h : stack.refuses = true) (e : Edit ν)
    (s : σ) :
    ∃ o, (Store.editThrough stack e : EditM ν σ Unit).on s = (.error (.unsupported o), s) := by
  obtain ⟨o, ho⟩ := Stack.exists_route_eq_error h e
  refine ⟨o, ?_⟩
  rw [Store.on_editThrough, ho]

/-- An edit that no layer refuses edits the store, transposed if the stack reverses the edges. -/
theorem Store.on_editThrough_eq {stack : Stack ν} (h : stack.refuses = false) (e : Edit ν)
    (s : σ) :
    (Store.editThrough stack e : EditM ν σ Unit).on s =
      (Store.edit (if stack.turns then e.transpose else e) : EditM ν σ Unit).on s := by
  rw [Store.on_editThrough, Stack.route_eq_ok h]

theorem Store.keeps_editThrough {P : σ → Prop} {s : σ} (hs : P s)
    (hedit : ∀ e : Edit ν, P ((Store.edit e : EditM ν σ Unit).on s).2) (stack : Stack ν)
    (e : Edit ν) : P ((Store.editThrough stack e : EditM ν σ Unit).on s).2 := by
  rw [Store.on_editThrough]
  cases stack.route e with
  | error err => exact hs
  | ok e' => exact hedit e'

/-- If edits keep a store in step with something simpler, so do edits through a stack. -/
theorem Store.keeps_step {π : Type} {R : σ → π → Prop} {edit : π → Edit ν → π} {reverse : π → π}
    (htranspose : ∀ p e, edit p e.transpose = reverse (edit (reverse p) e)) {s : σ} {p : π}
    (hs : R s p) (hedit : ∀ e : Edit ν, R ((Store.edit e : EditM ν σ Unit).on s).2 (edit p e))
    (stack : Stack ν) (e : Edit ν) :
    R ((Store.editThrough stack e : EditM ν σ Unit).on s).2 (stack.enter edit reverse p e) := by
  cases hrefuses : stack.refuses with
  | true =>
      obtain ⟨o, hon⟩ := Store.exists_on_editThrough hrefuses e s
      rw [hon, Stack.enter_of_refuses hrefuses]
      exact hs
  | false =>
      rw [Store.on_editThrough_eq hrefuses, Stack.enter_eq htranspose hrefuses]
      exact hedit _

end Through

/-! ## The adjacency store -/

namespace Adjacency

variable {ν : Type} [DecidableEq ν]

/-- The operations of the adjacency store. -/
inductive Op (ν : Type) where
  | addNode (node : ν)
  | connect (src dst : ν)
  | edit (edit : Edit ν)
  | through (stack : Stack ν) (edit : Edit ν)

/-- What an operation leaves behind. -/
def perform (g : Adjacency ν) : Op ν → Adjacency ν
  | .addNode n => g.addNode n
  | .connect src dst => g.connect src dst
  | .edit e => ((edit e).on g).2
  | .through stack e => ((Store.editThrough stack e : EditM ν (Adjacency ν) Unit).on g).2

/-- The store is the result of some operations. -/
def Reachable (g : Adjacency ν) : Prop := Led perform empty g

theorem Paired.perform {g : Adjacency ν} (hg : g.Paired) (o : Op ν) : (g.perform o).Paired := by
  cases o with
  | addNode n => exact hg.addNode n
  | connect src dst => exact hg.connect src dst
  | edit e => exact hg.edit e
  | through stack e => exact Store.keeps_editThrough hg hg.edit stack e

theorem Reachable.paired {g : Adjacency ν} (h : g.Reachable) : g.Paired :=
  h.induction paired_empty fun _ o hg => hg.perform o

theorem Reachable.sound {g : Adjacency ν} (h : g.Reachable) : g.graph.Sound := h.paired.sound

end Adjacency

/-! ## The store for labelled edges -/

namespace Labelled

variable {ν κ : Type} [DecidableEq ν] [DecidableEq κ]

/-- The operations of the store for labelled edges. -/
inductive Op (ν κ : Type) where
  | addNode (node : ν)
  | connect (src dst : ν) (label : κ)
  | addLabel (src dst : ν) (label : κ)
  | edit (edit : Edit ν)
  | through (stack : Stack ν) (edit : Edit ν)

/-- What an operation leaves behind. -/
def perform (g : Labelled ν κ) : Op ν κ → Labelled ν κ
  | .addNode n => g.addNode n
  | .connect src dst label => g.connect src dst label
  | .addLabel src dst label => ((addLabel src dst label).on g).2
  | .edit e => ((edit e).on g).2
  | .through stack e => ((Store.editThrough stack e : EditM ν (Labelled ν κ) Unit).on g).2

/-- The store is the result of some operations. -/
def Reachable (g : Labelled ν κ) : Prop := Led perform empty g

@[simp] theorem base_mark (g : Labelled ν κ) (m : Mark ν κ) : (g.mark m).base = g.base := by
  unfold mark
  split <;> rfl

omit [DecidableEq ν] [DecidableEq κ] in
/-- A change of the adjacency store, followed by one of the labels alone. -/
theorem base_onBase_modify (m : EditM ν (Adjacency ν) Unit) (f : Labelled ν κ → Labelled ν κ)
    (hf : ∀ g, (f g).base = g.base) (g : Labelled ν κ) :
    ((do onBase m; modify f : EditM ν (Labelled ν κ) Unit).on g).2.base = (m.on g.base).2 := by
  rw [EditM.on_bind, onBase, EditM.on_within]
  cases (m.on g.base).1 with
  | error e => rfl
  | ok u => exact hf _

omit [DecidableEq ν] [DecidableEq κ] in
theorem base_onBase_unmark (m : EditM ν (Adjacency ν) Unit) (gone : ν → ν → Bool)
    (g : Labelled ν κ) :
    ((do onBase m; modify (·.unmark gone) : EditM ν (Labelled ν κ) Unit).on g).2.base =
      (m.on g.base).2 :=
  base_onBase_modify m (·.unmark gone) (fun _ => rfl) g

omit [DecidableEq κ] in
/-- An edit leaves the adjacency store as it is, or edits it in the same way. -/
theorem base_edit (e : Edit ν) (g : Labelled ν κ) :
    ((edit e).on g).2.base = g.base ∨
      ((edit e).on g).2.base = ((Adjacency.edit e).on g.base).2 := by
  cases e with
  | addEdge src dst => exact Or.inl rfl
  | _ => exact Or.inr (base_onBase_unmark _ _ g)

omit [DecidableEq κ] in
theorem paired_edit {g : Labelled ν κ} (hg : g.base.Paired) (e : Edit ν) :
    ((edit e).on g).2.base.Paired := by
  rcases base_edit e g with h | h
  · exact h ▸ hg
  · exact h ▸ hg.edit e

theorem paired_perform {g : Labelled ν κ} (hg : g.base.Paired) (o : Op ν κ) :
    (g.perform o).base.Paired := by
  cases o with
  | addNode n => exact hg.addNode n
  | connect src dst label =>
      rw [perform, connect, base_mark]
      exact hg.connect src dst
  | addLabel src dst label =>
      rw [perform, addLabel, base_onBase_modify _ _ (fun g => base_mark g _)]
      exact hg.edit (.addEdge src dst)
  | edit e => exact paired_edit hg e
  | through stack e =>
      exact Store.keeps_editThrough (P := fun g : Labelled ν κ => g.base.Paired) hg
        (paired_edit hg) stack e

theorem Reachable.paired {g : Labelled ν κ} (h : g.Reachable) : g.base.Paired :=
  h.induction (P := fun g => g.base.Paired) Adjacency.paired_empty fun _ o hg => paired_perform hg o

theorem Reachable.sound {g : Labelled ν κ} (h : g.Reachable) : g.graph.Sound :=
  let hbase := h.paired.sound
  { nodup := hbase.nodup
    contains_iff := hbase.contains_iff
    closed := ⟨hbase.closed.preds, hbase.closed.succs⟩
    nodup_preds := hbase.nodup_preds
    nodup_succs := hbase.nodup_succs
    mirrored := hbase.mirrored
    hasEdge_iff := hbase.hasEdge_iff }

end Labelled

/-! ## Call graphs -/

namespace CallGraph

/-- The operations of a call graph. -/
inductive Op where
  | addMethod (name : String)
  | addCall (caller callee : MethodNode)
  | addEntrypoint (node : MethodNode)
  | edit (edit : Edit MethodNode)
  | through (stack : Stack MethodNode) (edit : Edit MethodNode)

/-- What an operation leaves behind. -/
def perform (g : CallGraph) : Op → CallGraph
  | .addMethod name => g.addMethod name
  | .addCall caller callee => ((addCall caller callee).on g).2
  | .addEntrypoint n => ((addEntrypoint n).on g).2
  | .edit e => ((edit e).on g).2
  | .through stack e => ((Store.editThrough stack e : EditM MethodNode CallGraph Unit).on g).2

/-- The call graph is the result of some operations. -/
def Reachable (g : CallGraph) : Prop := Led perform empty g

theorem contains_iff {g : CallGraph} {n : MethodNode} :
    g.graph.contains n = true ↔ n ∈ g.graph.nodes :=
  Roster.contains_iff

/-- A node that is there becomes an entry point, another one is reported. -/
theorem on_addEntrypoint (n : MethodNode) (g : CallGraph) :
    (addEntrypoint n).on g =
      if n ∈ g.graph.nodes then (.ok (), { g with entrypoints := g.entrypoints.insert n })
      else (.error (.invalidNode n), g) := by
  rw [addEntrypoint, EditM.on_bind, EditM.on_get]
  by_cases hn : n ∈ g.graph.nodes
  · rw [if_pos hn]
    simp only [contains_iff.2 hn]
    rfl
  · rw [if_neg hn]
    simp only [mt contains_iff.1 hn]
    rfl

theorem calls_addEntrypoint (n : MethodNode) (g : CallGraph) :
    ((addEntrypoint n).on g).2.calls = g.calls := by
  rw [on_addEntrypoint]
  split <;> rfl

theorem paired_perform {g : CallGraph} (hg : g.calls.Paired) (o : Op) :
    (g.perform o).calls.Paired := by
  cases o with
  | addMethod name => exact hg.addNode _
  | addCall caller callee => exact hg.edit (.addEdge caller callee)
  | addEntrypoint n =>
      rw [perform, calls_addEntrypoint]
      exact hg
  | edit e => exact hg.edit e
  | through stack e =>
      exact Store.keeps_editThrough (P := fun g : CallGraph => g.calls.Paired) hg hg.edit stack e

theorem Reachable.paired {g : CallGraph} (h : g.Reachable) : g.calls.Paired :=
  h.induction (P := fun g => g.calls.Paired) Adjacency.paired_empty
    fun _ o hg => paired_perform hg o

theorem Reachable.sound {g : CallGraph} (h : g.Reachable) : g.graph.Sound := h.paired.sound

end CallGraph

end ProgramFlow
