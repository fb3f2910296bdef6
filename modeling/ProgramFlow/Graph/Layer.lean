import ProgramFlow.Graph.Edit

/-!
# Layers: other ways to read the same graph, and the audit

A layer presents a graph differently without copying it.

* `transpose` — all edges reversed.
* `reflexive` — every node is its own neighbour as well.
* `restrict` — only the nodes a predicate keeps, and the edges between them.
* `readOnly` — the same graph, without edits.

Layers can be stacked in any order and number.  `Stack.view` is the graph seen
through a stack, and `Stack.route` says what becomes of an edit that enters on
top: a transposing layer transposes it, the other layers refuse it.

`Graph.audit` checks that the parts of a graph, layered or not, agree with each
other as far as its listed nodes and their neighbours go.  It stops at the first
contradiction, or at the first lookup that fails, in this order: the number of
nodes; then for each node whether it is contained, its successors, and its
predecessors.
-/

namespace ProgramFlow

variable {ν κ : Type}

namespace Graph

/-- The graph with all edges reversed. -/
def transpose (g : Graph ν κ) : Graph ν κ where
  nodes := g.nodes
  nodeCount := g.nodeCount
  contains := g.contains
  preds := g.succs
  succs := g.preds
  predCount := g.succCount
  succCount := g.predCount
  hasEdge a b := g.hasEdge b a
  labels a b := g.labels b a
  mentioned := g.mentioned
  preds_mentioned := g.succs_mentioned
  succs_mentioned := g.preds_mentioned

variable [DecidableEq ν]

/-- Append the node to its neighbours, unless it is one of them. -/
def addSelf (n : ν) (ns : List ν) : List ν := if n ∈ ns then ns else ns ++ [n]

theorem mem_addSelf {n m : ν} {ns : List ν} : m ∈ addSelf n ns ↔ m ∈ ns ∨ m = n := by
  unfold addSelf
  split
  · constructor
    · exact Or.inl
    · rintro (h | rfl) <;> assumption
  · simp

theorem mentioned_addSelf {f : ν → Lookup ν (List ν)} {ms : List ν}
    (hf : ∀ n ns, f n = .ok ns → ∀ m ∈ ns, m ∈ ms ∨ m = n) :
    ∀ n ns, (f n).map (addSelf n) = .ok ns → ∀ m ∈ ns, m ∈ ms ∨ m = n := by
  intro n ns h m hm
  cases hn : f n with
  | error e => simp [hn, Except.map] at h
  | ok ks =>
      simp only [hn, Except.map, Except.ok.injEq] at h
      subst h
      rcases mem_addSelf.1 hm with h | h
      · exact hf n ks hn m h
      · exact Or.inr h

omit [DecidableEq ν] in
/-- Count a node besides its `k` neighbours, as far as a count can tell. -/
def countSelf (n : ν) (k : Nat) : Lookup ν Nat :=
  if k < maxCount then .ok (k + 1) else .error (.uncountable n)

omit [DecidableEq ν] in
theorem countSelf_eq_ok_iff {n : ν} {k m : Nat} :
    countSelf n k = .ok m ↔ m = k + 1 ∧ m ≤ maxCount := by
  unfold countSelf
  split
  · rw [Except.ok.injEq]
    omega
  · simp only [reduceCtorEq, false_iff]
    omega

/-- The graph in which every node is a neighbour of itself.  A count that another
neighbour would bring above `maxCount` cannot be told. -/
def reflexive (g : Graph ν κ) : Graph ν κ where
  nodes := g.nodes
  nodeCount := g.nodeCount
  contains := g.contains
  preds n := (g.preds n).map (addSelf n)
  succs n := (g.succs n).map (addSelf n)
  predCount n := do
    let k ← g.predCount n
    if g.hasEdge n n then return k else countSelf n k
  succCount n := do
    let k ← g.succCount n
    if g.hasEdge n n then return k else countSelf n k
  hasEdge a b := if a = b then g.contains a else g.hasEdge a b
  labels := g.labels
  mentioned := g.mentioned
  preds_mentioned := mentioned_addSelf g.preds_mentioned
  succs_mentioned := mentioned_addSelf g.succs_mentioned

omit [DecidableEq ν] in
theorem mentioned_filter {f : ν → Lookup ν (List ν)} {ms : List ν} (keep : ν → Bool)
    (hf : ∀ n ns, f n = .ok ns → ∀ m ∈ ns, m ∈ ms ∨ m = n) :
    ∀ n ns, (f n).map (fun ks => if keep n then ks.filter keep else []) = .ok ns →
      ∀ m ∈ ns, m ∈ ms ∨ m = n := by
  intro n ns h m hm
  cases hn : f n with
  | error e => simp [hn, Except.map] at h
  | ok ks =>
      simp only [hn, Except.map, Except.ok.injEq] at h
      subst h
      split at hm
      · exact hf n ks hn m (List.mem_filter.1 hm).1
      · simp at hm

/-- The part of the graph between the nodes that `keep` accepts.  A node that is
left out has no neighbours, but looking them up still fails where it fails in
the whole graph. -/
def restrict (keep : ν → Bool) (g : Graph ν κ) : Graph ν κ :=
  let around (f : ν → Lookup ν (List ν)) (n : ν) : Lookup ν (List ν) :=
    (f n).map fun ns => if keep n then ns.filter keep else []
  { nodes := g.nodes.filter keep
    nodeCount := (g.nodes.filter keep).length
    contains := fun n => keep n && g.contains n
    preds := around g.preds
    succs := around g.succs
    predCount := fun n => (around g.preds n).map List.length
    succCount := fun n => (around g.succs n).map List.length
    hasEdge := fun a b => keep a && keep b && g.hasEdge a b
    labels := fun a b => if keep a && keep b then g.labels a b else []
    mentioned := g.mentioned
    preds_mentioned := mentioned_filter keep g.preds_mentioned
    succs_mentioned := mentioned_filter keep g.succs_mentioned }

end Graph

/-! ## Stacks -/

/-- One way to present a graph differently. -/
inductive Layer (ν : Type) where
  | transpose
  | reflexive
  | restrict (keep : ν → Bool)
  | readOnly

/-- The graph seen through a layer. -/
def Layer.view [DecidableEq ν] : Layer ν → Graph ν κ → Graph ν κ
  | .transpose, g => g.transpose
  | .reflexive, g => g.reflexive
  | .restrict keep, g => g.restrict keep
  | .readOnly, g => g

/-- What a layer hands down when an edit arrives. -/
def Layer.route : Layer ν → Edit ν → Lookup ν (Edit ν)
  | .transpose, e => .ok e.transpose
  | _, e => .error (.unsupported e.operation)

/-- Layers on top of each other, the outermost first. -/
abbrev Stack (ν : Type) := List (Layer ν)

/-- The graph seen through a stack. -/
def Stack.view [DecidableEq ν] (stack : Stack ν) (g : Graph ν κ) : Graph ν κ :=
  stack.foldr Layer.view g

/-- The edit that reaches the store below a stack. -/
def Stack.route (stack : Stack ν) (e : Edit ν) : Lookup ν (Edit ν) :=
  stack.foldlM (fun e layer => layer.route e) e

/-- Perform an edit through a stack of layers. -/
def Store.editThrough {σ : Type} [Store σ ν κ] (stack : Stack ν) (e : Edit ν) :
    EditM ν σ Unit := do
  Store.edit (← EditM.ofLookup (stack.route e))

/-! ## The audit -/

namespace Graph

variable [DecidableEq ν]

/-- Report a defect unless a condition holds. -/
def require (condition : Bool) (defect : Defect ν) : Lookup ν Unit :=
  if condition then .ok () else .error (.unsound defect)

/-- Check the successors of a node: their number, and for each that it is contained
and that the edge shows at both of its ends.  The defects to report are given,
since the predecessors are checked as the successors in the transposed graph. -/
def auditSuccs (g : Graph ν κ) (n : ν) (miscounted : Defect ν) (stray unmatched : ν → Defect ν) :
    Lookup ν Unit := do
  let ss ← g.succs n
  require (ss.length == (← g.succCount n)) miscounted
  ss.forM fun s => do
    require (g.contains s) (stray s)
    require (g.hasEdge n s) (unmatched s)
    require ((← g.preds s).contains n) (unmatched s)

/-- Check one node. -/
def auditNode (g : Graph ν κ) (n : ν) : Lookup ν Unit := do
  require (g.contains n) (.notContained n)
  g.auditSuccs n (.succCount n) (.straySucc n) (.unmatchedSucc n)
  g.transpose.auditSuccs n (.predCount n) (.strayPred n) (.unmatchedPred n)

/-- Check the graph. -/
def audit (g : Graph ν κ) : Lookup ν Unit := do
  require (g.nodes.length == g.nodeCount) (.nodeCount g.nodes.length g.nodeCount)
  g.nodes.forM g.auditNode

end Graph

end ProgramFlow
