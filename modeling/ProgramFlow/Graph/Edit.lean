import ProgramFlow.Graph.Basic

/-!
# Edits and stores

A *store* holds a graph that can change.  It is read through the `Graph` record
it produces and changed by *edits*, of which there are five.  An edit that fails
may have changed the store on the way: `EditM` keeps the state that an edit
leaves behind also when it fails, so that a store which leaves nothing behind is
a fact to be proved and not a convention.
-/

namespace ProgramFlow

/-- A change of the edges of a graph. -/
inductive Edit (ν : Type) where
  | addEdge (src dst : ν)
  | removeEdge (src dst : ν)
  /-- Remove all edges into and out of a node. -/
  | removeIncident (node : ν)
  /-- Remove all edges into a node. -/
  | removeIncoming (node : ν)
  /-- Remove all edges out of a node. -/
  | removeOutgoing (node : ν)
  deriving DecidableEq

namespace Edit

variable {ν : Type}

/-- The kind of operation an edit is. -/
def operation : Edit ν → Operation
  | addEdge .. => .addEdge
  | removeEdge .. => .removeEdge
  | removeIncident _ => .removeIncident
  | removeIncoming _ => .removeIncoming
  | removeOutgoing _ => .removeOutgoing

/-- The edit that does to the reversed edges what the given one does to the edges. -/
def transpose : Edit ν → Edit ν
  | addEdge src dst => addEdge dst src
  | removeEdge src dst => removeEdge dst src
  | removeIncident node => removeIncident node
  | removeIncoming node => removeOutgoing node
  | removeOutgoing node => removeIncoming node

@[simp] theorem transpose_transpose (e : Edit ν) : e.transpose.transpose = e := by
  cases e <;> rfl

end Edit

/-- Changes of a store `σ` of a graph with nodes from `ν`.  A change that fails
still leaves a state behind. -/
abbrev EditM (ν σ α : Type) := ExceptT (GraphError ν) (StateM σ) α

namespace EditM

variable {ν σ τ α β : Type}

/-- The outcome of a change, and the store it leaves behind. -/
def on (m : EditM ν σ α) (s : σ) : Lookup ν α × σ := (m.run).run s

/-- Pass a lookup's failure on as the failure of a change. -/
def ofLookup (l : Lookup ν α) : EditM ν σ α := ExceptT.mk (pure l)

/-- Run a change on a part of a larger store. -/
def within (part : τ → σ) (put : τ → σ → τ) (m : EditM ν σ α) : EditM ν τ α :=
  ExceptT.mk fun t => ((m.on (part t)).1, put t (m.on (part t)).2)

/-! ### What a change does to a store -/

@[simp] theorem on_pure (a : α) (s : σ) : (pure a : EditM ν σ α).on s = (.ok a, s) := rfl

@[simp] theorem on_throw (e : GraphError ν) (s : σ) :
    (throw e : EditM ν σ α).on s = (.error e, s) := rfl

@[simp] theorem on_get (s : σ) : (get : EditM ν σ σ).on s = (.ok s, s) := rfl

@[simp] theorem on_modify (f : σ → σ) (s : σ) :
    (modify f : EditM ν σ Unit).on s = (.ok (), f s) := rfl

@[simp] theorem on_ofLookup (l : Lookup ν α) (s : σ) :
    (ofLookup l : EditM ν σ α).on s = (l, s) := rfl

@[simp] theorem on_within (part : τ → σ) (put : τ → σ → τ) (m : EditM ν σ α) (t : τ) :
    (m.within part put).on t = ((m.on (part t)).1, put t (m.on (part t)).2) := rfl

/-- The second of two changes starts from what the first leaves behind, and does not
run if the first fails. -/
theorem on_bind (m : EditM ν σ α) (f : α → EditM ν σ β) (s : σ) :
    (m >>= f).on s =
      match m.on s with
      | (.ok a, t) => (f a).on t
      | (.error e, t) => (.error e, t) := by
  show (m >>= f) s = match m s with
      | (.ok a, t) => (f a) t
      | (.error e, t) => (.error e, t)
  simp only [bind, ExceptT.bind, ExceptT.mk, StateT.bind]
  rcases m s with ⟨r, t⟩
  cases r <;> rfl

end EditM

/-- Types that hold a graph whose edges can be edited. -/
class Store (σ : Type) (ν κ : outParam Type) where
  /-- The graph as it can be read now. -/
  graph : σ → Graph ν κ
  /-- Perform an edit. -/
  edit : Edit ν → EditM ν σ Unit

end ProgramFlow
