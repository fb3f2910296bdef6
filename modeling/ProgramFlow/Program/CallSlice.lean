import ProgramFlow.Graph.Labelled
import ProgramFlow.Program.Statement
import ProgramFlow.Slicing.Closure

/-!
# Slicing a program from a call

The statements of a program form a dependence graph: an edge leads from a
statement to one that depends on it.  A slice of it starts at a statement.
Backward it holds what the statement depends on.  Forward it holds what depends
on it; if the statement is a call, that is what depends on the result of the
call, so the slice starts where the result becomes available.

A `CallSlice` asks for the slice of the first call from one method to another,
both given by name, and for a drawing of it.
-/

namespace ProgramFlow

/-- Statements and the dependences between them. -/
abbrev DependenceGraph := Labelled Statement Dependence

namespace DependenceGraph

/-- Of two statements the one with the lower index, the first if they are equal. -/
def earlier (s : Statement) : Option Statement → Statement
  | none => s
  | some t => if t.index < s.index then t else s

/-- The statement with the lowest index, the first one of several. -/
def earliest? (statements : List Statement) : Option Statement :=
  statements.foldr (fun s best => some (earlier s best)) none

/-- The first call from a method to the method with the given name. -/
def findCall? (g : DependenceGraph) (caller : MethodNode) (callee : String) : Option Statement :=
  earliest? (g.graph.nodes.filter fun s => s.node = caller ∧ s.calls callee)

/-- Where a slice from a statement starts. -/
def start (direction : Direction) (seed : Statement) : Statement :=
  match direction with
  | .forward => seed.returnPoint
  | .backward => seed

/-- The slice from a statement. -/
def slice (g : DependenceGraph) (seed : Statement) (direction : Direction) (policy : Policy) :
    Lookup Statement (Slice Statement) :=
  Slice.closure g.graph [start direction seed] direction policy

/-- What the computation of a slice reports. -/
def sliceJournal (g : DependenceGraph) (seed : Statement) (direction : Direction)
    (policy : Policy) : Journal :=
  Slice.closureJournal g.graph [start direction seed] direction policy

end DependenceGraph

/-- A wish for the slice of a call. -/
structure CallSlice where
  caller : String
  callee : String
  direction : Direction
  policy : Policy
  deriving DecidableEq

namespace CallSlice

/-- Why there is no slice. -/
inductive Failure where
  /-- No method has the name of the caller. -/
  | methodNotFound (name : String)
  /-- The caller does not call the callee. -/
  | callNotFound (caller : MethodNode) (callee : String)
  /-- The dependence graph cannot be sliced or drawn. -/
  | graph (error : GraphError Statement)
  /-- The slice does not fit the dependence graph. -/
  | slice (error : SliceError Statement)
  deriving DecidableEq

/-- How a failure is worded. -/
def Failure.message : Failure → String
  | .methodNotFound name => s!"no method named `{name}` in the call graph"
  | .callNotFound caller callee => s!"no call to `{callee}` in {caller.display}"
  | .graph e => e.message
  | .slice e => e.message

/-- A slice with the call it belongs to and its drawing. -/
structure Answer where
  seed : Statement
  slice : Slice Statement
  dot : String

/-- The call to slice from. -/
def seed (r : CallSlice) (g : CallGraph) (d : DependenceGraph) : Except Failure Statement := do
  let some caller := g.find? r.caller | throw (.methodNotFound r.caller)
  let some seed := d.findCall? caller r.callee | throw (.callNotFound caller r.callee)
  return seed

/-- Find the call, slice from it and draw the slice. -/
def run (r : CallSlice) (g : CallGraph) (d : DependenceGraph) : Except Failure Answer := do
  let seed ← r.seed g d
  let slice ← (d.slice seed r.direction r.policy).mapError .graph
  (slice.check (slice.project d.graph)).mapError .slice
  let dot ← ((slice.project d.graph).dot (Statement.label g)).mapError .graph
  return ⟨seed, slice, dot⟩

/-- What answering a wish reports: the call, the search, and the statements found. -/
def journal (r : CallSlice) (g : CallGraph) (d : DependenceGraph) : Journal :=
  match r.seed g d with
  | .error _ => []
  | .ok seed =>
      let found :=
        match d.slice seed r.direction r.policy with
        | .error _ => []
        | .ok slice => slice.toList.map fun s => ⟨.debug, s.display⟩
      ⟨.info, s!"Statement: {seed.display}"⟩ ::
        d.sliceJournal seed r.direction r.policy ++ found

end CallSlice

end ProgramFlow
