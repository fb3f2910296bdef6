import ProgramFlow.Fixpoint.Gates
import ProgramFlow.Program.CallGraph
import ProgramFlow.Text.Names

/-!
# Which exceptions escape from a method

An exception escapes from a method if the method throws it, or if it escapes from
a method that is called and is not caught at that call.  Given what each method
throws and what each call catches, the exceptions that escape are the solution of
a flow problem: facts are exception types, they flow from callees to callers,
and the gate of a call holds back what is caught there.

* `ExceptionFacts` — what is known about each method and each call.
* `Escape.analyze` — the analysis; `EscapeReport` is its result.
-/

namespace ProgramFlow

/-- What is thrown by methods, and caught at calls, as single facts. -/
structure ExceptionFacts where
  /-- A method and a type of exception that it throws. -/
  thrown : List (MethodNode × String)
  /-- A caller, a callee, and a type of exception that is caught at their calls. -/
  caught : List ((MethodNode × MethodNode) × String)
  deriving DecidableEq

namespace ExceptionFacts

/-- Nothing is known. -/
def empty : ExceptionFacts := ⟨[], []⟩

/-- The method throws the type. -/
def addThrown (f : ExceptionFacts) (n : MethodNode) (type : String) : ExceptionFacts :=
  { f with thrown := f.thrown ++ [(n, type)] }

/-- The type is caught where the caller calls the callee. -/
def addCaught (f : ExceptionFacts) (caller callee : MethodNode) (type : String) : ExceptionFacts :=
  { f with caught := f.caught ++ [((caller, callee), type)] }

/-- The second components of the facts about a key. -/
def about {α : Type} [DecidableEq α] (facts : List (α × String)) (key : α) : List String :=
  Names.ofList ((facts.filter fun fact => fact.1 = key).map Prod.snd)

/-- The types that a method throws. -/
def thrownBy (f : ExceptionFacts) (n : MethodNode) : List String := about f.thrown n

/-- The types that are caught where the caller calls the callee. -/
def caughtAt (f : ExceptionFacts) (caller callee : MethodNode) : List String :=
  about f.caught (caller, callee)

/-- All types that are known. -/
def types (f : ExceptionFacts) : List String :=
  Names.ofList (f.thrown.map Prod.snd ++ f.caught.map Prod.snd)

/-- What passes from a callee to a caller.  Types that are not catalogued do not count. -/
def gate (f : ExceptionFacts) (c : Catalog String) (callee caller : MethodNode) : Gate :=
  let caught := c.toKnownBits (f.caughtAt caller callee)
  if caught.isBottom then .identity else .filter ((BitSet.top c.size).minus caught)

/-- What a method throws itself.  Types that are not catalogued do not count. -/
def own (f : ExceptionFacts) (c : Catalog String) (n : MethodNode) : Option BitSet :=
  let thrown := c.toKnownBits (f.thrownBy n)
  if thrown.isBottom then none else some thrown

end ExceptionFacts

/-- The types of a set, in ascending order. -/
def Catalog.names (c : Catalog String) (s : BitSet) : List String := Names.ofList (c.toValues s)

/-- Which exceptions escape. -/
structure EscapeReport where
  catalog : Catalog String
  solution : Solution MethodNode BitSet

namespace EscapeReport

/-- The types that escape from a method. -/
def escaping (r : EscapeReport) (n : MethodNode) : Except (SolveError MethodNode) (List String) :=
  (r.solution.value n).map r.catalog.names

/-- One line for each method. -/
def summary (r : EscapeReport) : String :=
  "\n".intercalate (r.solution.entries.map fun (n, s) =>
    s!"{n.display}: " ++ ", ".intercalate (r.catalog.toValues s))

end EscapeReport

namespace Escape

/-- The catalog of all types that are known. -/
def catalog (f : ExceptionFacts) : Catalog String := .ofList f.types

/-- Solve for the types that escape.  Facts flow from callees to callers, so the
edges are reversed; each node is its own neighbour, and what it throws enters
there. -/
def solve (g : CallGraph) (f : ExceptionFacts) (interrupt : Interrupt MethodNode) :
    Run MethodNode BitSet :=
  let c := catalog f
  c.solve g.graph.transpose.reflexive (Gate.between (f.gate c) (f.own c)) interrupt

/-- Find the exceptions that escape from the methods of a call graph. -/
def analyze (g : CallGraph) (f : ExceptionFacts) (interrupt : Interrupt MethodNode) :
    Except (SolveError MethodNode) EscapeReport :=
  (solve g f interrupt).outcome.map fun solution => ⟨catalog f, solution⟩

/-- What the analysis reports. -/
def journal (g : CallGraph) (f : ExceptionFacts) (interrupt : Interrupt MethodNode) : Journal :=
  let start := s!"Exception analysis over {g.graph.nodeCount} call graph nodes "
    ++ s!"and {(catalog f).size} exception types."
  ⟨.debug, start⟩ :: (solve g f interrupt).journal

end Escape

end ProgramFlow
