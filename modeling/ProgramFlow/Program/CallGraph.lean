import ProgramFlow.Graph.Adjacency
import ProgramFlow.Graph.Layer

/-!
# Call graphs

The nodes of a call graph are methods, each in some context, so that a method may
have several nodes.  Nodes are numbered in order of creation, and an edge leads
from a caller to each of its callees.  Some nodes are marked as entry points.
-/

namespace ProgramFlow

/-- A method in a context. -/
structure MethodNode where
  id : Nat
  deriving DecidableEq, Repr

instance : Describe MethodNode := ⟨fun n => s!"CgNode({n.id})"⟩

/-- The node as users see it. -/
def MethodNode.display (n : MethodNode) : String := s!"CG node {n.id}"

/-- Methods and the calls between them. -/
structure CallGraph where
  calls : Adjacency MethodNode
  /-- The names of the methods, by node number. -/
  methods : List String
  entrypoints : Roster MethodNode

namespace CallGraph

/-- The call graph without methods. -/
def empty : CallGraph := ⟨.empty, [], .empty⟩

/-- The graph of the calls. -/
def graph (g : CallGraph) : Graph MethodNode Empty := g.calls.graph

/-- The node that the next method gets. -/
def fresh (g : CallGraph) : MethodNode := ⟨g.methods.length⟩

/-- Create a node for a method. -/
def addMethod (g : CallGraph) (name : String) : CallGraph :=
  { g with calls := g.calls.addNode g.fresh, methods := g.methods ++ [name] }

/-- Perform an edit of the calls. -/
def edit (e : Edit MethodNode) : EditM MethodNode CallGraph Unit :=
  (Adjacency.edit e).within calls fun g c => { g with calls := c }

instance : Store CallGraph MethodNode Empty := ⟨graph, edit⟩

/-- Add a call between methods of the graph. -/
def addCall (caller callee : MethodNode) : EditM MethodNode CallGraph Unit :=
  edit (.addEdge caller callee)

/-- Mark a method of the graph as an entry point. -/
def addEntrypoint (n : MethodNode) : EditM MethodNode CallGraph Unit := do
  if (← get).graph.contains n then
    modify fun g => { g with entrypoints := g.entrypoints.insert n }
  else
    throw (.invalidNode n)

/-- The name of the method of a node. -/
def method? (g : CallGraph) (n : MethodNode) : Option String := g.methods[n.id]?

/-- The first node created for a method with the given name. -/
def find? (g : CallGraph) (name : String) : Option MethodNode :=
  (g.methods.idxOf? name).map MethodNode.mk

end CallGraph

end ProgramFlow
