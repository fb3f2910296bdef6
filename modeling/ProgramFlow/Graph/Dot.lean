import ProgramFlow.Graph.Basic

/-!
# Drawings in DOT

A graph is drawn as a list of labelled nodes, numbered from zero in the order in
which the graph lists them, and a list of arrows between their numbers.

* `Graph.drawing` — the drawing of a graph, for a given way to label nodes.
* `Drawing.render` — its text.
-/

namespace ProgramFlow

/-- A picture of a graph: the labels of the nodes and the arrows between them. -/
structure Drawing where
  labels : List String
  arrows : List (Nat × Nat)
  deriving DecidableEq, Repr

namespace Drawing

/-- A label as it stands between quotes: a quote in it is preceded by a backslash. -/
def escapeLabel (s : String) : String :=
  String.ofList (s.toList.flatMap fun c => if c = '"' then ['\\', '"'] else [c])

/-- The line of a node. -/
def nodeLine (i : Nat) (label : String) : String :=
  s!"  Node_{i}[label=\"{escapeLabel label}\"]\n"

/-- The line of an arrow. -/
def arrowLine (a : Nat × Nat) : String := s!"  Node_{a.1} -> Node_{a.2}\n"

/-- The text of a drawing. -/
def render (d : Drawing) : String :=
  "digraph G \x7b\n" ++ String.join (d.labels.mapIdx nodeLine) ++ "\n"
    ++ String.join (d.arrows.map arrowLine) ++ "\x7d\n"

end Drawing

namespace Graph

variable {ν κ : Type} [DecidableEq ν]

/-- The arrows out of a node with the number `i`.  Successors that the graph does
not list have no number and get no arrow. -/
def arrowsFrom (g : Graph ν κ) (i : Nat) (n : ν) : Lookup ν (List (Nat × Nat)) :=
  (g.succs n).map fun ss => ss.filterMap fun s => (lastIndex? g.nodes s).map fun j => (i, j.val)

/-- The drawing of a graph. -/
def drawing (g : Graph ν κ) (label : ν → String) : Lookup ν Drawing := do
  let arrows ← g.nodes.zipIdx.mapM fun (n, i) => g.arrowsFrom i n
  return { labels := g.nodes.map label, arrows := arrows.flatten }

/-- The text of the drawing of a graph. -/
def dot (g : Graph ν κ) (label : ν → String) : Lookup ν String :=
  (g.drawing label).map Drawing.render

end Graph

end ProgramFlow
