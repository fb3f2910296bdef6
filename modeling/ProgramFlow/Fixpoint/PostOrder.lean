/-!
# Reverse post-order

A depth-first search finishes a node after everything it found from there.
Listing the nodes by the time at which they are finished, the last one first,
puts a node before its successors wherever no cycle stands in the way, which is
the order in which facts should flow.

The search keeps its path on an explicit stack: a frame is a node with those of
its successors that were not looked at yet.  It starts at the nodes that no
successor list mentions, in ascending order, and then at all nodes in ascending
order, so that nodes which only cycles lead to are found as well.

* `explore` — run the search until the stack is empty.
* `reversePostOrder` — all nodes, in the resulting order.
* `positions` — for each node its place in that order.
-/

namespace ProgramFlow

namespace PostOrder

variable {n : Nat}

/-- A node on the path of the search, and its successors still to be looked at. -/
structure Frame (n : Nat) where
  node : Fin n
  rest : List (Fin n)

/-- What a search has found: the nodes it entered, and those it finished, the
latest first. -/
structure Progress (n : Nat) where
  visited : Vector Bool n
  finished : List (Fin n)

/-- How much is left to do on a stack. -/
def workload (stack : List (Frame n)) : Nat := stack.foldr (fun f k => f.rest.length + 1 + k) 0

theorem count_false_set_lt {visited : Vector Bool n} {i : Fin n} (h : visited.get i = false) :
    (visited.set i true i.isLt).count false < visited.count false := by
  have hi : visited[i.val] = false := h
  have hpos : 0 < visited.count false := by
    rw [Vector.count_pos_iff, ← hi]
    exact Vector.getElem_mem i.isLt
  have hset : (visited.set i true i.isLt).count false = visited.count false - 1 := by
    simp [Vector.count_set, hi]
  omega

/-- Search until the stack is empty. -/
def explore (succs : Fin n → List (Fin n)) (p : Progress n) : List (Frame n) → Progress n
  | [] => p
  | ⟨v, []⟩ :: stack => explore succs { p with finished := v :: p.finished } stack
  | ⟨v, s :: rest⟩ :: stack =>
      if p.visited.get s then explore succs p (⟨v, rest⟩ :: stack)
      else
        explore succs { p with visited := p.visited.set s true s.isLt }
          (⟨s, succs s⟩ :: ⟨v, rest⟩ :: stack)
  termination_by stack => (p.visited.count false, workload stack)
  decreasing_by
    · exact Prod.Lex.right _ (by simp [workload])
    · exact Prod.Lex.right _ (by simp [workload])
    · rename_i h
      exact Prod.Lex.left _ _ (count_false_set_lt (by simpa using h))

/-- Search from a node, unless an earlier search found it. -/
def visit (succs : Fin n → List (Fin n)) (p : Progress n) (root : Fin n) : Progress n :=
  if p.visited.get root then p
  else explore succs { p with visited := p.visited.set root true root.isLt } [⟨root, succs root⟩]

/-- The nodes that are in no successor list. -/
def sources (succs : Fin n → List (Fin n)) : List (Fin n) :=
  (List.finRange n).filter fun i => (List.finRange n).all fun j => i ∉ succs j

/-- Search the whole graph. -/
def search (succs : Fin n → List (Fin n)) : Progress n :=
  (sources succs ++ List.finRange n).foldl (visit succs) ⟨Vector.replicate n false, []⟩

/-- The nodes in reverse post-order. -/
def reversePostOrder (succs : Fin n → List (Fin n)) : List (Fin n) := (search succs).finished

/-- The place of each node in the reverse post-order. -/
def positions (succs : Fin n → List (Fin n)) : Vector Nat n :=
  let order := reversePostOrder succs
  Vector.ofFn fun i => order.idxOf i

/-! ## Successor lists over plain numbers -/

/-- A number as a node, if it is in range. -/
def node? (n i : Nat) : Option (Fin n) := if h : i < n then some ⟨i, h⟩ else none

/-- Successor lists given by number, `none` if a successor is out of range. -/
def ofLists? (rows : List (List Nat)) : Option (Fin rows.length → List (Fin rows.length)) := do
  let rows ← rows.mapM fun row => row.mapM (node? rows.length)
  let table := rows.toArray
  return fun i => table[i.val]?.getD []

/-- The place of each node in the reverse post-order of the graph with the given
successor lists, `none` if a successor is out of range. -/
def positions? (rows : List (List Nat)) : Option (List Nat) :=
  (ofLists? rows).map fun succs => (positions succs).toList

end PostOrder

end ProgramFlow
