import ProgramFlow.Facts.Domain
import ProgramFlow.Fixpoint.Agenda
import ProgramFlow.Fixpoint.Topology
import ProgramFlow.Text.Describe

/-!
# Solving for a fixpoint

Facts flow along the edges of a graph.  Every node starts with the bottom value;
its value is to be the join of what arrives from its predecessors, each value
having been transferred along its edge.  All nodes are queued on an agenda.  The
next node is taken and evaluated; if that changes its value, its successors are
queued again.  When the agenda is empty, every value is what its predecessors
demand.

Transfers are expected to be monotone, so that values only rise.  A value that
would change in another direction stops the run with an error.  A run can be
interrupted: before each evaluation the `Interrupt` is asked, which knows the
transfers made so far.  And a run has a budget, the number of times it looks at
the agenda; where the values cannot rise forever, a budget can be computed that
never runs out.

* `State.advance` — one look at the agenda.
* `State.run` — look until there is a verdict or the budget is spent.
* `Graph.solve` — read the topology of a graph and run.
* `Run` — what came out, what was reported, and the transfers in order.
-/

namespace ProgramFlow

/-! ## Problems and their outcomes -/

/-- What flows, and what an edge does to it. -/
structure Problem (ν δ : Type) where
  domain : Domain δ
  /-- What arrives at the second node when the first has the given value. -/
  transfer : ν → ν → δ → δ

/-- A request to stop: given the transfers made so far, the latest first, as pairs
of nodes, should the run end here? -/
abbrev Interrupt (ν : Type) := List (ν × ν) → Bool

/-- Run to the end. -/
def Interrupt.never {ν : Type} : Interrupt ν := fun _ => false

/-- Stop as soon as the given number of transfers has been made. -/
def Interrupt.afterCalls {ν : Type} (k : Nat) : Interrupt ν := fun calls => k ≤ calls.length

/-- Why there is no value. -/
inductive SolveError (ν : Type) where
  /-- The graph cannot be read. -/
  | graph (error : GraphError ν)
  /-- The run was interrupted. -/
  | cancelled
  /-- The value of the node would have changed without rising. -/
  | notMonotone (node : ν)
  /-- The budget was spent. -/
  | exhausted
  /-- The node was not part of the graph. -/
  | unknownNode (node : ν)
  deriving DecidableEq

/-- How a failure is worded. -/
def SolveError.message {ν : Type} [Describe ν] : SolveError ν → String
  | .graph e => e.message
  | .cancelled => "the solver was cancelled before reaching a fixpoint"
  | .notMonotone n => s!"Non-monotone transfer function at {describe n}"
  | .exhausted => "the solver spent its budget before reaching a fixpoint"
  | .unknownNode n => s!"node {describe n} was not part of the solved graph"

/-- The values of a fixpoint. -/
structure Solution (ν δ : Type) where
  /-- The nodes in the order of the graph, each with its value. -/
  entries : List (ν × δ)
  /-- How many evaluations it took. -/
  iterations : Nat
  deriving DecidableEq

namespace Solution

variable {ν δ : Type} [DecidableEq ν]

/-- The value of a node. -/
def get? (s : Solution ν δ) (n : ν) : Option δ := s.entries.reverse.lookup n

/-- The value of a node, or the reason why it has none. -/
def value (s : Solution ν δ) (n : ν) : Except (SolveError ν) δ :=
  match s.get? n with
  | some d => .ok d
  | none => .error (.unknownNode n)

/-- How many different nodes have a value. -/
def distinct (s : Solution ν δ) : Nat := (s.entries.map Prod.fst).eraseDups.length

end Solution

/-- What a run reports. -/
inductive Event (ν δ : Type) where
  | started (nodes : Nat) (strategy : Strategy)
  /-- A node got another value. -/
  | raised (node : ν) (old new : δ)
  | cancelled (iterations : Nat)
  | converged (iterations : Nat)
  deriving DecidableEq

/-- The line an event leaves in the journal. -/
def Event.entry {ν δ : Type} [Describe ν] [Describe δ] : Event ν δ → Entry
  | .started nodes strategy =>
      ⟨.debug, s!"Solving over {nodes} nodes with a {describe strategy} worklist."⟩
  | .raised node old new => ⟨.trace, s!"{describe node}: {describe old} -> {describe new}"⟩
  | .cancelled iterations => ⟨.debug, s!"Solve cancelled after {iterations} iterations."⟩
  | .converged iterations => ⟨.debug, s!"Converged after {iterations} iterations."⟩

/-- A run of the solver. -/
structure Run (ν δ : Type) where
  outcome : Except (SolveError ν) (Solution ν δ)
  /-- What was reported, oldest first. -/
  events : List (Event ν δ)
  /-- The transfers that were made, oldest first. -/
  calls : List (ν × ν)

/-- What a run leaves in the journal. -/
def Run.journal {ν δ : Type} [Describe ν] [Describe δ] (r : Run ν δ) : Journal :=
  r.events.map Event.entry

/-! ## Running -/

/-- How a run stands. -/
inductive Verdict (n : Nat) where
  | running
  | converged
  | cancelled
  | notMonotone (node : Fin n)

/-- A run between two looks at the agenda. -/
structure State (ν δ : Type) (n : Nat) where
  values : Vector δ n
  agenda : Agenda n
  iterations : Nat
  /-- The transfers made so far, the latest first. -/
  calls : List (ν × ν)
  /-- The events so far, the latest first. -/
  events : List (Event ν δ)

variable {ν δ : Type}

/-- The value that the predecessors of a node demand. -/
def Problem.evaluate (p : Problem ν δ) (t : Topology ν) (values : Vector δ t.size)
    (i : Fin t.size) : δ :=
  (t.preds i).foldl
    (fun acc j => p.domain.join acc (p.transfer (t.node j) (t.node i) (values.get j)))
    p.domain.bottom

/-- The transfers of one evaluation, the latest first. -/
def Topology.callsAt (t : Topology ν) (i : Fin t.size) : List (ν × ν) :=
  ((t.preds i).map fun j => (t.node j, t.node i)).reverse

namespace State

/-- Every node is queued and has the bottom value. -/
def init (p : Problem ν δ) (t : Topology ν) (strategy : Strategy) : State ν δ t.size where
  values := Vector.replicate t.size p.domain.bottom
  agenda := (Agenda.empty (strategy.discipline t.succs)).pushAll (List.finRange t.size)
  iterations := 0
  calls := []
  events := [.started t.size strategy]

variable [DecidableEq δ]

/-- Evaluate a node that has just left the agenda. -/
def evaluate (p : Problem ν δ) (t : Topology ν) (s : State ν δ t.size) (i : Fin t.size)
    (agenda : Agenda t.size) : Verdict t.size × State ν δ t.size :=
  let old := s.values.get i
  let new := p.evaluate t s.values i
  let s := { s with
    agenda
    iterations := s.iterations + 1
    calls := t.callsAt i ++ s.calls }
  if new = old then (.running, s)
  else if p.domain.le old new then
    (.running, { s with
      values := s.values.set i new i.isLt
      agenda := agenda.pushAll (t.succs i)
      events := .raised (t.node i) old new :: s.events })
  else (.notMonotone i, s)

/-- Look at the agenda once. -/
def advance (p : Problem ν δ) (t : Topology ν) (interrupt : Interrupt ν) (s : State ν δ t.size) :
    Verdict t.size × State ν δ t.size :=
  if interrupt s.calls then
    (.cancelled, { s with events := .cancelled s.iterations :: s.events })
  else
    match s.agenda.pop? with
    | none => (.converged, { s with events := .converged s.iterations :: s.events })
    | some (i, agenda) => s.evaluate p t i agenda

/-- Look at the agenda until there is a verdict, but no more often than the budget says. -/
def run (p : Problem ν δ) (t : Topology ν) (interrupt : Interrupt ν) :
    Nat → State ν δ t.size → Verdict t.size × State ν δ t.size
  | 0, s => (.running, s)
  | budget + 1, s =>
      match s.advance p t interrupt with
      | (.running, s) => run p t interrupt budget s
      | done => done

end State

/-- The nodes of a topology with their values. -/
def Topology.entries (t : Topology ν) (values : Vector δ t.size) : List (ν × δ) :=
  (List.finRange t.size).map fun i => (t.node i, values.get i)

/-- Solve over a topology. -/
def Topology.solve [DecidableEq δ] (t : Topology ν) (p : Problem ν δ) (strategy : Strategy)
    (interrupt : Interrupt ν) (budget : Nat) : Run ν δ :=
  let (verdict, s) := (State.init p t strategy).run p t interrupt budget
  { outcome :=
      match verdict with
      | .converged => .ok ⟨t.entries s.values, s.iterations⟩
      | .cancelled => .error .cancelled
      | .notMonotone i => .error (.notMonotone (t.node i))
      | .running => .error .exhausted
    events := s.events.reverse
    calls := s.calls.reverse }

/-- Solve over a graph, with a budget that may depend on its topology. -/
def Graph.solve {κ : Type} [DecidableEq ν] [DecidableEq δ] (g : Graph ν κ) (p : Problem ν δ)
    (strategy : Strategy) (interrupt : Interrupt ν) (budget : Topology ν → Nat) : Run ν δ :=
  match Topology.read g with
  | .error e => ⟨.error (.graph e), [], []⟩
  | .ok t => t.solve p strategy interrupt (budget t)

/-- A budget for values that can rise at most `height` times: every node is
evaluated once, and again at most once for each rise of a predecessor, and the
agenda is found empty at the end. -/
def Topology.budget (t : Topology ν) (height : Nat) : Nat := t.size + height * t.edgeCount + 1

/-- Solve over truth values, which can rise once. -/
def Graph.solveFlags {κ : Type} [DecidableEq ν] (g : Graph ν κ) (transfer : ν → ν → Bool → Bool)
    (strategy : Strategy) (interrupt : Interrupt ν) : Run ν Bool :=
  g.solve ⟨.flag, transfer⟩ strategy interrupt (·.budget 1)

end ProgramFlow
