import ProgramFlow.Fixpoint.PostOrder
import ProgramFlow.Text.Describe

/-!
# Agendas: what is to be evaluated next

An agenda is a queue of node numbers in which no number stands twice.  Which of
the queued numbers comes next is decided by its strategy.

* `fifo` — the one that has waited longest.
* `lifo` — the one that came last.
* `reversePostOrder` — the one that is first in a reverse post-order of the
  graph, so that predecessors tend to be evaluated before their successors.

The queue is kept in the order in which it will be served; a strategy says where
a number joins it.  A vector of flags beside the queue tells whether a number is
queued without searching for it.
-/

namespace ProgramFlow

/-- Ways to choose what comes next. -/
inductive Strategy where
  | fifo
  | lifo
  | reversePostOrder
  deriving DecidableEq, Repr

instance : Describe Strategy :=
  ⟨fun
    | .fifo => "Fifo"
    | .lifo => "Lifo"
    | .reversePostOrder => "ReversePostOrder"⟩

/-- Where a number joins a queue. -/
inductive Discipline (n : Nat) where
  /-- At the end. -/
  | atEnd
  /-- At the front. -/
  | atFront
  /-- Before everything with a greater rank. -/
  | byRank (rank : Vector Nat n)

/-- The queue after a number has joined it. -/
def Discipline.place {n : Nat} : Discipline n → Fin n → List (Fin n) → List (Fin n)
  | .atEnd, i, queue => queue ++ [i]
  | .atFront, i, queue => i :: queue
  | .byRank rank, i, queue =>
      queue.takeWhile (rank.get · < rank.get i) ++ i :: queue.dropWhile (rank.get · < rank.get i)

/-- The discipline of a strategy on a graph. -/
def Strategy.discipline {n : Nat} (succs : Fin n → List (Fin n)) : Strategy → Discipline n
  | .fifo => .atEnd
  | .lifo => .atFront
  | .reversePostOrder => .byRank (PostOrder.positions succs)

/-- A queue of distinct numbers below `n`. -/
structure Agenda (n : Nat) where
  discipline : Discipline n
  /-- The queued numbers, the next one first. -/
  queue : List (Fin n)
  /-- For each number whether it is queued. -/
  queued : Vector Bool n

namespace Agenda

variable {n : Nat}

/-- The agenda without numbers. -/
def empty (discipline : Discipline n) : Agenda n := ⟨discipline, [], Vector.replicate n false⟩

/-- Queue a number, unless it is queued already.  The flag tells which was the case. -/
def push (a : Agenda n) (i : Fin n) : Bool × Agenda n :=
  if a.queued.get i then (false, a)
  else
    (true,
      { a with queue := a.discipline.place i a.queue, queued := a.queued.set i true i.isLt })

/-- Queue the numbers of a list, one after the other. -/
def pushAll (a : Agenda n) (is : List (Fin n)) : Agenda n := is.foldl (fun a i => (a.push i).2) a

/-- The next number, and what is queued after it. -/
def pop? (a : Agenda n) : Option (Fin n × Agenda n) :=
  match a.queue with
  | [] => none
  | i :: queue => some (i, { a with queue, queued := a.queued.set i false i.isLt })

/-- Is nothing queued? -/
def isEmpty (a : Agenda n) : Bool := a.queued.all (!·)

/-- Queue a number that may be out of range. -/
def push? (a : Agenda n) (i : Nat) : Option (Bool × Agenda n) :=
  (PostOrder.node? n i).map a.push

/-- The agenda of a graph given by successor lists.  Only the reverse post-order
looks at them; it has none if a successor is out of range. -/
def ofLists? (strategy : Strategy) (rows : List (List Nat)) : Option (Agenda rows.length) :=
  match strategy with
  | .fifo => some (empty .atEnd)
  | .lifo => some (empty .atFront)
  | .reversePostOrder =>
      (PostOrder.ofLists? rows).map fun succs => empty (.byRank (PostOrder.positions succs))

end Agenda

end ProgramFlow
