import ProgramFlow.Proofs.Agenda
import ProgramFlow.Proofs.FinishOrder

/-!
# Agendas serve a waiting line

From outside an agenda is a waiting line: the queued numbers in the order in which they
arrived, each of them once.  A number that is in the line already does not join it again.
The next one to be served is the first of the line, or the last, or the one that comes first
in the reverse post-order.  An agenda stores something else: flags beside a list that is kept
in the order in which it will be served.  `Agenda.Tracks` says how the two belong together,
and every request keeps them together.

The waiting line is a relation: it says of a number that it is the next one, and not how to
find it.  No two numbers can be next, so that the requests determine the answers.  That some
number is next is for the agenda to show.  In reverse post-order this rests on the positions,
which no two nodes share.

* `Agenda.Request`, `Agenda.Answer`, `Agenda.serveAll` — what agendas are asked and answer.
* `Strategy.IsNext`, `Line.Served`, `Line.Trace` — the waiting line.
* `Line.Trace.unique` — requests determine the answers of the line.
* `Agenda.Tracks.exists_serve`, `Agenda.Tracks.exists_serveAll` — an agenda answers as the
  line does, one request and many.
* `Agenda.serves_line` — the same from the start.
-/

namespace ProgramFlow

variable {n : Nat}

namespace Agenda

/-! ## Requests -/

/-- What an agenda can be asked to do. -/
inductive Request (n : Nat) where
  | push (i : Fin n)
  | pop
  | isEmpty

/-- What it answers. -/
inductive Answer (n : Nat) where
  /-- To a push: was the number new? -/
  | pushed (isNew : Bool)
  /-- To a pop: the next number, if there is one. -/
  | popped (next : Option (Fin n))
  /-- To the question whether it is empty. -/
  | told (isEmpty : Bool)
  deriving DecidableEq

/-- The answer to a request, and the agenda after it. -/
def serve (a : Agenda n) : Request n → Answer n × Agenda n
  | .push i => (.pushed (a.push i).1, (a.push i).2)
  | .pop =>
      match a.pop? with
      | none => (.popped none, a)
      | some (i, b) => (.popped (some i), b)
  | .isEmpty => (.told a.isEmpty, a)

/-- The answers to requests one after the other, and the agenda after them. -/
def serveAll (a : Agenda n) : List (Request n) → List (Answer n) × Agenda n
  | [] => ([], a)
  | r :: rs => ((a.serve r).1 :: ((a.serve r).2.serveAll rs).1, ((a.serve r).2.serveAll rs).2)

end Agenda

/-! ## Waiting lines -/

/-- The number is to be served next.  The line is in order of arrival, and `order` holds the
position of each number in the reverse post-order. -/
def Strategy.IsNext (order : List Nat) (line : List (Fin n)) (i : Fin n) : Strategy → Prop
  | .fifo => line.head? = some i
  | .lifo => line.getLast? = some i
  | .reversePostOrder => i ∈ line ∧ ∀ j ∈ line, j ≠ i → PostOrder.Before order i j

namespace Line

open Agenda (Request Answer)

variable {order : List Nat} {strategy : Strategy}

/-- A request to a line, its answer, and the line after it. -/
inductive Served (order : List Nat) (strategy : Strategy) :
    List (Fin n) → Request n → Answer n → List (Fin n) → Prop where
  /-- A number that is not in the line joins it at its end. -/
  | joins {line : List (Fin n)} {i : Fin n} (h : i ∉ line) :
      Served order strategy line (.push i) (.pushed true) (line ++ [i])
  /-- A number that is in the line stays where it is. -/
  | stays {line : List (Fin n)} {i : Fin n} (h : i ∈ line) :
      Served order strategy line (.push i) (.pushed false) line
  /-- The next number leaves the line. -/
  | leaves {line : List (Fin n)} {i : Fin n} (h : strategy.IsNext order line i) :
      Served order strategy line .pop (.popped (some i)) (line.erase i)
  /-- Nobody leaves the empty line. -/
  | nobody : Served order strategy [] .pop (.popped none) []
  /-- The line tells whether it is empty. -/
  | tells {line : List (Fin n)} : Served order strategy line .isEmpty (.told line.isEmpty) line

/-- Requests to a line one after the other, their answers, and the line after them. -/
inductive Trace (order : List Nat) (strategy : Strategy) :
    List (Fin n) → List (Request n) → List (Answer n) → List (Fin n) → Prop where
  | nil {line : List (Fin n)} : Trace order strategy line [] [] line
  | cons {line line' line'' : List (Fin n)} {r : Request n} {answer : Answer n}
      {rs : List (Request n)} {answers : List (Answer n)}
      (hfirst : Served order strategy line r answer line')
      (hrest : Trace order strategy line' rs answers line'') :
      Trace order strategy line (r :: rs) (answer :: answers) line''

theorem mem_of_isNext {line : List (Fin n)} {i : Fin n} (h : strategy.IsNext order line i) :
    i ∈ line := by
  cases strategy with
  | fifo => exact List.mem_of_head? h
  | lifo => exact List.mem_of_getLast? h
  | reversePostOrder => exact h.1

theorem isNext_unique {line : List (Fin n)} {i j : Fin n} (hi : strategy.IsNext order line i)
    (hj : strategy.IsNext order line j) : i = j := by
  cases strategy with
  | fifo => exact Option.some.inj (hi.symm.trans hj)
  | lifo => exact Option.some.inj (hi.symm.trans hj)
  | reversePostOrder =>
      by_contra hij
      -- either would stand before the other
      obtain ⟨p, q, hp, hq, hpq⟩ := hi.2 j hj.1 (Ne.symm hij)
      obtain ⟨q', p', hq', hp', hqp⟩ := hj.2 i hi.1 hij
      obtain rfl : p = p' := Option.some.inj (hp.symm.trans hp')
      obtain rfl : q = q' := Option.some.inj (hq.symm.trans hq')
      omega

/-- A request has one answer and leaves one line. -/
theorem Served.unique {line line₁ line₂ : List (Fin n)} {r : Request n} {answer₁ answer₂ : Answer n}
    (h₁ : Served order strategy line r answer₁ line₁)
    (h₂ : Served order strategy line r answer₂ line₂) : answer₁ = answer₂ ∧ line₁ = line₂ := by
  cases h₁ with
  | joins hnot =>
      cases h₂ with
      | joins _ => exact ⟨rfl, rfl⟩
      | stays hmem => exact absurd hmem hnot
  | stays hmem =>
      cases h₂ with
      | joins hnot => exact absurd hmem hnot
      | stays _ => exact ⟨rfl, rfl⟩
  | leaves hnext =>
      cases h₂ with
      | leaves hnext' =>
          obtain rfl := isNext_unique hnext hnext'
          exact ⟨rfl, rfl⟩
      | nobody => exact absurd (mem_of_isNext hnext) List.not_mem_nil
  | nobody =>
      cases h₂ with
      | leaves hnext => exact absurd (mem_of_isNext hnext) List.not_mem_nil
      | nobody => exact ⟨rfl, rfl⟩
  | tells =>
      cases h₂ with
      | tells => exact ⟨rfl, rfl⟩

/-- **Requests determine their answers** and the line that is left. -/
theorem Trace.unique {line line₁ line₂ : List (Fin n)} {rs : List (Request n)}
    {answers₁ answers₂ : List (Answer n)} (h₁ : Trace order strategy line rs answers₁ line₁)
    (h₂ : Trace order strategy line rs answers₂ line₂) : answers₁ = answers₂ ∧ line₁ = line₂ := by
  induction h₁ generalizing answers₂ line₂ with
  | nil =>
      cases h₂
      exact ⟨rfl, rfl⟩
  | cons hfirst _ ih =>
      cases h₂ with
      | cons hfirst' hrest' =>
          obtain ⟨rfl, rfl⟩ := hfirst.unique hfirst'
          obtain ⟨rfl, rfl⟩ := ih hrest'
          exact ⟨rfl, rfl⟩

end Line

/-! ## Queues and lines -/

/-- The queue holds the line in the order in which the discipline serves it. -/
def Discipline.Arranges : Discipline n → List (Fin n) → List (Fin n) → Prop
  | .atEnd, line, queue => queue = line
  | .atFront, line, queue => queue = line.reverse
  | .byRank rank, line, queue =>
      queue.Perm line ∧ queue.Pairwise fun i j => rank.get i ≤ rank.get j

namespace Discipline.Arranges

variable {d : Discipline n} {line queue : List (Fin n)} {i : Fin n}

theorem perm (h : d.Arranges line queue) : queue.Perm line := by
  cases d with
  | atEnd => exact List.Perm.of_eq h
  | atFront => exact (List.Perm.of_eq h).trans (List.reverse_perm line)
  | byRank rank => exact h.1

/-- Who arrives last in the line is placed in the queue. -/
theorem place (h : d.Arranges line queue) (i : Fin n) :
    d.Arranges (line ++ [i]) (d.place i queue) := by
  cases d with
  | atEnd =>
      obtain rfl : queue = line := h
      rfl
  | atFront =>
      obtain rfl : queue = line.reverse := h
      exact List.reverse_concat.symm
  | byRank rank =>
      refine ⟨?_, pairwise_place h.2 i⟩
      have harrived : (i :: queue).Perm (line ++ [i]) :=
        (h.1.cons i).trans (List.perm_append_singleton i line).symm
      exact (place_perm _ i queue).trans harrived

/-- Who is served leaves the line. -/
theorem tail (h : d.Arranges line (i :: queue)) (hline : line.Nodup) :
    d.Arranges (line.erase i) queue := by
  cases d with
  | atEnd =>
      obtain rfl : i :: queue = line := h
      exact (List.erase_cons_head i queue).symm
  | atFront =>
      have hsplit : line = queue.reverse ++ [i] := by
        rw [← List.reverse_cons, h, List.reverse_reverse]
      have hnot : i ∉ queue.reverse := by
        rw [hsplit] at hline
        exact fun hi => (List.nodup_append.1 hline).2.2 i hi i (by simp) rfl
      show queue = (line.erase i).reverse
      rw [hsplit, List.erase_append_right _ hnot]
      simp
  | byRank rank =>
      refine ⟨?_, (List.pairwise_cons.1 h.2).2⟩
      have hperm := h.1.erase i
      rwa [List.erase_cons_head] at hperm

/-- The first of the queue is the next one of the line. -/
theorem isNext {strategy : Strategy} {succs : Fin n → List (Fin n)}
    (h : (strategy.discipline succs).Arranges line (i :: queue)) :
    strategy.IsNext (PostOrder.positions succs).toList line i := by
  cases strategy with
  | fifo =>
      obtain rfl : i :: queue = line := h
      rfl
  | lifo =>
      have hreverse : i :: queue = line.reverse := h
      show line.getLast? = some i
      rw [← List.head?_reverse, ← hreverse, List.head?_cons]
  | reversePostOrder =>
      obtain ⟨hperm, hsorted⟩ := h
      refine ⟨hperm.mem_iff.1 (by simp), fun j hj hji => ?_⟩
      have hmem : j ∈ queue := (List.mem_cons.1 (hperm.mem_iff.2 hj)).resolve_left hji
      have hle := (List.pairwise_cons.1 hsorted).1 j hmem
      -- no two numbers share a position
      refine PostOrder.before_positions (Nat.lt_of_le_of_ne hle fun heq => hji ?_)
      exact (PostOrder.positions_inj.1 heq).symm

end Discipline.Arranges

namespace Agenda

/-- An agenda is empty if its queue is. -/
theorem Exact.isEmpty_eq {a : Agenda n} (ha : a.Exact) : a.isEmpty = a.queue.isEmpty := by
  rw [Bool.eq_iff_iff, List.isEmpty_iff, List.eq_nil_iff_forall_not_mem]
  have hflags : a.isEmpty = true ↔ ∀ i : Fin n, a.queued.get i = false := by
    rw [isEmpty, Vector.all_eq_true]
    constructor
    · intro h i
      show a.queued[i.val] = false
      simpa using h i.val i.isLt
    · intro h i hi
      have hi' : a.queued[i] = false := h ⟨i, hi⟩
      simpa using hi'
  rw [hflags]
  refine forall_congr' fun i => ?_
  rw [← ha.queued_iff i, Bool.not_eq_true]

/-- The agenda of a strategy holds the line. -/
structure Tracks (succs : Fin n → List (Fin n)) (strategy : Strategy) (line : List (Fin n))
    (a : Agenda n) : Prop where
  exact : a.Exact
  discipline : a.discipline = strategy.discipline succs
  arranges : (strategy.discipline succs).Arranges line a.queue

namespace Tracks

variable {succs : Fin n → List (Fin n)} {strategy : Strategy} {line : List (Fin n)} {a : Agenda n}

theorem mem_iff (h : Tracks succs strategy line a) {i : Fin n} : i ∈ a.queue ↔ i ∈ line :=
  h.arranges.perm.mem_iff

theorem queue_eq_nil_iff (h : Tracks succs strategy line a) : a.queue = [] ↔ line = [] := by
  rw [List.eq_nil_iff_forall_not_mem, List.eq_nil_iff_forall_not_mem]
  exact forall_congr' fun i => not_congr h.mem_iff

theorem nodup (h : Tracks succs strategy line a) : line.Nodup :=
  h.arranges.perm.nodup_iff.1 h.exact.nodup

theorem empty (succs : Fin n → List (Fin n)) (strategy : Strategy) :
    Tracks succs strategy [] (Agenda.empty (strategy.discipline succs)) where
  exact := exact_empty _
  discipline := rfl
  arranges := by
    cases strategy with
    | fifo => rfl
    | lifo => rfl
    | reversePostOrder => exact ⟨.nil, .nil⟩

theorem push_of_mem (h : Tracks succs strategy line a) {i : Fin n} (hi : i ∈ line) :
    a.push i = (false, a) := by
  rw [Agenda.push, if_pos ((h.exact.queued_iff i).2 (h.mem_iff.2 hi))]

theorem push_of_not_mem (h : Tracks succs strategy line a) {i : Fin n} (hi : i ∉ line) :
    (a.push i).1 = true ∧ Tracks succs strategy (line ++ [i]) (a.push i).2 := by
  have hnot : ¬ a.queued.get i = true := fun hq => hi (h.mem_iff.1 ((h.exact.queued_iff i).1 hq))
  have hexact := h.exact.push i
  rw [Agenda.push, if_neg hnot] at hexact ⊢
  refine ⟨rfl, hexact, h.discipline, ?_⟩
  show (strategy.discipline succs).Arranges (line ++ [i]) (a.discipline.place i a.queue)
  rw [h.discipline]
  exact h.arranges.place i

/-- What is taken off the agenda is the next one of the line. -/
theorem of_pop (h : Tracks succs strategy line a) {i : Fin n} {b : Agenda n}
    (hpop : a.pop? = some (i, b)) :
    strategy.IsNext (PostOrder.positions succs).toList line i ∧
      Tracks succs strategy (line.erase i) b := by
  obtain ⟨hqueue, hexact⟩ := h.exact.of_pop hpop
  have harranges := h.arranges
  rw [hqueue] at harranges
  have hdiscipline : b.discipline = a.discipline := by
    simp only [pop?, hqueue, Option.some.injEq, Prod.mk.injEq] at hpop
    rw [← hpop.2]
  exact ⟨harranges.isNext, hexact, hdiscipline.trans h.discipline, harranges.tail h.nodup⟩

/-- **An agenda answers a request as the line does**, and holds the line that is left. -/
theorem exists_serve (h : Tracks succs strategy line a) (r : Request n) :
    ∃ line', Line.Served (PostOrder.positions succs).toList strategy line r (a.serve r).1 line' ∧
      Tracks succs strategy line' (a.serve r).2 := by
  cases r with
  | push i =>
      by_cases hi : i ∈ line
      · rw [serve, h.push_of_mem hi]
        exact ⟨line, .stays hi, h⟩
      · obtain ⟨hnew, htracks⟩ := h.push_of_not_mem hi
        rw [serve, hnew]
        exact ⟨line ++ [i], .joins hi, htracks⟩
  | pop =>
      cases hpop : a.pop? with
      | none =>
          obtain rfl : line = [] := h.queue_eq_nil_iff.1 (pop?_eq_none_iff.1 hpop)
          simp only [serve, hpop]
          exact ⟨[], .nobody, h⟩
      | some next =>
          obtain ⟨hnext, htracks⟩ := h.of_pop hpop
          simp only [serve, hpop]
          exact ⟨line.erase next.1, .leaves hnext, htracks⟩
  | isEmpty =>
      have hempty : a.isEmpty = line.isEmpty := by
        rw [h.exact.isEmpty_eq, Bool.eq_iff_iff, List.isEmpty_iff, List.isEmpty_iff]
        exact h.queue_eq_nil_iff
      rw [serve, hempty]
      exact ⟨line, .tells, h⟩

/-- An agenda answers any requests as the line does. -/
theorem exists_serveAll (h : Tracks succs strategy line a) (rs : List (Request n)) :
    ∃ line', Line.Trace (PostOrder.positions succs).toList strategy line rs (a.serveAll rs).1 line' ∧
      Tracks succs strategy line' (a.serveAll rs).2 := by
  induction rs generalizing line a with
  | nil => exact ⟨line, .nil, h⟩
  | cons r rs ih =>
      obtain ⟨line', hserved, htracks⟩ := h.exists_serve r
      obtain ⟨line'', htrace, htracks'⟩ := ih htracks
      exact ⟨line'', .cons hserved htrace, htracks'⟩

end Tracks

/-- The agenda of a graph given by successor lists that are in range. -/
theorem exists_ofLists? (strategy : Strategy) {rows : List (List Nat)}
    (h : ∀ row ∈ rows, ∀ v ∈ row, v < rows.length) :
    ∃ succs, ofLists? strategy rows = some (empty (strategy.discipline succs)) ∧
      PostOrder.positions? rows = some (PostOrder.positions succs).toList := by
  obtain ⟨succs, hsuccs, -⟩ := PostOrder.exists_ofLists? h
  refine ⟨succs, ?_, by rw [PostOrder.positions?, hsuccs, Option.map_some]⟩
  cases strategy with
  | fifo => rfl
  | lifo => rfl
  | reversePostOrder => rw [ofLists?, hsuccs, Option.map_some, Strategy.discipline]

/-- **Agendas are waiting lines.**  With any strategy and any successor lists in range, an
agenda gives to any requests the answers that the waiting line gives, and no others are
possible.  At any time, pushing a number that waits changes nothing at all, and a number that
was just taken off the agenda can be pushed again. -/
theorem serves_line (strategy : Strategy) (rows : List (List Nat))
    (h : ∀ row ∈ rows, ∀ v ∈ row, v < rows.length) :
    ∃ (a : Agenda rows.length) (order : List Nat),
      ofLists? strategy rows = some a ∧ PostOrder.positions? rows = some order ∧
      ∀ requests : List (Request rows.length), ∃ line : List (Fin rows.length),
        Line.Trace order strategy [] requests (a.serveAll requests).1 line ∧
        (∀ answers line', Line.Trace order strategy [] requests answers line' →
          answers = (a.serveAll requests).1 ∧ line' = line) ∧
        (∀ i ∈ line, (a.serveAll requests).2.push i = (false, (a.serveAll requests).2)) ∧
        (∀ i b, (a.serveAll requests).2.pop? = some (i, b) → i ∈ line ∧ (b.push i).1 = true) := by
  obtain ⟨succs, hagenda, horder⟩ := exists_ofLists? strategy h
  refine ⟨_, _, hagenda, horder, fun requests => ?_⟩
  obtain ⟨line, htrace, htracks⟩ := (Tracks.empty succs strategy).exists_serveAll requests
  refine ⟨line, htrace, fun answers line' htrace' => htrace'.unique htrace,
    fun i hi => htracks.push_of_mem hi, fun i b hpop => ?_⟩
  obtain ⟨hnext, hrest⟩ := htracks.of_pop hpop
  exact ⟨Line.mem_of_isNext hnext, (hrest.push_of_not_mem htracks.nodup.not_mem_erase).1⟩

/-- A number is pushed while it waits, and again after it was taken off; then the agenda is
emptied. -/
def errand : List (Request PostOrder.tangled.length) :=
  [.push ⟨3, by decide⟩, .push ⟨4, by decide⟩, .push ⟨3, by decide⟩, .pop, .isEmpty,
    .push ⟨4, by decide⟩, .pop, .pop, .pop, .isEmpty]

theorem serves_line_errand :
    (∀ row ∈ PostOrder.tangled, ∀ v ∈ row, v < PostOrder.tangled.length) ∧
      ∃ a order, ofLists? .reversePostOrder PostOrder.tangled = some a ∧
        PostOrder.positions? PostOrder.tangled = some order ∧
        ∃ line, Line.Trace order .reversePostOrder [] errand (a.serveAll errand).1 line ∧
          ∀ i ∈ line, (a.serveAll errand).2.push i = (false, (a.serveAll errand).2) := by
  have hrange : ∀ row ∈ PostOrder.tangled, ∀ v ∈ row, v < PostOrder.tangled.length := by decide
  obtain ⟨a, order, ha, horder, hserves⟩ :=
    serves_line .reversePostOrder PostOrder.tangled hrange
  obtain ⟨line, htrace, -, hwaits, -⟩ := hserves errand
  exact ⟨hrange, a, order, ha, horder, line, htrace, hwaits⟩

example : ((empty .atFront).serveAll errand).1 =
    [.pushed true, .pushed true, .pushed false, .popped (some ⟨4, by decide⟩), .told false,
      .pushed true, .popped (some ⟨4, by decide⟩), .popped (some ⟨3, by decide⟩), .popped none,
      .told true] := by cbv

end Agenda

end ProgramFlow
