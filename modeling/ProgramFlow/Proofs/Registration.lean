import ProgramFlow.Proofs.CallGraph
import ProgramFlow.Proofs.Roster

/-!
# Methods and entry points, as they were registered

A call graph keeps three things side by side: the names of the methods, the nodes of the
graph, and the entry points.  Nothing but a number ties them together: a node is the position
of a name.  Over a whole history, with operations that fail and edits through any layers, the
three can be read off the operations alone.  The names are those of the methods that were
created, in order; the nodes are their numbers; and the entry points are the nodes that were
marked when they were there, each where it was marked first.

* `CallGraph.Op.created`, `CallGraph.marked` — what operations register.
* `CallGraph.methods_perform`, `CallGraph.entrypoints_perform` — what an operation does to the
  names and to the entry points.
* `CallGraph.methods_foldl`, `CallGraph.entrypoints_foldl` — what a history does to them.
* `CallGraph.method?_eq_some_iff` — the name of a node is the one that it was created with.
* `CallGraph.registered_history` — all of it, after every history.
-/

namespace ProgramFlow.CallGraph

/-! ## What operations register -/

/-- The names of the methods that an operation creates. -/
def Op.created : Op → List String
  | .addMethod name => [name]
  | _ => []

/-- The nodes that an operation marks as entry points, where there are `count` methods. -/
def Op.marked (count : Nat) : Op → List MethodNode
  | .addEntrypoint n => if n.id < count then [n] else []
  | _ => []

/-- The nodes that a history marks as entry points, as often as it does, where it starts with
`count` methods. -/
def marked : Nat → List Op → List MethodNode
  | _, [] => []
  | count, o :: history => o.marked count ++ marked (count + o.created.length) history

/-- What a history of operations makes of the empty call graph. -/
def after (history : List Op) : CallGraph := history.foldl perform empty

theorem numbered_after (history : List Op) : (after history).Numbered :=
  Reachable.numbered ⟨history, rfl⟩

/-! ## Names -/

theorem methods_perform (g : CallGraph) (o : Op) :
    (g.perform o).methods = g.methods ++ o.created := by
  cases o with
  | addMethod name => rfl
  | addCall caller callee => exact (List.append_nil _).symm
  | addEntrypoint n =>
      show ((addEntrypoint n).on g).2.methods = g.methods ++ []
      rw [on_addEntrypoint, List.append_nil]
      split <;> rfl
  | edit e => exact (List.append_nil _).symm
  | through stack e =>
      show _ = g.methods ++ []
      rw [List.append_nil]
      exact Store.keeps_editThrough (P := fun g' : CallGraph => g'.methods = g.methods) rfl
        (fun _ => rfl) stack e

theorem methods_foldl (g : CallGraph) (history : List Op) :
    (history.foldl perform g).methods = g.methods ++ history.flatMap Op.created := by
  induction history generalizing g with
  | nil => exact (List.append_nil _).symm
  | cons o history ih =>
      rw [List.foldl_cons, ih, methods_perform, List.flatMap_cons, List.append_assoc]

theorem methods_after (history : List Op) : (after history).methods = history.flatMap Op.created :=
  methods_foldl empty history

/-- A name stands where the operation that created its method put it. -/
theorem exists_of_getElem?_created {history : List Op} {i : Nat} {name : String}
    (h : (history.flatMap Op.created)[i]? = some name) :
    ∃ earlier later, history = earlier ++ .addMethod name :: later ∧
      (earlier.flatMap Op.created).length = i := by
  induction history generalizing i with
  | nil => simp at h
  | cons o history ih =>
      rw [List.flatMap_cons] at h
      by_cases hi : i < o.created.length
      · -- the operation itself has created it
        cases o with
        | addMethod first =>
            obtain rfl : i = 0 := by simpa [Op.created] using hi
            obtain rfl : first = name := by simpa [Op.created] using h
            exact ⟨[], history, rfl, rfl⟩
        | _ => exact absurd hi (Nat.not_lt_zero i)
      · rw [List.getElem?_append_right (Nat.le_of_not_lt hi)] at h
        obtain ⟨earlier, later, rfl, hlength⟩ := ih h
        refine ⟨o :: earlier, later, rfl, ?_⟩
        rw [List.flatMap_cons, List.length_append]
        omega

/-- **The name of a node is the one that it was created with.** -/
theorem method?_eq_some_iff {history : List Op} {n : MethodNode} {name : String} :
    (after history).method? n = some name ↔
      ∃ earlier later, history = earlier ++ .addMethod name :: later ∧
        (after earlier).fresh = n := by
  rw [method?, methods_after]
  constructor
  · intro h
    obtain ⟨earlier, later, hsplit, hlength⟩ := exists_of_getElem?_created h
    refine ⟨earlier, later, hsplit, ?_⟩
    rw [fresh, methods_after, hlength]
  · rintro ⟨earlier, later, rfl, rfl⟩
    rw [fresh, methods_after, List.flatMap_append, List.flatMap_cons]
    simp [Op.created]

/-! ## Entry points -/

/-- A node is there to be marked if its number is that of a method. -/
theorem entrypoints_perform {g : CallGraph} (h : g.Numbered) (o : Op) :
    (g.perform o).entrypoints = g.entrypoints.insertAll (o.marked g.methods.length) := by
  cases o with
  | addMethod name => rfl
  | addCall caller callee => rfl
  | addEntrypoint n =>
      rw [perform, on_addEntrypoint, Op.marked]
      simp only [h.mem_nodes_iff]
      split <;> rfl
  | edit e => rfl
  | through stack e =>
      exact Store.keeps_editThrough (P := fun g' : CallGraph => g'.entrypoints = g.entrypoints) rfl
        (fun _ => rfl) stack e

theorem entrypoints_foldl {g : CallGraph} (hg : g.calls.Paired) (h : g.Numbered)
    (history : List Op) :
    (history.foldl perform g).entrypoints =
      g.entrypoints.insertAll (marked g.methods.length history) := by
  induction history generalizing g with
  | nil => rfl
  | cons o history ih =>
      rw [List.foldl_cons, ih (paired_perform hg o) (h.perform hg o), entrypoints_perform h,
        methods_perform, List.length_append, marked, Roster.insertAll, Roster.insertAll,
        Roster.insertAll, List.foldl_append]

theorem entrypoints_after (history : List Op) :
    (after history).entrypoints = Roster.ofList (marked 0 history) :=
  entrypoints_foldl Adjacency.paired_empty (numbered_after []) history

/-- What is marked has a number that some method has by the end. -/
theorem lt_of_mem_marked {history : List Op} {count : Nat} {n : MethodNode}
    (h : n ∈ marked count history) : n.id < count + (history.flatMap Op.created).length := by
  induction history generalizing count with
  | nil => simp [marked] at h
  | cons o history ih =>
      rw [List.flatMap_cons, List.length_append]
      rcases List.mem_append.1 h with hnow | hlater
      · cases o with
        | addEntrypoint m =>
            rw [Op.marked] at hnow
            split at hnow
            · obtain rfl := List.mem_singleton.1 hnow
              omega
            · simp at hnow
        | _ => simp [Op.marked] at hnow
      · have := ih hlater
        omega

/-! ## The main result -/

theorem contains_after_iff {history : List Op} {n : MethodNode} :
    (after history).graph.contains n = true ↔ n.id < (history.flatMap Op.created).length := by
  rw [contains_iff, (numbered_after history).mem_nodes_iff, methods_after]

/-- **Methods, nodes and entry points agree after every history of operations**, with failing
operations and edits through any layers among them.  The nodes are the numbers from zero on,
one for each method that was created.  A node has a name if and only if it is there, and it is
the name that it was created with.  A name stands for the node with the lowest number among
those that have it, and for none if no node has it.  The entry points are nodes that are there,
without repetition, in the order in which they were first marked. -/
theorem registered_history (history : List Op) :
    (after history).graph.nodes =
      (List.range (history.flatMap Op.created).length).map MethodNode.mk ∧
    (∀ n, ((after history).method? n).isSome = true ↔
      (after history).graph.contains n = true) ∧
    (∀ n name, (after history).method? n = some name ↔
      ∃ earlier later, history = earlier ++ .addMethod name :: later ∧
        (after earlier).fresh = n) ∧
    (∀ name n, (after history).find? name = some n ↔ (after history).First name n) ∧
    (∀ name, (after history).find? name = none ↔
      ∀ n ∈ (after history).graph.nodes, (after history).method? n ≠ some name) ∧
    (after history).entrypoints.toList = (marked 0 history).eraseDups ∧
    (after history).entrypoints.toList.Nodup ∧
    ∀ n ∈ (after history).entrypoints.toList, (after history).graph.contains n = true := by
  have hnumbered := numbered_after history
  have hentrypoints : (after history).entrypoints.toList = (marked 0 history).eraseDups := by
    rw [entrypoints_after, Roster.toList_ofList]
  refine ⟨?_, fun n => ?_, fun n name => method?_eq_some_iff,
    fun name n => find?_eq_some_iff hnumbered, fun name => find?_eq_none_iff hnumbered,
    hentrypoints, (after history).entrypoints.nodup, fun n hn => ?_⟩
  · rw [← methods_after]
    exact hnumbered
  · rw [contains_after_iff, method?, methods_after, Option.isSome_iff_ne_none, ne_eq,
      List.getElem?_eq_none_iff, Nat.not_le]
  · rw [hentrypoints, List.mem_eraseDups] at hn
    have hlt := lt_of_mem_marked hn
    exact contains_after_iff.2 (by omega)

/-- A method with two nodes, an entry point that is marked once before it is there and twice
afterwards, and edits of calls, one through a transposing layer and one that is refused. -/
def twiceMarked : List Op :=
  [.addMethod "main", .addEntrypoint ⟨1⟩, .addMethod "run", .addEntrypoint ⟨1⟩,
    .addCall ⟨0⟩ ⟨1⟩, .through [.transpose] (.removeOutgoing ⟨1⟩), .addMethod "run",
    .addEntrypoint ⟨0⟩, .through [.readOnly] (.addEdge ⟨0⟩ ⟨2⟩), .addEntrypoint ⟨1⟩]

theorem registered_history_twiceMarked :
    (after twiceMarked).graph.nodes = [⟨0⟩, ⟨1⟩, ⟨2⟩] ∧
      (after twiceMarked).method? ⟨2⟩ = some "run" ∧
      (after twiceMarked).find? "run" = some ⟨1⟩ ∧
      (after twiceMarked).find? "exit" = none ∧
      (after twiceMarked).entrypoints.toList = [⟨1⟩, ⟨0⟩] := by
  obtain ⟨hnodes, -, hmethod, hfind, hnone, hentrypoints, -⟩ := registered_history twiceMarked
  refine ⟨hnodes, ?_, (hfind "run" ⟨1⟩).2 ⟨?_, ?_, ?_⟩, ?_, hentrypoints⟩
  · exact (hmethod ⟨2⟩ "run").2 ⟨twiceMarked.take 6, twiceMarked.drop 7, rfl, rfl⟩
  · decide
  · decide
  · decide
  · exact (hnone "exit").2 (by decide)

end ProgramFlow.CallGraph
