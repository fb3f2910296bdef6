import ProgramFlow.Program.CallSlice
import ProgramFlow.Proofs.CallGraph
import ProgramFlow.Proofs.Closure
import ProgramFlow.Proofs.Drawings

/-!
# Slices of calls are answered exactly

A wish for the slice of a call is answered unless the caller, the call, or, forward, the
statement where the result of the call becomes available is missing, and the first of
these that is missing is what the failure names.  Nothing else can go wrong: the slice of
a statement of a sound graph exists and holds statements of the graph, so the part of the
graph between them passes the check and can be drawn.

* `DependenceGraph.findCall?_eq_none_iff`, `DependenceGraph.firstCall_of_findCall?` — which
  call is found.
* `CallSlice.Fits` — what an answer has to be.
* `CallSlice.run_of_start_mem`, `CallSlice.run_of_start_not_mem` — the slice from a call.
* `CallSlice.run_exact` — all outcomes, and when each of them comes about.
-/

namespace ProgramFlow

/-! ## The first call -/

namespace Statement

/-- The statement is an instruction of the caller that calls the callee. -/
def IsCall (caller : MethodNode) (callee : String) (s : Statement) : Prop :=
  s.node = caller ∧ ∃ instruction, s.role = .normal instruction (some callee)

theorem calls_iff {s : Statement} {callee : String} :
    s.calls callee = true ↔ ∃ instruction, s.role = .normal instruction (some callee) := by
  unfold calls
  split
  · rename_i instruction target hrole
    simp [hrole]
  · rename_i hother
    simp only [Bool.false_eq_true, false_iff, not_exists]
    exact fun instruction => hother instruction callee

/-- The result of a call becomes available at the caller's side of the callee's return. -/
theorem IsCall.returnPoint_eq {caller : MethodNode} {callee : String} {s : Statement}
    (h : s.IsCall caller callee) :
    s.returnPoint = ⟨caller, s.index, .normalRetCaller callee⟩ := by
  obtain ⟨rfl, instruction, hrole⟩ := h
  simp [returnPoint, hrole]

end Statement

namespace DependenceGraph

/-- The statement has the lowest index of all, and is the first one that has it. -/
def Earliest (statements : List Statement) (s : Statement) : Prop :=
  ∃ before after, statements = before ++ s :: after ∧
    (∀ t ∈ before, s.index < t.index) ∧ ∀ t ∈ after, s.index ≤ t.index

theorem Earliest.le {statements : List Statement} {s : Statement} (h : Earliest statements s) :
    ∀ t ∈ statements, s.index ≤ t.index := by
  obtain ⟨before, after, rfl, hbefore, hafter⟩ := h
  intro t ht
  rcases List.mem_append.1 ht with ht | ht
  · exact Nat.le_of_lt (hbefore t ht)
  · rcases List.mem_cons.1 ht with rfl | ht
    · exact Nat.le_refl _
    · exact hafter t ht

theorem earliest?_eq_none_iff {statements : List Statement} :
    earliest? statements = none ↔ statements = [] := by
  cases statements <;> simp [earliest?]

theorem earliest_of_earliest? {statements : List Statement} {s : Statement}
    (h : earliest? statements = some s) : Earliest statements s := by
  induction statements generalizing s with
  | nil => cases h
  | cons t rest ih =>
      obtain rfl : earlier t (earliest? rest) = s := Option.some.inj h
      cases hrest : earliest? rest with
      | none =>
          obtain rfl := earliest?_eq_none_iff.1 hrest
          exact ⟨[], [], rfl, by simp, by simp⟩
      | some u =>
          rw [earlier]
          split
          · rename_i hlt
            obtain ⟨before, after, rfl, hbefore, hafter⟩ := ih hrest
            exact ⟨t :: before, after, rfl, List.forall_mem_cons.2 ⟨hlt, hbefore⟩, hafter⟩
          · rename_i hle
            refine ⟨[], rest, rfl, by simp, fun v hv => ?_⟩
            exact Nat.le_trans (Nat.le_of_not_lt hle) ((ih hrest).le v hv)

/-- The statement is the call with the lowest index, and the first one if there are
several. -/
structure FirstCall (d : DependenceGraph) (caller : MethodNode) (callee : String)
    (s : Statement) : Prop where
  isCall : s.IsCall caller callee
  first : ∃ before after, d.graph.nodes = before ++ s :: after ∧
    (∀ t ∈ before, t.IsCall caller callee → s.index < t.index) ∧
    ∀ t ∈ after, t.IsCall caller callee → s.index ≤ t.index

theorem FirstCall.mem {d : DependenceGraph} {caller : MethodNode} {callee : String}
    {s : Statement} (h : d.FirstCall caller callee s) : s ∈ d.graph.nodes := by
  obtain ⟨before, after, hnodes, -, -⟩ := h.first
  simp [hnodes]

theorem isCall_iff {caller : MethodNode} {callee : String} {s : Statement} :
    decide (s.node = caller ∧ s.calls callee = true) = true ↔ s.IsCall caller callee := by
  rw [decide_eq_true_eq, Statement.calls_iff, Statement.IsCall]

theorem findCall?_eq_none_iff {d : DependenceGraph} {caller : MethodNode} {callee : String} :
    d.findCall? caller callee = none ↔ ∀ s ∈ d.graph.nodes, ¬ s.IsCall caller callee := by
  simp only [findCall?, earliest?_eq_none_iff, List.filter_eq_nil_iff, isCall_iff]

/-- Among all statements of the graph, those that are not calls stand between the calls
that were compared. -/
theorem firstCall_of_findCall? {d : DependenceGraph} {caller : MethodNode} {callee : String}
    {s : Statement} (h : d.findCall? caller callee = some s) : d.FirstCall caller callee s := by
  obtain ⟨before, after, hfilter, hbefore, hafter⟩ := earliest_of_earliest? h
  obtain ⟨front, back, hnodes, rfl, hback⟩ := List.filter_eq_append_iff.1 hfilter
  obtain ⟨between, rest, rfl, hbetween, hs, rfl⟩ := List.filter_eq_cons_iff.1 hback
  refine ⟨isCall_iff.1 hs, front ++ between, rest, by simp [hnodes], ?_, ?_⟩
  · intro t ht hcall
    rcases List.mem_append.1 ht with ht | ht
    · exact hbefore t (List.mem_filter.2 ⟨ht, isCall_iff.2 hcall⟩)
    · exact absurd (isCall_iff.2 hcall) (hbetween t ht)
  · intro t ht hcall
    exact hafter t (List.mem_filter.2 ⟨ht, isCall_iff.2 hcall⟩)

end DependenceGraph

namespace CallSlice

/-- The answer has the call, the statements that accepted dependences lead to from where
the slice starts, and a text that shows these statements in the order of the graph, with
the dependences between them. -/
structure Fits (r : CallSlice) (g : CallGraph) (d : DependenceGraph) (seed start : Statement)
    (answer : Answer) : Prop where
  seed : answer.seed = seed
  slice : ∀ s, s ∈ answer.slice ↔
    Relation.ReflTransGen (d.graph.Follows r.policy r.direction) start s
  listed : ∀ s ∈ answer.slice, s ∈ d.graph.nodes
  dot : Drawn (d.graph.nodes.filter answer.slice.contains) (Statement.label g) d.graph.hasEdge
    answer.dot

variable {r : CallSlice} {g : CallGraph} {d : DependenceGraph}

/-! ## From the call to the answer -/

theorem run_of_seed_error {e : Failure} (h : r.seed g d = .error e) :
    r.run g d = .error e := by
  rw [run, h]
  rfl

theorem run_eq_ok {seed : Statement} {slice : Slice Statement} {text : String}
    (hseed : r.seed g d = .ok seed) (hslice : d.slice seed r.direction r.policy = .ok slice)
    (hcheck : slice.check (slice.project d.graph) = .ok ())
    (hdot : (slice.project d.graph).dot (Statement.label g) = .ok text) :
    r.run g d = .ok ⟨seed, slice, text⟩ := by
  rw [run, hseed]
  show ((d.slice seed r.direction r.policy).mapError Failure.graph >>= _) = _
  rw [hslice]
  show ((slice.check (slice.project d.graph)).mapError Failure.slice >>= _) = _
  rw [hcheck]
  show (((slice.project d.graph).dot (Statement.label g)).mapError Failure.graph >>= _) = _
  rw [hdot]
  rfl

theorem run_of_start_not_mem (hd : d.Reachable) {seed : Statement} (hseed : r.seed g d = .ok seed)
    (hstart : DependenceGraph.start r.direction seed ∉ d.graph.nodes) :
    r.run g d = .error (.graph (.invalidNode (DependenceGraph.start r.direction seed))) := by
  have hcontains : d.graph.contains (DependenceGraph.start r.direction seed) = false := by
    rw [Bool.eq_false_iff, Ne, hd.sound.contains_iff]
    exact hstart
  have hbefore : ∀ s ∈ ([] : List Statement), d.graph.contains s = true := by simp
  have hslice : d.slice seed r.direction r.policy =
      .error (.invalidNode (DependenceGraph.start r.direction seed)) :=
    Slice.closure_eq_error hbefore hcontains _ _
  rw [run, hseed]
  show ((d.slice seed r.direction r.policy).mapError Failure.graph >>= _) = _
  rw [hslice]
  rfl

/-- A slice that starts at a statement of the graph is found, passes the check and is
drawn. -/
theorem run_of_start_mem (hd : d.Reachable) {seed : Statement} (hseed : r.seed g d = .ok seed)
    (hstart : DependenceGraph.start r.direction seed ∈ d.graph.nodes) :
    ∃ answer, r.run g d = .ok answer ∧
      r.Fits g d seed (DependenceGraph.start r.direction seed) answer := by
  have hcontains : ∀ s ∈ [DependenceGraph.start r.direction seed], d.graph.contains s = true := by
    simpa [hd.sound.contains_iff] using hstart
  obtain ⟨slice, hslice, hmem⟩ :=
    Slice.exists_closure hd.sound hcontains r.direction r.policy
  simp only [List.mem_singleton, exists_eq_left] at hmem
  have hlisted : ∀ s ∈ slice, s ∈ d.graph.nodes := fun s hs =>
    hd.sound.mem_of_follows hstart ((hmem s).1 hs)
  have hcheck := Slice.check_project_of_listed hd.sound hlisted
  obtain ⟨text, hdot, hdrawn⟩ := Slice.exists_dot_project hd.sound slice (Statement.label g)
  refine ⟨⟨seed, slice, text⟩, ?_, rfl, hmem, hlisted, hdrawn⟩
  exact run_eq_ok hseed hslice hcheck hdot

/-! ## All outcomes -/

/-- Finding the call fails for want of the caller or of the call, and succeeds otherwise. -/
theorem seed_cases (hg : g.Reachable) :
    ((∀ n ∈ g.graph.nodes, g.method? n ≠ some r.caller) ∧
        r.seed g d = .error (.methodNotFound r.caller)) ∨
      ∃ c, g.First r.caller c ∧
        (((∀ s ∈ d.graph.nodes, ¬ s.IsCall c r.callee) ∧
            r.seed g d = .error (.callNotFound c r.callee)) ∨
          ∃ s, d.FirstCall c r.callee s ∧ r.seed g d = .ok s) := by
  cases hfind : g.find? r.caller with
  | none =>
      refine Or.inl ⟨(CallGraph.find?_eq_none_iff hg.numbered).1 hfind, ?_⟩
      rw [seed, hfind]
      rfl
  | some c =>
      refine Or.inr ⟨c, (CallGraph.find?_eq_some_iff hg.numbered).1 hfind, ?_⟩
      cases hcall : d.findCall? c r.callee with
      | none =>
          refine Or.inl ⟨DependenceGraph.findCall?_eq_none_iff.1 hcall, ?_⟩
          rw [seed, hfind]
          simp only [hcall]
          rfl
      | some s =>
          refine Or.inr ⟨s, DependenceGraph.firstCall_of_findCall? hcall, ?_⟩
          rw [seed, hfind]
          simp only [hcall]
          rfl

/-- Only a forward slice starts at another statement than the call. -/
theorem start_eq {c : MethodNode} {seed : Statement} (hcall : seed.IsCall c r.callee) :
    DependenceGraph.start r.direction seed =
      if r.direction = .forward then ⟨c, seed.index, .normalRetCaller r.callee⟩ else seed := by
  cases r.direction with
  | forward => exact hcall.returnPoint_eq
  | backward => rfl

theorem run_cases_of_seed (hd : d.Reachable) {c : MethodNode} {seed ret : Statement}
    (hfirst : d.FirstCall c r.callee seed) (hseed : r.seed g d = .ok seed)
    (hret : ret = ⟨c, seed.index, .normalRetCaller r.callee⟩) :
    ((r.direction = .forward ∧ ret ∉ d.graph.nodes) ∧
        r.run g d = .error (.graph (.invalidNode ret))) ∨
      ¬ (r.direction = .forward ∧ ret ∉ d.graph.nodes) ∧ ∃ answer, r.run g d = .ok answer ∧
        r.Fits g d seed (if r.direction = .forward then ret else seed) answer := by
  have hstart := start_eq hfirst.isCall
  rw [← hret] at hstart
  by_cases hmissing : r.direction = .forward ∧ ret ∉ d.graph.nodes
  · rw [if_pos hmissing.1] at hstart
    have hrun := run_of_start_not_mem hd hseed (hstart ▸ hmissing.2)
    exact Or.inl ⟨hmissing, hstart ▸ hrun⟩
  · refine Or.inr ⟨hmissing, ?_⟩
    rw [← hstart]
    refine run_of_start_mem hd hseed ?_
    rw [hstart]
    split
    · rename_i hforward
      exact Classical.not_not.1 fun hnot => hmissing ⟨hforward, hnot⟩
    · exact hfirst.mem

/-- **Every wish is answered, or told what is missing.**  All numbers that the two stores look
up exist, the check of the slice never fails, and no number is too large to be told.  The outcome is that no method has the name
of the caller; or else, with the first node of that name, that none of its statements
calls the callee; or else, with the first call among these, that the slice is forward and
the graph does not have the statement where the result of the call becomes available; or
else an answer that fits. -/
theorem run_exact (r : CallSlice) {g : CallGraph} {d : DependenceGraph} (hg : g.Reachable)
    (hd : d.Reachable) :
    g.calls.InRange ∧ d.base.InRange ∧
    (∀ e, r.run g d ≠ .error (.slice e)) ∧
    (∀ n, r.run g d ≠ .error (.graph (.uncountable n))) ∧
    (r.run g d = .error (.methodNotFound r.caller) ↔
      ∀ n ∈ g.graph.nodes, g.method? n ≠ some r.caller) ∧
    ((∃ n ∈ g.graph.nodes, g.method? n = some r.caller) →
      ∃ c, g.First r.caller c ∧
        (r.run g d = .error (.callNotFound c r.callee) ↔
          ∀ s ∈ d.graph.nodes, ¬ s.IsCall c r.callee) ∧
        ((∃ s ∈ d.graph.nodes, s.IsCall c r.callee) →
          ∃ seed ret, d.FirstCall c r.callee seed ∧
            ret = ⟨c, seed.index, .normalRetCaller r.callee⟩ ∧
            (r.run g d = .error (.graph (.invalidNode ret)) ↔
              r.direction = .forward ∧ ret ∉ d.graph.nodes) ∧
            (¬ (r.direction = .forward ∧ ret ∉ d.graph.nodes) →
              ∃ answer, r.run g d = .ok answer ∧
                r.Fits g d seed (if r.direction = .forward then ret else seed) answer))) := by
  refine ⟨hg.paired.inRange, hd.paired.inRange, ?_⟩
  rcases seed_cases hg with ⟨hnone, hseed⟩ | ⟨c, hc, hcalls⟩
  · have hrun := run_of_seed_error hseed
    refine ⟨by simp [hrun], by simp [hrun], iff_of_true hrun hnone, ?_⟩
    rintro ⟨n, hn, hname⟩
    exact absurd hname (hnone n hn)
  · have hnamed : ¬ ∀ n ∈ g.graph.nodes, g.method? n ≠ some r.caller :=
      fun hnone => hnone c hc.mem hc.method
    rcases hcalls with ⟨hnocall, hseed⟩ | ⟨seed, hfirst, hseed⟩
    · have hrun := run_of_seed_error hseed
      refine ⟨by simp [hrun], by simp [hrun], iff_of_false (by simp [hrun]) hnamed, fun _ => ?_⟩
      refine ⟨c, hc, iff_of_true hrun hnocall, ?_⟩
      rintro ⟨s, hs, hcall⟩
      exact absurd hcall (hnocall s hs)
    · have hcalled : ¬ ∀ s ∈ d.graph.nodes, ¬ s.IsCall c r.callee :=
        fun hnocall => hnocall seed hfirst.mem hfirst.isCall
      rcases run_cases_of_seed hd hfirst hseed rfl with
        ⟨hmissing, hrun⟩ | ⟨hthere, answer, hrun, hfits⟩
      · refine ⟨by simp [hrun], by simp [hrun], iff_of_false (by simp [hrun]) hnamed, fun _ => ?_⟩
        refine ⟨c, hc, iff_of_false (by simp [hrun]) hcalled, fun _ => ?_⟩
        exact ⟨seed, _, hfirst, rfl, iff_of_true hrun hmissing,
          fun hthere => absurd hmissing hthere⟩
      · refine ⟨by simp [hrun], by simp [hrun], iff_of_false (by simp [hrun]) hnamed, fun _ => ?_⟩
        refine ⟨c, hc, iff_of_false (by simp [hrun]) hcalled, fun _ => ?_⟩
        exact ⟨seed, _, hfirst, rfl, iff_of_false (by simp [hrun]) hthere,
          fun _ => ⟨answer, hrun, hfits⟩⟩

end CallSlice

/-- A method in two contexts, and another one between them. -/
def CallGraph.twoContexts : CallGraph :=
  [.addMethod "main", .addMethod "parse", .addMethod "main"].foldl perform empty

/-- Two calls, the later one inserted first, and only one of them with a use of its result.
Nothing is known of the result of a third call. -/
def DependenceGraph.twoCalls : DependenceGraph :=
  [.addNode ⟨⟨0⟩, 4, .normal "parse(b)" (some "parse")⟩,
    .connect ⟨⟨0⟩, 2, .normal "parse(a)" (some "parse")⟩ ⟨⟨0⟩, 2, .normalRetCaller "parse"⟩ .value,
    .connect ⟨⟨0⟩, 2, .normalRetCaller "parse"⟩ ⟨⟨0⟩, 3, .normal "print(\"x\")" none⟩ .value,
    .addNode ⟨⟨0⟩, 5, .normal "log(x)" (some "log")⟩].foldl
    Labelled.perform .empty

/-- What depends on the result of the first call. -/
def DependenceGraph.parsed : Slice Statement :=
  ⟨[⟨⟨0⟩, 2, .normalRetCaller "parse"⟩, ⟨⟨0⟩, 3, .normal "print(\"x\")" none⟩], by decide⟩

theorem DependenceGraph.slice_twoCalls :
    twoCalls.slice ⟨⟨0⟩, 2, .normal "parse(a)" (some "parse")⟩ .forward default = .ok parsed := by
  have hlist : (twoCalls.slice ⟨⟨0⟩, 2, .normal "parse(a)" (some "parse")⟩ .forward
      default).map Roster.toList = .ok parsed.toList := by cbv
  cases hslice : twoCalls.slice ⟨⟨0⟩, 2, .normal "parse(a)" (some "parse")⟩ .forward default with
  | error e =>
      rw [hslice] at hlist
      cases hlist
  | ok slice =>
      rw [hslice] at hlist
      exact congrArg Except.ok (Roster.toList_inj.1 (Except.ok.inj hlist))

theorem CallSlice.run_exact_twoCalls :
    CallGraph.twoContexts.Reachable ∧ DependenceGraph.twoCalls.Reachable ∧
      CallSlice.run ⟨"lex", "parse", .forward, default⟩ CallGraph.twoContexts
        DependenceGraph.twoCalls = .error (.methodNotFound "lex") ∧
      CallSlice.run ⟨"main", "log", .forward, default⟩ CallGraph.twoContexts
        DependenceGraph.twoCalls =
          .error (.graph (.invalidNode ⟨⟨0⟩, 5, .normalRetCaller "log"⟩)) ∧
      ∃ answer, CallSlice.run ⟨"main", "parse", .forward, default⟩ CallGraph.twoContexts
          DependenceGraph.twoCalls = .ok answer ∧
        answer.seed = ⟨⟨0⟩, 2, .normal "parse(a)" (some "parse")⟩ ∧
        answer.slice.toList =
          [⟨⟨0⟩, 2, .normalRetCaller "parse"⟩, ⟨⟨0⟩, 3, .normal "print(\"x\")" none⟩] ∧
        answer.dot = "digraph G \x7b\n"
          ++ "  Node_0[label=\"CG node 0:2 NORMAL_RET_CALLER\"]\n"
          ++ "  Node_1[label=\"print(\\\"x\\\")\\nmain\"]\n"
          ++ "\n  Node_0 -> Node_1\n\x7d\n" := by
  have hg : CallGraph.twoContexts.Reachable := ⟨_, rfl⟩
  have hd : DependenceGraph.twoCalls.Reachable := ⟨_, rfl⟩
  obtain ⟨-, -, -, -, hlex, -⟩ := CallSlice.run_exact ⟨"lex", "parse", .forward, default⟩ hg hd
  obtain ⟨-, -, -, -, -, hlog⟩ := CallSlice.run_exact ⟨"main", "log", .forward, default⟩ hg hd
  obtain ⟨-, -, -, -, -, hparse⟩ := CallSlice.run_exact ⟨"main", "parse", .forward, default⟩ hg hd
  have hmain : ∃ n ∈ CallGraph.twoContexts.graph.nodes,
      CallGraph.twoContexts.method? n = some "main" := ⟨⟨0⟩, by decide, by decide⟩
  have hfirst : ∀ c, CallGraph.twoContexts.First "main" c → c = ⟨0⟩ := fun c hc =>
    congrArg MethodNode.mk (Nat.le_zero.1 (hc.least ⟨0⟩ (by decide) (by decide)))
  refine ⟨hg, hd, hlex.2 (by decide), ?_, ?_⟩
  · obtain ⟨c, hc, -, hcalled⟩ := hlog hmain
    obtain rfl := hfirst c hc
    obtain ⟨seed, ret, hseed, rfl, hmissing, -⟩ := hcalled
      ⟨⟨⟨0⟩, 5, .normal "log(x)" (some "log")⟩, by decide, rfl, _, rfl⟩
    have hindex : ∀ s ∈ DependenceGraph.twoCalls.graph.nodes, s.calls "log" = true →
        s.index = 5 := by decide
    rw [hindex seed hseed.mem (Statement.calls_iff.2 hseed.isCall.2)] at hmissing
    exact hmissing.2 ⟨rfl, by decide⟩
  · obtain ⟨text, hdot, -⟩ := Slice.exists_dot_project hd.sound DependenceGraph.parsed
      (Statement.label CallGraph.twoContexts)
    have hvalue := CallSlice.run_eq_ok (r := ⟨"main", "parse", .forward, default⟩) (by decide)
      DependenceGraph.slice_twoCalls (by decide) hdot
    obtain ⟨c, hc, -, hcalled⟩ := hparse hmain
    obtain rfl := hfirst c hc
    obtain ⟨seed, ret, -, -, hmissing, hok⟩ := hcalled
      ⟨⟨⟨0⟩, 2, .normal "parse(a)" (some "parse")⟩, by decide, rfl, _, rfl⟩
    obtain ⟨answer, hrun, -⟩ := hok fun hnot => by cases hvalue.symm.trans (hmissing.2 hnot)
    obtain rfl := Except.ok.inj (hvalue.symm.trans hrun)
    exact ⟨_, hrun, rfl, rfl, Except.ok.inj (hdot.symm.trans (by decide))⟩

end ProgramFlow
