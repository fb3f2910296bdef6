import ProgramFlow.Proofs.PlainGraph
import ProgramFlow.Proofs.Projection

/-!
# Where the label of a drawn node ends

In the text of a drawing a label stands between two quotes.  A reader takes a backslash and
the character behind it as one unit, so that the label ends at the first quote that is a unit
of its own.  A label that is written gets a backslash in front of each of its quotes.  Its
backslashes stay as they are, which lets a label say where its lines break.

This works for quotes that are units of their own.  A quote that has a backslash in front
already is written with two, which are then a unit, and the quote behind them ends the label
too early.  A backslash at the end of the label forms a unit with the closing quote, so that
the label does not end there.  These are the only two ways in which a label can go wrong.

* `Drawing.units`, `Drawing.Complete` — what a reader sees between the quotes.
* `Drawing.readLabel`, `Drawing.readLabel_eq_some_iff` — where it stops.
* `Drawing.units_escaped` — what the backslashes make of the units of a label.
* `Drawing.complete_escapeLabel_iff` — which labels are complete when they are written.
* `Graph.dot_label_ends_iff` — the labels in the text of a drawing.
-/

namespace ProgramFlow

namespace Drawing

/-! ## What a reader sees -/

/-- A text in units: a backslash belongs to the character behind it. -/
def units : List Char → List (List Char)
  | [] => []
  | '\\' :: c :: cs => ['\\', c] :: units cs
  | c :: cs => [c] :: units cs

/-- No quote is a unit of its own, and the last unit is no backslash alone. -/
def Complete (text : List Char) : Prop :=
  (∀ u ∈ units text, u ≠ ['"']) ∧ (units text).getLast? ≠ some ['\\']

/-- What stands before and behind the first quote that is not part of a larger unit. -/
def readLabel : List Char → Option (List Char × List Char)
  | [] => none
  | '"' :: rest => some ([], rest)
  | '\\' :: c :: cs => (readLabel cs).map fun p => ('\\' :: c :: p.1, p.2)
  | c :: cs => (readLabel cs).map fun p => (c :: p.1, p.2)

theorem units_cons {c : Char} (hc : c ≠ '\\') (cs : List Char) :
    units (c :: cs) = [c] :: units cs := by
  simp [units, hc]

theorem readLabel_cons {c : Char} (hquote : c ≠ '"') (hc : c ≠ '\\') (cs : List Char) :
    readLabel (c :: cs) = (readLabel cs).map fun p => (c :: p.1, p.2) := by
  simp [readLabel, hc]

/-- Only the last unit can be a backslash alone. -/
theorem getLast?_units_iff {text : List Char} :
    (units text).getLast? = some ['\\'] ↔ ['\\'] ∈ units text := by
  refine ⟨List.mem_of_getLast?, ?_⟩
  intro h
  fun_induction units text with
  | case1 => cases h
  | case2 c cs ih =>
      have hcs : ['\\'] ∈ units cs := by simpa using h
      rw [List.getLast?_cons, ih hcs]
      rfl
  | case3 c cs hnot ih =>
      by_cases hc : c = '\\'
      · cases cs with
        | nil => simp [units, hc]
        | cons d ds => exact absurd rfl (hnot d ds hc)
      · have hcs : ['\\'] ∈ units cs := by simpa [Ne.symm hc] using h
        rw [List.getLast?_cons, ih hcs]
        rfl

theorem complete_iff {text : List Char} :
    Complete text ↔ ['"'] ∉ units text ∧ ['\\'] ∉ units text := by
  rw [Complete, Ne, getLast?_units_iff]
  exact and_congr_left' List.forall_mem_ne'

/-- A unit in front of what is read comes back in front of it. -/
theorem map_append_eq_some_iff {read : Option (List Char × List Char)} {u text rest : List Char} :
    (read.map fun p => (u ++ p.1, p.2)) = some (u ++ text, rest) ↔ read = some (text, rest) := by
  cases read with
  | none => simp
  | some p => simp [Prod.ext_iff]

/-- **A reader stops at the quote behind a text exactly if the text is complete.** -/
theorem readLabel_eq_some_iff {text rest : List Char} :
    readLabel (text ++ '"' :: rest) = some (text, rest) ↔ Complete text := by
  rw [complete_iff]
  fun_induction units text with
  | case1 => simp [readLabel]
  | case2 c cs ih =>
      have hread : readLabel ('\\' :: c :: cs ++ '"' :: rest) = some ('\\' :: c :: cs, rest) ↔
          readLabel (cs ++ '"' :: rest) = some (cs, rest) :=
        map_append_eq_some_iff (u := ['\\', c])
      rw [hread, ih]
      simp
  | case3 c cs hnot ih =>
      by_cases hquote : c = '"'
      · -- the reader stops at once
        subst hquote
        simp [readLabel]
      by_cases hc : c = '\\'
      · -- the backslash takes the quote behind the text with it
        cases cs with
        | nil =>
            subst hc
            simp [readLabel]
        | cons d ds => exact absurd rfl (hnot d ds hc)
      · have hread : readLabel (c :: cs ++ '"' :: rest) = some (c :: cs, rest) ↔
            readLabel (cs ++ '"' :: rest) = some (cs, rest) := by
          rw [List.cons_append, readLabel_cons hquote hc]
          exact map_append_eq_some_iff (u := [c])
        rw [hread, ih]
        simp [Ne.symm hquote, Ne.symm hc]

/-! ## What is written -/

/-- The characters of a label with a backslash in front of each quote. -/
def escaped (cs : List Char) : List Char :=
  cs.flatMap fun c => if c = '"' then ['\\', '"'] else [c]

theorem toList_escapeLabel (s : String) : (escapeLabel s).toList = escaped s.toList :=
  String.toList_ofList

theorem escaped_cons_quote (cs : List Char) : escaped ('"' :: cs) = '\\' :: '"' :: escaped cs := by
  simp [escaped]

theorem escaped_cons {c : Char} (hc : c ≠ '"') (cs : List Char) :
    escaped (c :: cs) = c :: escaped cs := by
  simp [escaped, hc]

/-- What becomes of a unit of a label: a quote on its own becomes part of a unit, and one
that was part of a unit is set free. -/
def requote (u : List Char) : List (List Char) :=
  if u = ['"'] then [['\\', '"']] else if u = ['\\', '"'] then [['\\', '\\'], ['"']] else [u]

/-- **Units of what is written**, from the units of the label. -/
theorem units_escaped (cs : List Char) : units (escaped cs) = (units cs).flatMap requote := by
  fun_induction units cs with
  | case1 => rfl
  | case2 c cs ih =>
      rw [escaped_cons (by decide), List.flatMap_cons, ← ih]
      by_cases hc : c = '"'
      · rw [hc, escaped_cons_quote, units, units_cons (by decide)]
        rfl
      · rw [escaped_cons hc, units]
        simp [requote, hc]
  | case3 c cs hnot ih =>
      rw [List.flatMap_cons, ← ih]
      by_cases hquote : c = '"'
      · rw [hquote, escaped_cons_quote, units]
        rfl
      · rw [escaped_cons hquote]
        by_cases hc : c = '\\'
        · cases cs with
          | nil => simp [hc, escaped, units, requote]
          | cons d ds => exact absurd rfl (hnot d ds hc)
        · rw [units_cons hc]
          simp [requote, hquote]

theorem quote_mem_requote_iff {u : List Char} : ['"'] ∈ requote u ↔ u = ['\\', '"'] := by
  unfold requote
  split
  · simp_all
  · split
    · simp_all
    · simp_all [eq_comm]

theorem backslash_mem_requote_iff {u : List Char} : ['\\'] ∈ requote u ↔ u = ['\\'] := by
  unfold requote
  split
  · simp_all
  · split
    · simp_all
    · simp [eq_comm]

/-- A label without a quote that is escaped already, and without a backslash alone at its
end. -/
def Quotable (label : List Char) : Prop :=
  (∀ u ∈ units label, u ≠ ['\\', '"']) ∧ (units label).getLast? ≠ some ['\\']

/-- **Which labels are complete when they are written.** -/
theorem complete_escapeLabel_iff {label : String} :
    Complete (escapeLabel label).toList ↔ Quotable label.toList := by
  have hquote : ['"'] ∈ (units label.toList).flatMap requote ↔
      ['\\', '"'] ∈ units label.toList := by
    simp [List.mem_flatMap, quote_mem_requote_iff]
  have hbackslash : ['\\'] ∈ (units label.toList).flatMap requote ↔
      ['\\'] ∈ units label.toList := by
    simp [List.mem_flatMap, backslash_mem_requote_iff]
  rw [complete_iff, toList_escapeLabel, units_escaped, hquote, hbackslash, Quotable, Ne,
    getLast?_units_iff]
  exact and_congr_left' List.forall_mem_ne'.symm

/-- What stands in front of the label in the line of a node. -/
def opening (i : Nat) : String := s!"  Node_{i}[label=\""

theorem nodeLine_eq (i : Nat) (label : String) :
    nodeLine i label = opening i ++ escapeLabel label ++ "\"" ++ "]\n" := by
  have hclosing : "\"]\n" = "\"" ++ "]\n" := by decide
  show opening i ++ escapeLabel label ++ "\"]\n" = _
  rw [hclosing]
  simp only [String.append_assoc]

end Drawing

/-! ## The text of a drawing -/

namespace Graph

variable {ν κ : Type} [DecidableEq ν]

/-- The text of a drawing, cut at the label of one of its nodes. -/
theorem exists_dot_label {g : Graph ν κ} {label : ν → String} {text : String}
    (h : g.dot label = .ok text) {before after : List ν} {n : ν}
    (hn : g.nodes = before ++ n :: after) :
    ∃ rest, text = "digraph G \x7b\n"
      ++ String.join (before.mapIdx fun i m => Drawing.nodeLine i (label m))
      ++ Drawing.opening before.length ++ Drawing.escapeLabel (label n) ++ "\"" ++ rest := by
  obtain ⟨drawing, -, rfl⟩ := dot_eq_ok_iff.1 h
  rw [hn, List.mapIdx_append, List.mapIdx_cons, String.join_append, String.join_cons, Nat.zero_add,
    Drawing.nodeLine_eq]
  simp only [String.append_assoc]
  exact ⟨_, rfl⟩

/-- **A label ends where it should unless it escapes quotes itself.**  In the text of any
drawing, the label of each node stands between the opening of its line and a closing quote.
What stands there is complete, and a reader that starts behind the opening stops at the
closing quote, exactly if the label has no quote that is escaped already and no backslash
alone at its end. -/
theorem dot_label_ends_iff (g : Graph ν κ) (label : ν → String) (text : String)
    (h : g.dot label = .ok text) (before after : List ν) (n : ν)
    (hn : g.nodes = before ++ n :: after) :
    ∃ rest, text = "digraph G \x7b\n"
        ++ String.join (before.mapIdx fun i m => Drawing.nodeLine i (label m))
        ++ Drawing.opening before.length ++ Drawing.escapeLabel (label n) ++ "\"" ++ rest ∧
      (Drawing.Complete (Drawing.escapeLabel (label n)).toList ↔
        Drawing.Quotable (label n).toList) ∧
      (Drawing.readLabel ((Drawing.escapeLabel (label n)).toList ++ '"' :: rest.toList) =
          some ((Drawing.escapeLabel (label n)).toList, rest.toList) ↔
        Drawing.Quotable (label n).toList) := by
  obtain ⟨rest, htext⟩ := exists_dot_label h hn
  refine ⟨rest, htext, Drawing.complete_escapeLabel_iff, ?_⟩
  rw [Drawing.readLabel_eq_some_iff, Drawing.complete_escapeLabel_iff]

end Graph

/-- A label with quotes and a line break, one that escapes its quotes, and one that ends in a
backslash. -/
def Adjacency.spoken : Adjacency String :=
  .after [.addNode "say \"hi\"\\nbye", .addNode "say \\\"hi\\\"", .addNode "C:\\"]

theorem Adjacency.dot_spoken :
    spoken.graph.dot id = .ok ("digraph G \x7b\n"
      ++ "  Node_0[label=\"say \\\"hi\\\"\\nbye\"]\n"
      ++ "  Node_1[label=\"say \\\\\"hi\\\\\"\"]\n"
      ++ "  Node_2[label=\"C:\\\"]\n\n\x7d\n") := by decide

theorem Graph.dot_label_ends_iff_spoken :
    ∃ text, Adjacency.spoken.graph.dot id = .ok text ∧
      Adjacency.spoken.graph.nodes =
        [] ++ "say \"hi\"\\nbye" :: ["say \\\"hi\\\"", "C:\\"] ∧
      ∃ rest, text = "digraph G \x7b\n  Node_0[label=\"say \\\"hi\\\"\\nbye\"" ++ rest ∧
        Drawing.readLabel ("say \\\"hi\\\"\\nbye".toList ++ '"' :: rest.toList) =
          some ("say \\\"hi\\\"\\nbye".toList, rest.toList) := by
  have hnodes : Adjacency.spoken.graph.nodes =
      [] ++ "say \"hi\"\\nbye" :: ["say \\\"hi\\\"", "C:\\"] := by decide
  have hquotable : Drawing.Quotable "say \"hi\"\\nbye".toList := by
    unfold Drawing.Quotable
    decide
  obtain ⟨rest, hrest, -, hread⟩ := Graph.dot_label_ends_iff Adjacency.spoken.graph id _
    Adjacency.dot_spoken [] ["say \\\"hi\\\"", "C:\\"] "say \"hi\"\\nbye" hnodes
  exact ⟨_, Adjacency.dot_spoken, hnodes, rest, hrest, hread.2 hquotable⟩

/-- The backslash at the end of the last label takes the closing quote with it: what stands
in the text is neither complete, nor does a reader that starts behind the opening of the line
stop at the closing quote. -/
theorem Graph.not_dot_label_ends_spoken :
    ∃ text, Adjacency.spoken.graph.dot id = .ok text ∧
      ¬ ∀ before after n, Adjacency.spoken.graph.nodes = before ++ n :: after →
        ∀ rest, text = "digraph G \x7b\n"
            ++ String.join (before.mapIdx fun i m => Drawing.nodeLine i (id m))
            ++ Drawing.opening before.length ++ Drawing.escapeLabel (id n) ++ "\"" ++ rest →
          Drawing.Complete (Drawing.escapeLabel (id n)).toList ∨
            Drawing.readLabel ((Drawing.escapeLabel (id n)).toList ++ '"' :: rest.toList) =
              some ((Drawing.escapeLabel (id n)).toList, rest.toList) := by
  refine ⟨_, Adjacency.dot_spoken, fun hall => ?_⟩
  have hlast := hall ["say \"hi\"\\nbye", "say \\\"hi\\\""] [] "C:\\" (by decide)
    "]\n\n\x7d\n" (by decide)
  rcases hlast with hcomplete | hread
  · exact hcomplete.2 (by decide)
  · exact absurd hread (by decide)

end ProgramFlow
