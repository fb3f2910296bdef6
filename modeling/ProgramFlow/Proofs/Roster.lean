import Mathlib.Data.List.Basic
import Mathlib.Data.List.Induction
import ProgramFlow.Facts.BitSet
import ProgramFlow.Facts.Roster

/-!
# Rosters and positions

Stores and catalogs number values by their positions on a roster, and keep sets of values as
sets of numbers.  Two facts about positions are used throughout.  Reading a set of numbers
back gives a part of the roster, in its order, whatever the width of the set is.  The roster
of a list has the values of the list in the order of their first occurrences.

* `Roster.filterMap_get?_eq_filter` — reading numbers back.
* `Roster.pairwise_idxOf_ofList`, `Roster.toList_ofList` — first occurrences.
-/

namespace ProgramFlow

variable {α : Type}

/-! ## Reading numbers back -/

/-- Numbers from `m` on can be left out if they select nothing. -/
theorem filterMap_range_add {f : Nat → Option α} {m : Nat}
    (h : ∀ i, m ≤ i → f i = none) (k : Nat) :
    (List.range (m + k)).filterMap f = (List.range m).filterMap f := by
  have hrest : ((List.range k).map (m + ·)).filterMap f = [] := by
    refine List.filterMap_eq_nil_iff.2 fun i hi => ?_
    obtain ⟨j, -, rfl⟩ := List.mem_map.1 hi
    exact h _ (Nat.le_add_right m j)
  rw [List.range_add, List.filterMap_append, hrest, List.append_nil]

/-- A list holds what is found at its positions. -/
theorem filterMap_range_getElem? (as : List α) :
    (List.range as.length).filterMap (as[·]?) = as := by
  induction as with
  | nil => rfl
  | cons a as ih =>
      rw [List.length_cons, List.range_succ_eq_map, List.filterMap_cons, List.filterMap_map]
      exact congrArg (a :: ·) ih

namespace Roster

/-- Reading a set of numbers back selects the values with these numbers from the list of
all. -/
theorem filterMap_get?_eq_filter {r : Roster α} {s : BitSet} {keep : α → Bool}
    (hkeep : ∀ i a, r.get? i = some a → (keep a = true ↔ i ∈ s)) :
    s.toList.filterMap r.get? = r.toList.filter keep := by
  -- both lists come from the same choice of numbers, below the width or below the size
  let choose : Nat → Option α := fun i => if i ∈ s then r.get? i else none
  have hread : s.toList.filterMap r.get? = (List.range s.width).filterMap choose := by
    rw [BitSet.toList_eq_filter, List.filterMap_filter]
    simp [choose]
  have hfilter : r.toList.filter keep = (List.range r.size).filterMap choose := by
    conv_lhs => rw [← filterMap_range_getElem? r.toList]
    rw [List.filter_filterMap]
    refine List.filterMap_congr fun i _ => ?_
    show (r.get? i).filter keep = choose i
    cases hi : r.get? i with
    | none => simp [choose, hi]
    | some a => simp [choose, hi, Option.filter_some, hkeep i a hi]
  have hwide : ∀ i, s.width ≤ i → choose i = none := by
    intro i hi
    have hnot : i ∉ s := fun h => Nat.not_lt.2 hi (BitSet.lt_width_of_mem h)
    simp [choose, hnot]
  have hlong : ∀ i, r.size ≤ i → choose i = none := by
    intro i hi
    have hnone : r.get? i = none := List.getElem?_eq_none_iff.2 hi
    simp [choose, hnone]
  rw [hread, hfilter, ← filterMap_range_add hwide r.size, Nat.add_comm,
    filterMap_range_add hlong]

end Roster

/-! ## First occurrences -/

variable [DecidableEq α]

/-- Among the first occurrences a last value appears only if it is new. -/
theorem eraseDups_concat (as : List α) (a : α) :
    (as ++ [a]).eraseDups = if a ∈ as then as.eraseDups else as.eraseDups ++ [a] := by
  rw [List.eraseDups_append]
  by_cases ha : a ∈ as
  · simp [ha, List.removeAll]
  · simp [ha, List.removeAll, List.eraseDups_cons]

namespace Roster

theorem ofList_concat (as : List α) (a : α) : ofList (as ++ [a]) = (ofList as).insert a := by
  rw [ofList, insertAll, List.foldl_append]
  rfl

theorem toList_ofList (as : List α) : (Roster.ofList as).toList = as.eraseDups := by
  induction as using List.reverseRecOn with
  | nil => rfl
  | append_singleton as a ih =>
      rw [ofList_concat, toList_insert, eraseDups_concat, ih]
      simp only [List.mem_eraseDups]

/-- The values of a list are in the order of their first occurrences. -/
theorem pairwise_idxOf_ofList (as : List α) :
    (ofList as).toList.Pairwise fun a b => as.idxOf a < as.idxOf b := by
  induction as using List.reverseRecOn with
  | nil => exact .nil
  | append_singleton as a ih =>
      -- a value that is there keeps its first occurrence
      have hold : ∀ b ∈ (ofList as).toList, (as ++ [a]).idxOf b = as.idxOf b :=
        fun b hb => List.idxOf_append_of_mem (mem_ofList.1 hb)
      have hbefore : (ofList as).toList.Pairwise fun b c =>
          (as ++ [a]).idxOf b < (as ++ [a]).idxOf c := by
        refine ih.imp_of_mem fun {b c} hb hc hbc => ?_
        rw [hold b hb, hold c hc]
        exact hbc
      rw [ofList_concat, toList_insert]
      split
      · exact hbefore
      · rename_i hnew
        refine List.pairwise_append.2 ⟨hbefore, List.pairwise_singleton _ a, fun b hb c hc => ?_⟩
        obtain rfl : c = a := List.mem_singleton.1 hc
        have hlt : as.idxOf b < as.length := List.idxOf_lt_length_of_mem (mem_ofList.1 hb)
        rw [hold b hb, List.idxOf_append_of_notMem (mt mem_ofList.2 hnew)]
        omega

end Roster

end ProgramFlow
