import ProgramFlow.Proofs.Gates

/-!
# Gates distribute over joins

It makes no difference whether two sets are joined before a gate or behind it.  A gate treats
bits one by one, so that this is clear for the bits.  The width is another matter: `join` has
the larger of two widths, while `meet` and `minus` keep the width of their left set.  A gate
has the set that goes in on the left, and so its widths distribute as well, whatever the
widths of the sets that it is made of are.  Since the bits that come out depend on bits alone
and the width on the width alone, a gate is monotone in each of the two.

* `Gate.apply_join` — a gate distributes, in bits and in width.
* `Gate.distributes` — it is monotone in each of them as well.
-/

namespace ProgramFlow

namespace Gate

/-- The width that comes out depends on the width that goes in. -/
theorem width_apply_congr (f : Gate) {s t : BitSet} (h : s.width = t.width) :
    (f.apply s).width = (f.apply t).width := by
  cases f with
  | identity => exact h
  | union facts => simp only [apply, BitSet.width_join, h]
  | filter mask => exact h
  | killGen kill generate => simp only [apply, BitSet.width_join, BitSet.width_minus, h]
  | constant facts => rfl

theorem width_apply_join (f : Gate) (s t : BitSet) :
    (f.apply (s.join t)).width = max (f.apply s).width (f.apply t).width := by
  cases f with
  | identity => rfl
  | union facts =>
      simp only [apply, BitSet.width_join]
      omega
  | filter mask => rfl
  | killGen kill generate =>
      simp only [apply, BitSet.width_join, BitSet.width_minus]
      omega
  | constant facts => exact (Nat.max_self facts.width).symm

/-- **A gate distributes over joins.** -/
theorem apply_join (f : Gate) (s t : BitSet) :
    f.apply (s.join t) = (f.apply s).join (f.apply t) := by
  refine BitSet.ext_iff_mem.2 ⟨width_apply_join f s t, fun i => ?_⟩
  simp only [BitSet.mem_join, mem_apply]
  tauto

/-- A wider set comes out wider: joined with the other it has the width of the wider one. -/
theorem width_apply_mono (f : Gate) {s t : BitSet} (h : s.width ≤ t.width) :
    (f.apply s).width ≤ (f.apply t).width := by
  have hwidth : (s.join t).width = t.width := Nat.max_eq_right h
  calc (f.apply s).width
      ≤ max (f.apply s).width (f.apply t).width := Nat.le_max_left _ _
    _ = (f.apply (s.join t)).width := (width_apply_join f s t).symm
    _ = (f.apply t).width := f.width_apply_congr hwidth

/-- **Gates distribute over joins and are monotone**, in the bits and in the width, for sets
of any widths. -/
theorem distributes (f : Gate) (s t : BitSet) :
    f.apply (s.join t) = (f.apply s).join (f.apply t) ∧
      (s.subset t = true → (f.apply s).subset (f.apply t) = true) ∧
      (s.width ≤ t.width → (f.apply s).width ≤ (f.apply t).width) := by
  refine ⟨f.apply_join s t, fun hsub => ?_, f.width_apply_mono⟩
  exact BitSet.subset_iff.2 fun i => mem_apply_of_forall_mem (BitSet.subset_iff.1 hsub)

/-- The set with more bits is the narrower one, and the gate is made of sets of two other
widths. -/
theorem distributes_mixed :
    (BitSet.bottom 9).subset (.top 3) = true ∧ (BitSet.top 3).width ≤ (BitSet.bottom 9).width ∧
      ((killGen (.single 0) (.single 4)).apply (.bottom 9)).subset
        ((killGen (.single 0) (.single 4)).apply (.top 3)) = true ∧
      ((killGen (.single 0) (.single 4)).apply (.top 3)).width ≤
        ((killGen (.single 0) (.single 4)).apply (.bottom 9)).width := by
  have hsub : (BitSet.bottom 9).subset (.top 3) = true := by decide
  have hwidth : (BitSet.top 3).width ≤ (BitSet.bottom 9).width := by decide
  obtain ⟨-, hbits, -⟩ := distributes (killGen (.single 0) (.single 4)) (.bottom 9) (.top 3)
  obtain ⟨-, -, hwidths⟩ := distributes (killGen (.single 0) (.single 4)) (.top 3) (.bottom 9)
  exact ⟨hsub, hwidth, hbits hsub, hwidths hwidth⟩

end Gate

end ProgramFlow
