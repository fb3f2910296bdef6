import ProgramFlow.Text.Describe

/-!
# Bit sets of a width

A set of facts is a set of bit numbers below a width.  The width is part of the
value: sets of different widths can be combined, and the rules for that are the
ones below.

* `join` has the larger of the two widths.
* `meet` and `minus` keep the width of the left set; a bit the right set is too
  narrow for counts as absent.
* Two sets are equal if they have the same bits *and* the same width.
* `subset` and `compare?` look at the bits alone, so they are a preorder on the
  sets of all widths, and an order on the sets of one width.

Every operation has one lemma about its width and one about its bits
(`width_join`, `mem_join`, …).  With `ext_iff_mem` they settle every equation
between sets.
-/

namespace ProgramFlow

/-- A set of numbers below `width`. -/
structure BitSet where
  width : Nat
  bits : BitVec width
  deriving DecidableEq

namespace BitSet

instance : Membership Nat BitSet := ⟨fun s i => s.bits.getLsbD i = true⟩

theorem mem_def {i : Nat} {s : BitSet} : i ∈ s ↔ s.bits.getLsbD i = true := Iff.rfl

instance (i : Nat) (s : BitSet) : Decidable (i ∈ s) :=
  inferInstanceAs (Decidable (s.bits.getLsbD i = true))

theorem lt_width_of_mem {i : Nat} {s : BitSet} (h : i ∈ s) : i < s.width :=
  BitVec.lt_of_getLsbD h

/-- Sets are equal if their widths and their members are. -/
theorem ext_iff_mem {s t : BitSet} : s = t ↔ s.width = t.width ∧ ∀ i, i ∈ s ↔ i ∈ t := by
  constructor
  · rintro rfl
    exact ⟨rfl, fun _ => Iff.rfl⟩
  · obtain ⟨w, x⟩ := s
    obtain ⟨v, y⟩ := t
    rintro ⟨hw, hm⟩
    obtain rfl : w = v := hw
    congr 1
    apply BitVec.eq_of_getLsbD_eq
    intro i _
    exact Bool.eq_iff_iff.2 (hm i)

/-! ## Operations -/

/-- The empty set of a width. -/
def bottom (w : Nat) : BitSet := ⟨w, 0#w⟩

/-- All numbers below a width. -/
def top (w : Nat) : BitSet := ⟨w, BitVec.allOnes w⟩

/-- One number, in the least width that holds it. -/
def single (i : Nat) : BitSet := ⟨i + 1, BitVec.twoPow (i + 1) i⟩

/-- The union. -/
def join (s t : BitSet) : BitSet :=
  ⟨max s.width t.width, s.bits.setWidth _ ||| t.bits.setWidth _⟩

/-- The intersection, in the width of the left set. -/
def meet (s t : BitSet) : BitSet := ⟨s.width, s.bits &&& t.bits.setWidth _⟩

/-- The left set without the members of the right one, in the width of the left set. -/
def minus (s t : BitSet) : BitSet := ⟨s.width, s.bits &&& ~~~(t.bits.setWidth _)⟩

/-- Has the set no members? -/
def isBottom (s : BitSet) : Bool := s.bits == 0#s.width

/-- Is every member of the left set one of the right set?  The widths do not matter. -/
def subset (s t : BitSet) : Bool := (s.minus t).isBottom

/-- The order by inclusion, `none` for sets neither of which includes the other. -/
def compare? (s t : BitSet) : Option Ordering :=
  match s.subset t, t.subset s with
  | true, true => some .eq
  | true, false => some .lt
  | false, true => some .gt
  | false, false => none

/-- Add a number, if the width has room for it. -/
def insert? (s : BitSet) (i : Nat) : Option BitSet :=
  if i < s.width then some (s.join (single i)) else none

/-- The set of the listed numbers, if the width has room for all of them. -/
def ofList? (w : Nat) (is : List Nat) : Option BitSet := is.foldlM insert? (bottom w)

/-- The positions of the first `2 ^ d` binary digits of `n` that are one, counted from
`base` and ascending.  A part of the number that is zero is passed over as a whole. -/
def ones : (d n base : Nat) → List Nat
  | 0, n, base => if n.testBit 0 then [base] else []
  | d + 1, n, base =>
      if n = 0 then []
      else ones d (n % (1 <<< (1 <<< d))) base ++ ones d (n >>> (1 <<< d)) (base + 1 <<< d)

/-- The members in ascending order. -/
def toList (s : BitSet) : List Nat := ones (s.width.log2 + 1) s.bits.toNat 0

/-- The number of members. -/
def count (s : BitSet) : Nat := s.toList.length

instance : Describe BitSet :=
  ⟨fun s => "\x7b" ++ ", ".intercalate (s.toList.map toString) ++ "\x7d"⟩

/-! ## Widths -/

@[simp] theorem width_bottom (w : Nat) : (bottom w).width = w := rfl

@[simp] theorem width_top (w : Nat) : (top w).width = w := rfl

@[simp] theorem width_single (i : Nat) : (single i).width = i + 1 := rfl

@[simp] theorem width_join (s t : BitSet) : (s.join t).width = max s.width t.width := rfl

@[simp] theorem width_meet (s t : BitSet) : (s.meet t).width = s.width := rfl

@[simp] theorem width_minus (s t : BitSet) : (s.minus t).width = s.width := rfl

/-! ## Members -/

@[simp] theorem not_mem_bottom (i w : Nat) : i ∉ bottom w := by
  simp [mem_def, bottom]

@[simp] theorem mem_top {i w : Nat} : i ∈ top w ↔ i < w := by
  simp [mem_def, top]

@[simp] theorem mem_single {i j : Nat} : i ∈ single j ↔ i = j := by
  simp only [mem_def, single, BitVec.getLsbD_twoPow, Bool.and_eq_true, decide_eq_true_eq]
  omega

@[simp] theorem mem_join {i : Nat} {s t : BitSet} : i ∈ s.join t ↔ i ∈ s ∨ i ∈ t := by
  have hs : i ∈ s → i < s.width := lt_width_of_mem
  have ht : i ∈ t → i < t.width := lt_width_of_mem
  simp only [mem_def] at hs ht
  simp only [mem_def, join, BitVec.getLsbD_or, BitVec.getLsbD_setWidth, Bool.or_eq_true,
    Bool.and_eq_true, decide_eq_true_eq]
  grind

/-- The members of many sets together. -/
theorem mem_foldl_join {α : Type} {i : Nat} {f : α → BitSet} {as : List α} {s : BitSet} :
    i ∈ as.foldl (fun acc a => acc.join (f a)) s ↔ i ∈ s ∨ ∃ a ∈ as, i ∈ f a := by
  induction as generalizing s with
  | nil => simp
  | cons a as ih =>
      simp only [List.foldl_cons, ih, mem_join, or_assoc, List.mem_cons, exists_eq_or_imp]

@[simp] theorem mem_meet {i : Nat} {s t : BitSet} : i ∈ s.meet t ↔ i ∈ s ∧ i ∈ t := by
  have hs : i ∈ s → i < s.width := lt_width_of_mem
  simp only [mem_def] at hs
  simp only [mem_def, meet, BitVec.getLsbD_and, BitVec.getLsbD_setWidth, Bool.and_eq_true,
    decide_eq_true_eq]
  grind

@[simp] theorem mem_minus {i : Nat} {s t : BitSet} : i ∈ s.minus t ↔ i ∈ s ∧ i ∉ t := by
  have hs : i ∈ s → i < s.width := lt_width_of_mem
  simp only [mem_def] at hs
  simp only [mem_def, minus, BitVec.getLsbD_and, BitVec.getLsbD_not, BitVec.getLsbD_setWidth,
    Bool.and_eq_true, decide_eq_true_eq, Bool.not_eq_true', Bool.and_eq_false_iff,
    decide_eq_false_iff_not, Bool.not_eq_true]
  grind

theorem ones_eq_map_filter (d n base : Nat) :
    ones d n base = ((List.range (1 <<< d)).filter n.testBit).map (base + ·) := by
  induction d generalizing n base with
  | zero =>
      rw [ones, Nat.one_shiftLeft, Nat.pow_zero, List.range_one]
      split <;> simp_all
  | succ d ih =>
      rw [ones]
      split
      · simp_all
      · have hlow : (List.range (2 ^ d)).filter (n % 2 ^ 2 ^ d).testBit
            = (List.range (2 ^ d)).filter n.testBit := by
          refine List.filter_congr fun i hi => ?_
          rw [Nat.testBit_mod_two_pow, decide_eq_true (List.mem_range.1 hi), Bool.true_and]
        have hhigh : n.testBit ∘ (2 ^ d + ·) = (n >>> 2 ^ d).testBit := by
          funext i
          rw [Function.comp_apply, Nat.testBit_shiftRight]
        simp only [ih, Nat.one_shiftLeft]
        rw [hlow, Nat.pow_succ, Nat.mul_two, List.range_add, List.filter_append,
          List.map_append, List.filter_map, hhigh, List.map_map]
        congr 1
        refine List.map_congr_left fun i _ => ?_
        rw [Function.comp_apply, Nat.add_assoc]

/-- The members are the numbers below the width that are in the set. -/
theorem toList_eq_filter (s : BitSet) : s.toList = (List.range s.width).filter (· ∈ s) := by
  have hbit : ∀ i, s.bits.toNat.testBit i = decide (i ∈ s) := fun i => by
    rw [Bool.eq_iff_iff, decide_eq_true_eq]
    exact Iff.rfl
  obtain ⟨k, hk⟩ : ∃ k, 2 ^ (s.width.log2 + 1) = s.width + k :=
    ⟨_, (Nat.add_sub_cancel' (Nat.le_of_lt Nat.lt_log2_self)).symm⟩
  have hrest : ((List.range k).map (s.width + ·)).filter (· ∈ s) = [] := by
    refine List.filter_eq_nil_iff.2 fun i hi hs => ?_
    obtain ⟨j, -, rfl⟩ := List.mem_map.1 hi
    have := lt_width_of_mem (of_decide_eq_true hs)
    omega
  rw [toList, ones_eq_map_filter, Nat.one_shiftLeft, hk, List.filter_congr fun i _ => hbit i,
    List.range_add, List.filter_append, hrest, List.append_nil]
  simp

@[simp] theorem mem_toList {i : Nat} {s : BitSet} : i ∈ s.toList ↔ i ∈ s := by
  simp only [toList_eq_filter, List.mem_filter, List.mem_range, decide_eq_true_eq]
  exact ⟨And.right, fun h => ⟨lt_width_of_mem h, h⟩⟩

theorem isBottom_iff {s : BitSet} : s.isBottom = true ↔ ∀ i, i ∉ s := by
  simp only [isBottom, beq_iff_eq]
  constructor
  · intro h i
    simp [mem_def, h]
  · intro h
    apply BitVec.eq_of_getLsbD_eq
    intro i _
    simpa [mem_def] using h i

theorem subset_iff {s t : BitSet} : s.subset t = true ↔ ∀ i ∈ s, i ∈ t := by
  simp only [subset, isBottom_iff, mem_minus, not_and, Decidable.not_not]

end BitSet

end ProgramFlow
