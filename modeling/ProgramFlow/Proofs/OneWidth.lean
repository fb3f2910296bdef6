import Mathlib.Order.BoundedOrder.Lattice
import ProgramFlow.Proofs.Gates

/-!
# Bit sets of one width

Comparing, joining and telling sets apart are three different matters: the comparison makes
two tests for inclusion and does not look at widths, a join works on bits, and sets are equal
if they have the same bits and the same width.  Across widths the three do not fit together:
two sets may be below each other without being equal, and a meet has the width of its left
set.  On the sets of one width they do, also on the sets of width zero, of which there is
only one.

What has to be shown is that the comparison is an order there, and that joins and meets are
bounds.  `BitSet.OfWidth` is then a lattice in the sense of the library, and the laws for
joins and meets are those of lattices.

* `BitSet.le_iff_subset`, `BitSet.compare?_swap` — what the comparison says.
* `BitSet.OfWidth` — the sets of a width, with their order, bounds, joins and meets.
* `BitSet.length_le_of_isChain` — a rising sequence of sets is no longer than the width allows.
* `BitSet.lattice_of_width` — the laws of lattices.
-/

namespace ProgramFlow.BitSet

/-! ## The comparison -/

/-- A set is at most another one if it compares as less or equal. -/
instance : LE BitSet := ⟨fun s t => (s.compare? t).any Ordering.isLE = true⟩

/-- The two tests of the comparison come down to one. -/
theorem le_iff_subset {s t : BitSet} : s ≤ t ↔ s.subset t = true := by
  show (s.compare? t).any Ordering.isLE = true ↔ _
  unfold compare?
  cases s.subset t <;> cases t.subset s <;> decide

theorem le_iff {s t : BitSet} : s ≤ t ↔ ∀ i ∈ s, i ∈ t := le_iff_subset.trans subset_iff

theorem compare?_swap (s t : BitSet) : t.compare? s = (s.compare? t).map Ordering.swap := by
  unfold compare?
  cases s.subset t <;> cases t.subset s <;> rfl

theorem compare?_eq_some_eq_iff {s t : BitSet} :
    s.compare? t = some .eq ↔ s ≤ t ∧ t ≤ s := by
  rw [le_iff_subset, le_iff_subset]
  unfold compare?
  cases s.subset t <;> cases t.subset s <;> decide

theorem compare?_eq_some_lt_iff {s t : BitSet} :
    s.compare? t = some .lt ↔ s ≤ t ∧ ¬ t ≤ s := by
  rw [le_iff_subset, le_iff_subset]
  unfold compare?
  cases s.subset t <;> cases t.subset s <;> decide

/-! ## The lattice -/

/-- The bit sets of a width. -/
@[ext] structure OfWidth (w : Nat) where
  toBitSet : BitSet
  width_eq : toBitSet.width = w

namespace OfWidth

variable {w : Nat}

instance : PartialOrder (OfWidth w) where
  le a b := a.toBitSet ≤ b.toBitSet
  le_refl _ := le_iff.2 fun _ hi => hi
  le_trans _ _ _ hab hbc := le_iff.2 fun i hi => le_iff.1 hbc i (le_iff.1 hab i hi)
  le_antisymm a b hab hba := by
    refine OfWidth.ext (ext_iff_mem.2 ⟨a.width_eq.trans b.width_eq.symm, fun i => ?_⟩)
    exact ⟨le_iff.1 hab i, le_iff.1 hba i⟩

instance : SemilatticeSup (OfWidth w) where
  sup a b := ⟨a.toBitSet.join b.toBitSet, by
    rw [width_join, a.width_eq, b.width_eq, Nat.max_self]⟩
  le_sup_left _ _ := le_iff.2 fun _ hi => mem_join.2 (Or.inl hi)
  le_sup_right _ _ := le_iff.2 fun _ hi => mem_join.2 (Or.inr hi)
  sup_le _ _ _ hac hbc := le_iff.2 fun i hi => by
    rcases mem_join.1 hi with hi | hi
    · exact le_iff.1 hac i hi
    · exact le_iff.1 hbc i hi

instance : SemilatticeInf (OfWidth w) where
  inf a b := ⟨a.toBitSet.meet b.toBitSet, a.width_eq⟩
  inf_le_left _ _ := le_iff.2 fun _ hi => (mem_meet.1 hi).1
  inf_le_right _ _ := le_iff.2 fun _ hi => (mem_meet.1 hi).2
  le_inf _ _ _ hab hac := le_iff.2 fun i hi => mem_meet.2 ⟨le_iff.1 hab i hi, le_iff.1 hac i hi⟩

instance : BoundedOrder (OfWidth w) where
  top := ⟨.top w, rfl⟩
  le_top a := le_iff.2 fun _ hi => mem_top.2 (a.width_eq ▸ lt_width_of_mem hi)
  bot := ⟨.bottom w, rfl⟩
  bot_le _ := le_iff.2 fun i hi => absurd hi (not_mem_bottom i w)

/-- On one width the comparison and equality agree. -/
theorem compare?_eq_some_eq_iff {a b : OfWidth w} :
    a.toBitSet.compare? b.toBitSet = some .eq ↔ a.toBitSet = b.toBitSet :=
  BitSet.compare?_eq_some_eq_iff.trans (le_antisymm_iff.symm.trans OfWidth.ext_iff)

end OfWidth

/-! ## Rising sequences -/

/-- A lesser set of the same width has fewer members. -/
theorem count_lt_of_compare? {s t : BitSet} (hwidth : s.width = t.width)
    (h : s.compare? t = some .lt) : s.count < t.count := by
  obtain ⟨hle, hnot⟩ := compare?_eq_some_lt_iff.1 h
  have hbelow : Below s.width s t := ⟨by omega, le_iff.1 hle⟩
  have hne : t ≠ s := by
    rintro rfl
    exact hnot hle
  have hrank := hbelow.rank_lt (Nat.le_refl _) (Nat.le_of_eq hwidth) hne
  omega

/-- Every step of a rising sequence takes a member more, and there are no more of them than
the width. -/
theorem length_add_count_le {w : Nat} {s : BitSet} {chain : List BitSet}
    (hwidth : ∀ t ∈ s :: chain, t.width = w)
    (hchain : (s :: chain).IsChain fun s t => s.compare? t = some .lt) :
    chain.length + s.count ≤ w := by
  induction chain generalizing s with
  | nil =>
      rw [List.length_nil, Nat.zero_add, ← hwidth s (by simp)]
      exact s.count_le_width
  | cons t chain ih =>
      obtain ⟨hlt, hrest⟩ := List.isChain_cons_cons.1 hchain
      obtain ⟨hs, htail⟩ := List.forall_mem_cons.1 hwidth
      have hcount := count_lt_of_compare? (hs.trans (htail t (by simp)).symm) hlt
      have hlength := ih htail hrest
      rw [List.length_cons]
      omega

theorem length_le_of_isChain {w : Nat} {chain : List BitSet} (hwidth : ∀ s ∈ chain, s.width = w)
    (hchain : chain.IsChain fun s t => s.compare? t = some .lt) : chain.length ≤ w + 1 := by
  cases chain with
  | nil => exact Nat.zero_le _
  | cons s chain =>
      have hlength := length_add_count_le hwidth hchain
      rw [List.length_cons]
      omega

/-! ## The main result -/

/-- **The bit sets of a width form a lattice.**  Joins and meets keep the width.  They are
idempotent, commutative and associative, with the empty set and the set of all numbers as
their units.  These two are the least and the greatest set in the order of the comparison, a
join is the least upper bound of two sets and a meet the greatest lower bound.  A set is at
most another one if and only if their join is the other one, and a run that compares two
values sees the same order.  Sets compare as equal if and only if they are.  A rising sequence
has at most `w + 1` sets. -/
theorem lattice_of_width (w : Nat) :
    (bottom w).width = w ∧ (top w).width = w ∧
    (∀ a b c : BitSet, a.width = w → b.width = w → c.width = w →
      ((a.join b).width = w ∧ (a.meet b).width = w) ∧
      (a.join a = a ∧ a.meet a = a) ∧
      (a.join b = b.join a ∧ a.meet b = b.meet a) ∧
      ((a.join b).join c = a.join (b.join c) ∧ (a.meet b).meet c = a.meet (b.meet c)) ∧
      ((bottom w).join a = a ∧ (top w).meet a = a) ∧
      (bottom w ≤ a ∧ a ≤ top w) ∧
      (a ≤ b → b ≤ c → a ≤ c) ∧
      (a ≤ a.join b ∧ b ≤ a.join b ∧ (a ≤ c → b ≤ c → a.join b ≤ c)) ∧
      (a.meet b ≤ a ∧ a.meet b ≤ b ∧ (c ≤ a → c ≤ b → c ≤ a.meet b)) ∧
      (a ≤ b ↔ a.join b = b) ∧
      (a ≤ b ↔ (Domain.sets w).le a b = true) ∧
      (a.compare? b = some .eq ↔ a = b) ∧
      b.compare? a = (a.compare? b).map Ordering.swap) ∧
    ∀ chain : List BitSet, (∀ s ∈ chain, s.width = w) →
      chain.IsChain (fun s t => s.compare? t = some .lt) → chain.length ≤ w + 1 := by
  refine ⟨rfl, rfl, fun a b c ha hb hc => ?_, fun chain hwidth hchain => ?_⟩
  · -- the laws are those of the lattice of the width, read for the sets in it
    obtain ⟨a, rfl⟩ : ∃ x : OfWidth w, x.toBitSet = a := ⟨⟨a, ha⟩, rfl⟩
    obtain ⟨b, rfl⟩ : ∃ x : OfWidth w, x.toBitSet = b := ⟨⟨b, hb⟩, rfl⟩
    obtain ⟨c, rfl⟩ : ∃ x : OfWidth w, x.toBitSet = c := ⟨⟨c, hc⟩, rfl⟩
    have hbounds : ⊥ ≤ a ∧ a ≤ ⊤ := ⟨bot_le, le_top⟩
    have hlub : a ≤ a ⊔ b ∧ b ≤ a ⊔ b ∧ (a ≤ c → b ≤ c → a ⊔ b ≤ c) :=
      ⟨le_sup_left, le_sup_right, sup_le⟩
    have hglb : a ⊓ b ≤ a ∧ a ⊓ b ≤ b ∧ (c ≤ a → c ≤ b → c ≤ a ⊓ b) :=
      ⟨inf_le_left, inf_le_right, le_inf⟩
    have hjoin : a ≤ b ↔ a.toBitSet.join b.toBitSet = b.toBitSet :=
      sup_eq_right.symm.trans OfWidth.ext_iff
    refine ⟨⟨(a ⊔ b).width_eq, (a ⊓ b).width_eq⟩, ⟨?_, ?_⟩, ⟨?_, ?_⟩, ⟨?_, ?_⟩, ⟨?_, ?_⟩, hbounds,
      fun hab hbc => le_trans (show a ≤ b from hab) hbc, hlub, hglb, hjoin, le_iff_subset,
      OfWidth.compare?_eq_some_eq_iff, compare?_swap _ _⟩
    · exact OfWidth.ext_iff.1 (sup_idem a)
    · exact OfWidth.ext_iff.1 (inf_idem a)
    · exact OfWidth.ext_iff.1 (sup_comm a b)
    · exact OfWidth.ext_iff.1 (inf_comm a b)
    · exact OfWidth.ext_iff.1 (sup_assoc a b c)
    · exact OfWidth.ext_iff.1 (inf_assoc a b c)
    · exact OfWidth.ext_iff.1 (bot_sup_eq a)
    · exact OfWidth.ext_iff.1 (top_inf_eq a)
  · exact length_le_of_isChain hwidth hchain

/-- Neither of the two sets includes the other, and the sequence is as long as the width
allows. -/
theorem lattice_of_width_two :
    ((single 0).join (bottom 2)).compare? (single 1) = none ∧
      ((single 0).join (bottom 2)).join (single 1) =
        (single 1).join ((single 0).join (bottom 2)) ∧
      ((single 0).join (bottom 2)).join (single 1) ≤ top 2 ∧
      ([bottom 2, single 1, top 2].IsChain fun s t => s.compare? t = some .lt) ∧
      [bottom 2, single 1, top 2].length ≤ 2 + 1 := by
  obtain ⟨-, -, hlaws, hheight⟩ := lattice_of_width 2
  obtain ⟨-, -, ⟨hcomm, -⟩, -, -, -, -, ⟨-, -, hlub⟩, -⟩ :=
    hlaws ((single 0).join (bottom 2)) (single 1) (top 2) rfl rfl rfl
  have hchain : [bottom 2, single 1, top 2].IsChain fun s t => s.compare? t = some .lt := by
    decide
  refine ⟨by decide, hcomm, hlub ?_ ?_, hchain, hheight _ (by decide) hchain⟩
  · exact le_iff_subset.2 (by decide)
  · exact le_iff_subset.2 (by decide)

end ProgramFlow.BitSet
