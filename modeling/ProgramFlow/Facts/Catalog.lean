import ProgramFlow.Facts.BitSet
import ProgramFlow.Facts.Roster

/-!
# Catalogs: values as bit numbers

A catalog numbers the distinct values of a list in order of first occurrence, so
that a set of values can be written as a bit set and read back.  Both directions
are total: `toBits?` has an answer for every list of catalogued values, and
`toValues` passes over bits that no value has.
-/

namespace ProgramFlow

/-- Distinct values with their numbers. -/
structure Catalog (α : Type) where
  values : Roster α

namespace Catalog

variable {α : Type} [DecidableEq α]

/-- The catalog of the values of a list. -/
def ofList (as : List α) : Catalog α := ⟨.ofList as⟩

/-- How many values there are.  This is the width of the sets of the catalog. -/
def size (c : Catalog α) : Nat := c.values.size

/-- The set without values. -/
def bottom (c : Catalog α) : BitSet := .bottom c.size

/-- The number of a value. -/
def index? (c : Catalog α) (a : α) : Option Nat := c.values.index? a

/-- The value of a number. -/
def value? (c : Catalog α) (i : Nat) : Option α := c.values.get? i

/-- The set of the listed values, `none` if one of them is not catalogued. -/
def toBits? (c : Catalog α) (as : List α) : Option BitSet :=
  as.foldlM (fun s a => do s.insert? (← c.index? a)) c.bottom

/-- The set of those listed values that are catalogued. -/
def toKnownBits (c : Catalog α) (as : List α) : BitSet :=
  (as.filterMap c.index?).foldl (fun s i => s.join (.single i)) c.bottom

/-- The values of a set, in the order of the catalog. -/
def toValues (c : Catalog α) (s : BitSet) : List α := s.toList.filterMap c.value?

/-! ## Values and their bits -/

theorem value?_eq_some_iff {c : Catalog α} {i : Nat} {a : α} :
    c.value? i = some a ↔ c.index? a = some i :=
  Roster.index?_eq_some_iff.symm

theorem index?_inj {c : Catalog α} {i : Nat} {a b : α} (ha : c.index? a = some i)
    (hb : c.index? b = some i) : a = b :=
  Option.some.inj ((value?_eq_some_iff.2 ha).symm.trans (value?_eq_some_iff.2 hb))

theorem lt_size_of_index? {c : Catalog α} {i : Nat} {a : α} (h : c.index? a = some i) :
    i < c.size :=
  Roster.lt_size_of_get? (Roster.index?_eq_some_iff.1 h)

theorem exists_index?_ofList {as : List α} {a : α} (h : a ∈ as) :
    ∃ i, (ofList as).index? a = some i :=
  Roster.exists_index? (Roster.mem_ofList.2 h)

/-- A bit is set for the listed value that has its number. -/
theorem mem_toKnownBits {c : Catalog α} {as : List α} {i : Nat} {a : α}
    (ha : c.index? a = some i) : i ∈ c.toKnownBits as ↔ a ∈ as := by
  rw [toKnownBits, BitSet.mem_foldl_join]
  simp only [bottom, BitSet.not_mem_bottom, false_or, List.mem_filterMap, BitSet.mem_single]
  constructor
  · rintro ⟨j, ⟨b, hb, hbj⟩, rfl⟩
    exact index?_inj ha hbj ▸ hb
  · intro h
    exact ⟨i, ⟨a, h, ha⟩, rfl⟩

theorem mem_toValues {c : Catalog α} {s : BitSet} {a : α} :
    a ∈ c.toValues s ↔ ∃ i, c.index? a = some i ∧ i ∈ s := by
  simp only [toValues, List.mem_filterMap, BitSet.mem_toList, value?_eq_some_iff]
  constructor
  · rintro ⟨i, hi, ha⟩
    exact ⟨i, ha, hi⟩
  · rintro ⟨i, ha, hi⟩
    exact ⟨i, hi, ha⟩

end Catalog

end ProgramFlow
