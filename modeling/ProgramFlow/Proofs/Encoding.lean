import ProgramFlow.Program.Escape
import ProgramFlow.Proofs.Roster

/-!
# Values to bits and back

A catalog numbers the values of a list in the order in which they first occur.  Numbers and
values determine each other, and there are as many numbers as the sets of the catalog are
wide.  Two things follow for lists of values.  A list is refused for a value that has no
number and for no other reason: a number always has room in the set, whatever was inserted
before it.  And nothing is lost on the way to a set and back but repetitions and the order of
the list, or else the values that have no number.

* `BitSet.foldlM_insert?` — numbers below the width can be inserted one after the other.
* `Catalog.toBits?_eq_some_iff`, `Catalog.toBits?_eq_none_iff` — which lists have a set.
* `Catalog.toValues_toKnownBits`, `Catalog.toKnownBits_toValues` — to bits and back.
* `Catalog.Numbers`, `Catalog.Converts` — what numbers and conversions have to do.
* `Catalog.conversions_exact` — the catalog of a list does it.
-/

namespace ProgramFlow

/-! ## Inserting numbers -/

namespace BitSet

/-- Numbers below the width can be inserted one after the other, and the width stays. -/
theorem foldlM_insert? {s : BitSet} {is : List Nat} (h : ∀ i ∈ is, i < s.width) :
    is.foldlM insert? s = some (is.foldl (fun s i => s.join (.single i)) s) ∧
      (is.foldl (fun s i => s.join (.single i)) s).width = s.width := by
  induction is generalizing s with
  | nil => exact ⟨rfl, rfl⟩
  | cons i is ih =>
      obtain ⟨hi, his⟩ := List.forall_mem_cons.1 h
      have hwidth : (s.join (.single i)).width = s.width := by
        rw [width_join, width_single]
        omega
      have hinsert : s.insert? i = some (s.join (.single i)) := if_pos hi
      obtain ⟨hrest, hkept⟩ := ih (s := s.join (.single i)) fun j hj => hwidth ▸ his j hj
      rw [List.foldlM_cons, List.foldl_cons, hinsert]
      exact ⟨hrest, hkept.trans hwidth⟩

end BitSet

namespace Catalog

variable {α : Type} [DecidableEq α] {c : Catalog α}

/-! ## Lists of values as sets -/

theorem lt_size_of_mem_filterMap {as : List α} {i : Nat} (h : i ∈ as.filterMap c.index?) :
    i < c.size := by
  obtain ⟨a, -, ha⟩ := List.mem_filterMap.1 h
  exact lt_size_of_index? ha

/-- The numbers of any values can be inserted into the empty set of the catalog. -/
theorem ofList?_filterMap_index? (c : Catalog α) (as : List α) :
    BitSet.ofList? c.size (as.filterMap c.index?) = some (c.toKnownBits as) :=
  (BitSet.foldlM_insert? fun _ => lt_size_of_mem_filterMap).1

@[simp] theorem width_toKnownBits (c : Catalog α) (as : List α) :
    (c.toKnownBits as).width = c.size :=
  (BitSet.foldlM_insert? fun _ => lt_size_of_mem_filterMap).2

/-- Looking a known value up and inserting its number is inserting its number. -/
theorem foldlM_of_known {as : List α} (h : ∀ a ∈ as, a ∈ c.values) (s : BitSet) :
    as.foldlM (fun s a => do s.insert? (← c.index? a)) s =
      (as.filterMap c.index?).foldlM BitSet.insert? s := by
  induction as generalizing s with
  | nil => rfl
  | cons a as ih =>
      obtain ⟨ha, has⟩ := List.forall_mem_cons.1 h
      obtain ⟨i, hi⟩ := Roster.exists_index? ha
      have hindex : c.index? a = some i := hi
      rw [List.foldlM_cons, List.filterMap_cons_some hindex, List.foldlM_cons, hindex]
      exact congrArg _ (funext fun t => ih has t)

theorem toBits?_of_known {as : List α} (h : ∀ a ∈ as, a ∈ c.values) :
    c.toBits? as = some (c.toKnownBits as) := by
  rw [toBits?, foldlM_of_known h]
  exact c.ofList?_filterMap_index? as

theorem foldlM_of_unknown {as : List α} {a : α} (ha : a ∈ as) (hnot : a ∉ c.values)
    (s : BitSet) : as.foldlM (fun s a => do s.insert? (← c.index? a)) s = none := by
  induction as generalizing s with
  | nil => cases ha
  | cons b as ih =>
      refine Option.bind_eq_none_iff.2 ?_
      intro t ht
      rcases List.mem_cons.1 ha with rfl | ha
      · have hnone : c.index? a = none := Roster.index?_eq_none_iff.2 hnot
        simp [hnone] at ht
      · exact ih ha t

theorem toBits?_eq_some_iff {as : List α} {s : BitSet} :
    c.toBits? as = some s ↔ (∀ a ∈ as, a ∈ c.values) ∧ c.toKnownBits as = s := by
  constructor
  · intro h
    have hknown : ∀ a ∈ as, a ∈ c.values := by
      intro a ha
      by_contra hnot
      rw [toBits?, foldlM_of_unknown ha hnot] at h
      cases h
    exact ⟨hknown, Option.some.inj ((toBits?_of_known hknown).symm.trans h)⟩
  · rintro ⟨hknown, rfl⟩
    exact toBits?_of_known hknown

/-- A list is refused for a value that is not catalogued, and for nothing else. -/
theorem toBits?_eq_none_iff {as : List α} : c.toBits? as = none ↔ ∃ a ∈ as, a ∉ c.values := by
  constructor
  · intro hnone
    by_contra hall
    have hknown : ∀ a ∈ as, a ∈ c.values := by simpa using hall
    simp [toBits?_of_known hknown] at hnone
  · rintro ⟨a, ha, hnot⟩
    exact foldlM_of_unknown ha hnot c.bottom

/-! ## And back -/

/-- Of the listed values those that are catalogued come back, in the order of the catalog. -/
theorem toValues_toKnownBits (c : Catalog α) (as : List α) :
    c.toValues (c.toKnownBits as) = c.values.toList.filter as.contains := by
  refine Roster.filterMap_get?_eq_filter fun i a hi => ?_
  rw [List.contains_iff_mem, mem_toKnownBits (value?_eq_some_iff.1 hi)]

theorem mem_values_of_mem_toValues {s : BitSet} {a : α} (h : a ∈ c.toValues s) : a ∈ c.values := by
  obtain ⟨i, hi, -⟩ := mem_toValues.1 h
  exact Roster.mem_iff_get?.2 ⟨i, value?_eq_some_iff.2 hi⟩

/-- A set of the catalog comes back. -/
theorem toKnownBits_toValues {s : BitSet} (h : s.width = c.size) :
    c.toKnownBits (c.toValues s) = s := by
  refine BitSet.ext_iff_mem.2 ⟨by rw [width_toKnownBits, h], fun i => ?_⟩
  by_cases hi : i < c.size
  · obtain ⟨a, ha⟩ := Roster.exists_get? hi
    have hindex : c.index? a = some i := value?_eq_some_iff.1 ha
    rw [mem_toKnownBits hindex, mem_toValues]
    simp [hindex]
  · -- there is no room for the number in either set
    have hleft : i ∉ c.toKnownBits (c.toValues s) := fun hmem =>
      hi (c.width_toKnownBits _ ▸ BitSet.lt_width_of_mem hmem)
    have hright : i ∉ s := fun hmem => hi (h ▸ BitSet.lt_width_of_mem hmem)
    exact iff_of_false hleft hright

/-! ## The catalog of a list -/

/-- The catalog numbers the values of the list. -/
structure Numbers (c : Catalog α) (as : List α) : Prop where
  /-- Numbers and values determine each other. -/
  index?_eq_some_iff : ∀ a i, c.index? a = some i ↔ c.value? i = some a
  /-- The listed values have numbers. -/
  exists_index?_iff : ∀ a, (∃ i, c.index? a = some i) ↔ a ∈ as
  /-- The numbers are those below the size. -/
  exists_value?_iff : ∀ i, (∃ a, c.value? i = some a) ↔ i < c.size
  /-- Values are numbered by their first occurrences. -/
  lt_iff : ∀ a b i j, c.index? a = some i → c.index? b = some j →
    (i < j ↔ as.idxOf a < as.idxOf b)

/-- The catalog turns values of the list into sets and back. -/
structure Converts (c : Catalog α) (as : List α) : Prop where
  /-- A list is refused for a value that is not in the list of the catalog. -/
  toBits?_eq_none_iff : ∀ vs, c.toBits? vs = none ↔ ∃ v ∈ vs, v ∉ as
  /-- Any other list comes back without repetitions, in the order of the catalog. -/
  toValues_eq : ∀ vs s, c.toBits? vs = some s →
    s.width = c.size ∧ c.toValues s = c.values.toList.filter vs.contains
  /-- Every set of the catalog comes back as it was. -/
  toBits?_toValues : ∀ s, s.width = c.size → c.toBits? (c.toValues s) = some s
  /-- There is room for the numbers of any values, so that no insertion fails on the way. -/
  ofList?_eq : ∀ vs, BitSet.ofList? c.size (vs.filterMap c.index?) = some (c.toKnownBits vs)

theorem idxOf_lt_of_lt {as : List α} {a b : α} {i j : Nat}
    (ha : (ofList as).index? a = some i) (hb : (ofList as).index? b = some j) (hij : i < j) :
    as.idxOf a < as.idxOf b := by
  obtain ⟨hi, hai⟩ := List.getElem?_eq_some_iff.1 (value?_eq_some_iff.2 ha)
  obtain ⟨hj, hbj⟩ := List.getElem?_eq_some_iff.1 (value?_eq_some_iff.2 hb)
  rw [← hai, ← hbj]
  exact List.pairwise_iff_getElem.1 (Roster.pairwise_idxOf_ofList as) i j hi hj hij

theorem numbers_ofList (as : List α) : (ofList as).Numbers as where
  index?_eq_some_iff _ _ := value?_eq_some_iff.symm
  exists_index?_iff a := by
    constructor
    · rintro ⟨i, hi⟩
      exact Roster.mem_ofList.1 (Roster.mem_iff_get?.2 ⟨i, value?_eq_some_iff.2 hi⟩)
    · exact exists_index?_ofList
  exists_value?_iff i := by
    constructor
    · rintro ⟨a, ha⟩
      exact Roster.lt_size_of_get? ha
    · exact Roster.exists_get?
  lt_iff a b i j ha hb := by
    refine ⟨idxOf_lt_of_lt ha hb, fun hlt => ?_⟩
    by_contra hge
    rcases Nat.eq_or_lt_of_le (Nat.le_of_not_lt hge) with rfl | hji
    · obtain rfl : a = b := index?_inj ha hb
      omega
    · have := idxOf_lt_of_lt hb ha hji
      omega

theorem converts_ofList (as : List α) : (ofList as).Converts as where
  toBits?_eq_none_iff vs := by
    rw [Catalog.toBits?_eq_none_iff]
    simp only [ofList, Roster.mem_ofList]
  toValues_eq vs s hs := by
    obtain ⟨-, rfl⟩ := toBits?_eq_some_iff.1 hs
    exact ⟨width_toKnownBits _ vs, toValues_toKnownBits _ vs⟩
  toBits?_toValues _ hs :=
    toBits?_eq_some_iff.2 ⟨fun _ => mem_values_of_mem_toValues, toKnownBits_toValues hs⟩
  ofList?_eq := ofList?_filterMap_index? _

/-- **Catalogs convert exactly.**  The catalog of a list numbers the values of the list by
their first occurrences, and turns lists of values into sets and back.  Where values without a
number are passed over, names come back in ascending order, and they are those of the listed
ones that are catalogued. -/
theorem conversions_exact (as : List α) (types : List String) :
    (ofList as).Numbers as ∧ (ofList as).Converts as ∧
      ∀ vs, ((ofList types).names ((ofList types).toKnownBits vs)).Pairwise (· < ·) ∧
        ∀ e, e ∈ (ofList types).names ((ofList types).toKnownBits vs) ↔ e ∈ vs ∧ e ∈ types := by
  refine ⟨numbers_ofList as, converts_ofList as, fun vs => ⟨Names.pairwise_ofList _, fun e => ?_⟩⟩
  rw [names, Names.mem_ofList, toValues_toKnownBits, List.mem_filter, List.contains_iff_mem,
    and_comm]
  exact and_congr_right fun _ => Roster.mem_ofList

/-- A list with repetitions, and one with a value that the catalog does not know. -/
theorem conversions_exact_repeated :
    (ofList [7, 3, 7, 5]).toBits? [5, 4] = none ∧
      (∃ s, (ofList [7, 3, 7, 5]).toBits? [5, 7, 5] = some s ∧
        (ofList [7, 3, 7, 5]).toValues s = [7, 5]) ∧
      (ofList ["B", "A"]).names ((ofList ["B", "A"]).toKnownBits ["C", "A"]) ≠ [] := by
  obtain ⟨-, hconverts, hnames⟩ := conversions_exact [7, 3, 7, 5] ["B", "A"]
  refine ⟨(hconverts.toBits?_eq_none_iff _).2 ⟨4, by decide, by decide⟩, ?_, ?_⟩
  · cases hs : (ofList [7, 3, 7, 5]).toBits? [5, 7, 5] with
    | none =>
        obtain ⟨v, hv, hnot⟩ := (hconverts.toBits?_eq_none_iff _).1 hs
        have hall : ∀ v ∈ [5, 7, 5], v ∈ [7, 3, 7, 5] := by decide
        exact absurd (hall v hv) hnot
    | some s => exact ⟨s, rfl, (hconverts.toValues_eq _ s hs).2.trans (by decide)⟩
  · exact List.ne_nil_of_mem (((hnames _).2 "A").2 ⟨by simp, by simp⟩)

end Catalog

end ProgramFlow
