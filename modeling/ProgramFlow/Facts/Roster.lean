/-!
# Rosters: distinct values in order of arrival

A roster lists values without repetition, in the order in which they were first
inserted.  Slices, the nodes of a graph, the values a catalog numbers and the
entry points of a program are rosters.

* `insert` — appends a value unless it is present already.
* `index?`, `position` and `get?` — positions, counted from zero.  A position never changes
  once it is given, because nothing is ever removed.
* `toList_insert`, `mem_insert` — what an insertion does to the list and to
  membership.
* `exists_toList_insertAll` — what several insertions do to the list.
* `index?_eq_some_iff`, `get?_inj` — positions and values determine each other.
-/

namespace ProgramFlow

/-- Distinct values in order of first insertion. -/
structure Roster (α : Type) where
  toList : List α
  nodup : toList.Nodup

namespace Roster

variable {α : Type}

/-- The roster without values. -/
def empty : Roster α := ⟨[], List.nodup_nil⟩

instance : Inhabited (Roster α) := ⟨empty⟩

instance : Membership α (Roster α) := ⟨fun r a => a ∈ r.toList⟩

theorem mem_def {a : α} {r : Roster α} : a ∈ r ↔ a ∈ r.toList := Iff.rfl

theorem toList_inj {r s : Roster α} : r.toList = s.toList ↔ r = s := by
  cases r
  cases s
  exact (mk.injEq ..).to_iff.symm

@[simp] theorem toList_empty : (empty : Roster α).toList = [] := rfl

/-- The number of values. -/
def size (r : Roster α) : Nat := r.toList.length

/-- The value at a position. -/
def get? (r : Roster α) (i : Nat) : Option α := r.toList[i]?

variable [DecidableEq α]

instance (a : α) (r : Roster α) : Decidable (a ∈ r) :=
  inferInstanceAs (Decidable (a ∈ r.toList))

/-- Is the value on the roster? -/
def contains (r : Roster α) (a : α) : Bool := decide (a ∈ r)

/-- Append a value, unless it is on the roster already. -/
def insert (r : Roster α) (a : α) : Roster α :=
  if h : a ∈ r.toList then r
  else ⟨r.toList ++ [a], by
    refine List.nodup_append.2 ⟨r.nodup, by simp, ?_⟩
    intro x hx y hy hxy
    simp only [List.mem_singleton] at hy
    exact h (by rwa [← hy, ← hxy])⟩

/-- Append a value, and tell whether it is a new one. -/
def insertNew (r : Roster α) (a : α) : Bool × Roster α := (!r.contains a, r.insert a)

/-- Append the values of a list, one after the other. -/
def insertAll (r : Roster α) (as : List α) : Roster α := as.foldl insert r

/-- The values of a list, each at its first occurrence. -/
def ofList (as : List α) : Roster α := empty.insertAll as

/-- The position of a value. -/
def index? (r : Roster α) (a : α) : Option Nat := r.toList.idxOf? a

/-- The position of a value, and the number of values if it is not on the roster. -/
def position (r : Roster α) (a : α) : Nat := r.toList.idxOf a

theorem toList_insert (r : Roster α) (a : α) :
    (r.insert a).toList = if a ∈ r.toList then r.toList else r.toList ++ [a] := by
  unfold insert
  split <;> simp_all

theorem insert_of_mem {r : Roster α} {a : α} (h : a ∈ r) : r.insert a = r := by
  rw [mem_def] at h
  simp [insert, h]

@[simp] theorem mem_insert {r : Roster α} {a b : α} : b ∈ r.insert a ↔ b ∈ r ∨ b = a := by
  rw [mem_def, toList_insert, mem_def]
  split
  · constructor
    · exact Or.inl
    · rintro (h | rfl) <;> assumption
  · simp

@[simp] theorem contains_iff {r : Roster α} {a : α} : r.contains a = true ↔ a ∈ r := by
  simp [contains]

theorem subset_insertAll (r : Roster α) (as : List α) {b : α} (h : b ∈ r) :
    b ∈ r.insertAll as := by
  induction as generalizing r with
  | nil => exact h
  | cons a as ih => exact ih (r.insert a) (mem_insert.2 (Or.inl h))

@[simp] theorem mem_insertAll {r : Roster α} {as : List α} {b : α} :
    b ∈ r.insertAll as ↔ b ∈ r ∨ b ∈ as := by
  induction as generalizing r with
  | nil => simp [insertAll]
  | cons a as ih =>
      rw [insertAll, List.foldl_cons, ← insertAll, ih, mem_insert, List.mem_cons, or_assoc]

theorem insertAll_of_forall_mem {r : Roster α} {as : List α} (h : ∀ a ∈ as, a ∈ r) :
    r.insertAll as = r := by
  induction as generalizing r with
  | nil => rfl
  | cons a as ih =>
      rw [insertAll, List.foldl_cons, ← insertAll, insert_of_mem (h a (by simp))]
      exact ih fun b hb => h b (List.mem_cons_of_mem _ hb)

@[simp] theorem mem_ofList {as : List α} {a : α} : a ∈ ofList as ↔ a ∈ as := by
  rw [ofList, mem_insertAll, mem_def, toList_empty]
  simp

/-- What is new among the inserted values stands behind the others, in the order in which it
was inserted. -/
theorem exists_toList_insertAll (r : Roster α) (as : List α) :
    ∃ new, (r.insertAll as).toList = r.toList ++ new ∧ new.Sublist as ∧ ∀ a ∈ new, a ∉ r := by
  induction as generalizing r with
  | nil => exact ⟨[], by simp [insertAll], .slnil, by simp⟩
  | cons a as ih =>
      obtain ⟨new, hlist, hsub, hnew⟩ := ih (r.insert a)
      by_cases ha : a ∈ r
      · rw [insert_of_mem ha] at hlist hnew
        refine ⟨new, ?_, hsub.cons a, hnew⟩
        rw [insertAll, List.foldl_cons, insert_of_mem ha, ← insertAll, hlist]
      · refine ⟨a :: new, ?_, hsub.cons_cons a, ?_⟩
        · rw [insertAll, List.foldl_cons, ← insertAll, hlist, toList_insert,
            if_neg (mt mem_def.2 ha), List.append_assoc]
          rfl
        · intro b hb
          rcases List.mem_cons.1 hb with rfl | hb
          · exact ha
          · exact fun hmem => hnew b hb (mem_insert.2 (Or.inl hmem))

/-! ## Positions -/

omit [DecidableEq α] in
theorem get?_inj {r : Roster α} {i j : Nat} {a : α} (hi : r.get? i = some a)
    (hj : r.get? j = some a) : i = j := by
  obtain ⟨hlt, -⟩ := List.getElem?_eq_some_iff.1 hi
  exact (List.getElem?_inj hlt r.nodup).1 (hi.trans hj.symm)

@[simp] theorem index?_eq_none_iff {r : Roster α} {a : α} : r.index? a = none ↔ a ∉ r :=
  List.idxOf?_eq_none_iff

/-- The position of a value is where the value is. -/
theorem index?_eq_some_iff {r : Roster α} {a : α} {i : Nat} :
    r.index? a = some i ↔ r.get? i = some a := by
  constructor
  · intro h
    obtain ⟨hlt, hget, -⟩ := List.idxOf?_eq_some_iff.1 h
    exact List.getElem?_eq_some_iff.2 ⟨hlt, hget⟩
  · intro h
    cases hidx : r.index? a with
    | none => exact absurd (List.mem_of_getElem? h) (index?_eq_none_iff.1 hidx)
    | some j =>
        obtain ⟨hlt, hget, -⟩ := List.idxOf?_eq_some_iff.1 hidx
        exact congrArg some (get?_inj (List.getElem?_eq_some_iff.2 ⟨hlt, hget⟩) h)

theorem exists_index? {r : Roster α} {a : α} (h : a ∈ r) : ∃ i, r.index? a = some i :=
  Option.ne_none_iff_exists'.1 fun hnone => index?_eq_none_iff.1 hnone h

theorem get?_position {r : Roster α} {a : α} (h : a ∈ r) : r.get? (r.position a) = some a :=
  List.getElem?_eq_some_iff.2 ⟨List.idxOf_lt_length_of_mem h, List.getElem_idxOf _⟩

omit [DecidableEq α] in
theorem mem_iff_get? {r : Roster α} {a : α} : a ∈ r ↔ ∃ i, r.get? i = some a :=
  List.mem_iff_getElem?

omit [DecidableEq α] in
theorem lt_size_of_get? {r : Roster α} {i : Nat} {a : α} (h : r.get? i = some a) : i < r.size :=
  (List.getElem?_eq_some_iff.1 h).1

omit [DecidableEq α] in
theorem exists_get? {r : Roster α} {i : Nat} (h : i < r.size) : ∃ a, r.get? i = some a :=
  ⟨_, List.getElem?_eq_getElem h⟩

omit [DecidableEq α] in
/-- A longer roster with the same beginning has the same values there. -/
theorem get?_of_extends {r s : Roster α} (h : r.toList <+: s.toList) {i : Nat} {a : α}
    (hi : r.get? i = some a) : s.get? i = some a := by
  obtain ⟨hlt, rfl⟩ := List.getElem?_eq_some_iff.1 hi
  exact List.prefix_iff_getElem?.1 h i hlt

/-- What is inserted later does not move what is there. -/
theorem get?_insertAll {r : Roster α} {i : Nat} {a : α} (h : r.get? i = some a) (as : List α) :
    (r.insertAll as).get? i = some a := by
  obtain ⟨new, hlist, -⟩ := r.exists_toList_insertAll as
  exact get?_of_extends ⟨new, hlist.symm⟩ h

end Roster

end ProgramFlow
