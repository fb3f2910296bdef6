/-!
# Sets of names

A set of names is written as the list of its members in ascending order, without
repetition.  Names are compared character by character, by code point.
-/

namespace ProgramFlow

namespace Names

/-- Put a name into its place in an ascending list, unless it is there already. -/
def insert (a : String) : List String → List String
  | [] => [a]
  | b :: bs => if a = b then b :: bs else if a < b then a :: b :: bs else b :: insert a bs

/-- The names of a list in ascending order, each once. -/
def ofList (as : List String) : List String := as.foldr insert []

@[simp] theorem mem_insert {a c : String} {bs : List String} :
    c ∈ insert a bs ↔ c = a ∨ c ∈ bs := by
  induction bs with
  | nil => simp [insert]
  | cons b bs ih => grind [insert]

@[simp] theorem mem_ofList {c : String} {as : List String} : c ∈ ofList as ↔ c ∈ as := by
  induction as with
  | nil => simp [ofList]
  | cons a as ih => simpa [ofList] using or_congr_right ih

theorem pairwise_insert {a : String} {bs : List String} (h : bs.Pairwise (· < ·)) :
    (insert a bs).Pairwise (· < ·) := by
  induction bs with
  | nil => exact List.pairwise_singleton _ a
  | cons b bs ih =>
      obtain ⟨hb, hbs⟩ := List.pairwise_cons.1 h
      rw [insert]
      split
      · exact h
      · rename_i hne
        split
        · rename_i hlt
          refine .cons (fun c hc => ?_) h
          rcases List.mem_cons.1 hc with rfl | hc
          · exact hlt
          · exact String.lt_trans hlt (hb c hc)
        · refine .cons (fun c hc => ?_) (ih hbs)
          rcases mem_insert.1 hc with rfl | hc
          · grind
          · exact hb c hc

/-- The names come in ascending order, none of them twice. -/
theorem pairwise_ofList (as : List String) : (ofList as).Pairwise (· < ·) := by
  induction as with
  | nil => exact .nil
  | cons a as ih => exact pairwise_insert ih

end Names

end ProgramFlow
