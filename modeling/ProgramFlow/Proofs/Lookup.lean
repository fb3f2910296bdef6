import Mathlib.Data.List.Forall2
import ProgramFlow.Graph.Basic

/-!
# Lookups one after the other

A computation that looks several things up ends with the first lookup that fails.
It succeeds if all of its lookups do, and then the answers are known one by one.

* `bind_eq_ok_iff`, `mapM_eq_ok_iff`, `forM_eq_ok_iff` — when two lookups, a row of
  lookups with answers and a row of checks succeed.
* `mem_of_mapM_eq_ok`, `pairwise_of_mapM_eq_ok` — what the answers of a row of lookups are, and
  in which order.
* `bind_eq_error_iff`, `mapM_eq_error_iff` — a row of lookups fails like the first of them
  that does.
-/

namespace ProgramFlow

variable {α β γ ε : Type}

theorem bind_eq_ok_iff {x : Except ε α} {f : α → Except ε β} {b : β} :
    (x >>= f) = .ok b ↔ ∃ a, x = .ok a ∧ f a = .ok b := by
  cases x with
  | error e => simp [bind, Except.bind]
  | ok a => simp [bind, Except.bind]

theorem bind_eq_error_iff {x : Except ε α} {f : α → Except ε β} {e : ε} :
    (x >>= f) = .error e ↔ x = .error e ∨ ∃ a, x = .ok a ∧ f a = .error e := by
  cases x with
  | error e' => simp [bind, Except.bind]
  | ok a => simp [bind, Except.bind]

theorem map_map_eq (x : Except ε α) (f : α → β) (g : β → γ) :
    (x.map f).map g = x.map (g ∘ f) := by
  cases x <;> rfl

/-- A row of lookups succeeds if each of them does. -/
theorem mapM_eq_ok_iff {f : α → Except ε β} {as : List α} {bs : List β} :
    as.mapM f = .ok bs ↔ List.Forall₂ (fun a b => f a = .ok b) as bs := by
  induction as generalizing bs with
  | nil =>
      rw [List.mapM_nil, List.forall₂_nil_left_iff]
      exact ⟨fun h => (Except.ok.inj h).symm, fun h => by rw [h]; rfl⟩
  | cons a as ih =>
      rw [List.mapM_cons, List.forall₂_cons_left_iff]
      simp only [bind_eq_ok_iff, ih]
      constructor
      · rintro ⟨b, hb, bs', hbs, h⟩
        exact ⟨b, bs', hb, hbs, (Except.ok.inj h).symm⟩
      · rintro ⟨b, bs', hb, hbs, rfl⟩
        exact ⟨b, hb, bs', hbs, rfl⟩

theorem exists_mapM_eq_ok {f : α → Except ε β} {as : List α}
    (h : ∀ a ∈ as, ∃ b, f a = .ok b) : ∃ bs, as.mapM f = .ok bs := by
  induction as with
  | nil => exact ⟨[], rfl⟩
  | cons a as ih =>
      obtain ⟨b, hb⟩ := h a (by simp)
      obtain ⟨bs, hbs⟩ := ih fun a' ha' => h a' (List.mem_cons_of_mem _ ha')
      exact ⟨b :: bs, mapM_eq_ok_iff.2 (.cons hb (mapM_eq_ok_iff.1 hbs))⟩

theorem mem_of_mapM_eq_ok {f : α → Except ε β} {as : List α} {bs : List β}
    (h : as.mapM f = .ok bs) {b : β} : b ∈ bs ↔ ∃ a ∈ as, f a = .ok b := by
  have hrows := mapM_eq_ok_iff.1 h
  clear h
  induction hrows with
  | nil => simp
  | cons ha _ ih => simp [ha, ih, eq_comm]

/-- Answers stand in the order of their lookups. -/
theorem pairwise_of_mapM_eq_ok {f : α → Except ε β} {as : List α} {bs : List β}
    (h : as.mapM f = .ok bs) {R : α → α → Prop} {S : β → β → Prop} (has : as.Pairwise R)
    (hRS : ∀ a b a' b', R a a' → f a = .ok b → f a' = .ok b' → S b b') : bs.Pairwise S := by
  have hrows := mapM_eq_ok_iff.1 h
  induction hrows with
  | nil => exact .nil
  | cons ha htail ih =>
      obtain ⟨hfirst, hrest⟩ := List.pairwise_cons.1 has
      have htail' := mapM_eq_ok_iff.2 htail
      refine .cons (fun b' hb' => ?_) (ih htail' hrest)
      obtain ⟨a', ha', hfa'⟩ := (mem_of_mapM_eq_ok htail').1 hb'
      exact hRS _ _ _ _ (hfirst a' ha') ha hfa'

theorem mapM_cons_eq_error_iff {f : α → Except ε β} {a : α} {as : List α} {e : ε} :
    (a :: as).mapM f = .error e ↔
      f a = .error e ∨ (∃ b, f a = .ok b) ∧ as.mapM f = .error e := by
  rw [List.mapM_cons]
  simp only [bind_eq_error_iff, pure, Except.pure, reduceCtorEq, and_false, exists_false, or_false,
    exists_and_right]

/-- A row of lookups fails like the first of them that fails. -/
theorem mapM_eq_error_iff {f : α → Except ε β} {as : List α} {e : ε} :
    as.mapM f = .error e ↔ ∃ before a after, as = before ++ a :: after ∧
      (∀ a' ∈ before, ∃ b, f a' = .ok b) ∧ f a = .error e := by
  induction as with
  | nil => simp [pure, Except.pure]
  | cons a as ih =>
      rw [mapM_cons_eq_error_iff, ih]
      constructor
      · rintro (ha | ⟨ha, before, a', after, rfl, hbefore, ha'⟩)
        · exact ⟨[], a, as, rfl, by simp, ha⟩
        · exact ⟨a :: before, a', after, rfl, List.forall_mem_cons.2 ⟨ha, hbefore⟩, ha'⟩
      · rintro ⟨before, a', after, hsplit, hbefore, ha'⟩
        cases before with
        | nil =>
            obtain ⟨rfl, rfl⟩ := List.cons.inj hsplit
            exact Or.inl ha'
        | cons b before =>
            obtain ⟨rfl, rfl⟩ := List.cons.inj hsplit
            obtain ⟨ha, hbefore⟩ := List.forall_mem_cons.1 hbefore
            exact Or.inr ⟨ha, before, a', after, rfl, hbefore, ha'⟩

/-- A row of checks succeeds if each of them does. -/
theorem forM_eq_ok_iff {f : α → Except ε Unit} {as : List α} {u : Unit} :
    as.forM f = .ok u ↔ ∀ a ∈ as, f a = .ok () := by
  induction as with
  | nil => exact ⟨fun _ a ha => absurd ha List.not_mem_nil, fun _ => rfl⟩
  | cons a as ih =>
      show (f a >>= fun _ => as.forM f) = .ok u ↔ _
      rw [bind_eq_ok_iff, List.forall_mem_cons, ← ih]
      exact ⟨fun ⟨_, ha, has⟩ => ⟨ha, has⟩, fun ⟨ha, has⟩ => ⟨(), ha, has⟩⟩

end ProgramFlow
