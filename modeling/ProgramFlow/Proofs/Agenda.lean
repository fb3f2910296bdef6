import ProgramFlow.Fixpoint.Agenda

/-!
# Agendas hold what they flag

The queue of an agenda and its flags are written separately.  An agenda is
*exact* when the flags say what is in the queue and the queue holds nothing
twice.  Every operation keeps an agenda exact, whatever its discipline is, so
that from outside an agenda is a set of numbers of which one comes next.

* `Agenda.Exact` — flags and queue agree.
* `Agenda.Exact.pushAll`, `Agenda.mem_pushAll`, `Agenda.length_pushAll_le`,
  `Agenda.le_length_pushAll` — what queueing a list does to the set and to its size.
* `Agenda.Exact.of_pop` — what taking the next number leaves.
* `Agenda.Ranked`, `Agenda.Ranked.pushAll` — under a discipline by rank the queue is sorted.
-/

namespace ProgramFlow

variable {n : Nat}

/-- What a vector holds after one place has been written. -/
theorem get_set {α : Type} (v : Vector α n) (i j : Fin n) (a : α) :
    (v.set i a i.isLt).get j = if i = j then a else v.get j := by
  show (v.set i a i.isLt)[j.val] = if i = j then a else v[j.val]
  simp only [Vector.getElem_set, Fin.ext_iff]

theorem get_set_self {α : Type} (v : Vector α n) (i : Fin n) (a : α) :
    (v.set i a i.isLt).get i = a := by
  rw [get_set, if_pos rfl]

theorem get_set_of_ne {α : Type} (v : Vector α n) {i j : Fin n} (h : i ≠ j) (a : α) :
    (v.set i a i.isLt).get j = v.get j := by
  rw [get_set, if_neg h]

/-! ## Disciplines -/

/-- A discipline decides where a number goes, and loses nothing on the way. -/
theorem Discipline.place_perm (d : Discipline n) (i : Fin n) (queue : List (Fin n)) :
    (d.place i queue).Perm (i :: queue) := by
  cases d with
  | atEnd => exact List.perm_append_singleton i queue
  | atFront => exact List.Perm.refl _
  | byRank rank =>
      rw [Discipline.place]
      refine List.perm_middle.trans (List.Perm.cons i ?_)
      rw [List.takeWhile_append_dropWhile]

/-- Before everything with a greater rank, a number joins a sorted queue in its place. -/
theorem Discipline.pairwise_place {rank : Vector Nat n} {queue : List (Fin n)}
    (h : queue.Pairwise fun i j => rank.get i ≤ rank.get j) (i : Fin n) :
    ((byRank rank).place i queue).Pairwise fun i j => rank.get i ≤ rank.get j := by
  have hbefore : ∀ j ∈ queue.takeWhile (rank.get · < rank.get i), rank.get j < rank.get i := by
    intro j hj
    simpa using List.all_eq_true.1 List.all_takeWhile j hj
  have hafter : ∀ j ∈ queue.dropWhile (rank.get · < rank.get i), rank.get i ≤ rank.get j := by
    clear hbefore
    induction queue with
    | nil => simp
    | cons k queue ih =>
        obtain ⟨hk, hqueue⟩ := List.pairwise_cons.1 h
        rw [List.dropWhile_cons]
        split
        · exact ih hqueue
        · rename_i hrank
          have hle : rank.get i ≤ rank.get k := Nat.le_of_not_lt (by simpa using hrank)
          intro j hj
          rcases List.mem_cons.1 hj with rfl | hj
          · exact hle
          · exact Nat.le_trans hle (hk j hj)
  rw [place, List.pairwise_append, List.pairwise_cons]
  refine ⟨h.sublist (List.takeWhile_sublist _), ⟨hafter, h.sublist (List.dropWhile_sublist _)⟩, ?_⟩
  intro j hj k hk
  rcases List.mem_cons.1 hk with rfl | hk
  · exact Nat.le_of_lt (hbefore j hj)
  · exact Nat.le_trans (Nat.le_of_lt (hbefore j hj)) (hafter k hk)

namespace Agenda

/-- The flags say what is queued, and nothing is queued twice. -/
structure Exact (a : Agenda n) : Prop where
  queued_iff : ∀ i : Fin n, a.queued.get i = true ↔ i ∈ a.queue
  nodup : a.queue.Nodup

theorem exact_empty (d : Discipline n) : (empty d).Exact where
  queued_iff i := by
    have hflag : (empty d).queued.get i = false := Vector.getElem_replicate i.isLt
    rw [hflag]
    exact iff_of_false Bool.false_ne_true List.not_mem_nil
  nodup := List.nodup_nil

/-! ## Queueing -/

theorem push_of_mem {a : Agenda n} (ha : a.Exact) {i : Fin n} (h : i ∈ a.queue) :
    (a.push i).2 = a := by
  rw [push, if_pos ((ha.queued_iff i).2 h)]

theorem queue_push_of_not_mem {a : Agenda n} (ha : a.Exact) {i : Fin n} (h : i ∉ a.queue) :
    (a.push i).2.queue = a.discipline.place i a.queue := by
  rw [push, if_neg (fun hq => h ((ha.queued_iff i).1 hq))]

theorem Exact.push {a : Agenda n} (ha : a.Exact) (i : Fin n) : (a.push i).2.Exact := by
  by_cases h : i ∈ a.queue
  · rw [push_of_mem ha h]
    exact ha
  · have hperm := a.discipline.place_perm i a.queue
    rw [Agenda.push, if_neg (fun hq => h ((ha.queued_iff i).1 hq))]
    constructor
    · intro j
      have hmem : j ∈ a.discipline.place i a.queue ↔ j = i ∨ j ∈ a.queue := by
        rw [hperm.mem_iff, List.mem_cons]
      rw [hmem, get_set]
      by_cases hij : i = j
      · simp [hij]
      · rw [if_neg hij, ha.queued_iff j]
        exact ⟨Or.inr, fun hj => hj.resolve_left (Ne.symm hij)⟩
    · exact hperm.nodup_iff.2 (List.nodup_cons.2 ⟨h, ha.nodup⟩)

theorem mem_push {a : Agenda n} (ha : a.Exact) {i j : Fin n} :
    j ∈ (a.push i).2.queue ↔ j ∈ a.queue ∨ j = i := by
  by_cases h : i ∈ a.queue
  · rw [push_of_mem ha h]
    exact ⟨Or.inl, fun hj => hj.elim id fun hji => hji ▸ h⟩
  · rw [queue_push_of_not_mem ha h, (a.discipline.place_perm i a.queue).mem_iff, List.mem_cons,
      or_comm]

theorem length_push_le {a : Agenda n} (ha : a.Exact) (i : Fin n) :
    (a.push i).2.queue.length ≤ a.queue.length + 1 := by
  by_cases h : i ∈ a.queue
  · rw [push_of_mem ha h]
    exact Nat.le_succ _
  · rw [queue_push_of_not_mem ha h, (a.discipline.place_perm i a.queue).length_eq]
    exact Nat.le_refl _

theorem le_length_push {a : Agenda n} (ha : a.Exact) (i : Fin n) :
    a.queue.length ≤ (a.push i).2.queue.length := by
  by_cases h : i ∈ a.queue
  · exact Nat.le_of_eq (by rw [push_of_mem ha h])
  · rw [queue_push_of_not_mem ha h, (a.discipline.place_perm i a.queue).length_eq]
    exact Nat.le_succ _

theorem pushAll_cons (a : Agenda n) (i : Fin n) (is : List (Fin n)) :
    a.pushAll (i :: is) = (a.push i).2.pushAll is := rfl

theorem Exact.pushAll {a : Agenda n} (ha : a.Exact) (is : List (Fin n)) :
    (a.pushAll is).Exact := by
  induction is generalizing a with
  | nil => exact ha
  | cons i is ih => exact ih (ha.push i)

theorem mem_pushAll {a : Agenda n} (ha : a.Exact) {is : List (Fin n)} {j : Fin n} :
    j ∈ (a.pushAll is).queue ↔ j ∈ a.queue ∨ j ∈ is := by
  induction is generalizing a with
  | nil => simp [Agenda.pushAll]
  | cons i is ih => rw [pushAll_cons, ih (ha.push i), mem_push ha, List.mem_cons, or_assoc]

theorem length_pushAll_le {a : Agenda n} (ha : a.Exact) (is : List (Fin n)) :
    (a.pushAll is).queue.length ≤ a.queue.length + is.length := by
  induction is generalizing a with
  | nil => exact Nat.le_refl _
  | cons i is ih =>
      have hrest := ih (ha.push i)
      have hfirst := length_push_le ha i
      rw [pushAll_cons, List.length_cons]
      omega

theorem le_length_pushAll {a : Agenda n} (ha : a.Exact) (is : List (Fin n)) :
    a.queue.length ≤ (a.pushAll is).queue.length := by
  induction is generalizing a with
  | nil => exact Nat.le_refl _
  | cons i is ih => exact Nat.le_trans (le_length_push ha i) (ih (ha.push i))

theorem pushAll_of_forall_mem {a : Agenda n} (ha : a.Exact) {is : List (Fin n)}
    (h : ∀ i ∈ is, i ∈ a.queue) : a.pushAll is = a := by
  induction is with
  | nil => rfl
  | cons i is ih =>
      obtain ⟨hi, his⟩ := List.forall_mem_cons.1 h
      rw [pushAll_cons, push_of_mem ha hi, ih his]

/-- Numbers join the queue by their ranks, and it is sorted by them. -/
structure Ranked (rank : Vector Nat n) (a : Agenda n) : Prop where
  discipline : a.discipline = .byRank rank
  sorted : a.queue.Pairwise fun i j => rank.get i ≤ rank.get j

theorem ranked_empty (rank : Vector Nat n) : (empty (.byRank rank)).Ranked rank :=
  ⟨rfl, List.Pairwise.nil⟩

theorem Ranked.push {rank : Vector Nat n} {a : Agenda n} (ha : a.Ranked rank) (i : Fin n) :
    (a.push i).2.Ranked rank := by
  rw [Agenda.push]
  split
  · exact ha
  · refine ⟨ha.discipline, ?_⟩
    show (a.discipline.place i a.queue).Pairwise _
    rw [ha.discipline]
    exact Discipline.pairwise_place ha.sorted i

theorem Ranked.pushAll {rank : Vector Nat n} {a : Agenda n} (ha : a.Ranked rank)
    (is : List (Fin n)) : (a.pushAll is).Ranked rank := by
  induction is generalizing a with
  | nil => exact ha
  | cons i is ih => exact ih (ha.push i)

/-! ## Taking the next number -/

theorem pop?_eq_none_iff {a : Agenda n} : a.pop? = none ↔ a.queue = [] := by
  cases h : a.queue with
  | nil => simp [pop?, h]
  | cons i queue => simp [pop?, h]

/-- The next number was the first of the queue, the others stay, and the agenda
is still exact. -/
theorem Exact.of_pop {a b : Agenda n} (ha : a.Exact) {i : Fin n} (h : a.pop? = some (i, b)) :
    a.queue = i :: b.queue ∧ b.Exact := by
  cases hq : a.queue with
  | nil => simp [pop?, hq] at h
  | cons k queue =>
      simp only [pop?, hq, Option.some.injEq, Prod.mk.injEq] at h
      obtain ⟨rfl, rfl⟩ := h
      have hnodup := ha.nodup
      rw [hq, List.nodup_cons] at hnodup
      refine ⟨rfl, ?_, hnodup.2⟩
      intro j
      have hold := ha.queued_iff j
      rw [hq, List.mem_cons] at hold
      rw [get_set]
      by_cases hkj : k = j
      · subst hkj
        simp [hnodup.1]
      · rw [if_neg hkj, hold]
        exact ⟨fun hj => hj.resolve_left (Ne.symm hkj), Or.inr⟩

end Agenda

end ProgramFlow
