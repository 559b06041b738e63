/-!
# Ascending lists

A finite set is kept as the list of its members in strictly ascending order, and a finite map as
the list of its entries in strictly ascending order of their keys. Both are built by one
operation, `insertBy key x l`, which puts `x` before the first entry with a greater key and takes
the place of an entry with an equal one.

Main statements: insertion keeps a list ascending (`pairwise_insertBy`), and inserting into a set
adds exactly the new member (`mem_insert`). So a set has one list, whatever the order in which its
members came.
-/

namespace DefiniteAssignment

namespace Ascending

variable {α κ : Type} [LT κ] [DecidableLT κ]

/-- Puts `x` at the place of its key; an entry with an equal key gives way. -/
def insertBy (key : α → κ) (x : α) : List α → List α
  | [] => [x]
  | y :: ys =>
    if key x < key y then x :: y :: ys
    else if key y < key x then y :: insertBy key x ys
    else x :: ys

/-- Adds a member to a set. -/
def insert (x : κ) (l : List κ) : List κ :=
  insertBy id x l

/-- The set of the members of a list. -/
def ofList (l : List κ) : List κ :=
  l.foldl (fun set x => insert x set) []

theorem key_mem_insertBy {key : α → κ} {x z : α} {l : List α} (h : z ∈ insertBy key x l) :
    z = x ∨ z ∈ l := by
  induction l with
  | nil => simpa [insertBy] using h
  | cons y ys ih =>
    unfold insertBy at h
    split at h
    · simpa using h
    · split at h
      · rcases List.mem_cons.1 h with rfl | h
        · simp
        · rcases ih h with rfl | h <;> simp_all
      · rcases List.mem_cons.1 h with rfl | h <;> simp_all

theorem self_mem_insertBy (key : α → κ) (x : α) (l : List α) : x ∈ insertBy key x l := by
  induction l with
  | nil => simp [insertBy]
  | cons y ys ih =>
    unfold insertBy
    split
    · simp
    · split <;> simp [ih]

/-- Insertion keeps the keys strictly ascending. -/
theorem pairwise_insertBy [Trans (α := κ) (· < ·) (· < ·) (· < ·)]
    [Std.Trichotomous (α := κ) (· < ·)] {key : α → κ} {x : α} {l : List α}
    (h : l.Pairwise (key · < key ·)) : (insertBy key x l).Pairwise (key · < key ·) := by
  induction l with
  | nil => simp [insertBy]
  | cons y ys ih =>
    have ⟨hy, hys⟩ := List.pairwise_cons.1 h
    unfold insertBy
    split
    next hxy =>
      refine List.pairwise_cons.2 ⟨fun z hz => ?_, h⟩
      rcases List.mem_cons.1 hz with rfl | hz
      · exact hxy
      · exact Std.lt_trans hxy (hy z hz)
    next hxy =>
      split
      next hyx =>
        refine List.pairwise_cons.2 ⟨fun z hz => ?_, ih hys⟩
        rcases key_mem_insertBy hz with rfl | hz
        · exact hyx
        · exact hy z hz
      -- Neither key is less than the other, so the new entry stands where the old one stood.
      next hyx =>
        have same : key x = key y := Std.Trichotomous.trichotomous _ _ hxy hyx
        exact List.pairwise_cons.2 ⟨fun z hz => same ▸ hy z hz, hys⟩

theorem pairwise_insert [Trans (α := κ) (· < ·) (· < ·) (· < ·)]
    [Std.Trichotomous (α := κ) (· < ·)] {x : κ} {l : List κ} (h : l.Pairwise (· < ·)) :
    (insert x l).Pairwise (· < ·) :=
  pairwise_insertBy h

/-- Inserting into a set adds exactly the new member. -/
@[simp]
theorem mem_insert [Std.Trichotomous (α := κ) (· < ·)] {x z : κ} {l : List κ} :
    z ∈ insert x l ↔ z = x ∨ z ∈ l := by
  refine ⟨key_mem_insertBy, ?_⟩
  rintro (rfl | h)
  · exact self_mem_insertBy id z l
  · induction l with
    | nil => simp at h
    | cons y ys ih =>
      simp only [insert, insertBy, id_eq]
      split
      · simp_all
      next hxy =>
        split
        · rcases List.mem_cons.1 h with rfl | h
          · simp
          · exact List.mem_cons_of_mem _ (ih h)
        next hyx =>
          have same : x = y := Std.Trichotomous.trichotomous _ _ hxy hyx
          simpa [same] using h

end Ascending

end DefiniteAssignment
