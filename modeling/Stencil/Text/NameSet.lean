/-!
Sets of texts as lists in increasing order without repetition. Texts are ordered by their code points.
-/

namespace Stencil.Text

/-- The set with one more member. -/
def insertSorted (x : String) : List String → List String
  | [] => [x]
  | y :: ys =>
    if x < y then x :: y :: ys
    else if x = y then y :: ys
    else y :: insertSorted x ys

/-- The set of the members of a list. -/
def sortedSet (xs : List String) : List String :=
  xs.foldr insertSorted []

/-- Inserting adds the member and nothing else. -/
theorem mem_insertSorted {x y : String} {ys : List String} : x ∈ insertSorted y ys ↔ x = y ∨ x ∈ ys := by
  induction ys with
  | nil => simp [insertSorted]
  | cons z zs ih =>
    simp only [insertSorted]
    split
    · simp
    · split
      · rename_i h
        subst h
        simp
      · simp only [List.mem_cons, ih]
        exact ⟨fun h => by rcases h with h | h | h <;> simp [h], fun h => by rcases h with h | h | h <;> simp [h]⟩

/-- The set has the members of the list. -/
theorem mem_sortedSet {x : String} {xs : List String} : x ∈ sortedSet xs ↔ x ∈ xs := by
  induction xs with
  | nil => simp [sortedSet]
  | cons y ys ih =>
    have : sortedSet (y :: ys) = insertSorted y (sortedSet ys) := rfl
    rw [this, mem_insertSorted, ih, List.mem_cons]

theorem insertSorted_pairwise {x : String} {ys : List String} (h : ys.Pairwise (· < ·)) :
    (insertSorted x ys).Pairwise (· < ·) := by
  induction ys with
  | nil => exact List.pairwise_singleton _ _
  | cons y ys ih =>
    obtain ⟨hy, hys⟩ := List.pairwise_cons.mp h
    simp only [insertSorted]
    split
    · rename_i hlt
      refine List.pairwise_cons.mpr ⟨fun z hz => ?_, h⟩
      rcases List.mem_cons.mp hz with rfl | hz
      · exact hlt
      · exact String.lt_trans hlt (hy z hz)
    · split
      · exact h
      · rename_i hlt hne
        refine List.pairwise_cons.mpr ⟨fun z hz => ?_, ih hys⟩
        rcases mem_insertSorted.mp hz with rfl | hz
        · exact Decidable.byContradiction fun hge => hne (String.le_antisymm (String.not_lt.mp hge) (String.not_lt.mp hlt))
        · exact hy z hz

/-- The members of the set stand in increasing order. -/
theorem sortedSet_pairwise (xs : List String) : (sortedSet xs).Pairwise (· < ·) := by
  induction xs with
  | nil => exact List.Pairwise.nil
  | cons x xs ih => exact insertSorted_pairwise ih

end Stencil.Text
