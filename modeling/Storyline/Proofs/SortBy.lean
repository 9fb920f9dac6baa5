import Storyline.SortBy

/-!
# Sorting keeps the elements

A sorted list holds the elements of the list it was made from.
-/

namespace Storyline

variable {α : Type} (key : α → Nat)

theorem insertBy_perm (a : α) (as : List α) : (insertBy key a as).Perm (a :: as) := by
  induction as with
  | nil => exact .refl _
  | cons b rest ih =>
      unfold insertBy
      split
      · exact .refl _
      · exact (ih.cons b).trans (.swap a b rest)

theorem foldl_insertBy_perm (as sorted : List α) :
    (as.foldl (fun sorted a ↦ insertBy key a sorted) sorted).Perm (as ++ sorted) := by
  induction as generalizing sorted with
  | nil => exact .refl _
  | cons a rest ih =>
      refine (ih (insertBy key a sorted)).trans ?_
      exact ((insertBy_perm key a sorted).append_left rest).trans List.perm_middle

theorem sortBy_perm (as : List α) : (sortBy key as).Perm as := by
  simpa [sortBy] using foldl_insertBy_perm key as []

theorem pairwise_insertBy (a : α) {as : List α} (h : as.Pairwise (key · ≤ key ·)) :
    (insertBy key a as).Pairwise (key · ≤ key ·) := by
  induction as with
  | nil => exact List.pairwise_singleton _ a
  | cons b rest ih =>
      obtain ⟨hle, hrest⟩ := List.pairwise_cons.mp h
      unfold insertBy
      split
      next hlt =>
        refine List.pairwise_cons.mpr ⟨fun x hx ↦ ?_, h⟩
        rcases List.mem_cons.mp hx with rfl | hx
        · exact Nat.le_of_lt hlt
        · exact Nat.le_trans (Nat.le_of_lt hlt) (hle x hx)
      next hnlt =>
        refine List.pairwise_cons.mpr ⟨fun x hx ↦ ?_, ih hrest⟩
        rcases List.mem_cons.mp ((insertBy_perm key a rest).mem_iff.mp hx) with rfl | hx
        · exact Nat.le_of_not_lt hnlt
        · exact hle x hx

theorem mem_sortBy {a : α} {as : List α} : a ∈ sortBy key as ↔ a ∈ as :=
  (sortBy_perm key as).mem_iff

end Storyline
