import Storyline.Binary

/-!
# Counting

Counts over nested lists, row by row and column by column.
-/

namespace Storyline

theorem countP_flatMap_eq {α β : Type} {l : List α} {f : α → List β} {P : β → Bool} {Q : α → Bool}
    (h : ∀ a ∈ l, (f a).countP P = if Q a then 1 else 0) : (l.flatMap f).countP P = l.countP Q := by
  induction l with
  | nil => rfl
  | cons a rest ih =>
      have ha := h a (by simp)
      rw [List.flatMap_cons, List.countP_append, ih fun b hb ↦ h b (by simp [hb]), ha,
        List.countP_cons]
      omega

theorem countP_eq_sum {α : Type} (l : List α) (P : α → Bool) :
    l.countP P = (l.map (fun a ↦ if P a then 1 else 0)).sum := by
  induction l with
  | nil => rfl
  | cons a rest ih =>
      rw [List.countP_cons, ih, List.map_cons, List.sum_cons, Nat.add_comm]

theorem sum_map_le {α : Type} {l : List α} {f g : α → Nat} (h : ∀ a ∈ l, f a ≤ g a) :
    (l.map f).sum ≤ (l.map g).sum := by
  induction l with
  | nil => exact Nat.le_refl _
  | cons a rest ih =>
      have ha := h a (by simp)
      have hrest := ih fun b hb ↦ h b (by simp [hb])
      simp only [List.map_cons, List.sum_cons]
      omega

/-- Pairs are counted row by row or column by column. -/
theorem sum_countP_comm {α β : Type} (as : List α) (bs : List β) (P : α → β → Bool) :
    (as.map (fun a ↦ bs.countP (P a))).sum = (bs.map (fun b ↦ as.countP (P · b))).sum := by
  induction bs with
  | nil =>
      induction as with
      | nil => rfl
      | cons a others ih => simpa using ih
  | cons b rest ih =>
      have hsplit : (as.map (fun a ↦ (b :: rest).countP (P a))).sum =
          (as.map (fun a ↦ rest.countP (P a))).sum + as.countP (P · b) := by
        clear ih
        induction as with
        | nil => rfl
        | cons a others ih =>
            simp only [List.map_cons, List.sum_cons, List.countP_cons] at ih ⊢
            omega
      rw [hsplit, ih, List.map_cons, List.sum_cons, Nat.add_comm]

end Storyline
