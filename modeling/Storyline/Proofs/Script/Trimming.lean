import Storyline.Text.Blank
import Mathlib.Data.List.TakeWhile

/-!
# Trimmed texts

A text is trimmed by taking away the blanks around it.  What is left is the only
part of the text with blanks on both sides and none at its own ends.
-/

namespace Storyline.Text

/-- `t` is `s` without the blanks around it. -/
structure Trims (s t : String) : Prop where
  within : ∃ before after : List Char, (∀ c ∈ before, isBlank c = true) ∧
    (∀ c ∈ after, isBlank c = true) ∧ s.toList = before ++ (t.toList ++ after)
  first : ∀ c ∈ t.toList.head?, isBlank c = false
  last : ∀ c ∈ t.toList.getLast?, isBlank c = false

section

variable {α : Type} {p : α → Bool} {l : List α}

theorem head_dropWhile {x : α} (hx : x ∈ (l.dropWhile p).head?) : p x = false := by
  simpa [Option.mem_def.mp hx] using List.head?_dropWhile_not p l

/-- What is in front of the first element to stay is dropped, and no more. -/
theorem dropWhile_append_of_forall {before : List α} (hb : ∀ x ∈ before, p x = true)
    (hl : ∀ x ∈ l.head?, p x = false) : (before ++ l).dropWhile p = l := by
  rw [List.dropWhile_append_of_pos hb]
  cases l with
  | nil => rfl
  | cons x l => simp [hl x rfl]

end

theorem trimList_append {before cs after : List Char} (hb : ∀ c ∈ before, isBlank c = true)
    (ha : ∀ c ∈ after, isBlank c = true) (hfirst : ∀ c ∈ cs.head?, isBlank c = false)
    (hlast : ∀ c ∈ cs.getLast?, isBlank c = false) : trimList (before ++ (cs ++ after)) = cs := by
  have hrev : ∀ c ∈ after.reverse, isBlank c = true := fun c hc ↦ ha c (List.mem_reverse.mp hc)
  have hhead : ∀ c ∈ cs.reverse.head?, isBlank c = false := by
    rwa [List.head?_reverse]
  unfold trimList
  cases cs with
  | nil =>
      have hall : ∀ c ∈ before ++ after, isBlank c = true := fun c hc ↦
        (List.mem_append.mp hc).elim (hb c) (ha c)
      have hnil : (before ++ after).dropWhile isBlank = [] := List.dropWhile_eq_nil_iff.mpr hall
      simp [hnil]
  | cons c cs =>
      rw [dropWhile_append_of_forall hb (by simpa using hfirst), List.reverse_append,
        dropWhile_append_of_forall hrev hhead, List.reverse_reverse]

/-- A text has one trimmed form, and `trim` gives it. -/
theorem trims_iff {s t : String} : Trims s t ↔ t = trim s := by
  constructor
  · rintro ⟨⟨before, after, hb, ha, hs⟩, hfirst, hlast⟩
    rw [trim, hs, trimList_append hb ha hfirst hlast, String.ofList_toList]
  · rintro rfl
    have hlist : (trim s).toList = trimList s.toList := String.toList_ofList
    obtain ⟨rest, hrest⟩ : ∃ rest, rest = s.toList.dropWhile isBlank := ⟨_, rfl⟩
    have htrim : trimList s.toList = (rest.reverse.dropWhile isBlank).reverse := by
      rw [hrest, trimList]
    have hback : rest = trimList s.toList ++ (rest.reverse.takeWhile isBlank).reverse := by
      rw [htrim, ← List.reverse_append, List.takeWhile_append_dropWhile, List.reverse_reverse]
    refine ⟨⟨s.toList.takeWhile isBlank, (rest.reverse.takeWhile isBlank).reverse,
      fun c ↦ List.mem_takeWhile_imp, fun c hc ↦ List.mem_takeWhile_imp (List.mem_reverse.mp hc), ?_⟩, ?_, ?_⟩
    · rw [hlist, ← hback, hrest, List.takeWhile_append_dropWhile]
    · intro c hc
      have hc' : c ∈ rest.head? := by
        rw [hlist] at hc
        rw [hback, List.head?_append, Option.mem_def.mp hc]
        rfl
      exact head_dropWhile (hrest ▸ hc')
    · intro c hc
      rw [hlist, htrim, List.getLast?_reverse] at hc
      exact head_dropWhile hc

end Storyline.Text
