import Mathlib.Data.List.Forall2
import Storyline.Proofs.SortBy
import Storyline.Proofs.Playback.Signals

/-!
# Woven lists

A list is woven from another one, if it holds what stands for the elements of
the other, in their order, and strays in between.  The queue, the tasks and the
scopes of a story with forks are woven from those of the story without them.
-/

namespace Storyline

inductive Weave {α β : Type} (R : α → β → Prop) (Q : α → Prop) : List α → List β → Prop
  | nil : Weave R Q [] []
  | pair {a : α} {b : β} {as : List α} {bs : List β} (h : R a b) (rest : Weave R Q as bs) :
    Weave R Q (a :: as) (b :: bs)
  | stray {a : α} {as : List α} {bs : List β} (h : Q a) (rest : Weave R Q as bs) :
    Weave R Q (a :: as) bs

namespace Weave

variable {α β γ δ : Type} {R R' : α → β → Prop} {Q Q' : α → Prop} {as as' : List α}
  {bs bs' : List β}

theorem imp (h : Weave R Q as bs) (hR : ∀ {a b}, R a b → R' a b) (hQ : ∀ {a}, Q a → Q' a) :
    Weave R' Q' as bs := by
  induction h with
  | nil => exact .nil
  | pair h _ ih => exact .pair (hR h) ih
  | stray h _ ih => exact .stray (hQ h) ih

theorem strays (h : ∀ a ∈ as, Q a) : Weave R Q as [] := by
  induction as with
  | nil => exact .nil
  | cons a as ih =>
      exact .stray (h a List.mem_cons_self) (ih fun x hx ↦ h x (List.mem_cons_of_mem _ hx))

theorem of_forall₂ (h : List.Forall₂ R as bs) : Weave R Q as bs := by
  induction h with
  | nil => exact .nil
  | cons h _ ih => exact .pair h ih

theorem append (h : Weave R Q as bs) (h' : Weave R Q as' bs') :
    Weave R Q (as ++ as') (bs ++ bs') := by
  induction h with
  | nil => exact h'
  | pair h _ ih => exact .pair h ih
  | stray h _ ih => exact .stray h ih

theorem map {S : γ → δ → Prop} {P : γ → Prop} {f : α → γ} {g : β → δ} (h : Weave R Q as bs)
    (hR : ∀ {a b}, R a b → S (f a) (g b)) (hQ : ∀ {a}, Q a → P (f a)) :
    Weave S P (as.map f) (bs.map g) := by
  induction h with
  | nil => exact .nil
  | pair h _ ih => exact .pair (hR h) ih
  | stray h _ ih => exact .stray (hQ h) ih

theorem flatMap {S : γ → δ → Prop} {P : γ → Prop} {f : α → List γ} {g : β → List δ}
    (h : Weave R Q as bs) (hR : ∀ {a b}, R a b → Weave S P (f a) (g b))
    (hQ : ∀ {a}, Q a → ∀ c ∈ f a, P c) : Weave S P (as.flatMap f) (bs.flatMap g) := by
  induction h with
  | nil => exact .nil
  | pair h _ ih =>
      rw [List.flatMap_cons, List.flatMap_cons]
      exact (hR h).append ih
  | stray h _ ih =>
      rw [List.flatMap_cons]
      exact (strays (hQ h)).append ih

/-- A test that does not tell paired elements apart may take any strays out. -/
theorem filter {p : α → Bool} {q : β → Bool} (h : Weave R Q as bs)
    (hR : ∀ {a b}, R a b → p a = q b) : Weave R Q (as.filter p) (bs.filter q) := by
  induction h with
  | nil => exact .nil
  | @pair a b _ _ h _ ih =>
      have hpq := hR h
      by_cases ha : p a = true
      · rw [List.filter_cons_of_pos ha, List.filter_cons_of_pos (hpq ▸ ha)]
        exact .pair h ih
      · rw [List.filter_cons_of_neg ha, List.filter_cons_of_neg (hpq ▸ ha)]
        exact ih
  | @stray a _ _ h _ ih =>
      by_cases ha : p a = true
      · rw [List.filter_cons_of_pos ha]
        exact .stray h ih
      · rw [List.filter_cons_of_neg ha]
        exact ih

theorem find? {p : α → Bool} {q : β → Bool} (h : Weave R Q as bs)
    (hR : ∀ {a b}, R a b → p a = q b) (hQ : ∀ {a}, Q a → p a = false) :
    Option.Rel R (as.find? p) (bs.find? q) := by
  induction h with
  | nil => exact .none
  | @pair a b _ _ h _ ih =>
      have hpq := hR h
      rw [List.find?_cons, List.find?_cons, ← hpq]
      cases p a with
      | true => exact .some h
      | false => exact ih
  | stray h _ ih =>
      rw [List.find?_cons, hQ h]
      exact ih

theorem any {p : α → Bool} {q : β → Bool} (h : Weave R Q as bs)
    (hR : ∀ {a b}, R a b → p a = q b) (hQ : ∀ {a}, Q a → p a = false) : as.any p = bs.any q := by
  induction h with
  | nil => rfl
  | pair h _ ih => rw [List.any_cons, List.any_cons, hR h, ih]
  | stray h _ ih => rw [List.any_cons, hQ h, Bool.false_or, ih]

theorem exists_of_mem (h : Weave R Q as bs) {a : α} (ha : a ∈ as) :
    (∃ b ∈ bs, R a b) ∨ Q a := by
  induction h with
  | nil => cases ha
  | @pair x y _ _ h _ ih =>
      rcases List.mem_cons.mp ha with rfl | ha
      · exact .inl ⟨y, List.mem_cons_self, h⟩
      · exact (ih ha).imp_left fun ⟨b, hb, hab⟩ ↦ ⟨b, List.mem_cons_of_mem _ hb, hab⟩
  | stray h _ ih =>
      rcases List.mem_cons.mp ha with rfl | ha
      · exact .inr h
      · exact ih ha

theorem exists_of_mem_right (h : Weave R Q as bs) {b : β} (hb : b ∈ bs) : ∃ a ∈ as, R a b := by
  induction h with
  | nil => cases hb
  | @pair x y _ _ h _ ih =>
      rcases List.mem_cons.mp hb with rfl | hb
      · exact ⟨x, List.mem_cons_self, h⟩
      · obtain ⟨a, ha, hab⟩ := ih hb
        exact ⟨a, List.mem_cons_of_mem _ ha, hab⟩
  | stray _ _ ih =>
      obtain ⟨a, ha, hab⟩ := ih hb
      exact ⟨a, List.mem_cons_of_mem _ ha, hab⟩

/-! ## Queues -/

section enqueue

variable {R : Nat → Nat → Prop} {Q : Nat → Prop} {queue queue' ids ids' : List Nat}
  (hR : ∀ a b c d, R a b → R c d → (a = c ↔ b = d)) (hQ : ∀ a b c, R a b → Q c → a ≠ c)

include hR hQ

theorem contains_eq (h : Weave R Q queue queue') {a b : Nat} (hab : R a b) :
    queue.contains a = queue'.contains b := by
  induction h with
  | nil => rfl
  | pair h _ ih =>
      rw [List.contains_cons, List.contains_cons, ih]
      exact congrArg (· || _) (decide_eq_decide.mpr (hR _ _ _ _ hab h))
  | stray h _ ih =>
      rw [List.contains_cons, ih, beq_eq_false_iff_ne.mpr (hQ _ _ _ hab h), Bool.false_or]

/-- Waking what stands for some tasks, and strays in between, keeps a queue woven. -/
theorem enqueue (h : Weave R Q queue queue') (hids : Weave R Q ids ids') :
    Weave R Q (Playback.enqueue queue ids) (Playback.enqueue queue' ids') := by
  induction hids generalizing queue queue' with
  | nil => exact h
  | @pair a b _ _ hab _ ih =>
      apply ih
      dsimp only
      rw [contains_eq hR hQ h hab]
      split
      · exact h
      · exact h.append (.pair hab .nil)
  | stray hq _ ih =>
      apply ih
      dsimp only
      split
      · exact h
      · simpa using h.append (.stray hq .nil)

end enqueue

/-! ## Sorting -/

section sortBy

variable {key : α → Nat} {key' : β → Nat}
  (hkey : ∀ a b c d, R a b → R c d → (key a < key c ↔ key' b < key' d))

theorem insertBy_stray {a : α} (h : Weave R Q as bs) (ha : Q a) :
    Weave R Q (insertBy key a as) bs := by
  induction h with
  | nil => exact .stray ha .nil
  | pair h rest ih =>
      unfold insertBy
      split
      · exact .stray ha (.pair h rest)
      · exact .pair h ih
  | stray h rest ih =>
      unfold insertBy
      split
      · exact .stray ha (.stray h rest)
      · exact .stray h ih

include hkey

/-- What comes before all the others comes before their counterparts. -/
theorem insertBy_eq_cons {a : α} {b : β} (h : Weave R Q as bs) (hab : R a b)
    (hlt : ∀ x ∈ as, key a < key x) : insertBy key' b bs = b :: bs := by
  induction h with
  | nil => rfl
  | pair h _ _ =>
      unfold insertBy
      rw [if_pos ((hkey _ _ _ _ hab h).mp (hlt _ List.mem_cons_self))]
  | stray _ _ ih => exact ih fun x hx ↦ hlt x (List.mem_cons_of_mem _ hx)

theorem insertBy_pair {a : α} {b : β} (h : Weave R Q as bs)
    (hsorted : as.Pairwise (key · ≤ key ·)) (hab : R a b) :
    Weave R Q (insertBy key a as) (insertBy key' b bs) := by
  induction h with
  | nil => exact .pair hab .nil
  | @pair x y _ _ h rest ih =>
      obtain ⟨-, hsorted⟩ := List.pairwise_cons.mp hsorted
      unfold insertBy
      by_cases hlt : key a < key x
      · rw [if_pos hlt, if_pos ((hkey _ _ _ _ hab h).mp hlt)]
        exact .pair hab (.pair h rest)
      · rw [if_neg hlt, if_neg (mt (hkey _ _ _ _ hab h).mpr hlt)]
        exact .pair h (ih hsorted)
  | @stray x xs _ h rest ih =>
      obtain ⟨hle, hsorted⟩ := List.pairwise_cons.mp hsorted
      by_cases hlt : key a < key x
      · have hcons : insertBy key a (x :: xs) = a :: x :: xs := if_pos hlt
        rw [hcons, insertBy_eq_cons hkey rest hab fun z hz ↦ Nat.lt_of_lt_of_le hlt (hle z hz)]
        exact .pair hab (.stray h rest)
      · have hcons : insertBy key a (x :: xs) = x :: insertBy key a xs := if_neg hlt
        rw [hcons]
        exact .stray h (ih hsorted)

theorem foldl_insertBy {acc : List α} {acc' : List β} (h : Weave R Q as bs)
    (hacc : Weave R Q acc acc') (hsorted : acc.Pairwise (key · ≤ key ·)) :
    Weave R Q (as.foldl (fun sorted a ↦ insertBy key a sorted) acc)
      (bs.foldl (fun sorted b ↦ insertBy key' b sorted) acc') := by
  induction h generalizing acc acc' with
  | nil => exact hacc
  | pair h _ ih => exact ih (hacc.insertBy_pair hkey hsorted h) (pairwise_insertBy key _ hsorted)
  | stray h _ ih => exact ih (hacc.insertBy_stray h) (pairwise_insertBy key _ hsorted)

/-- Sorting keeps lists woven, if paired elements are in the same order. -/
theorem sortBy (h : Weave R Q as bs) :
    Weave R Q (Storyline.sortBy key as) (Storyline.sortBy key' bs) :=
  h.foldl_insertBy hkey .nil .nil

end sortBy

end Weave

theorem isEmpty_eq_of_forall₂ {α β : Type} {R : α → β → Prop} {as : List α} {bs : List β}
    (h : List.Forall₂ R as bs) : as.isEmpty = bs.isEmpty := by
  cases h <;> rfl

theorem forall₂_dropWhile {α β : Type} {R : α → β → Prop} {p : α → Bool} {q : β → Bool}
    {as : List α} {bs : List β} (h : List.Forall₂ R as bs) (hR : ∀ {a b}, R a b → p a = q b) :
    List.Forall₂ R (as.dropWhile p) (bs.dropWhile q) := by
  induction h with
  | nil => exact .nil
  | @cons a b _ _ h rest ih =>
      rw [List.dropWhile_cons, List.dropWhile_cons, ← hR h]
      cases p a with
      | true => exact ih
      | false => exact .cons h rest

end Storyline
