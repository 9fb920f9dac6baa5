import Storyline.Stage

/-!
# Changes in place

A change of the stage is given as the stage that comes of it, if it is not
refused.  Made in place it is a change and a report: the stage is worked on
first, and the report says afterwards whether that counts as a change.  Each of
the changes that can be refused is written here in place, and makes what it is
given as; so none of them touches a stage and then reports nothing.
-/

namespace Storyline

/-- A change made in place, with its report. -/
abbrev Edit := Stage → Stage × Bool

/-- Made in place, `e` is the change `f`. -/
def Edit.Makes (e : Edit) (f : Stage → Option Stage) : Prop :=
  ∀ s, e s = ((f s).getD s, (f s).isSome)

/-- Without a report the stage is as it was. -/
def Edit.Honest (e : Edit) : Prop := ∀ s, (e s).2 = false → (e s).1 = s

variable {e : Edit} {f : Stage → Option Stage}

theorem Edit.Makes.honest (h : e.Makes f) : e.Honest := by
  intro s hs
  rw [h s] at hs ⊢
  rw [Option.isSome_eq_false_iff, Option.isNone_iff_eq_none] at hs
  simp [hs]

/-- A change that decides first: it is made under a condition, and reported then. -/
theorem Edit.makes_ite (p : Stage → Prop) [DecidablePred p] (g : Stage → Stage) :
    Edit.Makes (fun s ↦ (if p s then g s else s, decide (p s)))
      (fun s ↦ if p s then some (g s) else none) := by
  intro s
  by_cases hp : p s <;> simp [hp]

namespace Stage

/-! ## Models -/

/-- Changes the first layout of a character, and says whether there is one. -/
def amendFirst (c : CharacterId) (f : Layout → Layout) : List Layout → List Layout × Bool
  | [] => ([], false)
  | l :: rest =>
    if l.character == c then (f l :: rest, true)
    else
      let (rest, found) := amendFirst c f rest
      (l :: rest, found)

theorem amendFirst_eq (c : CharacterId) (f : Layout → Layout) (ls : List Layout) :
    amendFirst c f ls = (modifyFirst c f ls, (ls.find? (fun l ↦ l.character == c)).isSome) := by
  induction ls with
  | nil => rfl
  | cons l rest ih =>
    by_cases hl : l.character = c
    · simp [amendFirst, modifyFirst, hl]
    · simp [amendFirst, modifyFirst, hl, ih]

theorem modifyFirst_eq_self {c : CharacterId} {ls : List Layout} (f : Layout → Layout)
    (h : ls.find? (fun l ↦ l.character == c) = none) : modifyFirst c f ls = ls := by
  induction ls with
  | nil => rfl
  | cons l rest ih =>
    have hl : l.character ≠ c := by simpa using List.find?_eq_none.mp h l (by simp)
    have hrest : rest.find? (fun l ↦ l.character == c) = none := by simpa [hl] using h
    simp [modifyFirst, hl, ih hrest]

/-- Changes the model of a character in place. -/
def amendLayout (c : CharacterId) (f : Layout → Layout) : Edit := fun s ↦
  let (layouts, found) := amendFirst c f s.layouts
  ({ s with layouts := layouts }, found)

theorem amendLayout_makes (c : CharacterId) (f : Layout → Layout) :
    Edit.Makes (amendLayout c f) (modifyLayout c f) := by
  intro s
  cases hc : s.layouts.find? (fun l ↦ l.character == c) with
  | none =>
    have hsame := modifyFirst_eq_self f hc
    simp [amendLayout, amendFirst_eq, modifyLayout, layout?, hc, hsame]
  | some l => simp [amendLayout, amendFirst_eq, modifyLayout, layout?, hc]

/-- Takes a model away in place; the report compares the lengths. -/
def amendHidden (c : CharacterId) : Edit := fun s ↦
  let kept := s.layouts.filter (fun l ↦ l.character != c)
  ({ s with layouts := kept }, kept.length != s.layouts.length)

theorem amendHidden_makes (c : CharacterId) : Edit.Makes (amendHidden c) (hideModel c) := by
  intro s
  by_cases hlength :
      (s.layouts.filter (fun l ↦ l.character != c)).length = s.layouts.length
  · have hkept : s.layouts.filter (fun l ↦ l.character != c) = s.layouts :=
      List.filter_sublist.eq_of_length hlength
    simp [amendHidden, hideModel, hkept]
  · simp [amendHidden, hideModel, hlength]

/-! ## The title, the covers and the shakes -/

/-- Takes a title away in place, if it is still the one on screen. -/
def amendTelop (text : String) : Edit := fun s ↦
  (if s.telop = some text then { s with telop := none } else s, decide (s.telop = some text))

theorem amendTelop_makes (text : String) : Edit.Makes (amendTelop text) (clearTelop text) :=
  Edit.makes_ite (fun s ↦ s.telop = some text) _

/-- Hides the cover that was shown before another one, in place. -/
def amendCovers (c : Cover) (stamp : Nat) : Edit := fun s ↦
  let other := s.cover c.other
  let earlier := other.visible && decide (other.stamp < stamp)
  (if earlier then s.setCover c.other { other with visible := false } else s, earlier)

theorem amendCovers_makes (c : Cover) (stamp : Nat) :
    Edit.Makes (amendCovers c stamp) (coverShown c stamp) := by
  intro s
  cases h : (s.cover c.other).visible && decide ((s.cover c.other).stamp < stamp) <;>
    simp [amendCovers, coverShown, h]

/-- Moves a shaken target in place; a shake that was overtaken gives up before. -/
def amendShake (k : Shake) (stamp : Nat) (finished : Bool) (offset : Binary32 × Binary32) :
    Edit := fun s ↦
  let target := s.shake k
  if target.stamp ≠ stamp then (s, false)
  else
    let moved := { target with offset := offset }
    (s.setShake k (if finished then { moved with duration := .zero } else moved), true)

theorem amendShake_makes (k : Shake) (stamp : Nat) (finished : Bool)
    (offset : Binary32 × Binary32) :
    Edit.Makes (amendShake k stamp finished offset) (sway k stamp finished offset) := by
  intro s
  by_cases h : (s.shake k).stamp = stamp
  · cases finished <;> simp [amendShake, sway, h]
  · simp [amendShake, sway, h]

end Stage

/-- A change of a model in place.  A showing is always made. -/
def ModelChange.edit : ModelChange → Edit
  | .show c model position => fun s ↦ (s.showModel c model position, true)
  | .hide c => Stage.amendHidden c
  | .move c position => Stage.amendLayout c (fun l ↦ { l with position := position })
  | .act c motion => Stage.amendLayout c (fun l ↦ { l with motion := some motion })
  | .express c expression =>
    Stage.amendLayout c (fun l ↦ { l with expression := some expression })

theorem ModelChange.edit_makes (m : ModelChange) : m.edit.Makes m.apply := by
  cases m with
  | «show» c model position => exact fun s ↦ rfl
  | hide c => exact Stage.amendHidden_makes c
  | move c position => exact Stage.amendLayout_makes c _
  | act c motion => exact Stage.amendLayout_makes c _
  | express c expression => exact Stage.amendLayout_makes c _

end Storyline
