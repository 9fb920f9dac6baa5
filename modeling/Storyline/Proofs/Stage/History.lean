import Mathlib.Data.List.Induction
import Mathlib.Tactic.Tauto
import Storyline.Stage

/-!
# What a history of changes says of a character

A history is the list of the changes of models so far, the latest one last.
What it says of a character is put by *since*: something happened, and ever
since something has been kept.  A character is on stage if it has been shown and
not been hidden since; it came on stage when it was first shown since then; it
has the motion that it was last given while wearing the model it wears.
-/

namespace Storyline

/-! ## Since -/

section Since

variable {α : Type*} {start start' : List α → α → Prop} {keep keep' : α → Prop}
  {events : List α} {a : α}

/-- Something has happened, `start` telling what and after which events, and
`keep` holds of all that came after. -/
def Since (start : List α → α → Prop) (keep : α → Prop) (events : List α) : Prop :=
  ∃ earlier a later, events = earlier ++ a :: later ∧ start earlier a ∧ ∀ b ∈ later, keep b

@[simp] theorem not_since_nil : ¬ Since start keep [] := by
  rintro ⟨earlier, a, later, h, -⟩
  simp at h

/-- It has just happened, or it had happened before and has been kept. -/
@[simp] theorem since_concat :
    Since start keep (events ++ [a]) ↔ start events a ∨ keep a ∧ Since start keep events := by
  constructor
  · rintro ⟨earlier, b, later, h, hstart, hkeep⟩
    rcases List.eq_nil_or_concat later with rfl | ⟨before, last, rfl⟩
    · obtain ⟨rfl, heq⟩ := List.append_inj' h rfl
      cases heq
      exact Or.inl hstart
    · have hsplit : events ++ [a] = (earlier ++ b :: before) ++ [last] := by simpa using h
      obtain ⟨rfl, heq⟩ := List.append_inj' hsplit rfl
      cases heq
      refine Or.inr ⟨hkeep a (by simp), earlier, b, before, rfl, hstart, ?_⟩
      exact fun c hc ↦ hkeep c (by simp [hc])
  · rintro (hstart | ⟨hlast, earlier, b, later, rfl, hstart, hkeep⟩)
    · exact ⟨events, a, [], rfl, hstart, by simp⟩
    · refine ⟨earlier, b, later ++ [a], by simp, hstart, ?_⟩
      intro c hc
      rcases List.mem_append.mp hc with hc | hc
      · exact hkeep c hc
      · exact List.mem_singleton.mp hc ▸ hlast

theorem Since.imp (h : Since start keep events) (hstart : ∀ es a, start es a → start' es a)
    (hkeep : ∀ a, keep a → keep' a) : Since start' keep' events := by
  obtain ⟨earlier, a, later, rfl, ha, hlater⟩ := h
  exact ⟨earlier, a, later, rfl, hstart _ _ ha, fun b hb ↦ hkeep b (hlater b hb)⟩

end Since

/-! ## Characters -/

namespace ModelChange

/-- It shows the character. -/
def Shows (c : CharacterId) : ModelChange → Prop
  | «show» d _ _ => d = c
  | _ => False

/-- It shows the character as a model. -/
def ShowsAs (c : CharacterId) (model : String) : ModelChange → Prop
  | «show» d other _ => d = c ∧ other = model
  | _ => False

/-- It says where the character is: it shows the character there, or moves it there. -/
def Places (c : CharacterId) (position : Position) : ModelChange → Prop
  | «show» d _ other | move d other => d = c ∧ other = position
  | _ => False

/-- It neither hides the character nor shows it as another model. -/
def Keeps (c : CharacterId) (model : String) : ModelChange → Prop
  | «show» d other _ => d = c → other = model
  | hide d => d ≠ c
  | _ => True

variable {c : CharacterId} {model other : String} (m : ModelChange)

theorem shows_of_showsAs (h : m.ShowsAs c model) : m.Shows c := by
  cases m <;> simp_all [Shows, ShowsAs]

theorem eq_of_showsAs (h : m.ShowsAs c model) (h' : m.ShowsAs c other) : model = other := by
  cases m <;> simp_all [ShowsAs]

theorem ne_hide_of_keeps (h : m.Keeps c model) : m ≠ .hide c := by
  rintro rfl
  exact h rfl

theorem ne_hide_of_shows (h : m.Shows c) : m ≠ .hide c := by
  rintro rfl
  exact h

/-- What keeps the model is no hiding, and a showing only as the same model. -/
theorem keeps_iff : m.Keeps c model ↔ m ≠ .hide c ∧ (m.Shows c → m.ShowsAs c model) := by
  cases m <;> simp +contextual [Keeps, Shows, ShowsAs]

end ModelChange

open ModelChange

section Characters

variable (c : CharacterId) (model : String) (ms : List ModelChange)

/-- It has been shown, and not been hidden since. -/
def OnStage : Prop := Since (fun _ m ↦ m.Shows c) (fun m ↦ m ≠ .hide c) ms

/-- It came on stage with the change after the first `i`: it was off before,
and has not been hidden since. -/
def CameOn (i : Nat) : Prop :=
  Since (fun earlier m ↦ earlier.length = i ∧ m.Shows c ∧ ¬ OnStage c earlier)
    (fun m ↦ m ≠ .hide c) ms

/-- It has been shown as a model, and been neither hidden nor shown as another since. -/
def Wears : Prop := Since (fun _ m ↦ m.ShowsAs c model) (Keeps c model) ms

/-- The model of its last showing. -/
def LastShownAs : Prop := Since (fun _ m ↦ m.ShowsAs c model) (fun m ↦ ¬ m.Shows c) ms

/-- The position of its last showing or moving. -/
def LastPlacedAt (position : Position) : Prop :=
  Since (fun _ m ↦ m.Places c position) (fun m ↦ ∀ other, ¬ m.Places c other) ms

/-- The last thing of a sort that it was made to do, while wearing the model
that it has worn ever since. -/
def LastDid (deed : String → ModelChange) (name : String) : Prop :=
  Since (fun earlier m ↦ m = deed name ∧ Wears c model earlier)
    (fun m ↦ m.Keeps c model ∧ ∀ other, m ≠ deed other) ms

end Characters

variable {c : CharacterId} {model other : String} {ms : List ModelChange} {m : ModelChange}

theorem Wears.onStage (h : Wears c model ms) : OnStage c ms :=
  Since.imp h (fun _ m hm ↦ m.shows_of_showsAs hm) (fun m hm ↦ m.ne_hide_of_keeps hm)

theorem onStage_concat : OnStage c (ms ++ [m]) ↔ m.Shows c ∨ m ≠ .hide c ∧ OnStage c ms :=
  since_concat

theorem lastShownAs_concat : LastShownAs c model (ms ++ [m]) ↔
    m.ShowsAs c model ∨ ¬ m.Shows c ∧ LastShownAs c model ms :=
  since_concat

theorem wears_concat : Wears c model (ms ++ [m]) ↔
    m.ShowsAs c model ∨ m.Keeps c model ∧ Wears c model ms :=
  since_concat

/-- The model that it wears is that of its last showing. -/
theorem wears_iff : Wears c model ms ↔ OnStage c ms ∧ LastShownAs c model ms := by
  induction ms using List.reverseRecOn with
  | nil => simp [Wears, OnStage]
  | append_singleton ms m ih =>
    rw [wears_concat, onStage_concat, lastShownAs_concat, keeps_iff, ih]
    have hshows : m.ShowsAs c model → m.Shows c := m.shows_of_showsAs
    have hstays : m.Shows c → m ≠ .hide c := m.ne_hide_of_shows
    tauto

theorem LastShownAs.unique (h : LastShownAs c model ms) (h' : LastShownAs c other ms) :
    model = other := by
  induction ms using List.reverseRecOn with
  | nil => exact absurd h not_since_nil
  | append_singleton ms m ih =>
    rcases lastShownAs_concat.mp h with hm | ⟨hm, hbefore⟩ <;>
      rcases lastShownAs_concat.mp h' with hm' | ⟨hm', hbefore'⟩
    · exact m.eq_of_showsAs hm hm'
    · exact absurd (m.shows_of_showsAs hm) hm'
    · exact absurd (m.shows_of_showsAs hm') hm
    · exact ih hbefore hbefore'

theorem lastPlacedAt_concat {position : Position} : LastPlacedAt c (ms ++ [m]) position ↔
    m.Places c position ∨ (∀ other, ¬ m.Places c other) ∧ LastPlacedAt c ms position :=
  since_concat

theorem lastDid_concat {deed : String → ModelChange} {name : String} :
    LastDid c model (ms ++ [m]) deed name ↔ (m = deed name ∧ Wears c model ms) ∨
      (m.Keeps c model ∧ ∀ other, m ≠ deed other) ∧ LastDid c model ms deed name :=
  since_concat

/-- Whoever has done something while wearing a model wears it still. -/
theorem LastDid.wears {deed : String → ModelChange} {name : String}
    (h : LastDid c model ms deed name) (hdeed : ∀ name, (deed name).Keeps c model) :
    Wears c model ms := by
  induction ms using List.reverseRecOn with
  | nil => exact absurd h not_since_nil
  | append_singleton ms m ih =>
    rcases lastDid_concat.mp h with ⟨rfl, hwears⟩ | ⟨hkeeps, hbefore⟩
    · exact wears_concat.mpr (Or.inr ⟨hdeed name, hwears⟩)
    · exact wears_concat.mpr (Or.inr ⟨hkeeps.1, ih hbefore⟩)

/-! ## Coming on stage -/

variable {i j : Nat}

theorem cameOn_concat : CameOn c (ms ++ [m]) i ↔
    (ms.length = i ∧ m.Shows c ∧ ¬ OnStage c ms) ∨ m ≠ .hide c ∧ CameOn c ms i :=
  since_concat

theorem CameOn.onStage (h : CameOn c ms i) : OnStage c ms :=
  Since.imp h (fun _ _ hm ↦ hm.2.1) (fun _ hm ↦ hm)

theorem CameOn.lt (h : CameOn c ms i) : i < ms.length := by
  obtain ⟨earlier, m, later, rfl, ⟨rfl, -⟩, -⟩ := h
  simp

/-- Whoever is on stage has come on. -/
theorem OnStage.cameOn (h : OnStage c ms) : ∃ i, CameOn c ms i := by
  induction ms using List.reverseRecOn with
  | nil => exact absurd h not_since_nil
  | append_singleton ms m ih =>
    by_cases hbefore : OnStage c ms
    · obtain ⟨i, hi⟩ := ih hbefore
      have hm : m ≠ .hide c := by
        rcases onStage_concat.mp h with hm | ⟨hm, -⟩
        · exact m.ne_hide_of_shows hm
        · exact hm
      exact ⟨i, cameOn_concat.mpr (Or.inr ⟨hm, hi⟩)⟩
    · rcases onStage_concat.mp h with hm | ⟨-, hon⟩
      · exact ⟨ms.length, cameOn_concat.mpr (Or.inl ⟨rfl, hm, hbefore⟩)⟩
      · exact absurd hon hbefore

/-- It came on once. -/
theorem CameOn.unique (hi : CameOn c ms i) (hj : CameOn c ms j) : i = j := by
  induction ms using List.reverseRecOn with
  | nil => exact absurd hi not_since_nil
  | append_singleton ms m ih =>
    rcases cameOn_concat.mp hi with ⟨rfl, -, hoff⟩ | ⟨-, hi⟩ <;>
      rcases cameOn_concat.mp hj with ⟨rfl, -, hoff'⟩ | ⟨-, hj⟩
    · rfl
    · exact absurd hj.onStage hoff
    · exact absurd hi.onStage hoff'
    · exact ih hi hj

end Storyline
