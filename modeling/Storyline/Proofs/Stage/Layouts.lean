import Mathlib.Data.List.Nodup
import Storyline.Proofs.Stage.Edits
import Storyline.Proofs.Stage.History

/-!
# The models on the stage

The layouts are a map from characters that keeps the order of insertion.  A
change alters the layout of its own character and leaves the others where they
are; so after every history of changes the layouts are those of the characters
on stage, in the order in which they came on, and each of them is what the
history says of its character.
-/

namespace Storyline

open ModelChange

variable {s : Stage} {m : ModelChange} {c d : CharacterId} {ms : List ModelChange}

/-! ## A change and one character -/

/-- What a change makes of the layout of its own character. -/
def ModelChange.alter : ModelChange → Option Layout → Option Layout
  | .show c model position, none => some (.fresh c model position)
  | .show _ model position, some l => some (l.reshow model position)
  | .hide _, _ => none
  | .move _ position, found => found.map (fun l ↦ { l with position := position })
  | .act _ motion, found => found.map (fun l ↦ { l with motion := some motion })
  | .express _ expression, found => found.map (fun l ↦ { l with expression := some expression })

@[simp] theorem Layout.reshow_character (model : String) (position : Position) (l : Layout) :
    (l.reshow model position).character = l.character := by
  rw [Layout.reshow]
  split <;> rfl

namespace Stage

/-- The stage after a change, which may be refused. -/
def changed (m : ModelChange) (s : Stage) : Stage := (m.apply s).getD s

/-- The empty stage after changes, each of which may be refused. -/
def afterAll (ms : List ModelChange) : Stage := ms.foldl (fun s m ↦ s.changed m) .empty

@[simp] theorem afterAll_concat : afterAll (ms ++ [m]) = (afterAll ms).changed m :=
  List.foldl_append ..

/-- The characters that have a layout. -/
def characters (s : Stage) : List CharacterId := s.layouts.map Layout.character

theorem map_modifyFirst {f : Layout → Layout} (hf : ∀ l, (f l).character = l.character)
    (ls : List Layout) : (modifyFirst c f ls).map Layout.character = ls.map Layout.character := by
  induction ls with
  | nil => rfl
  | cons l rest ih => by_cases hl : l.character = c <;> simp [modifyFirst, hl, hf, ih]

theorem find?_modifyFirst {f : Layout → Layout} (hf : ∀ l, (f l).character = l.character)
    (ls : List Layout) : (modifyFirst c f ls).find? (fun l ↦ l.character == d) =
      if c = d then (ls.find? (fun l ↦ l.character == d)).map f
      else ls.find? (fun l ↦ l.character == d) := by
  induction ls with
  | nil => simp [modifyFirst]
  | cons l rest ih =>
    by_cases hl : l.character = c
    · by_cases hd : c = d <;> simp [modifyFirst, hl, hf, hd]
    · by_cases hd : l.character = d
      · have hcd : c ≠ d := fun h ↦ hl (hd.trans h.symm)
        have hdc : d ≠ c := hcd.symm
        simp [modifyFirst, hd, hcd, hdc]
      · simp [modifyFirst, hl, hd, ih]

theorem filter_modifyFirst {f : Layout → Layout} (hf : ∀ l, (f l).character = l.character)
    (ls : List Layout) : (modifyFirst c f ls).filter (fun l ↦ l.character != c) =
      ls.filter (fun l ↦ l.character != c) := by
  induction ls with
  | nil => rfl
  | cons l rest ih => by_cases hl : l.character = c <;> simp [modifyFirst, hl, hf, ih]

theorem isSome_layout? : (s.layout? c).isSome ↔ c ∈ s.characters := by
  simp [layout?, characters]

/-- A change of one layout is made in its place, or refused for want of it. -/
theorem getD_modifyLayout (f : Layout → Layout) (s : Stage) :
    (modifyLayout c f s).getD s = { s with layouts := modifyFirst c f s.layouts } := by
  have h : (amendLayout c f s).1 = (modifyLayout c f s).getD s :=
    congrArg Prod.fst (amendLayout_makes c f s)
  rw [← h, amendLayout, amendFirst_eq]

theorem changed_hide : s.changed (.hide c) =
    { s with layouts := s.layouts.filter (fun l ↦ l.character != c) } :=
  (congrArg Prod.fst (amendHidden_makes c s)).symm

theorem changed_show_mem {model : String} {position : Position} (hc : c ∈ s.characters) :
    s.changed (.show c model position) =
      { s with layouts := modifyFirst c (Layout.reshow model position) s.layouts } := by
  simp [changed, apply, showModel, isSome_layout?.mpr hc]

theorem changed_show_notMem {model : String} {position : Position} (hc : c ∉ s.characters) :
    s.changed (.show c model position) =
      { s with layouts := s.layouts ++ [.fresh c model position] } := by
  have hnone : ¬ (s.layout? c).isSome := fun h ↦ hc (isSome_layout?.mp h)
  simp [changed, apply, showModel, hnone]

/-- A change reaches the layouts only. -/
theorem changed_with_layouts (s : Stage) (m : ModelChange) :
    { s.changed m with layouts := s.layouts } = s := by
  cases m with
  | «show» c model position =>
    by_cases hc : c ∈ s.characters
    · rw [changed_show_mem hc]
    · rw [changed_show_notMem hc]
  | hide c => rw [changed_hide]
  | move c position | act c motion | express c expression =>
    exact congrArg (fun t : Stage ↦ { t with layouts := s.layouts }) (getD_modifyLayout _ s)

/-- A change leaves the layouts of the other characters as they are, in their order. -/
theorem filter_changed (s : Stage) (m : ModelChange) :
    (s.changed m).layouts.filter (fun l ↦ l.character != m.character) =
      s.layouts.filter (fun l ↦ l.character != m.character) := by
  cases m with
  | «show» c model position =>
    by_cases hc : c ∈ s.characters
    · rw [changed_show_mem hc]
      exact filter_modifyFirst (Layout.reshow_character model position) s.layouts
    · rw [changed_show_notMem hc]
      simp [Layout.fresh, character]
  | hide c =>
    rw [changed_hide, List.filter_filter]
    simp [character]
  | move c position | act c motion | express c expression =>
    refine (congrArg (fun t : Stage ↦ t.layouts.filter _) (getD_modifyLayout _ s)).trans ?_
    exact filter_modifyFirst (by intro l; rfl) s.layouts

/-- The layout of a character after a change. -/
theorem layout?_changed (s : Stage) (m : ModelChange) (d : CharacterId) :
    (s.changed m).layout? d = if m.character = d then m.alter (s.layout? d) else s.layout? d := by
  cases m with
  | «show» c model position =>
    by_cases hc : c ∈ s.characters
    · rw [changed_show_mem hc]
      refine (find?_modifyFirst (Layout.reshow_character model position) s.layouts).trans ?_
      by_cases hd : c = d
      · obtain ⟨l, hl⟩ := Option.isSome_iff_exists.mp (isSome_layout?.mpr (hd ▸ hc))
        have hfind : s.layouts.find? (fun l ↦ l.character == d) = some l := hl
        simp [character, alter, hd, hl, hfind]
      · exact (if_neg hd).trans (if_neg hd).symm
    · rw [changed_show_notMem hc, layout?, List.find?_append]
      by_cases hd : c = d
      · subst hd
        have hnone : s.layout? c = none := by simpa using mt isSome_layout?.mp hc
        have hfind : s.layouts.find? (fun l ↦ l.character == c) = none := hnone
        simp [character, alter, hnone, hfind, Layout.fresh]
      · simp [character, hd, layout?, Layout.fresh]
  | hide c =>
    rw [changed_hide, layout?, List.find?_filter]
    by_cases hd : c = d
    · simp [character, alter, hd]
    · have hkept (l : Layout) : (l.character != c && l.character == d) = (l.character == d) := by
        by_cases hl : l.character = d <;> simp [hl, Ne.symm hd]
      simp only [Bool.decide_and, Bool.decide_eq_true, hkept]
      simp [character, hd, layout?]
  | move c position | act c motion | express c expression =>
    refine (congrArg (fun t : Stage ↦ t.layout? d) (getD_modifyLayout _ s)).trans ?_
    exact find?_modifyFirst (by intro l; rfl) s.layouts

/-- The characters after a change: a newcomer is the last one. -/
theorem characters_changed (s : Stage) (m : ModelChange) :
    (s.changed m).characters = s.characters ∨
      (∃ c, m.Shows c ∧ c ∉ s.characters ∧ (s.changed m).characters = s.characters ++ [c]) ∨
      ∃ c, m = .hide c ∧ (s.changed m).characters = s.characters.filter (· != c) := by
  cases m with
  | «show» c model position =>
    by_cases hc : c ∈ s.characters
    · refine Or.inl ?_
      rw [changed_show_mem hc]
      exact map_modifyFirst (Layout.reshow_character model position) s.layouts
    · refine Or.inr (Or.inl ⟨c, rfl, hc, ?_⟩)
      simp [changed_show_notMem hc, characters, Layout.fresh]
  | hide c =>
    refine Or.inr (Or.inr ⟨c, rfl, ?_⟩)
    simp [changed_hide, characters, List.filter_map, Function.comp_def]
  | move c position | act c motion | express c expression =>
    refine Or.inl ((congrArg characters (getD_modifyLayout _ s)).trans ?_)
    exact map_modifyFirst (by intro l; rfl) s.layouts

end Stage

/-! ## One character over a history -/

/-- A layout is what a history says of its character. -/
structure Layout.Recalls (ms : List ModelChange) (l : Layout) : Prop where
  model : LastShownAs l.character l.model ms
  position : LastPlacedAt l.character ms l.position
  motion : ∀ name, l.motion = some name ↔ LastDid l.character l.model ms (.act l.character) name
  expression : ∀ name,
    l.expression = some name ↔ LastDid l.character l.model ms (.express l.character) name

/-- What a history says of a character: off stage it has no layout, on stage one
that recalls it. -/
def Remembered (c : CharacterId) (ms : List ModelChange) : Option Layout → Prop
  | none => ¬ OnStage c ms
  | some l => l.character = c ∧ OnStage c ms ∧ l.Recalls ms

variable {found : Option Layout} {l : Layout} {model : String}

/-- A change after which the model is the same: what it sets is set by it, and
what it leaves alone is still what the history says. -/
theorem Layout.Recalls.concat {l' : Layout} (h : l.Recalls ms) (hon : OnStage l.character ms)
    (hcharacter : l'.character = l.character) (hmodel : l'.model = l.model)
    (hkeeps : m.Keeps l.character l.model)
    (hposition : l'.position = l.position ∧ (∀ position, ¬ m.Places l.character position) ∨
      m.Places l.character l'.position)
    (hmotion : l'.motion = l.motion ∧ (∀ name, m ≠ .act l.character name) ∨
      ∃ name, l'.motion = some name ∧ m = .act l.character name)
    (hexpression : l'.expression = l.expression ∧ (∀ name, m ≠ .express l.character name) ∨
      ∃ name, l'.expression = some name ∧ m = .express l.character name) :
    l'.Recalls (ms ++ [m]) := by
  have hwears : Wears l.character l.model ms := wears_iff.mpr ⟨hon, h.model⟩
  constructor
  · rw [hcharacter, hmodel, lastShownAs_concat]
    by_cases hm : m.Shows l.character
    · exact Or.inl (((keeps_iff m).mp hkeeps).2 hm)
    · exact Or.inr ⟨hm, h.model⟩
  · rw [hcharacter, lastPlacedAt_concat]
    rcases hposition with ⟨hsame, hm⟩ | hm
    · exact Or.inr ⟨hm, hsame ▸ h.position⟩
    · exact Or.inl hm
  · intro name
    rw [hcharacter, hmodel, lastDid_concat]
    rcases hmotion with ⟨hsame, hm⟩ | ⟨other, hset, rfl⟩
    · simp [hsame, hm, hkeeps, h.motion name]
    · simp [hset, hwears]
  · intro name
    rw [hcharacter, hmodel, lastDid_concat]
    rcases hexpression with ⟨hsame, hm⟩ | ⟨other, hset, rfl⟩
    · simp [hsame, hm, hkeeps, h.expression name]
    · simp [hset, hwears]

/-- A model that has just been put on has done nothing yet. -/
theorem Layout.recalls_fresh {position : Position} (h : ¬ Wears c model ms) :
    (Layout.fresh c model position).Recalls (ms ++ [.show c model position]) where
  model := lastShownAs_concat.mpr (Or.inl ⟨rfl, rfl⟩)
  position := lastPlacedAt_concat.mpr (Or.inl ⟨rfl, rfl⟩)
  motion name := by
    have hnever : ¬ LastDid c model ms (.act c) name :=
      fun hdid ↦ h (hdid.wears fun _ ↦ trivial)
    simp [Layout.fresh, lastDid_concat, hnever]
  expression name := by
    have hnever : ¬ LastDid c model ms (.express c) name :=
      fun hdid ↦ h (hdid.wears fun _ ↦ trivial)
    simp [Layout.fresh, lastDid_concat, hnever]

/-- What is done to one character is nothing to the others. -/
theorem Remembered.concat_of_ne (h : Remembered c ms found) (hm : m.character ≠ c) :
    Remembered c (ms ++ [m]) found := by
  have hshows : ¬ m.Shows c := by
    cases m <;> simp_all [Shows, character]
  have hstays : m ≠ .hide c := by
    rintro rfl
    exact hm rfl
  cases found with
  | none =>
    intro hon
    rcases onStage_concat.mp hon with hon | ⟨-, hon⟩
    · exact hshows hon
    · exact h hon
  | some l =>
    obtain ⟨rfl, hon, hrecalls⟩ := h
    refine ⟨rfl, onStage_concat.mpr (Or.inr ⟨hstays, hon⟩), ?_⟩
    refine hrecalls.concat hon rfl rfl ?_ (Or.inl ⟨rfl, ?_⟩) (Or.inl ⟨rfl, ?_⟩) (Or.inl ⟨rfl, ?_⟩)
    · exact (keeps_iff m).mpr ⟨hstays, fun hm ↦ absurd hm hshows⟩
    · cases m <;> simp_all [Places, character]
    · rintro name rfl
      exact hm rfl
    · rintro name rfl
      exact hm rfl

/-- A deed is remembered of whoever is on stage. -/
theorem Remembered.concat_map {f : Layout → Layout} (h : Remembered c ms found)
    (hm : ¬ m.Shows c) (hstays : m ≠ .hide c)
    (hcharacter : ∀ l, (f l).character = l.character)
    (hrecalls : ∀ l, OnStage l.character ms → l.character = c → l.Recalls ms →
      (f l).Recalls (ms ++ [m])) :
    Remembered c (ms ++ [m]) (found.map f) := by
  cases found with
  | none =>
    intro hon
    rcases onStage_concat.mp hon with hon | ⟨-, hon⟩
    · exact hm hon
    · exact h hon
  | some l =>
    obtain ⟨rfl, hon, hl⟩ := h
    exact ⟨hcharacter l, onStage_concat.mpr (Or.inr ⟨hstays, hon⟩), hrecalls l hon rfl hl⟩

/-- What a history says of a character is changed as its layout is. -/
theorem Remembered.concat_alter (h : Remembered m.character ms found) :
    Remembered m.character (ms ++ [m]) (m.alter found) := by
  cases m with
  | «show» c model position =>
    have hon : OnStage c (ms ++ [.show c model position]) := onStage_concat.mpr (Or.inl rfl)
    cases found with
    | none => exact ⟨rfl, hon, Layout.recalls_fresh fun hwears ↦ h hwears.onStage⟩
    | some l =>
      obtain ⟨rfl, hbefore, hrecalls⟩ := h
      refine ⟨Layout.reshow_character model position l, hon, ?_⟩
      by_cases hmodel : l.model = model
      · rw [Layout.reshow, if_pos (beq_iff_eq.mpr hmodel)]
        refine hrecalls.concat hbefore rfl rfl ?_ (Or.inr ⟨rfl, rfl⟩) (Or.inl ⟨rfl, by simp⟩)
          (Or.inl ⟨rfl, by simp⟩)
        exact fun _ ↦ hmodel.symm
      · rw [Layout.reshow, if_neg (mt beq_iff_eq.mp hmodel)]
        apply Layout.recalls_fresh
        exact fun hwears ↦ hmodel (hrecalls.model.unique (wears_iff.mp hwears).2)
  | hide c => simp [Remembered, alter, onStage_concat, Shows, character]
  | move c position =>
    refine h.concat_map not_false (by simp) (fun l ↦ rfl) ?_
    rintro l hon rfl hl
    refine hl.concat hon rfl rfl ?_ (Or.inr ⟨rfl, rfl⟩) (Or.inl ⟨rfl, by simp⟩)
      (Or.inl ⟨rfl, by simp⟩)
    trivial
  | act c motion =>
    refine h.concat_map not_false (by simp) (fun l ↦ rfl) ?_
    rintro l hon rfl hl
    refine hl.concat hon rfl rfl ?_ (Or.inl ⟨rfl, fun _ ↦ not_false⟩)
      (Or.inr ⟨motion, rfl, rfl⟩) (Or.inl ⟨rfl, by simp⟩)
    trivial
  | express c expression =>
    refine h.concat_map not_false (by simp) (fun l ↦ rfl) ?_
    rintro l hon rfl hl
    refine hl.concat hon rfl rfl ?_ (Or.inl ⟨rfl, fun _ ↦ not_false⟩) (Or.inl ⟨rfl, by simp⟩)
      (Or.inr ⟨expression, rfl, rfl⟩)
    trivial

theorem remembered_layout? (ms : List ModelChange) (c : CharacterId) :
    Remembered c ms ((Stage.afterAll ms).layout? c) := by
  induction ms using List.reverseRecOn with
  | nil => exact not_since_nil
  | append_singleton ms m ih =>
    rw [Stage.afterAll_concat, Stage.layout?_changed]
    by_cases hm : m.character = c
    · subst hm
      rw [if_pos rfl]
      exact ih.concat_alter
    · rw [if_neg hm]
      exact ih.concat_of_ne hm

/-! ## All of them -/

namespace Stage

/-- Characters stand in the order in which they came on. -/
def InOrder (ms : List ModelChange) (cs : List CharacterId) : Prop :=
  cs.Pairwise (fun c d ↦ ∀ i j, CameOn c ms i → CameOn d ms j → i < j)

theorem mem_characters_after (ms : List ModelChange) (c : CharacterId) :
    c ∈ (afterAll ms).characters ↔ OnStage c ms := by
  rw [← isSome_layout?]
  have h := remembered_layout? ms c
  cases hc : (afterAll ms).layout? c with
  | none => simpa [Remembered, hc] using h
  | some l =>
    rw [hc] at h
    simpa using h.2.1

theorem nodup_characters (ms : List ModelChange) : (afterAll ms).characters.Nodup := by
  induction ms using List.reverseRecOn with
  | nil => exact List.nodup_nil
  | append_singleton ms m ih =>
    rw [afterAll_concat]
    rcases characters_changed (afterAll ms) m with h | ⟨c, -, hc, h⟩ | ⟨c, -, h⟩
    · rwa [h]
    · rw [h]
      refine List.nodup_append.mpr ⟨ih, by simp, ?_⟩
      intro d hd e he
      obtain rfl := List.mem_singleton.mp he
      exact fun hde ↦ hc (hde ▸ hd)
    · rw [h]
      exact ih.filter _

theorem inOrder_characters (ms : List ModelChange) : InOrder ms (afterAll ms).characters := by
  induction ms using List.reverseRecOn with
  | nil => exact List.Pairwise.nil
  | append_singleton ms m ih =>
    -- whoever was on stage and is still there came on when it did
    have hold {c : CharacterId} {i : Nat} (hc : c ∈ (afterAll ms).characters)
        (hi : CameOn c (ms ++ [m]) i) : CameOn c ms i := by
      rcases cameOn_concat.mp hi with ⟨-, -, hoff⟩ | ⟨-, hi⟩
      · exact absurd ((mem_characters_after ms c).mp hc) hoff
      · exact hi
    have hkept : InOrder (ms ++ [m]) (afterAll ms).characters :=
      ih.imp_of_mem fun hc hd h i j hi hj ↦ h i j (hold hc hi) (hold hd hj)
    rw [afterAll_concat]
    rcases characters_changed (afterAll ms) m with h | ⟨c, -, hc, h⟩ | ⟨c, -, h⟩
    · rwa [h]
    · rw [h]
      refine List.pairwise_append.mpr ⟨hkept, List.pairwise_singleton _ _, ?_⟩
      intro d hd e he i j hi hj
      obtain rfl := List.mem_singleton.mp he
      have hlast : ms.length = j := by
        rcases cameOn_concat.mp hj with ⟨hlast, -⟩ | ⟨-, hj⟩
        · exact hlast
        · exact absurd ((mem_characters_after ms e).mpr hj.onStage) hc
      exact hlast ▸ (hold hd hi).lt
    · rw [h]
      exact hkept.filter _

theorem recalls_of_mem {l : Layout} (hl : l ∈ (afterAll ms).layouts) : l.Recalls ms := by
  have hfind : (afterAll ms).layout? l.character = some l := by
    obtain ⟨k, hk⟩ := Option.isSome_iff_exists.mp
      (isSome_layout?.mpr (List.mem_map_of_mem hl))
    have hsame : k.character = l.character := by simpa using List.find?_some hk
    rw [hk, List.inj_on_of_nodup_map (nodup_characters ms) (List.mem_of_find?_eq_some hk) hl hsame]
  have h := remembered_layout? ms l.character
  rw [hfind] at h
  exact h.2.2

theorem isSome_apply_iff (hm : ¬ m.Shows m.character) :
    (m.apply s).isSome ↔ m.character ∈ s.characters := by
  cases m with
  | «show» c model position => exact absurd rfl hm
  | hide c =>
    have hreport : (amendHidden c s).2 = (s.hideModel c).isSome :=
      congrArg Prod.snd (amendHidden_makes c s)
    rw [apply, ← hreport]
    simp [amendHidden, characters, character]
  | move c position | act c motion | express c expression =>
    refine Iff.trans ?_ isSome_layout?
    by_cases hc : (s.layout? c).isSome <;>
      simp [apply, character, moveModel, Stage.act, Stage.express, modifyLayout, hc]

/-- **The layouts are a map from characters in order of insertion.**  After any
history of changes they are the layouts of the characters on stage, each once,
in the order in which they came on, and each as the history says.  A change of
a model that is there reports that it was made, and any other than a showing
reports that it was not and leaves the whole stage as it is; no change reaches
beyond the layouts, or the layouts of other characters. -/
theorem layouts_recall_history (ms : List ModelChange) :
    (afterAll ms).characters.Nodup ∧
    (∀ c, c ∈ (afterAll ms).characters ↔ OnStage c ms) ∧
    (∀ c, OnStage c ms ↔ ∃! i, CameOn c ms i) ∧
    InOrder ms (afterAll ms).characters ∧
    (∀ l ∈ (afterAll ms).layouts, l.Recalls ms) ∧
    ∀ m : ModelChange,
      m.edit (afterAll ms) = (afterAll (ms ++ [m]), (m.apply (afterAll ms)).isSome) ∧
      (¬ m.Shows m.character → ((m.edit (afterAll ms)).2 = true ↔ OnStage m.character ms)) ∧
      ((m.edit (afterAll ms)).2 = false → afterAll (ms ++ [m]) = afterAll ms) ∧
      { afterAll (ms ++ [m]) with layouts := (afterAll ms).layouts } = afterAll ms ∧
      (afterAll (ms ++ [m])).layouts.filter (fun l ↦ l.character != m.character) =
        (afterAll ms).layouts.filter (fun l ↦ l.character != m.character) := by
  refine ⟨nodup_characters ms, mem_characters_after ms, ?_, inOrder_characters ms,
    fun l hl ↦ recalls_of_mem hl, fun m ↦ ?_⟩
  · intro c
    constructor
    · intro hon
      obtain ⟨i, hi⟩ := hon.cameOn
      exact ⟨i, hi, fun j hj ↦ hj.unique hi⟩
    · rintro ⟨i, hi, -⟩
      exact hi.onStage
  · have hedit : m.edit (afterAll ms) = (afterAll (ms ++ [m]), (m.apply (afterAll ms)).isSome) := by
      rw [afterAll_concat]
      exact m.edit_makes (afterAll ms)
    refine ⟨hedit, ?_, ?_, ?_, ?_⟩
    · intro hm
      rw [hedit, ← mem_characters_after]
      exact isSome_apply_iff hm
    · intro hrefused
      have hsame := m.edit_makes.honest (afterAll ms) hrefused
      rwa [hedit] at hsame
    · rw [afterAll_concat]
      exact changed_with_layouts (afterAll ms) m
    · rw [afterAll_concat]
      exact filter_changed (afterAll ms) m

-- shown again as the same model it keeps what it does, as another one it forgets it
example : (afterAll [.show 1 "m1" .center, .act 1 "smile", .show 2 "m3" .right, .show 1 "m1" .left,
    .hide 2, .act 2 "wave", .show 2 "m3" .center, .express 1 "angry"]).layouts =
      [⟨1, "m1", .left, some "smile", some "angry"⟩, ⟨2, "m3", .center, none, none⟩] := by
  decide

end Stage

end Storyline
