import Mathlib.Algebra.Group.Defs
import Mathlib.Data.List.Nodup
import Storyline.Action.Printer
import Storyline.Proofs.Action.Rereading
import Storyline.Proofs.Json.Merging
import Storyline.Proofs.Json.Printing

/-!
# Printed actions

An action is read again off the value that it is printed as, tag by tag and field by
field, if its characters and its numbers of seconds are such as can be written.
-/

namespace Storyline

open Json

namespace Cue

def characters : Cue → List CharacterId
  | talk line => line.characterIds
  | model change => [change.character]
  | tremble _ character => [character]
  | _ => []

def seconds : Cue → List Binary64
  | cover _ _ seconds | shake _ seconds | delay seconds => [seconds]
  | _ => []

/-- The characters of the cue are numbers as they may be, and its seconds are finite. -/
structure Proper (c : Cue) : Prop where
  characters : ∀ character ∈ c.characters, character < 2 ^ 16
  seconds : ∀ x ∈ c.seconds, x.isFinite = true

end Cue

/-- All cues of the actions are proper. -/
def Action.Proper (as : List Action) : Prop := ∀ c ∈ cuesOfList as, c.Proper

/-! ## Fields -/

theorem asWord_ofWord {n : Nat} (h : n < 2 ^ 16) : asWord (ofWord n) = some n := by
  have hrange : (0 : Int) ≤ n ∧ (n : Int) < 65536 := by omega
  rw [ofWord, asWord, if_pos hrange]
  rfl

theorem asList_map {α : Type} (read : Json → Option α) (write : α → Json) (as : List α)
    (h : ∀ a ∈ as, read (write a) = some a) : asList read (.array (as.map write)) = some as := by
  refine mapM_eq_some_iff.mpr (List.forall₂_map_left_iff.mpr ?_)
  induction as with
  | nil => exact .nil
  | cons a as ih =>
      exact .cons (h a List.mem_cons_self) (ih fun b hb ↦ h b (List.mem_cons_of_mem a hb))

theorem nullable_ofOption (o : Option String) :
    nullable asString (ofOption .string o) = some o := by
  cases o <;> rfl

theorem Position.ofJson_name (p : Position) : Position.ofJson (.string p.name) = some p := by
  cases p <;> rfl

/-- The members of an object without repetitions are its fields. -/
theorem record_members (members : Members) (h : (members.map Prod.fst).Nodup) :
    ∃ r, record (members.map Prod.fst) (.object members) = some r ∧
      ∀ m ∈ members, r m.1 = .given m.2 := by
  have hcount : ∀ name, count name members ≤ 1 := fun name ↦ by
    have hle := List.nodup_iff_count_le_one.mp h name
    rwa [List.count, List.countP_map] at hle
  refine ⟨_, fieldsOf_eq_some_iff.mpr ⟨fun name _ ↦ hcount name, fun name ↦ rfl⟩, fun m hm ↦ ?_⟩
  have hlookup : members.lookup m.1 = some m.2 := by
    clear hcount
    induction members with
    | nil => exact absurd hm (by simp)
    | cons first members ih =>
        rw [List.map_cons, List.nodup_cons] at h
        rw [List.lookup_cons]
        rcases List.mem_cons.mp hm with rfl | hm
        · simp
        · have hne : (m.1 == first.1) = false :=
            beq_eq_false_iff_ne.mpr fun heq ↦ h.1 (heq ▸ List.mem_map_of_mem hm)
          rw [hne]
          exact ih h.2 hm
  exact congrArg (Option.elim · _ _) hlookup

theorem Line.ofJson_members {line : Line} (h : ∀ id ∈ line.characterIds, id < 2 ^ 16) :
    Line.ofJson (.object line.members) = some line := by
  obtain ⟨r, hr, hfields⟩ := record_members line.members (by simp [Line.members])
  simp only [Line.members, List.forall_mem_cons] at hfields
  obtain ⟨htext, hids, hnames, hvoice, -⟩ := hfields
  have hcharacters := asList_map asWord ofWord _ fun id hid ↦ asWord_ofWord (h id hid)
  have hstrings := asList_map asString .string line.characterNames
    fun _ _ ↦ rfl
  change (record Line.fields (.object line.members) >>= _) = _
  rw [show record Line.fields (.object line.members) = some r from hr]
  simp only [htext, hids, hnames, hvoice, Slot.required, Slot.withDefault, hcharacters, hstrings,
    nullable_ofOption, asString, Option.bind_eq_bind, Option.bind_some]
  rfl

/-! ## Cues -/

namespace Cue

theorem ofCharacter_members {make : CharacterId → Cue} {character : CharacterId}
    (h : character < 2 ^ 16) :
    ofCharacter make (.object [("characterId", ofWord character)]) = some (make character) := by
  obtain ⟨r, hr, hfields⟩ := record_members [("characterId", ofWord character)] (by simp)
  have hcharacter := hfields _ List.mem_cons_self
  change (record ["characterId"] _ >>= _) = _
  rw [show record ["characterId"] (.object [("characterId", ofWord character)]) = some r from hr]
  simp only [hcharacter, Slot.required, asWord_ofWord h, Option.bind_eq_bind, Option.bind_some]
  rfl

theorem ofModel_members {change : ModelChange} (h : change.character < 2 ^ 16) :
    ofKind change.kind (.object change.members) = some (.model change) := by
  cases change with
  | hide character => exact ofCharacter_members h
  | «show» character model position =>
      obtain ⟨r, hr, hfields⟩ := record_members
        (ModelChange.show character model position).members (by simp [ModelChange.members])
      have hword : asWord (ofWord character) = some character := asWord_ofWord h
      simp only [ModelChange.members, List.forall_mem_cons] at hfields
      obtain ⟨hcharacter, hmodel, hposition, -⟩ := hfields
      change (record ["characterId", "modelPath", "position"] _ >>= _) = _
      rw [show record ["characterId", "modelPath", "position"] _ = some r from hr]
      simp only [hcharacter, hmodel, hposition, Slot.required, Slot.withDefault, hword,
        Position.ofJson_name, asString, Option.bind_eq_bind, Option.bind_some]
      rfl
  | move character position =>
      obtain ⟨r, hr, hfields⟩ := record_members
        (ModelChange.move character position).members (by simp [ModelChange.members])
      have hword : asWord (ofWord character) = some character := asWord_ofWord h
      simp only [ModelChange.members, List.forall_mem_cons] at hfields
      obtain ⟨hcharacter, hposition, -⟩ := hfields
      change (record ["characterId", "position"] _ >>= _) = _
      rw [show record ["characterId", "position"] _ = some r from hr]
      simp only [hcharacter, hposition, Slot.required, hword, Position.ofJson_name,
        Option.bind_eq_bind, Option.bind_some]
      rfl
  | act character motion =>
      obtain ⟨r, hr, hfields⟩ := record_members
        (ModelChange.act character motion).members (by simp [ModelChange.members])
      have hword : asWord (ofWord character) = some character := asWord_ofWord h
      simp only [ModelChange.members, List.forall_mem_cons] at hfields
      obtain ⟨hcharacter, hmotion, -⟩ := hfields
      change (record ["characterId", "motionName"] _ >>= _) = _
      rw [show record ["characterId", "motionName"] _ = some r from hr]
      simp only [hcharacter, hmotion, Slot.required, hword, asString,
        Option.bind_eq_bind, Option.bind_some]
      rfl
  | express character expression =>
      obtain ⟨r, hr, hfields⟩ := record_members
        (ModelChange.express character expression).members (by simp [ModelChange.members])
      have hword : asWord (ofWord character) = some character := asWord_ofWord h
      simp only [ModelChange.members, List.forall_mem_cons] at hfields
      obtain ⟨hcharacter, hexpression, -⟩ := hfields
      change (record ["characterId", "expressionName"] _ >>= _) = _
      rw [show record ["characterId", "expressionName"] _ = some r from hr]
      simp only [hcharacter, hexpression, Slot.required, hword, asString,
        Option.bind_eq_bind, Option.bind_some]
      rfl

theorem ofKind_members {c : Cue} (h : c.Proper) : ofKind c.kind (.object c.members) = some c := by
  cases c with
  | talk line =>
      change Cue.talk <$> Line.ofJson (.object line.members) = _
      rw [Line.ofJson_members h.characters]
      rfl
  | telop text => rfl
  | model change => exact ofModel_members (h.characters _ List.mem_cons_self)
  | tremble axis character =>
      cases axis <;> exact ofCharacter_members (h.characters _ List.mem_cons_self)
  | cover cover visible seconds => cases cover <;> cases visible <;> rfl
  | shake shake seconds => cases shake <;> rfl
  | scenery scenery path => cases scenery <;> rfl
  | delay seconds => rfl
  | waitForAll => rfl
  | waitForTap => rfl

theorem members_ne_type (c : Cue) : ∀ m ∈ c.members, m.1 ≠ "type" := by
  cases c with
  | model change => cases change <;> simp [members, ModelChange.members]
  | talk line => simp [members, Line.members]
  | _ => simp [members]

theorem kind_mem_kinds (c : Cue) : c.kind ∈ Action.kinds := by
  cases c with
  | model change => cases change <;> simp [kind, ModelChange.kind, Action.kinds]
  | tremble axis _ => cases axis <;> simp [kind, Action.kinds]
  | cover cover visible _ => cases cover <;> cases visible <;> simp [kind, Action.kinds]
  | shake shake _ => cases shake <;> simp [kind, Action.kinds]
  | scenery scenery _ => cases scenery <;> simp [kind, Action.kinds]
  | _ => simp [kind, Action.kinds]

theorem ofKind_cue {part : Json → Option Action} (c : Cue) (j : Json) :
    Action.ofKind part c.kind j = .cue <$> ofKind c.kind j := by
  cases c with
  | model change => cases change <;> rfl
  | tremble axis _ => cases axis <;> rfl
  | cover cover visible _ => cases cover <;> cases visible <;> rfl
  | shake shake _ => cases shake <;> rfl
  | scenery scenery _ => cases scenery <;> rfl
  | _ => rfl

theorem fits_ofWord {n : Nat} (h : n < 2 ^ 16) : (ofWord n).Fits := by
  intro m hm
  obtain rfl := List.mem_singleton.mp hm
  exact ⟨by omega, by omega⟩

theorem fits_ofFloat {x : Binary64} (h : x.isFinite = true) : (ofFloat x).Fits := by
  intro m hm
  obtain rfl := List.mem_singleton.mp hm
  exact h

theorem fits_string (s : String) : (Json.string s).Fits := fun _ h ↦ absurd h (by simp [numbers])

theorem fits_members {c : Cue} (h : c.Proper) : ∀ m ∈ c.members, m.2.Fits := by
  cases c with
  | talk line =>
      simp only [members, Line.members, List.forall_mem_cons]
      refine ⟨fits_string _, fits_array ?_, fits_array ?_, ?_, fun m hm ↦ absurd hm (by simp)⟩
      · rintro _ hm
        obtain ⟨id, hid, rfl⟩ := List.mem_map.mp hm
        exact fits_ofWord (h.characters id hid)
      · rintro _ hm
        obtain ⟨name, -, rfl⟩ := List.mem_map.mp hm
        exact fits_string name
      · cases line.voicePath with
        | none => exact fun _ h ↦ absurd h (by simp [ofOption, numbers])
        | some path => exact fits_string path
  | model change =>
      have hword := fits_ofWord (h.characters _ List.mem_cons_self)
      cases change <;> simp only [ModelChange.character] at hword <;>
        simp [members, ModelChange.members, fits_string, hword]
  | tremble axis character =>
      simpa [members] using fits_ofWord (h.characters _ List.mem_cons_self)
  | cover _ _ seconds | shake _ seconds | delay seconds =>
      simpa [members] using fits_ofFloat (h.seconds _ List.mem_cons_self)
  | _ => simp [members, fits_string]

end Cue

/-! ## Actions -/

namespace Json

theorem tagged_cons {style : TagStyle} {tag : String} {variants : List String} {value : Json}
    {members : Members} (h : ∀ m ∈ members, m.1 ≠ tag) :
    tagged style tag variants (.object ((tag, value) :: members)) =
      (asTag style variants value).map fun t ↦ (t, .object members) := by
  have hnone : members.filter (fun m ↦ m.1 == tag) = [] :=
    List.filter_eq_nil_iff.mpr fun m hm ↦ by simpa using h m hm
  have hall : members.filter (fun m ↦ m.1 != tag) = members :=
    List.filter_eq_self.mpr fun m hm ↦ by simpa using h m hm
  unfold tagged
  simp only [List.filter_cons, beq_self_eq_true, if_true, bne_self_eq_false, Bool.false_eq_true,
    if_false, hnone, hall]
  cases asTag style variants value <;> rfl

theorem asTag_string {style : TagStyle} {variants : List String} {name : String}
    (h : name ∈ variants) : asTag style variants (.string name) = some (.known name) := by
  rw [asTag, Tag.ofName, if_pos h]

end Json

namespace Action

mutual

theorem ofJson_toJson {a : Action} (h : ∀ c ∈ a.cues, c.Proper) (style : TagStyle) :
    ofJson style a.toJson = some a := by
  have hparts : ∀ {as : List Action}, (listToJson as).mapM (ofJson .numbered) = some as →
      partsOfJson (ofJson .numbered) (.object [("actions", .array (listToJson as))]) = some as := by
    intro as has
    obtain ⟨r, hr, hfields⟩ := record_members [("actions", .array (listToJson as))] (by simp)
    have hactions := hfields _ List.mem_cons_self
    rw [partsOfJson, show record ["actions"] _ = some r from hr]
    simp only [Option.bind_eq_bind, Option.bind_some, hactions]
    exact has
  cases a with
  | cue c =>
      refine ofJson_eq_some_iff.mpr ⟨c.kind, .object c.members, ?_, ?_⟩
      · rw [toJson, tagged_cons c.members_ne_type, asTag_string c.kind_mem_kinds]
        rfl
      · rw [Cue.ofKind_cue, Cue.ofKind_members (h c (by simp [cues]))]
        rfl
  | block as =>
      refine ofJson_eq_some_iff.mpr ⟨"blocking", .object [("actions", .array (listToJson as))], ?_, ?_⟩
      · rw [toJson, tagged_cons (by simp), asTag_string (by simp [kinds])]
        rfl
      · change Action.block <$> partsOfJson _ _ = _
        rw [hparts (mapM_listToJson h .numbered)]
        rfl
  | fork as =>
      refine ofJson_eq_some_iff.mpr ⟨"forkTask", .object [("actions", .array (listToJson as))], ?_, ?_⟩
      · rw [toJson, tagged_cons (by simp), asTag_string (by simp [kinds])]
        rfl
      · change Action.fork <$> partsOfJson _ _ = _
        rw [hparts (mapM_listToJson h .numbered)]
        rfl

theorem mapM_listToJson {as : List Action} (h : Proper as) (style : TagStyle) :
    (listToJson as).mapM (ofJson style) = some as := by
  cases as with
  | nil => rfl
  | cons a as =>
      rw [Proper, cuesOfList, List.forall_mem_append] at h
      refine mapM_eq_some_iff.mpr (.cons (ofJson_toJson h.1 style) ?_)
      exact mapM_eq_some_iff.mp (mapM_listToJson h.2 style)

end

mutual

theorem fits_toJson {a : Action} (h : ∀ c ∈ a.cues, c.Proper) : a.toJson.Fits := by
  cases a with
  | cue c =>
      refine fits_object (List.forall_mem_cons.mpr ⟨Cue.fits_string _, Cue.fits_members (h c (by simp [cues]))⟩)
  | block as | fork as =>
      refine fits_object (List.forall_mem_cons.mpr ⟨Cue.fits_string _, List.forall_mem_cons.mpr
        ⟨fits_array (fits_listToJson h), fun m hm ↦ absurd hm (by simp)⟩⟩)

theorem fits_listToJson {as : List Action} (h : Proper as) : ∀ j ∈ listToJson as, j.Fits := by
  cases as with
  | nil => exact fun j hj ↦ absurd hj (by simp [listToJson])
  | cons a as =>
      rw [Proper, cuesOfList, List.forall_mem_append] at h
      exact List.forall_mem_cons.mpr ⟨fits_toJson h.1, fits_listToJson h.2⟩

end

end Action

end Storyline
