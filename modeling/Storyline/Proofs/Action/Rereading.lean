import Storyline.Action.Reader
import Storyline.Proofs.Json.Rereading

/-!
# Actions read again

An action is read off its tag and the fields of its kind.  Where these are kept, the
same action is read again; and it is read from any value with its tag and fields, no
matter how deep the value nests otherwise.
-/

namespace Storyline

open Json

variable {R : Json → Json → Prop} {K : String → Json → Json → Prop}

/-! ## Cues -/

theorem Position.keeps_ofJson (hR : Faithful R) : Keeps R Position.ofJson Position.ofJson :=
  hR.choice.bind

theorem Line.reread (hK : ∀ name ∈ Line.fields, Faithful (K name)) {j j' : Json}
    (h : SameRecord K Line.fields j j') {line : Line} (hj : Line.ofJson j = some line) :
    Line.ofJson j' = some line := by
  have hids := hK "characterIds" (by simp [Line.fields])
  have hnames := hK "characterNames" (by simp [Line.fields])
  have hvoice := hK "voicePath" (by simp [Line.fields])
  refine h.read ?_ hj
  exact (Record.keeps_required (by simp [Line.fields]) (hK _ (by simp [Line.fields])).asString).bind fun _ ↦
    (Record.keeps_withDefault (by simp [Line.fields]) (hids.asList hids.asWord)).bind fun _ ↦
    (Record.keeps_withDefault (by simp [Line.fields]) (hnames.asList hnames.asString)).bind fun _ ↦
    (Record.keeps_withDefault (by simp [Line.fields]) (hvoice.nullable hvoice.asString)).bind fun _ ↦
    Record.keeps_pure _

/-- The fields that a kind of action has. -/
def Action.fieldNames : String → List String
  | "talk" => Line.fields
  | "telop" => ["text"]
  | "showModel" => ["characterId", "modelPath", "position"]
  | "moveModel" => ["characterId", "position"]
  | "act" => ["characterId", "motionName"]
  | "express" => ["characterId", "expressionName"]
  | "hideModel" | "horizontalShake" | "verticalShake" => ["characterId"]
  | "showBlackCover" | "hideBlackCover" | "showWhiteCover" | "hideWhiteCover" => ["duration"]
  | "shakeScreen" | "shakeDialogBox" => ["duration"]
  | "changeBackground" | "changeBgm" | "changeSe" => ["path"]
  | "delay" => ["seconds"]
  | "blocking" | "forkTask" => ["actions"]
  | _ => []

namespace Cue

variable {j j' : Json} {c : Cue}

theorem reread_ofCharacter (hK : Faithful (K "characterId")) {make : CharacterId → Cue}
    (h : SameRecord K ["characterId"] j j') (hj : ofCharacter make j = some c) :
    ofCharacter make j' = some c :=
  h.read (Record.keeps_required (by simp) hK.asWord).map hj

theorem reread_ofDuration (hK : Faithful (K "duration")) {make : Binary64 → Cue}
    (h : SameRecord K ["duration"] j j') (hj : ofDuration make j = some c) :
    ofDuration make j' = some c :=
  h.read (Record.keeps_required (by simp) hK.asFloat).map hj

theorem reread_ofPath (hK : Faithful (K "path")) {scenery : Scenery} (h : SameRecord K ["path"] j j')
    (hj : ofPath scenery j = some c) : ofPath scenery j' = some c :=
  h.read (Record.keeps_required (by simp) hK.asString).map hj

theorem reread_ofNothing {made : Cue} (h : noFields j = true → noFields j' = true)
    (hj : ofNothing made j = some c) : ofNothing made j' = some c := by
  unfold ofNothing at hj ⊢
  split at hj
  next hnone => rwa [if_pos (h hnone)]
  next => exact nomatch hj

theorem reread (hK : ∀ name, name ≠ "actions" → Faithful (K name)) {kind : String}
    (h : SameRecord K (Action.fieldNames kind) j j') (hnone : noFields j = true → noFields j' = true)
    (hj : ofKind kind j = some c) : ofKind kind j' = some c := by
  unfold ofKind at hj ⊢
  split at hj
  next =>
    obtain ⟨line, hline, rfl⟩ := Option.map_eq_some_iff.mp hj
    have hfields : ∀ name ∈ Line.fields, Faithful (K name) := fun name hname ↦
      hK name fun h ↦ absurd (h ▸ hname) (by decide)
    exact Option.map_eq_some_iff.mpr ⟨line, Line.reread hfields h hline, rfl⟩
  next => exact h.read (Record.keeps_required (by simp [Action.fieldNames]) (hK _ (by decide)).asString).map hj
  next =>
    refine h.read ?_ hj
    exact (Record.keeps_required (by simp [Action.fieldNames]) (hK _ (by decide)).asWord).bind fun _ ↦
      (Record.keeps_required (by simp [Action.fieldNames]) (hK _ (by decide)).asString).bind fun _ ↦
      (Record.keeps_withDefault (by simp [Action.fieldNames])
        (Position.keeps_ofJson (hK _ (by decide)))).bind fun _ ↦ Record.keeps_pure _
  next => exact reread_ofCharacter (hK _ (by decide)) h hj
  next =>
    refine h.read ?_ hj
    exact (Record.keeps_required (by simp [Action.fieldNames]) (hK _ (by decide)).asWord).bind fun _ ↦
      (Record.keeps_required (by simp [Action.fieldNames]) (Position.keeps_ofJson (hK _ (by decide)))).bind fun _ ↦
      Record.keeps_pure _
  next =>
    refine h.read ?_ hj
    exact (Record.keeps_required (by simp [Action.fieldNames]) (hK _ (by decide)).asWord).bind fun _ ↦
      (Record.keeps_required (by simp [Action.fieldNames]) (hK _ (by decide)).asString).bind fun _ ↦
      Record.keeps_pure _
  next =>
    refine h.read ?_ hj
    exact (Record.keeps_required (by simp [Action.fieldNames]) (hK _ (by decide)).asWord).bind fun _ ↦
      (Record.keeps_required (by simp [Action.fieldNames]) (hK _ (by decide)).asString).bind fun _ ↦
      Record.keeps_pure _
  next => exact reread_ofCharacter (hK _ (by decide)) h hj
  next => exact reread_ofCharacter (hK _ (by decide)) h hj
  next => exact reread_ofDuration (hK _ (by decide)) h hj
  next => exact reread_ofDuration (hK _ (by decide)) h hj
  next => exact reread_ofDuration (hK _ (by decide)) h hj
  next => exact reread_ofDuration (hK _ (by decide)) h hj
  next => exact reread_ofDuration (hK _ (by decide)) h hj
  next => exact reread_ofDuration (hK _ (by decide)) h hj
  next => exact reread_ofPath (hK _ (by decide)) h hj
  next => exact reread_ofPath (hK _ (by decide)) h hj
  next => exact reread_ofPath (hK _ (by decide)) h hj
  next => exact h.read (Record.keeps_required (by simp [Action.fieldNames]) (hK _ (by decide)).asFloat).map hj
  next => exact reread_ofNothing hnone hj
  next => exact reread_ofNothing hnone hj
  next => exact nomatch hj

end Cue

/-! ## Actions -/

namespace Action

theorem reread_ofKind (hK : ∀ name, name ≠ "actions" → Json.Faithful (K name))
    {part part' : Json → Option Action} (hparts : Keeps (K "actions") (asList part) (asList part'))
    {kind : String} {j j' : Json} {a : Action} (h : SameRecord K (fieldNames kind) j j')
    (hnone : noFields j = true → noFields j' = true) (hj : ofKind part kind j = some a) :
    ofKind part' kind j' = some a := by
  have hread : ∀ {as}, SameRecord K ["actions"] j j' → partsOfJson part j = some as →
      partsOfJson part' j' = some as := fun h hj ↦
    h.read (Record.keeps_required (by simp) hparts) hj
  unfold ofKind at hj ⊢
  split at hj
  next =>
    obtain ⟨as, has, rfl⟩ := Option.map_eq_some_iff.mp hj
    exact Option.map_eq_some_iff.mpr ⟨as, hread h has, rfl⟩
  next =>
    obtain ⟨as, has, rfl⟩ := Option.map_eq_some_iff.mp hj
    exact Option.map_eq_some_iff.mpr ⟨as, hread h has, rfl⟩
  next =>
    obtain ⟨c, hc, rfl⟩ := Option.map_eq_some_iff.mp hj
    exact Option.map_eq_some_iff.mpr ⟨c, Cue.reread hK h hnone hc, rfl⟩

/-- The relation leaves the tags and the fields of actions alone, and relates their parts
place by place. -/
structure Faithful (R : Json → Json → Prop) (K : String → Json → Json → Prop) : Prop where
  fields : ∀ name, name ≠ "actions" → Json.Faithful (K name)
  parts : ∀ {items v'}, K "actions" (array items) v' →
    ∃ items', v' = array items' ∧ List.Forall₂ R items items'
  tagged : ∀ {j j' style kind rest}, R j j' →
    Json.tagged style "type" kinds j = some (.known kind, rest) →
      ∃ rest', Json.tagged style "type" kinds j' = some (.known kind, rest') ∧
        SameRecord K (fieldNames kind) rest rest' ∧ (noFields rest = true → noFields rest' = true)

theorem faithful_eq : Faithful Eq fun _ ↦ Eq where
  fields _ _ := Json.faithful_eq
  parts h := ⟨_, h.symm, List.forall₂_refl _⟩
  tagged h hj := ⟨_, h ▸ hj, sameRecord_refl (fun _ _ ↦ rfl) _, id⟩

/-- The parts are read again as far as they nest at most as deep as given. -/
theorem Faithful.keeps_parts (hR : Faithful R K) {part part' : Json → Option Action} {n : Nat}
    (hpart : ∀ {p p' a}, R p p' → depth p' ≤ n → part p = some a → part' p' = some a) :
    Keeps (fun v v' ↦ K "actions" v v' ∧ depth v' ≤ n) (asList part) (asList part') := by
  rintro v v' ⟨hv, hdepth⟩ as has
  cases v with
  | array items =>
      obtain ⟨items', rfl, hitems⟩ := hR.parts hv
      have hkeeps : Keeps (fun p p' ↦ R p p' ∧ depth p' ≤ n) part part' :=
        fun p p' hp a ha ↦ hpart hp.1 hp.2 ha
      refine hkeeps.mapM ?_ has
      rw [List.forall₂_iff_get] at hitems ⊢
      refine ⟨hitems.1, fun i hi hi' ↦ ⟨hitems.2 i hi hi', ?_⟩⟩
      exact Nat.le_of_lt (Nat.lt_of_lt_of_le (depth_lt_of_mem (List.get_mem items' ⟨i, hi'⟩)) hdepth)
  | _ => exact nomatch has

theorem ofJsonWithin_succ_iff {style : TagStyle} {n : Nat} {j : Json} {a : Action} :
    ofJsonWithin style (n + 1) j = some a ↔ ∃ kind rest,
      Json.tagged style "type" kinds j = some (.known kind, rest) ∧
        ofKind (ofJsonWithin .numbered n) kind rest = some a := by
  rw [ofJsonWithin]
  constructor
  · intro h
    obtain ⟨⟨t, rest⟩, ht, h⟩ := Option.bind_eq_some_iff.mp h
    cases t with
    | known kind => exact ⟨kind, rest, ht, h⟩
    | unknown => exact nomatch h
  · rintro ⟨kind, rest, ht, h⟩
    exact Option.bind_eq_some_iff.mpr ⟨_, ht, h⟩

theorem reread_within (hR : Faithful R K) {n m : Nat} {style : TagStyle} {j j' : Json} {a : Action}
    (h : R j j') (hm : depth j' ≤ m) (hj : ofJsonWithin style n j = some a) :
    ofJsonWithin style m j' = some a := by
  induction n generalizing m style j j' a with
  | zero => exact nomatch hj
  | succ n ih =>
      obtain ⟨kind, rest, ht, hkind⟩ := ofJsonWithin_succ_iff.mp hj
      obtain ⟨rest', ht', hfields, hnone⟩ := hR.tagged h ht
      obtain ⟨hrest, hpos⟩ := depth_le_of_tagged ht'
      obtain ⟨m, rfl⟩ := Nat.exists_eq_succ_of_ne_zero (Nat.pos_iff_ne_zero.mp (Nat.lt_of_lt_of_le hpos hm))
      refine ofJsonWithin_succ_iff.mpr ⟨kind, rest', ht', ?_⟩
      exact reread_ofKind (fun name hname ↦ (hR.fields name hname).within m) (hR.keeps_parts ih)
        (hfields.within (Nat.le_trans hrest hm)) hnone hkind

/-- An action is read again from every value that is faithfully related. -/
theorem reread (hR : Faithful R K) (style : TagStyle) : Keeps R (ofJson style) (ofJson style) :=
  fun _ _ h _ hj ↦ reread_within hR h (Nat.le_refl _) hj

/-- An action is read by its tag, and then by the fields of its kind. -/
theorem ofJson_eq_some_iff {style : TagStyle} {j : Json} {a : Action} :
    ofJson style j = some a ↔ ∃ kind rest,
      Json.tagged style "type" kinds j = some (.known kind, rest) ∧
        ofKind (ofJson .numbered) kind rest = some a := by
  unfold ofJson
  constructor
  · intro h
    cases hd : depth j with
    | zero =>
        rw [hd] at h
        exact nomatch h
    | succ d =>
        rw [hd] at h
        obtain ⟨kind, rest, ht, hkind⟩ := ofJsonWithin_succ_iff.mp h
        refine ⟨kind, rest, ht, ?_⟩
        refine reread_ofKind (fun _ _ ↦ (Json.faithful_eq.within (depth rest))) ?_
          ((sameRecord_refl (fun _ _ ↦ rfl) _).within (Nat.le_succ _)) id hkind
        exact faithful_eq.keeps_parts fun hp _ hb ↦ reread_within faithful_eq hp (Nat.le_refl _) hb
  · rintro ⟨kind, rest, ht, hkind⟩
    obtain ⟨hrest, hpos⟩ := depth_le_of_tagged ht
    obtain ⟨d, hd⟩ := Nat.exists_eq_succ_of_ne_zero (Nat.pos_iff_ne_zero.mp hpos)
    rw [hd]
    refine ofJsonWithin_succ_iff.mpr ⟨kind, rest, ht, ?_⟩
    refine reread_ofKind (fun _ _ ↦ Json.faithful_eq.within d) ?_
      ((sameRecord_refl (fun _ _ ↦ rfl) _).within (Nat.le_trans hrest (Nat.le_of_eq hd))) id hkind
    exact faithful_eq.keeps_parts fun hp hdepth hb ↦ reread_within faithful_eq hp hdepth hb

end Action

end Storyline
