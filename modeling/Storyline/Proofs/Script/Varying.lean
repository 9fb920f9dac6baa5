import Storyline.Proofs.Json.Loosening
import Storyline.Script.Reader

/-!
# Entries with other members

The objects of a script may give their members in another order, and further ones that
are not fields of theirs.  What is read of an entry stays the same, whether that is done
to the entry itself or to a motion, a voice or an address that it has.
-/

namespace Storyline

open Json

theorem Record.keeps_at {α : Type} {K : String → Json → Json → Prop} {names : List String}
    (name : String) (f : Slot → Option α) (hname : name ∈ names)
    (hK : ∀ {v v' : Json}, K name v v' → v = v') :
    Record.Keeps K names (fun r ↦ f (r name)) fun r ↦ f (r name) := by
  intro r r' hr a ha
  have hslot := hr name hname
  have heq : r' name = r name := by
    revert hslot
    generalize r name = slot, r' name = slot'
    intro hslot
    exact match slot, slot', hslot with
      | .given _, .given _, h => congrArg _ (hK h).symm
      | .omitted, .omitted, _ | .cut, .cut, _ => rfl
  simpa only [heq] using ha

/-! ## Motions and voices -/

namespace Motion

/-- Another object for the same motion. -/
def Alike : Json → Json → Prop := Loosened fields

theorem keeps_ofRecord {K : String → Json → Json → Prop} {names : List String}
    (hsub : fields ⊆ names) (hK : ∀ name ∈ fields, ∀ {v v' : Json}, K name v v' → v = v') :
    Record.Keeps K names ofRecord ofRecord := by
  have hat : ∀ {α : Type} (name : String) (f : Slot → Option α), name ∈ fields →
      Record.Keeps K names (fun r ↦ f (r name)) fun r ↦ f (r name) := fun name f hname ↦
    Record.keeps_at name f (hsub hname) (hK name hname)
  refine (hat "delay" (·.withDefault .zero asFloat) (by decide)).bind fun delay ↦ ?_
  refine (hat "character" (·.required asWord) (by decide)).bind fun character ↦ ?_
  refine (hat "motion" (·.withDefault "" asString) (by decide)).bind fun motion ↦ ?_
  refine (hat "expression" (·.withDefault "" asString) (by decide)).bind fun expression ↦ ?_
  exact Record.keeps_pure _

theorem keeps_ofJson : Keeps Alike ofJson ofJson := fun _ _ h _ ha ↦
  (h.sameRecord (K := fun _ ↦ Eq) fun _ _ ↦ rfl).read
    (keeps_ofRecord (List.Subset.refl _) fun _ _ _ _ h ↦ h) ha

end Motion

namespace Voice

def fields : List String := ["character", "voiceId"]

/-- Another object for the same voice. -/
def Alike : Json → Json → Prop := Loosened fields

theorem keeps_ofJson : Keeps Alike ofJson ofJson := by
  intro j j' h a ha
  refine (h.sameRecord (K := fun _ ↦ Eq) fun _ _ ↦ rfl).read ?_ ha
  have hat : ∀ {α : Type} (name : String) (f : Slot → Option α), name ∈ fields →
      Record.Keeps (fun _ ↦ Eq) fields (fun r ↦ f (r name)) fun r ↦ f (r name) := fun name f hname ↦
    Record.keeps_at name f hname id
  refine (hat "character" (·.required asWord) (by decide)).bind fun character ↦ ?_
  exact (hat "voiceId" (·.required asString) (by decide)).bind fun voiceId ↦ Record.keeps_pure _

end Voice

/-! ## Addresses -/

namespace Address

def fields : List String := ["type", "url", "file", "se", "bundle"]

/-- Another object for the same address. -/
def Alike : Json → Json → Prop := Loosened fields

end Address

namespace AddressTarget

variable {members members' extra : Members}

theorem urlOfMembers_perm (hperm : members'.Perm (members ++ extra))
    (hextra : ∀ m ∈ extra, m.1 ≠ "url") : urlOfMembers members' = urlOfMembers members := by
  refine fieldsOf_perm hperm (fun m hm ↦ by simpa using hextra m hm) fun h ↦ ?_
  rw [h "url" (by decide)]

theorem fileOfMembers_perm (hperm : members'.Perm (members ++ extra))
    (hextra : ∀ m ∈ extra, m.1 ≠ "file" ∧ m.1 ≠ "se" ∧ m.1 ≠ "bundle") :
    fileOfMembers members' = fileOfMembers members := by
  have hmap := hperm.map fun m ↦ (fileName m.1, m.2)
  rw [List.map_append] at hmap
  refine fieldsOf_perm hmap ?_ fun h ↦ ?_
  · intro m hm
    obtain ⟨⟨name, v⟩, hmem, rfl⟩ := List.mem_map.mp hm
    obtain ⟨hfile, hse, hbundle⟩ := hextra _ hmem
    have hname : fileName name = name := if_neg (by simpa using hse)
    simpa [hname] using ⟨hfile, hbundle⟩
  · rw [h "file" (by decide), h "bundle" (by decide)]

/-- Where a resource is found does not depend on other members and their order, not even
which way of telling it has failed. -/
theorem ofMembers_perm (hperm : members'.Perm (members ++ extra))
    (hextra : ∀ m ∈ extra, m.1 ∉ Address.fields) : ofMembers members' = ofMembers members := by
  have hne : ∀ m ∈ extra, ∀ name ∈ Address.fields, m.1 ≠ name := fun m hm name hname h ↦
    hextra m hm (h ▸ hname)
  rw [ofMembers, urlOfMembers_perm hperm fun m hm ↦ hne m hm "url" (by decide),
    fileOfMembers_perm hperm fun m hm ↦ ⟨hne m hm "file" (by decide), hne m hm "se" (by decide),
      hne m hm "bundle" (by decide)⟩]
  rfl

end AddressTarget

namespace Address

theorem keeps_ofJson : Keeps Alike ofJson ofJson := by
  rintro _ _ ⟨members, members', extra, rfl, rfl, hperm, hextra⟩ a ha
  have htarget : AddressTarget.ofMembers (without ["type"] members') =
      AddressTarget.ofMembers (without ["type"] members) := by
    have hwithout : (without ["type"] members').Perm
        (without ["type"] members ++ without ["type"] extra) := by
      rw [without, without, without, ← List.filter_append]
      exact hperm.filter _
    exact AddressTarget.ofMembers_perm hwithout fun m hm ↦ hextra m (List.mem_of_mem_filter hm)
  simp only [ofJson, htarget] at ha ⊢
  refine Eq.trans ?_ ha
  refine fieldsOf_perm hperm (fun m hm hname ↦ hextra m hm ?_) fun h ↦ ?_
  · exact List.mem_singleton.mp hname ▸ by decide
  · rw [h "type" (by decide)]

/-- An address is no `null`, in whatever form. -/
theorem Alike.null_iff {j j' : Json} (h : Alike j j') : j' = .null ↔ j = .null := by
  obtain ⟨members, members', extra, rfl, rfl, -⟩ := h
  simp

end Address

/-! ## Entries -/

def TalkEntry.fields : List String :=
  ["wait", "delay", "name", "body", "motions", "characters", "voices"]

def SoundEntry.fields : List String := ["wait", "delay", "bgm", "se"]

def Effect.fields : Effect → List String
  | changeBackground _ => ["background"]
  | changeCardStill _ => ["cardStill"]
  | telop _ => ["text"]
  | _ => []

namespace Entry

/-- The fields of an entry, besides the tag that says what it is. -/
def fields : Entry → List String
  | talk _ => TalkEntry.fields
  | sound _ => SoundEntry.fields
  | effect e => ["wait", "delay", "effectType"] ++ e.effect.fields
  | layout _ => LayoutEntry.fields
  | motion _ => "wait" :: Motion.fields
  | unknown => []

/-- What else may stand for a part of an entry, by the field that it is. -/
def Part (name : String) (v v' : Json) : Prop :=
  match name with
  | "motions" => Among Motion.Alike v v'
  | "voices" => Among Voice.Alike v v'
  | "bgm" | "se" | "background" | "cardStill" => Address.Alike v v'
  | _ => False

/-- Another value for the same entry: an object with members in another order or with
further ones, or the entry with one motion, voice or address told otherwise. -/
def Alike (j j' : Json) : Prop :=
  ∃ entry, ofJson j = some entry ∧ Varied Part ("type" :: entry.fields) j j'

/-- The tag that an entry is read by, and what is left of the value without it. -/
theorem tagged_of_ofJson {j : Json} {entry : Entry} (h : ofJson j = some entry) :
    ∃ t rest, tagged .named "type" kinds j = some (t, rest) ∧ match entry with
      | .talk e => t = .known "talk" ∧ TalkEntry.ofJson rest = some e
      | .sound e => t = .known "sound" ∧ SoundEntry.ofJson rest = some e
      | .effect e => t = .known "effect" ∧ EffectEntry.ofJson rest = some e
      | .layout e => t = .known "layout" ∧ LayoutEntry.ofJson rest = some e
      | .motion e => t = .known "motion" ∧ MotionEntry.ofJson rest = some e
      | .unknown => noFields rest = true := by
  obtain ⟨⟨t, rest⟩, htag, h⟩ := Option.bind_eq_some_iff.mp h
  refine ⟨t, rest, htag, ?_⟩
  have hnothing : (if noFields rest then some unknown else none) = some entry →
      entry = unknown ∧ noFields rest = true := by
    intro h
    split at h
    next hrest => exact ⟨(Option.some.inj h).symm, hrest⟩
    next => exact nomatch h
  cases t with
  | unknown =>
      obtain ⟨rfl, hrest⟩ := hnothing h
      exact hrest
  | known kind =>
      change ofKind kind rest = some entry at h
      unfold ofKind at h
      split at h
      case h_6 =>
        obtain ⟨rfl, hrest⟩ := hnothing h
        exact hrest
      all_goals
        obtain ⟨e, he, rfl⟩ := Option.map_eq_some_iff.mp h
        exact ⟨rfl, he⟩

/-- A part of an entry, as it was or told otherwise. -/
abbrev Kept (name : String) (v v' : Json) : Prop := v = v' ∨ Part name v v'

theorem keeps_or {α : Type} {R : Json → Json → Prop} {read : Json → Option α}
    (h : Keeps R read read) : Keeps (fun v v' ↦ v = v' ∨ R v v') read read := by
  rintro v v' (rfl | hv) a ha
  · exact ha
  · exact h hv ha

theorem keeps_among {α : Type} {R : Json → Json → Prop} {read : Json → Option α}
    (h : Keeps R read read) : Keeps (fun v v' ↦ v = v' ∨ Among R v v') (asList read) (asList read) := by
  rintro v v' (rfl | hv) as has
  · exact has
  · obtain ⟨items, items', rfl, rfl, hitems⟩ := hv.forall₂
    exact (keeps_or h).mapM hitems has

theorem kept_address_null {j j' : Json} (h : j = j' ∨ Address.Alike j j') : j' = .null ↔ j = .null := by
  rcases h with rfl | h
  · exact Iff.rfl
  · exact h.null_iff

/-- A field that is no part with objects of its own. -/
theorem keeps_plain {α : Type} {names : List String} (name : String) (f : Slot → Option α)
    (hname : name ∈ names) (hpart : ∀ {v v' : Json}, ¬Part name v v') :
    Record.Keeps Kept names (fun r ↦ f (r name)) fun r ↦ f (r name) :=
  Record.keeps_at name f hname fun h ↦ h.resolve_right hpart

theorem keeps_wait {names : List String} (hname : "wait" ∈ names) : Record.Keeps Kept names asWait asWait :=
  keeps_plain "wait" (·.withDefault false asBool) hname id

theorem keeps_delay {names : List String} (hname : "delay" ∈ names) :
    Record.Keeps Kept names asDelay asDelay :=
  keeps_plain "delay" (·.withDefault (.zero : Binary64) asFloat) hname id

theorem keeps_motion {names : List String} (hsub : Motion.fields ⊆ names) :
    Record.Keeps Kept names Motion.ofRecord Motion.ofRecord := by
  refine Motion.keeps_ofRecord hsub fun name hname v v' h ↦ h.resolve_right ?_
  simp only [Motion.fields, List.mem_cons, List.not_mem_nil, or_false] at hname
  rcases hname with rfl | rfl | rfl | rfl <;> exact id

variable {j j' : Json}

theorem talk_varied (h : Varied Part TalkEntry.fields j j') {talk : TalkEntry}
    (ha : TalkEntry.ofJson j = some talk) : TalkEntry.ofJson j' = some talk := by
  refine h.sameRecord.read ?_ ha
  refine (keeps_wait (by decide)).bind fun wait ↦ ?_
  refine (keeps_delay (by decide)).bind fun delay ↦ ?_
  refine (keeps_plain "name" (·.required asString) (by decide) id).bind fun name ↦ ?_
  refine (keeps_plain "body" (·.required asString) (by decide) id).bind fun text ↦ ?_
  refine (Record.keeps_withDefault (show "motions" ∈ _ by decide)
    (keeps_among Motion.keeps_ofJson)).bind fun motions ↦ ?_
  refine (keeps_plain "characters" (·.withDefault [] (asList asWord)) (by decide) id).bind fun characters ↦ ?_
  refine (Record.keeps_withDefault (show "voices" ∈ _ by decide)
    (keeps_among Voice.keeps_ofJson)).bind fun voices ↦ ?_
  exact Record.keeps_pure _

theorem sound_varied (h : Varied Part SoundEntry.fields j j') {sound : SoundEntry}
    (ha : SoundEntry.ofJson j = some sound) : SoundEntry.ofJson j' = some sound := by
  refine h.sameRecord.read ?_ ha
  refine (keeps_wait (by decide)).bind fun wait ↦ ?_
  refine (keeps_delay (by decide)).bind fun delay ↦ ?_
  refine (Record.keeps_optional (show "bgm" ∈ _ by decide) kept_address_null
    (keeps_or Address.keeps_ofJson)).bind fun bgm ↦ ?_
  refine (Record.keeps_optional (show "se" ∈ _ by decide) kept_address_null
    (keeps_or Address.keeps_ofJson)).bind fun se ↦ ?_
  exact Record.keeps_pure _

theorem layout_varied (h : Varied Part LayoutEntry.fields j j') {layout : LayoutEntry}
    (ha : LayoutEntry.ofJson j = some layout) : LayoutEntry.ofJson j' = some layout := by
  cases j with
  | object members =>
      obtain ⟨members', rfl⟩ := h.object
      refine h.sameRecord.read ?_ ha
      refine (keeps_wait (by decide)).bind fun wait ↦ ?_
      refine (keeps_plain "layoutType" (·.required (choiceOf LayoutKind.ofKey?)) (by decide) id).bind fun kind ↦ ?_
      refine (keeps_plain "costume" (·.withDefault "" asString) (by decide) id).bind fun model ↦ ?_
      refine (keeps_motion (by decide)).bind fun motion ↦ ?_
      refine (keeps_plain "sideFrom" (·.required Side.ofJson) (by decide) id).bind fun sideFrom ↦ ?_
      refine (keeps_plain "sideTo" (·.required Side.ofJson) (by decide) id).bind fun sideTo ↦ ?_
      exact Record.keeps_pure _
  | _ => exact nomatch ha

theorem motion_varied (h : Varied Part ("wait" :: Motion.fields) j j') {motion : MotionEntry}
    (ha : MotionEntry.ofJson j = some motion) : MotionEntry.ofJson j' = some motion := by
  cases j with
  | object members =>
      obtain ⟨members', rfl⟩ := h.object
      refine h.sameRecord.read ?_ ha
      refine (keeps_wait (by decide)).bind fun wait ↦ ?_
      refine (keeps_motion (by decide)).bind fun motion ↦ ?_
      exact Record.keeps_pure _
  | _ => exact nomatch ha

theorem image_varied {field : String} {make : Address → Effect} (h : Varied Part [field] j j')
    (hpart : ∀ {v v' : Json}, Part field v v' → Address.Alike v v') {effect : Effect}
    (ha : Effect.ofImage field make j = some effect) : Effect.ofImage field make j' = some effect := by
  have hkeeps : Keeps (Kept field) Address.ofJson Address.ofJson := fun v v' hv ↦
    keeps_or Address.keeps_ofJson (hv.imp_right hpart)
  refine h.sameRecord.read ?_ ha
  exact (Record.keeps_required (List.mem_singleton_self field) hkeeps).map

theorem effectOfKind_varied (kind : String) {effect : Effect} (h : Varied Part effect.fields j j')
    (ha : Effect.ofKind kind j = some effect) : Effect.ofKind kind j' = some effect := by
  have hnothing : ∀ {e : Effect}, Effect.ofNothing e j = some effect → Effect.ofNothing e j' = some effect := by
    intro e ha
    unfold Effect.ofNothing at ha ⊢
    split at ha
    next hj => rw [if_pos (h.noFields hj), ha]
    next => exact nomatch ha
  have himage : ∀ {field : String} {make : Address → Effect}, Effect.ofImage field make j = some effect →
      ∃ image, effect = make image := by
    intro field make ha
    obtain ⟨r, -, ha⟩ := Option.bind_eq_some_iff.mp ha
    obtain ⟨image, -, rfl⟩ := Option.map_eq_some_iff.mp ha
    exact ⟨image, rfl⟩
  unfold Effect.ofKind at ha ⊢
  split at ha
  · obtain ⟨image, rfl⟩ := himage ha
    exact image_varied h id ha
  · obtain ⟨image, rfl⟩ := himage ha
    exact image_varied h id ha
  · obtain ⟨r, -, htext⟩ := Option.bind_eq_some_iff.mp ha
    obtain ⟨text, -, rfl⟩ := Option.map_eq_some_iff.mp htext
    refine h.sameRecord.read ?_ ha
    exact (keeps_plain "text" (·.required asString) List.mem_cons_self id).map
  all_goals exact hnothing ha

theorem effect_varied {effect : EffectEntry}
    (h : Varied Part (["wait", "delay", "effectType"] ++ effect.effect.fields) j j')
    (ha : EffectEntry.ofJson j = some effect) : EffectEntry.ofJson j' = some effect := by
  cases j with
  | object members =>
      obtain ⟨members', rfl⟩ := h.object
      obtain ⟨r, hr, ha⟩ := Option.bind_eq_some_iff.mp ha
      obtain ⟨wait, hwait, ha⟩ := Option.bind_eq_some_iff.mp ha
      obtain ⟨delay, hdelay, ha⟩ := Option.bind_eq_some_iff.mp ha
      obtain ⟨e, he, ha⟩ := Option.bind_eq_some_iff.mp ha
      obtain rfl := Option.some.inj ha
      obtain ⟨⟨t, rest⟩, htag, he⟩ := Option.bind_eq_some_iff.mp he
      have hfields : Varied Part ["wait", "delay"] (.object members) (.object members') :=
        h.mono (by simp)
      obtain ⟨r', hr', hmatch⟩ := hfields.sameRecord hr
      have hrest : Varied Part ("effectType" :: e.fields) (.object (without ["wait", "delay"] members))
          (.object (without ["wait", "delay"] members')) :=
        (h.filter fun name ↦ !(["wait", "delay"].contains name)).mono (by simp)
      obtain ⟨rest', htag', hrest'⟩ := hrest.tagged (fun _ _ ↦ id) htag
      have he' : Effect.ofJson (.object (without ["wait", "delay"] members')) = some e := by
        refine Option.bind_eq_some_iff.mpr ⟨_, htag', ?_⟩
        cases t with
        | known kind => exact effectOfKind_varied kind hrest' he
        | unknown => exact effectOfKind_varied "" hrest' he
      refine Option.bind_eq_some_iff.mpr ⟨r', hr', ?_⟩
      refine Option.bind_eq_some_iff.mpr ⟨wait, keeps_wait (by decide) hmatch hwait, ?_⟩
      refine Option.bind_eq_some_iff.mpr ⟨delay, keeps_delay (by decide) hmatch hdelay, ?_⟩
      exact Option.bind_eq_some_iff.mpr ⟨e, he', rfl⟩
  | _ => exact nomatch ha

/-- An entry is read from each of the values that may stand for it. -/
theorem keeps_ofJson : Keeps Alike ofJson ofJson := by
  rintro j j' ⟨entry, hentry, h⟩ a ha
  obtain rfl : entry = a := Option.some.inj (hentry.symm.trans ha)
  obtain ⟨⟨t, rest⟩, htag, ha⟩ := Option.bind_eq_some_iff.mp ha
  obtain ⟨rest', htag', h⟩ := h.tagged (fun _ _ ↦ id) htag
  refine Option.bind_eq_some_iff.mpr ⟨_, htag', ?_⟩
  have hnothing : (if noFields rest then some unknown else none) = some entry →
      (if noFields rest' then some unknown else none) = some entry := by
    intro ha
    split at ha
    next hrest => rw [if_pos (h.noFields hrest), ha]
    next => exact nomatch ha
  cases t with
  | unknown => exact hnothing ha
  | known kind =>
      change ofKind kind rest = some entry at ha
      change ofKind kind rest' = some entry
      unfold ofKind at ha ⊢
      split at ha
      · obtain ⟨e, he, rfl⟩ := Option.map_eq_some_iff.mp ha
        exact Option.map_eq_some_iff.mpr ⟨e, talk_varied h he, rfl⟩
      · obtain ⟨e, he, rfl⟩ := Option.map_eq_some_iff.mp ha
        exact Option.map_eq_some_iff.mpr ⟨e, sound_varied h he, rfl⟩
      · obtain ⟨e, he, rfl⟩ := Option.map_eq_some_iff.mp ha
        exact Option.map_eq_some_iff.mpr ⟨e, effect_varied h he, rfl⟩
      · obtain ⟨e, he, rfl⟩ := Option.map_eq_some_iff.mp ha
        exact Option.map_eq_some_iff.mpr ⟨e, layout_varied h he, rfl⟩
      · obtain ⟨e, he, rfl⟩ := Option.map_eq_some_iff.mp ha
        exact Option.map_eq_some_iff.mpr ⟨e, motion_varied h he, rfl⟩
      · exact hnothing ha

end Entry

end Storyline
