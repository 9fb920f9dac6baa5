import Storyline.Proofs.Script.Reading
import Storyline.Proofs.Script.Varying
import Storyline.Script.Story

/-!
# Scripts written otherwise

What is read of a script whose members, entries or addresses are written otherwise, whose
entries have some of a foreign kind among them, or of which one entry has another effect
or another side to go to.
-/

namespace Storyline

open Json Reader

/-! ## Addresses of the opening scene -/

namespace Address

theorem plain_of_alike {j j' : Json} (h : Alike j j') : plain j' = plain j := by
  obtain ⟨members, members', extra, rfl, rfl, hperm, hextra⟩ := h
  have hplain : ∀ m ∈ extra, (m.1 != "type") = true := fun m hm ↦
    bne_iff_ne.mpr fun h ↦ hextra m hm (h ▸ by decide)
  simp only [plain]
  rw [hperm.all_eq, List.all_append]
  refine (congrArg (_ && ·) (List.all_eq_true.mpr fun m hm ↦ ?_)).trans (Bool.and_true _)
  rw [hplain m hm, Bool.true_or]

theorem keeps_ofPlain : Keeps Alike ofPlain ofPlain := by
  intro j j' h a ha
  unfold ofPlain at ha ⊢
  rw [plain_of_alike h]
  split at ha
  next hplain => rw [if_pos hplain, keeps_ofJson h ha]
  next => exact nomatch ha

end Address

namespace Entry

/-! ## Entries of a foreign kind -/

/-- An object whose kind is none of an entry. -/
def Foreign (j : Json) : Prop :=
  ∃ kind before after, kind ∉ kinds ∧ j = .object (before ++ ("type", .string kind) :: after) ∧
    ∀ m ∈ before ++ after, m.1 ≠ "type"

theorem ofJson_foreign {j : Json} (h : Foreign j) : ofJson j = some unknown := by
  obtain ⟨kind, before, after, hkind, rfl, hother⟩ := h
  have hnil : ∀ {ms : Members}, (∀ m ∈ ms, m.1 ≠ "type") → ms.filter (fun m ↦ m.1 == "type") = [] :=
    fun hms ↦ List.filter_eq_nil_iff.mpr fun m hm ↦ by simpa using hms m hm
  have htag : tagged .named "type" kinds (.object (before ++ ("type", .string kind) :: after)) =
      some (.unknown, .object (before.filter (fun m ↦ m.1 != "type") ++
        after.filter fun m ↦ m.1 != "type")) := by
    unfold tagged
    simp only [List.filter_append, List.filter_cons, beq_self_eq_true, bne_self_eq_false, if_true,
      Bool.false_eq_true, if_false]
    rw [hnil fun m hm ↦ hother m (List.mem_append_left _ hm),
      hnil fun m hm ↦ hother m (List.mem_append_right _ hm)]
    simp [asTag, Tag.ofName, hkind]
  exact Option.bind_eq_some_iff.mpr ⟨_, htag, rfl⟩

/-! ## Another effect, another side -/

variable {j j' v : Json} {names : List String} {key : String}

theorem noFields_of_tagged {style : TagStyle} {tag : String} {variants : List String} {members : Members}
    {t : Tag} {rest : Json} (h : tagged style tag variants (.object members) = some (t, rest)) :
    noFields rest = true := by
  unfold tagged at h
  dsimp only at h
  split at h
  next =>
    obtain ⟨_, _, h⟩ := Option.bind_eq_some_iff.mp h
    obtain ⟨-, rfl⟩ := Prod.mk.inj (Option.some.inj h)
    rfl
  next => exact nomatch h

/-- An effect whose type is a name that no effect has is an effect that does nothing. -/
theorem ofJson_of_foreign_effect {effect : EffectEntry}
    (h : Swapped ("type" :: names) "effectType" v (.string key) j j') (hkey : key ∉ Effect.kinds)
    (hj : ofJson j = some (.effect effect)) :
    ofJson j' = some (.effect { effect with effect := .unknown }) := by
  obtain ⟨t, rest, htype, rfl, hread⟩ := tagged_of_ofJson hj
  obtain ⟨rest', htag', h⟩ := h.tagged (by decide) htype
  refine Option.bind_eq_some_iff.mpr ⟨_, htag', Option.map_eq_some_iff.mpr ⟨_, ?_, rfl⟩⟩
  cases rest with
  | object members =>
      obtain ⟨members', rfl⟩ := h.object
      obtain ⟨r, hr, hread⟩ := Option.bind_eq_some_iff.mp hread
      obtain ⟨wait, hwait, hread⟩ := Option.bind_eq_some_iff.mp hread
      obtain ⟨delay, hdelay, hread⟩ := Option.bind_eq_some_iff.mp hread
      obtain ⟨e, he, hread⟩ := Option.bind_eq_some_iff.mp hread
      obtain rfl := Option.some.inj hread
      have hsame : SameRecord (fun name v v' ↦ v = v' ∨ name = "effectType") ["wait", "delay"]
          (.object members) (.object members') := by
        obtain ⟨before, after, rfl, rfl⟩ := h.split
        exact (Swapped.member before after).sameRecord (.inr rfl) fun _ _ ↦ .inl rfl
      obtain ⟨r', hr', hmatch⟩ := hsame hr
      have hat : ∀ {α : Type} (name : String) (f : Slot → Option α), name ∈ ["wait", "delay"] →
          name ≠ "effectType" → ∀ a, f (r name) = some a → f (r' name) = some a :=
        fun name f hname hne a ha ↦
          Record.keeps_at name f hname (fun h ↦ h.resolve_right hne) hmatch ha
      obtain ⟨⟨t, rest⟩, htag, -⟩ := Option.bind_eq_some_iff.mp he
      have hother := (h.filter_of_pos (p := fun name ↦ !(["wait", "delay"].contains name)) rfl).tag htag
        (show asTag .numbered Effect.kinds (.string key) = some .unknown by simp [asTag, Tag.ofName, hkey])
      have he' : Effect.ofJson (.object (without ["wait", "delay"] members')) = some .unknown :=
        Option.bind_eq_some_iff.mpr ⟨_, hother, if_pos (noFields_of_tagged htag)⟩
      refine Option.bind_eq_some_iff.mpr ⟨r', hr', ?_⟩
      refine Option.bind_eq_some_iff.mpr ⟨wait, hat "wait" _ (by decide) (by decide) _ hwait, ?_⟩
      refine Option.bind_eq_some_iff.mpr ⟨delay, hat "delay" _ (by decide) (by decide) _ hdelay, ?_⟩
      exact Option.bind_eq_some_iff.mpr ⟨.unknown, he', rfl⟩
  | _ => exact nomatch hread

/-- A layout whose side is another name. -/
theorem ofJson_of_side {layout : LayoutEntry} (h : Swapped ("type" :: names) "sideTo" v (.string key) j j')
    (hj : ofJson j = some (.layout layout)) :
    ofJson j' = some (.layout { layout with sideTo := Side.ofKey key }) := by
  obtain ⟨t, rest, htype, rfl, hread⟩ := tagged_of_ofJson hj
  obtain ⟨rest', htag', h⟩ := h.tagged (by decide) htype
  refine Option.bind_eq_some_iff.mpr ⟨_, htag', Option.map_eq_some_iff.mpr ⟨_, ?_, rfl⟩⟩
  cases rest with
  | object members =>
      obtain ⟨members', rfl⟩ := h.object
      obtain ⟨before, after, rfl, rfl⟩ := h.split
      obtain ⟨r, hr, hread⟩ := Option.bind_eq_some_iff.mp hread
      have hside : Swapped LayoutEntry.fields "sideTo" v (.string key) _ _ := .member before after
      obtain ⟨-, hr'⟩ := hside.slot (by decide) (by decide) hr
      refine Option.bind_eq_some_iff.mpr ⟨_, hr', ?_⟩
      obtain ⟨wait, hwait, hread⟩ := Option.bind_eq_some_iff.mp hread
      obtain ⟨kind, hkind, hread⟩ := Option.bind_eq_some_iff.mp hread
      obtain ⟨model, hmodel, hread⟩ := Option.bind_eq_some_iff.mp hread
      obtain ⟨motion, hmotion, hread⟩ := Option.bind_eq_some_iff.mp hread
      obtain ⟨sideFrom, hfrom, hread⟩ := Option.bind_eq_some_iff.mp hread
      obtain ⟨sideTo, hto, hread⟩ := Option.bind_eq_some_iff.mp hread
      obtain rfl := Option.some.inj hread
      refine Option.bind_eq_some_iff.mpr ⟨wait, hwait, ?_⟩
      refine Option.bind_eq_some_iff.mpr ⟨kind, hkind, ?_⟩
      refine Option.bind_eq_some_iff.mpr ⟨model, hmodel, ?_⟩
      refine Option.bind_eq_some_iff.mpr ⟨motion, hmotion, ?_⟩
      refine Option.bind_eq_some_iff.mpr ⟨sideFrom, hfrom, ?_⟩
      exact Option.bind_eq_some_iff.mpr ⟨Side.ofKey key, rfl, rfl⟩
  | _ => exact nomatch hread

end Entry

/-! ## Scripts -/

namespace Script

variable {j j' : Json} {script : Script}

/-- The entries of a script, and what is read instead with others in their place. -/
theorem ofJson_of_entries {v v' : Json} (hj : ofJson j = some script)
    (h : Swapped scriptFields "actions" v v' j j') : asList Entry.ofJson v = some script.entries ∧
      ∀ entries, asList Entry.ofJson v' = some entries →
        ofJson j' = some { script with entries := entries } := by
  obtain ⟨r, hr, hread⟩ := Option.bind_eq_some_iff.mp hj
  obtain ⟨hgiven, hr'⟩ := h.slot (by decide) (by decide) hr
  obtain ⟨bgm, hbgm, hread⟩ := Option.bind_eq_some_iff.mp hread
  obtain ⟨background, hbackground, hread⟩ := Option.bind_eq_some_iff.mp hread
  obtain ⟨entries, hentries, hread⟩ := Option.bind_eq_some_iff.mp hread
  obtain rfl := Option.some.inj hread
  rw [hgiven] at hentries
  refine ⟨hentries, fun entries hentries ↦ Option.bind_eq_some_iff.mpr ⟨_, hr', ?_⟩⟩
  refine Option.bind_eq_some_iff.mpr ⟨bgm, hbgm, ?_⟩
  refine Option.bind_eq_some_iff.mpr ⟨background, hbackground, ?_⟩
  exact Option.bind_eq_some_iff.mpr ⟨entries, hentries, rfl⟩

/-- Another value for the same story: the members of the script in another order or with
further ones, an address of its opening scene or one of its entries told otherwise, or a
foreign entry among the others. -/
inductive Alike (j j' : Json) : Prop
  | members (h : Loosened scriptFields j j')
  | address {name : String} {v v' : Json} (hname : name = "bgm" ∨ name = "background")
    (hv : Address.Alike v v') (h : Swapped scriptFields name v v' j j')
  | entry (before after : List Json) {e e' : Json} (he : Entry.Alike e e')
    (h : Swapped scriptFields "actions" (.array (before ++ e :: after))
      (.array (before ++ e' :: after)) j j')
  | inserted (before after : List Json) {e : Json} (he : Entry.Foreign e)
    (h : Swapped scriptFields "actions" (.array (before ++ after))
      (.array (before ++ e :: after)) j j')

theorem keeps_ofRecord {K : String → Json → Json → Prop}
    (hbgm : ∀ {v v' : Json}, K "bgm" v v' → v = v' ∨ Address.Alike v v')
    (hbackground : ∀ {v v' : Json}, K "background" v v' → v = v' ∨ Address.Alike v v')
    (hactions : ∀ {v v' : Json}, K "actions" v v' → v = v') :
    Record.Keeps K scriptFields ofRecord ofRecord := by
  have haddress := Entry.keeps_or Address.keeps_ofPlain
  refine (Record.keeps_optional (show "bgm" ∈ _ by decide)
    (fun h ↦ Entry.kept_address_null (hbgm h)) fun _ _ h ↦ haddress (hbgm h)).bind fun bgm ↦ ?_
  refine (Record.keeps_optional (show "background" ∈ _ by decide)
    (fun h ↦ Entry.kept_address_null (hbackground h)) fun _ _ h ↦ haddress (hbackground h)).bind
      fun background ↦ ?_
  exact (Record.keeps_at "actions" (·.required (asList Entry.ofJson)) (by decide) hactions).bind
    fun entries ↦ Record.keeps_pure _

theorem mapM_append_eq_some_iff {α β : Type} {f : α → Option β} {as as' : List α} {cs : List β} :
    (as ++ as').mapM f = some cs ↔
      ∃ bs bs', as.mapM f = some bs ∧ as'.mapM f = some bs' ∧ cs = bs ++ bs' := by
  rw [List.mapM_append, Option.bind_eq_bind, Option.bind_eq_some_iff]
  constructor
  · rintro ⟨bs, hbs, h⟩
    obtain ⟨bs', hbs', h⟩ := Option.bind_eq_some_iff.mp h
    exact ⟨bs, bs', hbs, hbs', (Option.some.inj h).symm⟩
  · rintro ⟨bs, bs', hbs, hbs', rfl⟩
    exact ⟨bs, hbs, Option.bind_eq_some_iff.mpr ⟨bs', hbs', rfl⟩⟩

theorem mapM_middle_eq_some_iff {α β : Type} {f : α → Option β} {as as' : List α} {a : α} {cs : List β} :
    (as ++ a :: as').mapM f = some cs ↔ ∃ bs b bs', as.mapM f = some bs ∧ f a = some b ∧
      as'.mapM f = some bs' ∧ cs = bs ++ b :: bs' := by
  rw [mapM_append_eq_some_iff]
  constructor
  · rintro ⟨bs, ds, hbs, hds, rfl⟩
    obtain ⟨b, hb, h⟩ := Option.bind_eq_some_iff.mp ((List.mapM_cons ..).symm.trans hds)
    obtain ⟨bs', hbs', h⟩ := Option.bind_eq_some_iff.mp h
    obtain rfl := Option.some.inj h
    exact ⟨bs, b, bs', hbs, hb, hbs', rfl⟩
  · rintro ⟨bs, b, bs', hbs, hb, hbs', rfl⟩
    exact ⟨bs, b :: bs', hbs, by simp [hb, hbs'], rfl⟩

/-- What a script shows before its entries. -/
def opening (script : Script) : List Entry :=
  (script.background.map openingBackground).toList ++ (script.bgm.map openingMusic).toList

theorem story_eq (pacing : Pacing) (script : Script) : script.story pacing =
    script.opening.flatMap (Entry.steps pacing) ++ script.entries.flatMap (Entry.steps pacing) := by
  rw [story, allEntries, opening, List.flatMap_append, List.flatMap_append, List.flatMap_append,
    List.append_assoc]

/-- A script written otherwise has the same story. -/
theorem story_of_alike (h : Alike j j') (hj : ofJson j = some script) :
    ∃ script', ofJson j' = some script' ∧ ∀ pacing, script'.story pacing = script.story pacing := by
  cases h with
  | members h =>
      refine ⟨script, (h.sameRecord (K := fun _ ↦ Eq) fun _ _ ↦ rfl).read ?_ hj, fun _ ↦ rfl⟩
      exact keeps_ofRecord .inl .inl id
  | @address name v v' hname hv h =>
      refine ⟨script, (h.sameRecord (K := fun n a b ↦ a = b ∨ n ≠ "actions" ∧ Address.Alike a b)
        (.inr ⟨?_, hv⟩) fun _ _ ↦ .inl rfl).read ?_ hj, fun _ ↦ rfl⟩
      · rcases hname with rfl | rfl <;> decide
      · exact keeps_ofRecord (·.imp_right And.right) (·.imp_right And.right) fun h ↦
          h.resolve_right fun h ↦ h.1 rfl
  | entry before after he h =>
      obtain ⟨hentries, hread⟩ := ofJson_of_entries hj h
      refine ⟨script, hread _ ?_, fun _ ↦ rfl⟩
      refine (Entry.keeps_or Entry.keeps_ofJson).mapM (List.rel_append ?_ (.cons (.inr he) ?_)) hentries
      · exact List.forall₂_same.mpr fun _ _ ↦ .inl rfl
      · exact List.forall₂_same.mpr fun _ _ ↦ .inl rfl
  | inserted before after he h =>
      obtain ⟨hentries, hread⟩ := ofJson_of_entries hj h
      obtain ⟨es, es', hes, hes', heq⟩ := mapM_append_eq_some_iff.mp hentries
      refine ⟨_, hread (es ++ .unknown :: es') ?_, fun pacing ↦ ?_⟩
      · exact mapM_middle_eq_some_iff.mpr ⟨es, .unknown, es', hes, Entry.ofJson_foreign he, hes', rfl⟩
      · rw [story_eq, story_eq, heq, List.flatMap_append, List.flatMap_cons, List.flatMap_append]
        rfl

end Script

end Storyline
