import Storyline.Proofs.Json.Printing
import Storyline.Proofs.Script.Rewriting
import Storyline.Proofs.Story.Loading

/-!
# Scripts of a newer format

A script may come from a newer tool: with members that are not known here, with entries of
kinds that are not known, with effects or sides of other names.  Its story is then the one
that the known part tells.
-/

namespace Storyline

open Json Reader

/-- The names of the sides. -/
def Side.keys : List String := ["leftInside", "leftOver", "center", "rightInside", "rightOver"]

theorem Side.ofKey_of_not_mem {key : String} (h : key ∉ keys) : ofKey key = unknown := by
  simp only [keys, List.mem_cons, List.not_mem_nil, or_false, not_or] at h
  unfold ofKey
  split
  · exact absurd rfl h.1
  · exact absurd rfl h.2.1
  · exact absurd rfl h.2.2.1
  · exact absurd rfl h.2.2.2.1
  · exact absurd rfl h.2.2.2.2
  · rfl

namespace Entry

/-- A layout that goes to an unknown side goes to the center. -/
theorem steps_of_unknown_side (pacing : Pacing) (layout : LayoutEntry) :
    steps pacing (.layout { layout with sideTo := .unknown }) =
      steps pacing (.layout { layout with sideTo := .center }) := by
  rfl

theorem steps_of_unknown_effect (pacing : Pacing) (effect : EffectEntry) :
    steps pacing (.effect { effect with effect := .unknown }) = [] := by
  rfl

end Entry

namespace Story

variable {pacing : Pacing} {document : Bytes} {actions : List Action}

theorem loadScript_of_sketches {j : Json} (h : j.Sketches document) :
    loadScript pacing document = .ok actions ↔
      ∃ script, Script.ofJson j = some script ∧ script.story pacing = actions := by
  simp only [loadScript_eq_ok_iff, Script.read_of_sketches h]

/-- How a script that is loaded is loaded when it is told otherwise.  With the members of
its objects in another order or with unknown ones, or with entries of unknown kinds, its
story is the same.  An entry whose effect is renamed to an unknown one falls out of the
story, and one whose side is renamed goes to the center. -/
theorem loadScript_of_newer (pacing : Pacing) {document : Bytes} {actions : List Action}
    (h : loadScript pacing document = .ok actions) :
    (∃ j : Json, j.Sketches document) ∧ ∀ j : Json, j.Sketches document →
      (∀ (j' : Json) (newer : Bytes), Script.Alike j j' → j'.Sketches newer →
        loadScript pacing newer = .ok actions) ∧
      ∀ (before after : List Json) (item item' j' : Json) (newer : Bytes),
        Swapped scriptFields "actions" (.array (before ++ item :: after))
          (.array (before ++ item' :: after)) j j' → j'.Sketches newer →
        ∃ opening entries entry entries', before.mapM Entry.ofJson = some entries ∧
          Entry.ofJson item = some entry ∧ after.mapM Entry.ofJson = some entries' ∧
          actions = (opening ++ entries ++ entry :: entries').flatMap (Entry.steps pacing) ∧
          (∀ effect names old key, entry = .effect effect → key ∉ Effect.kinds →
            Swapped ("type" :: names) "effectType" old (.string key) item item' →
            loadScript pacing newer =
              .ok ((opening ++ entries ++ entries').flatMap (Entry.steps pacing))) ∧
          ∀ layout names old key, entry = .layout layout → key ∉ Side.keys →
            Swapped ("type" :: names) "sideTo" old (.string key) item item' →
            loadScript pacing newer =
              .ok ((opening ++ entries ++ .layout { layout with sideTo := .center } :: entries').flatMap
                (Entry.steps pacing)) := by
  obtain ⟨script, hread, hstory⟩ := loadScript_eq_ok_iff.mp h
  obtain ⟨j, hj, -⟩ := Script.read_eq_ok_iff.mp hread
  refine ⟨⟨j, hj⟩, fun j hj ↦ ?_⟩
  have hscript := (Script.read_of_sketches hj).mp hread
  refine ⟨fun j' newer halike hj' ↦ ?_, fun before after item item' j' newer hswap hj' ↦ ?_⟩
  · obtain ⟨script', hscript', hsame⟩ := Script.story_of_alike halike hscript
    exact (loadScript_of_sketches hj').mpr ⟨script', hscript', (hsame pacing).trans hstory⟩
  · obtain ⟨hentries, hnewer⟩ := Script.ofJson_of_entries hscript hswap
    obtain ⟨es, e, es', hes, he, hes', heq⟩ := Script.mapM_middle_eq_some_iff.mp hentries
    have hload : ∀ e', Entry.ofJson item' = some e' → loadScript pacing newer =
        .ok ((script.opening ++ es ++ e' :: es').flatMap (Entry.steps pacing)) := by
      intro e' he'
      refine (loadScript_of_sketches hj').mpr ⟨_, hnewer (es ++ e' :: es') ?_, ?_⟩
      · exact Script.mapM_middle_eq_some_iff.mpr ⟨es, e', es', hes, he', hes', rfl⟩
      · rw [Script.story_eq, ← List.flatMap_append, ← List.append_assoc]
        rfl
    refine ⟨script.opening, es, e, es', hes, he, hes', ?_, ?_, ?_⟩
    · rw [← hstory, Script.story_eq, heq, ← List.flatMap_append, ← List.append_assoc]
    · rintro effect names old key rfl hkey hitem
      rw [hload _ (Entry.ofJson_of_foreign_effect hitem hkey he), List.flatMap_append, List.flatMap_cons,
        Entry.steps_of_unknown_effect, List.nil_append, ← List.flatMap_append]
    · rintro layout names old key rfl hkey hitem
      have hside := Entry.ofJson_of_side hitem he
      rw [Side.ofKey_of_not_mem hkey] at hside
      rw [hload _ hside]
      simp only [List.flatMap_append, List.flatMap_cons, Entry.steps_of_unknown_side]

/-- A script with one effect. -/
def oneEffect (members : Members) (key : String) : Json :=
  .object (("actions", .array [.object [("type", .string "effect"), ("effectType", .string key)]]) :: members)

theorem oneEffect_sketches (members : Members) (key : String)
    (hdepth : (oneEffect members key).depth ≤ nestingLimit) (hmembers : ∀ m ∈ members, m.2.Fits) :
    (oneEffect members key).Sketches (oneEffect members key).print := by
  refine (written_print hdepth (fits_object fun m hm ↦ ?_)).sketches rfl
  rcases List.mem_cons.mp hm with rfl | hm
  · exact fun n hn ↦ nomatch hn
  · exact hmembers m hm

/-- The curtain opens, also with a remark on it; with an effect of another name nothing happens. -/
theorem loadScript_of_newer_curtain :
    loadScript .standard (oneEffect [] "blackIn").print =
      .ok [.fork [.cue (.cover .black false Pacing.standard.cover)]] ∧
    loadScript .standard (oneEffect [("remark", .null)] "blackIn").print =
      .ok [.fork [.cue (.cover .black false Pacing.standard.cover)]] ∧
    loadScript .standard (oneEffect [] "fadeIn").print = .ok [] := by
  have hj := oneEffect_sketches [] "blackIn" (by decide) (by simp)
  have h : loadScript .standard (oneEffect [] "blackIn").print =
      .ok [.fork [.cue (.cover .black false Pacing.standard.cover)]] :=
    (loadScript_of_sketches hj).mpr ⟨⟨none, none, [.effect ⟨false, .zero, .blackIn⟩]⟩, rfl, rfl⟩
  obtain ⟨hsame, hnewer⟩ := (loadScript_of_newer .standard h).2 _ hj
  refine ⟨h, hsame _ _ (.members ⟨_, _, [("remark", .null)], rfl, rfl, .refl _, by decide⟩)
    (oneEffect_sketches [("remark", .null)] "blackIn" (by decide) (by simp [Json.Fits, numbers])), ?_⟩
  obtain ⟨opening, entries, entry, entries', hbefore, hentry, hafter, hactions, heffect, -⟩ :=
    hnewer [] [] _ _ _ _ (.member [] []) (oneEffect_sketches [] "fadeIn" (by decide) (by simp))
  obtain rfl : [] = entries := by simpa using hbefore
  obtain rfl : [] = entries' := by simpa using hafter
  obtain rfl : Entry.effect ⟨false, .zero, .blackIn⟩ = entry := Option.some.inj hentry
  rw [heffect ⟨false, .zero, .blackIn⟩ [] (.string "blackIn") "fadeIn" rfl (by decide)
    (.member [("type", .string "effect")] [])]
  rw [List.append_nil, List.flatMap_append] at hactions
  rw [List.append_nil, List.append_nil, List.append_left_eq_self.mp hactions.symm]

end Story

end Storyline
