import Storyline.Proofs.Action.Varying
import Storyline.Proofs.Rounding
import Storyline.Proofs.Script.Propriety
import Storyline.Proofs.Story.Loading

/-!
# Stories read again

A story that has been loaded can be printed and loaded again, unless it nests too deep.
The members of its actions may stand in another order and among unknown ones; only of
repeated members the last counts, where a list of actions is loaded by its value.
-/

namespace Storyline

open Json

theorem Pacing.cover_ofDurations (cover shake : Duration) :
    (ofDurations cover shake).cover = cover.toSeconds := by
  rw [ofDurations]

theorem Pacing.shake_ofDurations (cover shake : Duration) :
    (ofDurations cover shake).shake = shake.toSeconds := by
  rw [ofDurations]

namespace Story

variable {pacing : Pacing} {document newer : Bytes} {actions : List Action}

theorem eq_of_written {j j' : Json} (h : j.Written document) (h' : j'.Written document) : j = j' :=
  Except.ok.inj ((Json.read_eq_ok_iff.mpr h).symm.trans (Json.read_eq_ok_iff.mpr h'))

/-! ## Printing -/

/-- Any text of the printed actions is loaded as these actions. -/
theorem load_of_written (h : Action.Proper actions) {text : Bytes}
    (htext : (Json.array (Action.listToJson actions)).Written text) : load pacing text = .ok actions :=
  load_of_readList (Action.readList_eq_ok_iff.mpr ⟨_, htext, Action.mapM_listToJson h .named⟩)

theorem written_printList (h : Action.Proper actions)
    (hdepth : (Json.array (Action.listToJson actions)).depth ≤ nestingLimit) :
    (Json.array (Action.listToJson actions)).Written (Action.printList actions) :=
  written_print hdepth (fits_array (Action.fits_listToJson h))

/-- Loaded actions are such as can be printed. -/
theorem proper_of_load (hcover : pacing.cover.isFinite = true) (hshake : pacing.shake.isFinite = true)
    (h : load pacing document = .ok actions) : Action.Proper actions := by
  cases hread : Json.read document with
  | error fault =>
      rw [load_of_fault hread] at h
      exact nomatch h
  | ok j =>
      have hj := Json.read_eq_ok_iff.mp hread
      cases j with
      | array items =>
          rw [load_of_array hj, ofValues_eq_ok_iff] at h
          have hfits : (Json.array (mergedItems items)).Fits := fits_merged hj.fits
          exact Action.proper_of_mapM hfits.item h
      | object members =>
          rw [load_of_object hj] at h
          obtain ⟨script, hscript, rfl⟩ := loadScript_eq_ok_iff.mp h
          exact Script.story_proper hcover hshake (Script.proper_of_read hscript)
      | _ =>
          rw [load_of_scalar hj rfl] at h
          exact nomatch h

/-! ## Members in another order -/

/-- Straight from text, a list of actions is read alike with one of them told otherwise. -/
theorem readList_of_alike {before after : List Json} {p p' : Json} (hp : Action.Alike Loosened p p')
    (hdocument : (Json.array (before ++ p :: after)).Written document)
    (hnewer : (Json.array (before ++ p' :: after)).Written newer)
    (h : Action.readList document = .ok actions) : Action.readList newer = .ok actions := by
  obtain ⟨items, hitems, has⟩ := Action.readList_eq_ok_iff.mp h
  obtain rfl := Json.array.inj (eq_of_written hitems hdocument)
  refine Action.readList_eq_ok_iff.mpr ⟨_, hnewer, ?_⟩
  exact (Entry.keeps_or (Action.keeps_loosened .named)).mapM
    (Action.forall₂_middle (fun _ ↦ .inl rfl) (.inr hp)) has

/-- By its value, a list of actions is loaded alike with one of them told otherwise, if the
last of repeated members stays the last. -/
theorem load_of_alike {before after : List Json} {p p' : Json} (hp : Action.Alike Settled p p')
    (hdocument : (Json.array (before ++ p :: after)).Written document)
    (hnewer : (Json.array (before ++ p' :: after)).Written newer)
    (h : load pacing document = .ok actions) : load pacing newer = .ok actions := by
  have hload : ∀ {items : List Json} {document : Bytes}, (Json.array items).Written document →
      (load pacing document = .ok actions ↔
        items.mapM (fun j ↦ Action.ofJson .named (merged j)) = some actions) := by
    intro items document hitems
    rw [load_of_array hitems, ofValues_eq_ok_iff, mergedItems_eq_map, mapM_eq_some_iff,
      List.forall₂_map_left_iff, mapM_eq_some_iff]
  rw [hload hdocument] at h
  rw [hload hnewer]
  exact (Entry.keeps_or (Action.keeps_settled .named)).mapM
    (Action.forall₂_middle (fun _ ↦ .inl rfl) (.inr hp)) h

/-- A delay that gives its seconds twice. -/
def twoDelays (x y : Binary64) : Members :=
  [("type", .string "delay"), ("seconds", ofFloat x), ("seconds", ofFloat y)]

theorem written_twoDelays {x y : Binary64} (hx : x.isFinite = true) (hy : y.isFinite = true) :
    (Json.array [.object (twoDelays x y)]).Written (Json.array [.object (twoDelays x y)]).print := by
  refine written_print ?_ ?_
  · simp [depth, depthItems, depthMembers, twoDelays, ofFloat, nestingLimit]
  · simp [Json.Fits, numbers, numbersOfItems, numbersOfMembers, twoDelays, ofFloat, Number.Fits, hx, hy]

/-- Of repeated members the last counts. -/
theorem load_twoDelays {x y : Binary64} (hx : x.isFinite = true) (hy : y.isFinite = true) :
    load pacing (Json.array [.object (twoDelays x y)]).print = .ok [.cue (.delay y)] := by
  rw [load_of_array (written_twoDelays hx hy), ofValues_eq_ok_iff]
  rfl

/-- To loading a list of actions by its value, the order of members can matter: they may be
repeated. -/
theorem load_depends_on_order : ¬∀ (pacing : Pacing) (members members' : Members)
    (document newer : Bytes) (actions : List Action), members'.Perm members →
      (Json.array [.object members]).Written document →
      (Json.array [.object members']).Written newer →
      load pacing document = .ok actions → load pacing newer = .ok actions := by
  intro h
  let one : Binary64 := ⟨false, 0x3ff0000000000000⟩
  let two : Binary64 := ⟨false, 0x4000000000000000⟩
  have hone : one.isFinite = true := by decide
  have htwo : two.isFinite = true := by decide
  have hload := h .standard (twoDelays one two) (twoDelays two one) _ _ _
    (.cons _ (.swap _ _ _)) (written_twoDelays hone htwo) (written_twoDelays htwo hone)
    (load_twoDelays hone htwo)
  rw [load_twoDelays htwo hone] at hload
  simp [one, two] at hload

/-- How a story outlives its printing and its telling. -/
theorem load_outlives_printing (pacing : Pacing) :
    (∀ actions, Action.Proper actions →
      (Json.array (Action.listToJson actions)).depth ≤ nestingLimit →
      load pacing (Action.printList actions) = .ok actions ∧
        ∀ text, (Json.array (Action.listToJson actions)).Written text → load pacing text = .ok actions) ∧
    (∀ (cover shake : Duration) (document : Bytes) (actions : List Action),
      cover.nanos < Duration.bound → shake.nanos < Duration.bound →
      load (.ofDurations cover shake) document = .ok actions → Action.Proper actions ∧
        ((Json.array (Action.listToJson actions)).depth ≤ nestingLimit →
          load (.ofDurations cover shake) (Action.printList actions) = .ok actions)) ∧
    (∀ (before after : List Json) (p p' : Json) (document newer : Bytes) (actions : List Action),
      (Json.array (before ++ p :: after)).Written document →
      (Json.array (before ++ p' :: after)).Written newer →
      (Action.Alike Loosened p p' → Action.readList document = .ok actions →
        Action.readList newer = .ok actions) ∧
      (Action.Alike Settled p p' → load pacing document = .ok actions →
        load pacing newer = .ok actions)) ∧
    ∀ (p p' : Json) (document newer : Bytes) (action : Action), p.Written document → p'.Written newer →
      Action.Alike Loosened p p' → Action.read document = .ok action → Action.read newer = .ok action := by
  refine ⟨fun actions h hdepth ↦ ⟨load_of_written h (written_printList h hdepth), fun text htext ↦
    load_of_written h htext⟩, fun cover shake document actions hcover hshake h ↦ ?_,
    fun before after p p' document newer actions hdocument hnewer ↦
      ⟨fun hp ↦ readList_of_alike hp hdocument hnewer, fun hp ↦ load_of_alike hp hdocument hnewer⟩,
    fun p p' document newer action hdocument hnewer hp h ↦ ?_⟩
  · have hproper := proper_of_load (Pacing.cover_ofDurations cover shake ▸ Duration.isFinite_toSeconds hcover)
      (Pacing.shake_ofDurations cover shake ▸ Duration.isFinite_toSeconds hshake) h
    exact ⟨hproper, fun hdepth ↦ load_of_written hproper (written_printList hproper hdepth)⟩
  · obtain ⟨j, hj, hread⟩ := Action.read_eq_ok_iff.mp h
    obtain rfl := eq_of_written hj hdocument
    exact Action.read_eq_ok_iff.mpr ⟨p', hnewer, Action.keeps_loosened .named hp hread⟩

end Story

end Storyline
