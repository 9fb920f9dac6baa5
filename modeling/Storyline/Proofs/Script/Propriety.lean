import Storyline.Proofs.Action.Propriety
import Storyline.Proofs.Script.Reading
import Storyline.Proofs.Script.Varying
import Storyline.Script.Story

/-!
# Scripts tell of proper actions

The numbers of a script that is read are such as can be written again, and so are those of
its story, if the covers and shakes take finite times.
-/

namespace Storyline

open Json

/-! ## Entries that are read -/

structure Motion.Proper (m : Motion) : Prop where
  character : m.character < 2 ^ 16
  delay : m.delay.isFinite = true

/-- The characters of the entry are numbers as they may be, and its delays are finite. -/
def Entry.Proper : Entry → Prop
  | .talk t => t.delay.isFinite = true ∧ (∀ m ∈ t.motions, m.Proper) ∧ ∀ id ∈ t.characters, id < 2 ^ 16
  | .sound s => s.delay.isFinite = true
  | .effect e => e.delay.isFinite = true
  | .layout l => l.motion.Proper
  | .motion m => m.motion.Proper
  | .unknown => True

theorem isFinite_zero : (Binary.zero : Binary64).isFinite = true := by decide

/-- The values of a record fit. -/
def Record.Fits (r : Record) : Prop := ∀ name v, r name = .given v → v.Fits

theorem Json.Fits.record {names : List String} {j : Json} (hj : j.Fits) {r : Record}
    (h : record names j = some r) : r.Fits := fun _ _ hv ↦ hj.given h hv

theorem Record.Fits.delay {r : Record} (hr : r.Fits) {x : Binary64} (h : asDelay r = some x) :
    x.isFinite = true := by
  rcases Slot.of_withDefault h with rfl | ⟨v, hslot, hv⟩
  · exact isFinite_zero
  · exact (hr _ v hslot).asFloat hv

theorem Motion.proper_ofRecord {r : Record} (hr : r.Fits) {m : Motion} (h : ofRecord r = some m) :
    m.Proper := by
  obtain ⟨delay, hdelay, h⟩ := Option.bind_eq_some_iff.mp h
  obtain ⟨character, hcharacter, h⟩ := Option.bind_eq_some_iff.mp h
  obtain ⟨motion, -, h⟩ := Option.bind_eq_some_iff.mp h
  obtain ⟨expression, -, h⟩ := Option.bind_eq_some_iff.mp h
  obtain rfl := Option.some.inj h
  obtain ⟨v, -, hv⟩ := Slot.of_required hcharacter
  exact ⟨asWord_lt hv, hr.delay hdelay⟩

theorem Motion.proper_ofJson {j : Json} (hj : j.Fits) {m : Motion} (h : ofJson j = some m) : m.Proper := by
  obtain ⟨r, hr, h⟩ := Option.bind_eq_some_iff.mp h
  exact proper_ofRecord (hj.record hr) h

namespace Entry

variable {j : Json}

theorem proper_talk (hj : j.Fits) {talk : TalkEntry} (h : TalkEntry.ofJson j = some talk) :
    (Entry.talk talk).Proper := by
  obtain ⟨r, hr, h⟩ := Option.bind_eq_some_iff.mp h
  obtain ⟨wait, -, h⟩ := Option.bind_eq_some_iff.mp h
  obtain ⟨delay, hdelay, h⟩ := Option.bind_eq_some_iff.mp h
  obtain ⟨name, -, h⟩ := Option.bind_eq_some_iff.mp h
  obtain ⟨text, -, h⟩ := Option.bind_eq_some_iff.mp h
  obtain ⟨motions, hmotions, h⟩ := Option.bind_eq_some_iff.mp h
  obtain ⟨characters, hcharacters, h⟩ := Option.bind_eq_some_iff.mp h
  obtain ⟨voices, -, h⟩ := Option.bind_eq_some_iff.mp h
  obtain rfl := Option.some.inj h
  have hfits := hj.record hr
  refine ⟨hfits.delay hdelay, fun m hm ↦ ?_, fun id hid ↦ ?_⟩
  · rcases Slot.of_withDefault hmotions with rfl | ⟨v, hslot, hv⟩
    · exact absurd hm (by simp)
    · obtain ⟨items, item, rfl, hitem, hread⟩ := mem_asList hv hm
      exact Motion.proper_ofJson ((hfits _ _ hslot).item item hitem) hread
  · rcases Slot.of_withDefault hcharacters with rfl | ⟨v, -, hv⟩
    · exact absurd hid (by simp)
    · obtain ⟨items, item, -, -, hread⟩ := mem_asList hv hid
      exact asWord_lt hread

theorem proper_sound (hj : j.Fits) {sound : SoundEntry} (h : SoundEntry.ofJson j = some sound) :
    (Entry.sound sound).Proper := by
  obtain ⟨r, hr, h⟩ := Option.bind_eq_some_iff.mp h
  obtain ⟨wait, -, h⟩ := Option.bind_eq_some_iff.mp h
  obtain ⟨delay, hdelay, h⟩ := Option.bind_eq_some_iff.mp h
  obtain ⟨bgm, -, h⟩ := Option.bind_eq_some_iff.mp h
  obtain ⟨se, -, h⟩ := Option.bind_eq_some_iff.mp h
  obtain rfl := Option.some.inj h
  exact (hj.record hr).delay hdelay

theorem proper_effect (hj : j.Fits) {effect : EffectEntry} (h : EffectEntry.ofJson j = some effect) :
    (Entry.effect effect).Proper := by
  cases j with
  | object members =>
      obtain ⟨r, hr, h⟩ := Option.bind_eq_some_iff.mp h
      obtain ⟨wait, -, h⟩ := Option.bind_eq_some_iff.mp h
      obtain ⟨delay, hdelay, h⟩ := Option.bind_eq_some_iff.mp h
      obtain ⟨e, -, h⟩ := Option.bind_eq_some_iff.mp h
      obtain rfl := Option.some.inj h
      exact (hj.record hr).delay hdelay
  | _ => exact nomatch h

theorem proper_layout (hj : j.Fits) {layout : LayoutEntry} (h : LayoutEntry.ofJson j = some layout) :
    (Entry.layout layout).Proper := by
  cases j with
  | object members =>
      obtain ⟨r, hr, h⟩ := Option.bind_eq_some_iff.mp h
      obtain ⟨wait, -, h⟩ := Option.bind_eq_some_iff.mp h
      obtain ⟨kind, -, h⟩ := Option.bind_eq_some_iff.mp h
      obtain ⟨model, -, h⟩ := Option.bind_eq_some_iff.mp h
      obtain ⟨motion, hmotion, h⟩ := Option.bind_eq_some_iff.mp h
      obtain ⟨sideFrom, -, h⟩ := Option.bind_eq_some_iff.mp h
      obtain ⟨sideTo, -, h⟩ := Option.bind_eq_some_iff.mp h
      obtain rfl := Option.some.inj h
      exact Motion.proper_ofRecord (hj.record hr) hmotion
  | _ => exact nomatch h

theorem proper_motion (hj : j.Fits) {motion : MotionEntry} (h : MotionEntry.ofJson j = some motion) :
    (Entry.motion motion).Proper := by
  cases j with
  | object members =>
      obtain ⟨r, hr, h⟩ := Option.bind_eq_some_iff.mp h
      obtain ⟨wait, -, h⟩ := Option.bind_eq_some_iff.mp h
      obtain ⟨motion, hmotion, h⟩ := Option.bind_eq_some_iff.mp h
      obtain rfl := Option.some.inj h
      exact Motion.proper_ofRecord (hj.record hr) hmotion
  | _ => exact nomatch h

theorem proper_ofJson (hj : j.Fits) {entry : Entry} (h : ofJson j = some entry) : entry.Proper := by
  obtain ⟨t, rest, htag, h⟩ := tagged_of_ofJson h
  have hrest := hj.tagged htag
  cases entry with
  | talk => exact proper_talk hrest h.2
  | sound => exact proper_sound hrest h.2
  | effect => exact proper_effect hrest h.2
  | layout => exact proper_layout hrest h.2
  | motion => exact proper_motion hrest h.2
  | unknown => trivial

end Entry

/-! ## Stories that are told -/

namespace Action

theorem proper_iff {as : List Action} : Proper as ↔ ∀ a ∈ as, ∀ c ∈ a.cues, c.Proper := by
  simp only [Proper, mem_cuesOfList, forall_exists_index, and_imp]
  exact ⟨fun h a ha c hc ↦ h c a ha hc, fun h c a ha hc ↦ h a ha c hc⟩

theorem proper_append {as bs : List Action} : Proper (as ++ bs) ↔ Proper as ∧ Proper bs := by
  simp only [proper_iff, List.mem_append, or_imp, forall_and]

theorem proper_flatMap {α : Type} {f : α → List Action} {xs : List α} (h : ∀ x ∈ xs, Proper (f x)) :
    Proper (xs.flatMap f) := by
  rw [proper_iff]
  intro a ha
  obtain ⟨x, hx, ha⟩ := List.mem_flatMap.mp ha
  exact proper_iff.mp (h x hx) a ha

theorem proper_cues {cs : List Cue} (h : ∀ c ∈ cs, c.Proper) : Proper (Cue.actions cs) := by
  rw [proper_iff]
  intro a ha c hc
  obtain ⟨c', hc', rfl⟩ := List.mem_map.mp ha
  obtain rfl := List.mem_singleton.mp hc
  exact h c hc'

end Action

theorem delayCues_proper {delay : Binary64} (h : delay.isFinite = true) : ∀ c ∈ delayCues delay, c.Proper := by
  intro c hc
  unfold delayCues at hc
  split at hc
  · obtain rfl := List.mem_singleton.mp hc
    exact Cue.proper_delay h
  · exact absurd hc (by simp)

theorem step_proper (wait : Bool) {delay : Binary64} {body : List Cue} (hdelay : delay.isFinite = true)
    (hbody : ∀ c ∈ body, c.Proper) : Action.Proper (step wait delay body) := by
  have hcues : Action.Proper (Cue.actions (delayCues delay ++ body)) :=
    Action.proper_cues (List.forall_mem_append.mpr ⟨delayCues_proper hdelay, hbody⟩)
  unfold step
  split
  · exact fun c hc ↦ absurd hc (by simp [Action.cuesOfList])
  · cases wait with
    | true => exact hcues
    | false =>
        rw [if_neg Bool.false_ne_true, Action.proper_iff]
        intro a ha
        obtain rfl := List.mem_singleton.mp ha
        exact hcues

theorem Motion.Proper.cues {m : Motion} (h : m.Proper) : ∀ c ∈ m.cues, c.Proper := by
  have hchange : ∀ {change : ModelChange}, change.character = m.character → (Cue.model change).Proper :=
    fun heq ↦ Cue.proper_model (heq ▸ h.character)
  refine List.forall_mem_append.mpr ⟨fun c hc ↦ ?_, fun c hc ↦ ?_⟩ <;> split at hc
  · exact absurd hc (by simp)
  · exact List.mem_singleton.mp hc ▸ hchange rfl
  · exact absurd hc (by simp)
  · exact List.mem_singleton.mp hc ▸ hchange rfl

namespace Entry

theorem cues_proper {pacing : Pacing} (hcover : pacing.cover.isFinite = true)
    (hshake : pacing.shake.isFinite = true) (effect : Effect) : ∀ c ∈ effect.cues pacing, c.Proper := by
  cases effect with
  | changeBackground | changeCardStill | telop =>
      exact List.forall_mem_singleton.mpr (Cue.proper_plain rfl rfl)
  | blackIn | blackOut | whiteIn | whiteOut =>
      exact List.forall_mem_singleton.mpr (Cue.proper_cover _ _ _ hcover)
  | shakeScreen | shakeWindow => exact List.forall_mem_singleton.mpr (Cue.proper_shake _ _ hshake)
  | unknown => exact fun c hc ↦ nomatch hc

theorem steps_proper {pacing : Pacing} (hcover : pacing.cover.isFinite = true)
    (hshake : pacing.shake.isFinite = true) {entry : Entry} (h : entry.Proper) :
    Action.Proper (entry.steps pacing) := by
  cases entry with
  | talk talk =>
      obtain ⟨hdelay, hmotions, hcharacters⟩ := h
      refine Action.proper_append.mpr ⟨Action.proper_cues (delayCues_proper hdelay),
        Action.proper_append.mpr ⟨Action.proper_flatMap fun m hm ↦ ?_, ?_⟩⟩
      · exact step_proper false (hmotions m hm).delay (hmotions m hm).cues
      · exact Action.proper_cues (List.forall_mem_singleton.mpr (Cue.proper_talk hcharacters))
  | sound sound =>
      refine step_proper _ h fun c hc ↦ ?_
      rcases List.mem_append.mp hc with hc | hc
      all_goals
        obtain ⟨a, -, rfl⟩ := Option.map_eq_some_iff.mp (Option.mem_toList.mp hc)
        exact Cue.proper_plain rfl rfl
  | effect entry => exact step_proper _ h (cues_proper hcover hshake entry.effect)
  | layout layout =>
      have hchange : ∀ {change : ModelChange}, change.character = layout.motion.character →
          (Cue.model change).Proper := fun heq ↦ Cue.proper_model (heq ▸ h.character)
      refine step_proper _ h.delay ?_
      unfold LayoutEntry.cues
      split
      · exact List.forall_mem_cons.mpr ⟨hchange rfl, h.cues⟩
      · exact List.forall_mem_singleton.mpr (hchange rfl)
      · exact List.forall_mem_cons.mpr ⟨hchange rfl, h.cues⟩
  | motion motion => exact step_proper _ h.delay h.cues
  | unknown => exact fun c hc ↦ absurd hc (by simp [steps, Action.cuesOfList])

end Entry

namespace Script

variable {script : Script}

/-- The entries of a script that is read are proper. -/
theorem proper_of_ofJson {j : Json} (hj : j.Fits) (h : ofJson j = some script) :
    ∀ entry ∈ script.entries, entry.Proper := by
  obtain ⟨r, hr, h⟩ := Option.bind_eq_some_iff.mp h
  obtain ⟨bgm, -, h⟩ := Option.bind_eq_some_iff.mp h
  obtain ⟨background, -, h⟩ := Option.bind_eq_some_iff.mp h
  obtain ⟨entries, hentries, h⟩ := Option.bind_eq_some_iff.mp h
  obtain rfl := Option.some.inj h
  obtain ⟨v, hslot, hv⟩ := Slot.of_required hentries
  intro entry hentry
  obtain ⟨items, item, rfl, hitem, hread⟩ := mem_asList hv hentry
  exact Entry.proper_ofJson ((hj.given hr hslot).item item hitem) hread

theorem story_proper {pacing : Pacing} (hcover : pacing.cover.isFinite = true)
    (hshake : pacing.shake.isFinite = true) (h : ∀ entry ∈ script.entries, entry.Proper) :
    Action.Proper (script.story pacing) := by
  refine Action.proper_flatMap fun entry hentry ↦ Entry.steps_proper hcover hshake ?_
  rcases List.mem_append.mp hentry with hentry | hentry
  · obtain ⟨image, -, rfl⟩ := Option.map_eq_some_iff.mp (Option.mem_toList.mp hentry)
    exact isFinite_zero
  rcases List.mem_append.mp hentry with hentry | hentry
  · obtain ⟨bgm, -, rfl⟩ := Option.map_eq_some_iff.mp (Option.mem_toList.mp hentry)
    exact isFinite_zero
  · exact h entry hentry

end Script

/-- What a script is read off has only numbers that fit. -/
theorem Json.Sketches.fits_known {j : Json} {document : Bytes} (h : j.Sketches document) : j.known.Fits := by
  obtain ⟨rest, ⟨t, -, ⟨items, rfl, h⟩ | ⟨members, below, u, rfl, -, -, h⟩⟩, -⟩ := h
  · exact fits_of_value h
  · refine fits_object fun m hm ↦ ?_
    obtain ⟨⟨name, v⟩, hmem, rfl⟩ := List.mem_map.mp hm
    split
    next hname =>
      obtain ⟨-, s, t, h⟩ := Grammar.mem_braced h hmem
      rw [Grammar.Sketched, if_pos hname] at h
      exact fits_of_value h
    next => exact fun _ hn ↦ absurd hn List.not_mem_nil

/-- The entries of a script straight from text are proper. -/
theorem Script.proper_of_read {document : Bytes} {script : Script}
    (h : Script.read document = .ok script) : ∀ entry ∈ script.entries, entry.Proper := by
  obtain ⟨j, hj, hscript⟩ := Script.read_eq_ok_iff.mp h
  exact proper_of_ofJson hj.fits_known ((ofJson_known j).trans hscript)

end Storyline
