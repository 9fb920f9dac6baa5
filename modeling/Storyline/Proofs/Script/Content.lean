import Mathlib.Data.List.Basic
import Storyline.Story
import Storyline.Proofs.Script.Trimming

/-!
# What a script becomes

The actions of a script have a narrow form: cues, and forks of cues on the top
level.  Read without the forks around them they tell, entry by entry, what the
script says.  A delay never stands alone: it is positive, and what it delays is
next to it.
-/

namespace Storyline

/-! ## The form of the actions -/

/-- The cues that scripts give rise to. -/
def Cue.isScripted : Cue → Bool
  | .tremble .. | .waitForAll | .waitForTap => false
  | _ => true

def Cue.isDelay : Cue → Bool
  | .delay _ => true
  | _ => false

namespace Action

/-- An action as scripts have it: a cue, or a fork of cues that holds no talk
and no title. -/
inductive Scripted : Action → Prop where
  | cue {c : Cue} (h : c.isScripted = true) : Scripted (.cue c)
  | fork {cues : List Cue} (hne : cues ≠ [])
      (h : ∀ c ∈ cues, c.isScripted = true ∧ c.isTapBlocking = false) :
      Scripted (.fork (Cue.actions cues))

def isDelay : Action → Bool
  | cue c => c.isDelay
  | _ => false

/-- A fork is replaced by its parts. -/
def inlined : Action → List Action
  | fork parts => parts
  | a => [a]

def cue? : Action → Option Cue
  | cue c => some c
  | _ => none

def fork? : Action → Option (List Action)
  | fork parts => some parts
  | _ => none

end Action

/-- Every delay is positive and has an action right behind it that is no delay. -/
def Spaced (actions : List Action) : Prop :=
  ∀ before seconds after, actions = before ++ .cue (.delay seconds) :: after →
    seconds.isPositive = true ∧ ∃ next rest, after = next :: rest ∧ next.isDelay = false

/-! ## What is told -/

/-- A positive delay and what it delays; without a body there is no delay either. -/
def paced (delay : Binary64) (body : List Cue) : List Cue :=
  if body.isEmpty then [] else delayCues delay ++ body

/-- What goes to a fork of its own, if there is anything. -/
def offstage (delay : Binary64) (body : List Cue) : List (List Cue) :=
  if body.isEmpty then [] else [delayCues delay ++ body]

namespace Entry

def delay : Entry → Binary64
  | talk t => t.delay
  | sound s => s.delay
  | effect e => e.delay
  | layout l => l.motion.delay
  | motion m => m.motion.delay
  | unknown => .zero

/-- What an entry tells, its own delay apart. -/
def body (pacing : Pacing) : Entry → List Cue
  | talk t => t.motions.flatMap (fun m ↦ paced m.delay m.cues) ++ [.talk t.line]
  | sound s => s.cues
  | effect e => e.effect.cues pacing
  | layout l => l.cues
  | motion m => m.motion.cues
  | unknown => []

def told (pacing : Pacing) (e : Entry) : List Cue := paced e.delay (e.body pacing)

/-- Whether the story waits for an entry: titles are always waited for. -/
def holds : Entry → Bool
  | talk _ | unknown => true
  | sound s => s.wait
  | effect ⟨_, _, .telop _⟩ => true
  | effect e => e.wait
  | layout l => l.wait
  | motion m => m.wait

/-- What an entry puts on the main timeline. -/
def kept (pacing : Pacing) : Entry → List Cue
  | talk t => delayCues t.delay ++ [.talk t.line]
  | e => if e.holds then e.told pacing else []

/-- What an entry puts into forks: each motion of a talk into one of its own, and
all of an entry that is not waited for into one. -/
def offstages (pacing : Pacing) : Entry → List (List Cue)
  | talk t => t.motions.flatMap (fun m ↦ offstage m.delay m.cues)
  | e => if e.holds then [] else offstage e.delay (e.body pacing)

end Entry

/-- The line of a talk: text and name without the blanks around them, no name if
nothing is left of it, and the first voice. -/
structure TalkEntry.Speaks (talk : TalkEntry) (line : Line) : Prop where
  text : Text.Trims talk.text line.text
  name : ∃ name, Text.Trims talk.name name ∧
    line.characterNames = if name = "" then [] else [name]
  characters : line.characterIds = talk.characters
  voice : line.voicePath = talk.voices.head?.map Voice.voiceId

namespace Script

/-- The scene that a script opens with: the background, then the music. -/
def scene (s : Script) : List Cue :=
  (s.background.map fun image ↦ Cue.scenery .background image.path).toList ++
    (s.bgm.map fun bgm ↦ Cue.scenery .bgm bgm.path).toList

/-- Form and content of the actions that a script becomes. -/
structure Rendered (pacing : Pacing) (s : Script) (actions : List Action) : Prop where
  scripted : ∀ a ∈ actions, a.Scripted
  spaced : Spaced actions
  spaced_fork : ∀ parts, .fork parts ∈ actions → Spaced parts
  content : actions.flatMap Action.inlined =
    Cue.actions (s.scene ++ s.entries.flatMap (Entry.told pacing))
  main : actions.filterMap Action.cue? = s.scene ++ s.entries.flatMap (Entry.kept pacing)
  forks : actions.filterMap Action.fork? =
    (s.entries.flatMap (Entry.offstages pacing)).map Cue.actions
  lines : ∀ talk, .talk talk ∈ s.entries → talk.Speaks talk.line

end Script

/-! ## Delays -/

theorem Spaced.append {as bs : List Action} (ha : Spaced as) (hb : Spaced bs) :
    Spaced (as ++ bs) := by
  intro before seconds after h
  rcases List.append_eq_append_iff.mp h with ⟨middle, rfl, hbs⟩ | ⟨middle, has, hmiddle⟩
  · exact hb middle seconds after hbs
  · cases middle with
    | nil => exact hb [] seconds after hmiddle.symm
    | cons a middle =>
        obtain ⟨rfl, rfl⟩ := List.cons.inj hmiddle
        obtain ⟨hpos, next, rest, rfl, hnext⟩ := ha before seconds middle has
        exact ⟨hpos, next, rest ++ bs, rfl, hnext⟩

theorem spaced_of_forall {as : List Action} (h : ∀ a ∈ as, a.isDelay = false) : Spaced as := by
  intro before seconds after has
  have hd := h (.cue (.delay seconds)) (by rw [has]; simp)
  cases hd

theorem spaced_flatMap {α : Type} {f : α → List Action} {l : List α}
    (h : ∀ x ∈ l, Spaced (f x)) : Spaced (l.flatMap f) := by
  induction l with
  | nil => exact spaced_of_forall fun a ha ↦ absurd ha List.not_mem_nil
  | cons x l ih =>
      exact (h x List.mem_cons_self).append (ih fun y hy ↦ h y (List.mem_cons_of_mem x hy))

/-- A delay in front of something that is no delay. -/
theorem spaced_delayCues {delay : Binary64} {body : List Action} (hne : body ≠ [])
    (h : ∀ a ∈ body, a.isDelay = false) : Spaced (Cue.actions (delayCues delay) ++ body) := by
  by_cases hpos : delay.isPositive = true
  · intro before seconds after hsplit
    simp only [delayCues, if_pos hpos, Cue.actions, List.map_cons, List.map_nil,
      List.singleton_append] at hsplit
    cases before with
    | nil =>
        obtain ⟨hd, rfl⟩ := List.cons.inj hsplit
        injection hd with hd
        injection hd with hd
        obtain ⟨next, rest, rfl⟩ := List.exists_cons_of_ne_nil hne
        exact ⟨hd ▸ hpos, next, rest, rfl, h next List.mem_cons_self⟩
    | cons a before =>
        obtain ⟨-, hbody⟩ := List.cons.inj hsplit
        exact spaced_of_forall h before seconds after hbody
  · simpa [delayCues, hpos, Cue.actions] using spaced_of_forall h

/-! ## Steps -/

/-- What can be the body of a step: no delay, and no tap is waited for unless the
story waits for the step. -/
def Fits (wait : Bool) (body : List Cue) : Prop :=
  ∀ c ∈ body, c.isScripted = true ∧ c.isDelay = false ∧ (wait = false → c.isTapBlocking = false)

section

variable {wait : Bool} {delay : Binary64} {body : List Cue}

theorem step_true : step true delay body = Cue.actions (paced delay body) := by
  unfold step paced
  split <;> rfl

theorem step_false : step false delay body = (offstage delay body).map (.fork ∘ Cue.actions) := by
  unfold step offstage
  split <;> rfl

theorem mem_delayCues {c : Cue} (hc : c ∈ delayCues delay) : c = .delay delay := by
  unfold delayCues at hc
  split at hc
  · exact List.mem_singleton.mp hc
  · cases hc

theorem mem_paced {c : Cue} (hc : c ∈ paced delay body) : c = .delay delay ∨ c ∈ body := by
  unfold paced at hc
  split at hc
  · cases hc
  · exact (List.mem_append.mp hc).imp mem_delayCues id

theorem mem_offstage {cues : List Cue} (h : cues ∈ offstage delay body) :
    body ≠ [] ∧ cues = delayCues delay ++ body := by
  unfold offstage at h
  split at h
  · cases h
  case isFalse hne => exact ⟨by simpa using hne, List.mem_singleton.mp h⟩

theorem spaced_paced (h : Fits wait body) : Spaced (Cue.actions (paced delay body)) := by
  unfold paced
  split
  · exact spaced_of_forall fun a ha ↦ absurd ha List.not_mem_nil
  case isFalse hne =>
      rw [Cue.actions, List.map_append]
      refine spaced_delayCues (by simpa using hne) fun a ha ↦ ?_
      obtain ⟨c, hc, rfl⟩ := List.mem_map.mp ha
      exact (h c hc).2.1

theorem flatMap_inlined_actions (cues : List Cue) :
    (Cue.actions cues).flatMap Action.inlined = Cue.actions cues := by
  rw [Cue.actions, List.flatMap_map, List.map_eq_flatMap]
  rfl

theorem filterMap_cue_actions (cues : List Cue) :
    (Cue.actions cues).filterMap Action.cue? = cues := by
  simp [Cue.actions, List.filterMap_map, Function.comp_def, Action.cue?]

theorem filterMap_fork_actions (cues : List Cue) :
    (Cue.actions cues).filterMap Action.fork? = [] := by
  simp [Cue.actions, List.filterMap_map, Function.comp_def, Action.fork?]

theorem scripted_step (h : Fits wait body) : ∀ a ∈ step wait delay body, a.Scripted := by
  intro a ha
  cases wait with
  | true =>
      rw [step_true] at ha
      obtain ⟨c, hc, rfl⟩ := List.mem_map.mp ha
      rcases mem_paced hc with rfl | hc
      · exact .cue rfl
      · exact .cue (h c hc).1
  | false =>
      rw [step_false] at ha
      obtain ⟨cues, hcues, rfl⟩ := List.mem_map.mp ha
      obtain ⟨hne, rfl⟩ := mem_offstage hcues
      refine .fork (fun hnil ↦ hne (List.append_eq_nil_iff.mp hnil).2) fun c hc ↦ ?_
      rcases List.mem_append.mp hc with hc | hc
      · rw [mem_delayCues hc]
        exact ⟨rfl, rfl⟩
      · exact ⟨(h c hc).1, (h c hc).2.2 rfl⟩

theorem spaced_step (h : Fits wait body) : Spaced (step wait delay body) := by
  cases wait with
  | true =>
      rw [step_true]
      exact spaced_paced h
  | false =>
      rw [step_false]
      refine spaced_of_forall fun a ha ↦ ?_
      obtain ⟨cues, -, rfl⟩ := List.mem_map.mp ha
      rfl

theorem spaced_fork_step (h : Fits wait body) {parts : List Action}
    (hp : .fork parts ∈ step wait delay body) : Spaced parts := by
  cases wait with
  | true =>
      rw [step_true] at hp
      obtain ⟨c, -, hc⟩ := List.mem_map.mp hp
      cases hc
  | false =>
      rw [step_false] at hp
      obtain ⟨cues, hcues, hp⟩ := List.mem_map.mp hp
      injection hp with hp
      obtain ⟨hne, rfl⟩ := mem_offstage hcues
      have hpaced : paced delay body = delayCues delay ++ body := by simp [paced, hne]
      rw [← hp, ← hpaced]
      exact spaced_paced h

theorem inlined_step :
    (step wait delay body).flatMap Action.inlined = Cue.actions (paced delay body) := by
  cases wait with
  | true => rw [step_true, flatMap_inlined_actions]
  | false =>
      rw [step_false]
      unfold offstage paced
      split
      · rfl
      · exact List.append_nil _

theorem main_step : (step wait delay body).filterMap Action.cue? =
    if wait = true then paced delay body else [] := by
  cases wait with
  | true =>
      rw [step_true, filterMap_cue_actions]
      rfl
  | false =>
      rw [step_false, List.filterMap_map]
      exact List.filterMap_eq_nil_iff.mpr fun cues _ ↦ rfl

theorem forks_step : (step wait delay body).filterMap Action.fork? =
    (if wait = true then [] else offstage delay body).map Cue.actions := by
  cases wait with
  | true =>
      rw [step_true, filterMap_fork_actions]
      rfl
  | false =>
      rw [step_false, List.filterMap_map]
      exact congrFun List.filterMap_eq_map (offstage delay body)

end

/-! ## Entries -/

namespace Entry

variable {pacing : Pacing}

theorem fits_motion (wait : Bool) (m : Motion) : Fits wait m.cues := by
  intro c hc
  rcases List.mem_append.mp hc with hc | hc
  all_goals
    split at hc
    · cases hc
    · rw [List.mem_singleton.mp hc]
      exact ⟨rfl, rfl, fun _ ↦ rfl⟩

theorem fits_sound (wait : Bool) (s : SoundEntry) : Fits wait s.cues := by
  intro c hc
  rcases List.mem_append.mp hc with hc | hc
  all_goals
    obtain ⟨path, -, rfl⟩ := Option.map_eq_some_iff.mp (Option.mem_toList.mp hc)
    exact ⟨rfl, rfl, fun _ ↦ rfl⟩

theorem fits_layout (wait : Bool) (l : LayoutEntry) : Fits wait l.cues := by
  intro c hc
  unfold LayoutEntry.cues at hc
  cases hk : l.kind
  all_goals
    simp only [hk] at hc
    rcases List.mem_cons.mp hc with rfl | hc
    · exact ⟨rfl, rfl, fun _ ↦ rfl⟩
  · exact fits_motion wait l.motion c hc
  · cases hc
  · exact fits_motion wait l.motion c hc

theorem fits_effect (e : EffectEntry) :
    Fits (holds (effect e)) (e.effect.cues pacing) := by
  obtain ⟨wait, delay, kind⟩ := e
  intro c hc
  cases kind
  case unknown => cases hc
  all_goals
    rw [List.mem_singleton.mp hc]
    exact ⟨rfl, rfl, fun h ↦ by first | rfl | cases h⟩

/-- All entries but talk are steps. -/
theorem steps_eq_step (e : Entry) (ht : ∀ t, e ≠ talk t) :
    e.steps pacing = step e.holds e.delay (e.body pacing) ∧ Fits e.holds (e.body pacing) := by
  cases e with
  | talk t => exact absurd rfl (ht t)
  | sound s => exact ⟨rfl, fits_sound s.wait s⟩
  | effect e =>
      refine ⟨?_, fits_effect e⟩
      obtain ⟨wait, delay, kind⟩ := e
      cases kind <;> rfl
  | layout l => exact ⟨rfl, fits_layout l.wait l⟩
  | motion m => exact ⟨rfl, fits_motion m.wait m.motion⟩
  | unknown => exact ⟨rfl, fun c hc ↦ absurd hc List.not_mem_nil⟩

theorem kept_eq {e : Entry} (ht : ∀ t, e ≠ talk t) :
    e.kept pacing = if e.holds = true then e.told pacing else [] := by
  cases e with
  | talk t => exact absurd rfl (ht t)
  | _ => rfl

theorem offstages_eq {e : Entry} (ht : ∀ t, e ≠ talk t) :
    e.offstages pacing = if e.holds = true then [] else offstage e.delay (e.body pacing) := by
  cases e with
  | talk t => exact absurd rfl (ht t)
  | _ => rfl

/-- The actions of an entry have the form and the content they should have. -/
structure Rendered (pacing : Pacing) (e : Entry) (actions : List Action) : Prop where
  scripted : ∀ a ∈ actions, a.Scripted
  spaced : Spaced actions
  spaced_fork : ∀ parts, .fork parts ∈ actions → Spaced parts
  content : actions.flatMap Action.inlined = Cue.actions (e.told pacing)
  main : actions.filterMap Action.cue? = e.kept pacing
  forks : actions.filterMap Action.fork? = (e.offstages pacing).map Cue.actions

theorem rendered_step {e : Entry} (ht : ∀ t, e ≠ talk t) : e.Rendered pacing (e.steps pacing) := by
  obtain ⟨heq, hfits⟩ : e.steps pacing = step e.holds e.delay (e.body pacing) ∧ _ := steps_eq_step e ht
  rw [heq]
  refine ⟨scripted_step hfits, spaced_step hfits, fun parts ↦ spaced_fork_step hfits,
    inlined_step, ?_, ?_⟩
  · rw [main_step, kept_eq ht]
    rfl
  · rw [forks_step, offstages_eq ht]

theorem rendered_talk (t : TalkEntry) : (talk t).Rendered pacing ((talk t).steps pacing) := by
  obtain ⟨delays, hdelays⟩ : ∃ delays, delays = Cue.actions (delayCues t.delay) := ⟨_, rfl⟩
  obtain ⟨motions, hmotions⟩ : ∃ motions,
    motions = t.motions.flatMap (fun m ↦ step false m.delay m.cues) := ⟨_, rfl⟩
  have hsteps : (talk t).steps pacing = delays ++ (motions ++ [.cue (.talk t.line)]) := by
    rw [hdelays, hmotions]
    rfl
  have hmem : ∀ a ∈ (talk t).steps pacing, a ∈ delays ∨ a = .cue (.talk t.line) ∨
      ∃ m ∈ t.motions, a ∈ step false m.delay m.cues := by
    intro a ha
    rw [hsteps] at ha
    rcases List.mem_append.mp ha with ha | ha
    · exact .inl ha
    · rcases List.mem_append.mp ha with ha | ha
      · exact .inr (.inr (List.mem_flatMap.mp (hmotions ▸ ha)))
      · exact .inr (.inl (List.mem_singleton.mp ha))
  -- neither the motions, all of them in forks, nor the line are delays
  have hbody : ∀ a ∈ motions ++ [.cue (.talk t.line)], a.isDelay = false := by
    intro a ha
    rcases List.mem_append.mp ha with ha | ha
    · obtain ⟨m, -, ha⟩ := List.mem_flatMap.mp (hmotions ▸ ha)
      rw [step_false] at ha
      obtain ⟨cues, -, rfl⟩ := List.mem_map.mp ha
      rfl
    · rw [List.mem_singleton.mp ha]
      rfl
  refine ⟨?_, ?_, ?_, ?_, ?_, ?_⟩
  · intro a ha
    rcases hmem a ha with ha | rfl | ⟨m, -, ha⟩
    · obtain ⟨c, hc, rfl⟩ := List.mem_map.mp (hdelays ▸ ha)
      rw [mem_delayCues hc]
      exact .cue rfl
    · exact .cue rfl
    · exact scripted_step (fits_motion false m) a ha
  · rw [hsteps, hdelays]
    exact spaced_delayCues (by simp) hbody
  · intro parts hp
    rcases hmem _ hp with hp | hp | ⟨m, -, hp⟩
    · obtain ⟨c, -, hc⟩ := List.mem_map.mp (hdelays ▸ hp)
      cases hc
    · cases hp
    · exact spaced_fork_step (fits_motion false m) hp
  · have hmotion : motions.flatMap Action.inlined =
        Cue.actions (t.motions.flatMap fun m ↦ paced m.delay m.cues) := by
      rw [hmotions, List.flatMap_assoc, Cue.actions, List.map_flatMap]
      exact List.flatMap_congr fun m _ ↦ inlined_step
    have hne : (body pacing (talk t)).isEmpty = false := by simp [body]
    rw [hsteps, List.flatMap_append, List.flatMap_append, hdelays, flatMap_inlined_actions, hmotion,
      told, paced, hne]
    simp [Cue.actions, body, delay, Action.inlined]
  · have hmotion : motions.filterMap Action.cue? = [] := by
      rw [hmotions, List.filterMap_flatMap]
      exact List.flatMap_eq_nil_iff.mpr fun m _ ↦ main_step
    rw [hsteps, List.filterMap_append, List.filterMap_append, hdelays, filterMap_cue_actions,
      hmotion]
    rfl
  · have hmotion : motions.filterMap Action.fork? =
        (t.motions.flatMap fun m ↦ offstage m.delay m.cues).map Cue.actions := by
      rw [hmotions, List.filterMap_flatMap, List.map_flatMap]
      exact List.flatMap_congr fun m _ ↦ forks_step
    rw [hsteps, List.filterMap_append, List.filterMap_append, hdelays, filterMap_fork_actions,
      hmotion]
    exact List.append_nil _

theorem rendered_steps (e : Entry) : e.Rendered pacing (e.steps pacing) := by
  cases e with
  | talk t => exact rendered_talk t
  | _ => exact rendered_step fun t h ↦ nomatch h

end Entry

/-! ## Scripts -/

theorem TalkEntry.speaks_line (talk : TalkEntry) : talk.Speaks talk.line where
  text := Text.trims_iff.mpr rfl
  name := ⟨Text.trim talk.name, Text.trims_iff.mpr rfl, by simp [TalkEntry.line]⟩
  characters := rfl
  voice := rfl

namespace Script

variable {pacing : Pacing}

theorem flatMap_allEntries {α : Type} (s : Script) (f : Entry → List α) :
    s.allEntries.flatMap f = (s.background.map openingBackground).toList.flatMap f ++
      ((s.bgm.map openingMusic).toList.flatMap f ++ s.entries.flatMap f) := by
  rw [allEntries, List.flatMap_append, List.flatMap_append]

/-- An opening entry, which the story waits for, is one cue of the scene. -/
theorem flatMap_opening (s : Script) {f : Entry → List Cue}
    (hb : ∀ image, f (openingBackground image) = [.scenery .background image.path])
    (hm : ∀ bgm, f (openingMusic bgm) = [.scenery .bgm bgm.path]) :
    s.allEntries.flatMap f = s.scene ++ s.entries.flatMap f := by
  rw [flatMap_allEntries, scene]
  cases s.background <;> cases s.bgm <;> simp [hb, hm]

theorem rendered_story (pacing : Pacing) (s : Script) : s.Rendered pacing (s.story pacing) := by
  have hmem : ∀ {a}, a ∈ s.story pacing → ∃ e ∈ s.allEntries, a ∈ e.steps pacing :=
    List.mem_flatMap.mp
  refine ⟨?_, ?_, ?_, ?_, ?_, ?_, fun talk _ ↦ talk.speaks_line⟩
  · intro a ha
    obtain ⟨e, -, ha⟩ := hmem ha
    exact e.rendered_steps.scripted a ha
  · exact spaced_flatMap fun e _ ↦ e.rendered_steps.spaced
  · intro parts hp
    obtain ⟨e, -, hp⟩ := hmem hp
    exact e.rendered_steps.spaced_fork parts hp
  · calc
      _ = s.allEntries.flatMap (fun e ↦ (e.steps pacing).flatMap Action.inlined) :=
        List.flatMap_assoc
      _ = s.allEntries.flatMap (fun e ↦ Cue.actions (e.told pacing)) :=
        List.flatMap_congr fun e _ ↦ e.rendered_steps.content
      _ = Cue.actions (s.allEntries.flatMap (Entry.told pacing)) := List.map_flatMap.symm
      _ = _ := congrArg _ (s.flatMap_opening (fun _ ↦ rfl) fun _ ↦ rfl)
  · calc
      _ = s.allEntries.flatMap (fun e ↦ (e.steps pacing).filterMap Action.cue?) :=
        List.filterMap_flatMap
      _ = s.allEntries.flatMap (Entry.kept pacing) :=
        List.flatMap_congr fun e _ ↦ e.rendered_steps.main
      _ = _ := s.flatMap_opening (fun _ ↦ rfl) fun _ ↦ rfl
  · calc
      _ = s.allEntries.flatMap (fun e ↦ (e.steps pacing).filterMap Action.fork?) :=
        List.filterMap_flatMap
      _ = s.allEntries.flatMap (fun e ↦ (e.offstages pacing).map Cue.actions) :=
        List.flatMap_congr fun e _ ↦ e.rendered_steps.forks
      _ = (s.allEntries.flatMap (Entry.offstages pacing)).map Cue.actions := List.map_flatMap.symm
      _ = _ := by
        rw [flatMap_allEntries]
        cases s.background <;> cases s.bgm <;> rfl

end Script

namespace Story

theorem read_of_loadScript {pacing : Pacing} {document : Bytes} {actions : List Action}
    (h : loadScript pacing document = .ok actions) :
    ∃ script, Script.read document = .ok script ∧ actions = script.story pacing := by
  unfold loadScript at h
  split at h
  case h_1 script hread => exact ⟨script, hread, (Except.ok.inj h).symm⟩
  case h_2 => cases h

/-- Whatever document is accepted, with whatever durations, is rendered in form and
in content. -/
theorem loadScript_renders (cover shake : Duration) (document : Bytes) (actions : List Action)
    (h : loadScript (.ofDurations cover shake) document = .ok actions) :
    ∃ script, Script.read document = .ok script ∧
      script.Rendered (.ofDurations cover shake) actions := by
  obtain ⟨script, hread, rfl⟩ := read_of_loadScript h
  exact ⟨script, hread, script.rendered_story _⟩

/-- A line with a delay and a motion, a cover and a title. -/
def matinee : Bytes :=
  ["\x7b\"actions\":[",
    "\x7b\"type\":\"talk\",\"delay\":1,\"name\":\" Ann \",\"body\":\"Hi\",",
    "\"motions\":[\x7b\"delay\":7,\"character\":1,\"motion\":\"nod\"\x7d]\x7d,",
    "\x7b\"type\":\"effect\",\"wait\":true,\"effectType\":\"blackOut\"\x7d,",
    "\x7b\"type\":\"effect\",\"effectType\":\"telop\",\"text\":\"Night\"\x7d]\x7d"].flatMap
      Bytes.ofString

def matineeScript : Script where
  bgm := none
  background := none
  entries :=
    [.talk ⟨false, .ofNat 1, " Ann ", "Hi", [⟨.ofNat 7, 1, "nod", ""⟩], [], []⟩,
      .effect ⟨true, .zero, .blackOut⟩, .effect ⟨false, .zero, .telop "Night"⟩]

theorem read_matinee : Script.read matinee = .ok matineeScript := by
  have hread : (Script.read matinee).toOption = some matineeScript := by decide +kernel
  cases hscript : Script.read matinee with
  | ok script =>
      rw [hscript] at hread
      exact congrArg _ (Option.some.inj hread)
  | error fault =>
      rw [hscript] at hread
      cases hread

theorem loadScript_matinee (pacing : Pacing) :
    loadScript pacing matinee = .ok (matineeScript.story pacing) := by
  rw [loadScript, read_matinee]

theorem matinee_renders :
    ∃ actions, loadScript (.ofDurations (.ofMillis 500) (.ofMillis 300)) matinee = .ok actions ∧
      ∃ script, Script.read matinee = .ok script ∧
        script.Rendered (.ofDurations (.ofMillis 500) (.ofMillis 300)) actions :=
  ⟨_, loadScript_matinee _, loadScript_renders _ _ _ _ (loadScript_matinee _)⟩

end Story

end Storyline
