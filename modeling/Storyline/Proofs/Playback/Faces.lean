import Storyline.Proofs.Playback.Settings

/-!
# What a session shows

The covers, the place in the story, the line on screen and the backlog change
only where an action of the story is taken up, and where a cover that has come
up takes the other one away.  All else that a turn does leaves them as they are.
-/

namespace Storyline

/-- The covers, the place in the story and the line on screen. -/
structure Face where
  blackCover : CoverState
  whiteCover : CoverState
  step : Option Nat
  talk : Option Line

namespace Stage

def face (s : Stage) : Face := ⟨s.blackCover, s.whiteCover, s.step, s.talk⟩

theorem cover_eq_of_face {s s' : Stage} (h : s'.face = s.face) (c : Cover) : s'.cover c = s.cover c := by
  cases c with
  | black => exact congrArg Face.blackCover h
  | white => exact congrArg Face.whiteCover h

theorem face_setShake (k : Shake) (state : ShakeState) (s : Stage) :
    (s.setShake k state).face = s.face := by
  cases k <;> rfl

theorem face_setScenery (path : String) (scenery : Scenery) (s : Stage) :
    (setScenery path scenery s).face = s.face := by
  cases scenery <;> rfl

theorem face_modifyLayout {c : CharacterId} {f : Layout → Layout} {s s' : Stage}
    (h : s.modifyLayout c f = some s') : s'.face = s.face := by
  unfold modifyLayout at h
  split at h
  · rw [← Option.some.inj h]
    rfl
  · cases h

theorem face_sway {k : Shake} {stamp : Nat} {finished : Bool} {offset : Binary32 × Binary32}
    {s s' : Stage} (h : sway k stamp finished offset s = some s') : s'.face = s.face := by
  unfold sway at h
  dsimp only at h
  split at h
  · rw [← Option.some.inj h]
    exact face_setShake _ _ _
  · cases h

theorem face_clearTelop {text : String} {s s' : Stage} (h : clearTelop text s = some s') :
    s'.face = s.face := by
  unfold clearTelop at h
  split at h
  · rw [← Option.some.inj h]
    rfl
  · cases h

end Stage

theorem ModelChange.face_apply {change : ModelChange} {s s' : Stage} (h : change.apply s = some s') :
    s'.face = s.face := by
  match change, h with
  | .show c model position, h =>
      rw [← Option.some.inj h]
      unfold Stage.showModel
      split <;> rfl
  | .hide c, h =>
      simp only [apply, Stage.hideModel] at h
      split at h
      · cases h
      · rw [← Option.some.inj h]
        rfl
  | .move .., h | .act .., h | .express .., h => exact Stage.face_modifyLayout h

namespace Session

/-- What a session shows, and the lines that it has shown. -/
def shown (s : Session) : Face × List Line := (s.stage.face, s.backlog)

section

variable {s : Session}

theorem shown_present {f : Stage → Stage} (hf : ∀ stage, (f stage).face = stage.face) :
    (s.present f).shown = s.shown := by
  unfold present
  split
  · rfl
  · exact Prod.ext (hf s.stage) rfl

theorem shown_presentIf {f : Stage → Option Stage}
    (hf : ∀ stage stage', f stage = some stage' → stage'.face = stage.face) :
    (s.presentIf f).shown = s.shown := by
  unfold presentIf
  split
  · rfl
  · split
    next stage hstage => exact Prod.ext (hf _ _ hstage) rfl
    next => rfl

theorem shown_stopSound (channel : Channel) : (s.stopSound channel).shown = s.shown := by
  obtain ⟨calls, voiceEnd, h⟩ := s.stopSound_eq channel
  rw [h]
  rfl

theorem shown_playSound (channel : Channel) (sound : Sound) (looping : Bool) :
    (s.playSound channel sound looping).shown = s.shown := by
  obtain ⟨calls, voiceEnd, h⟩ := s.playSound_eq channel sound looping
  rw [h]
  rfl

theorem shown_playVoice (path : String) : (s.playVoice path).2.shown = s.shown := by
  unfold playVoice
  split
  · exact (shown_playSound _ _ _).trans (shown_stopSound _)
  · rfl

end

end Session

namespace Playback

variable {p q : Playback}

theorem shown_release (t : Ticket) : (p.release t).session.shown = p.session.shown := by
  have hcount : ∀ (p : Playback) (tally : Tally) (epoch : Nat),
      (p.releaseCount t.scope tally epoch).session.shown = p.session.shown := by
    intro p tally epoch
    unfold releaseCount
    split
    · rfl
    · split
      · rw [update_raise_eq_touch, touch_session]
        rfl
      · rfl
  unfold release
  cases t.tapEpoch with
  | none => exact hcount p _ _
  | some epoch => exact (hcount _ _ _).trans (hcount p _ _)

theorem shown_enter (scope : Nat) (tapBlocking : Bool) :
    (p.enter scope tapBlocking).session.shown = p.session.shown := by
  rw [enter_eq_touch, touch_session]
  rfl

theorem shown_speak (line : Line) : (p.speak line).session.shown = p.session.shown := by
  unfold speak
  split
  · exact Session.shown_playVoice _
  · rfl

theorem shown_changeScenery (scenery : Scenery) (path : String) (ticket : Ticket) :
    (p.changeScenery scenery path ticket).session.shown = p.session.shown := by
  refine (shown_release ticket).trans ((Session.shown_present (Stage.face_setScenery _ _)).trans ?_)
  cases scenery with
  | background => rfl
  | bgm => exact (Session.shown_playSound _ _ _).trans (Session.shown_stopSound _)
  | se => exact Session.shown_playSound _ _ _

theorem shown_arm : p.arm.session.shown = p.session.shown := rfl

theorem Looked.shown (h : p.Looked q) : q.session.shown = p.session.shown := by
  have hunpark : ∀ (p : Playback) (park : Nat),
      (p.unpark park).session.shown = p.session.shown := by
    intro p park
    rw [unpark_eq_touch, touch_session]
    rfl
  have hsway : ∀ (s : Session) (n : Nat) (shake : Shake) (stamp : Nat) (finished : Bool)
      (offset : Binary32 × Binary32),
      (Session.presentIf (Stage.sway shake stamp finished offset) { s with draws := n }).shown =
        s.shown := by
    intro s n shake stamp finished offset
    exact Session.shown_presentIf (s := { s with draws := n }) fun _ _ ↦ Stage.face_sway
  cases h with
  | still | arms => rfl
  | movesOn park => exact hunpark p park
  | dwells park => exact hunpark _ park
  | sways n => exact hsway _ n _ _ _ _
  | swaysOn n => exact shown_arm.trans (hsway _ n _ _ _ _)
  | ticks =>
      have htick : p.fastForwardTick.session.shown = p.session.shown := by
        rw [fastForwardTick_session]
        rfl
      exact shown_arm.trans htick

/-- Only a cover that has come up changes what is shown at the end of a wait. -/
theorem shown_finish {ending : Ending} (h : ∀ cover stamp ticket, ending ≠ .coverShown cover stamp ticket) :
    (p.finish ending).session.shown = p.session.shown := by
  cases ending with
  | nothing => rfl
  | release ticket => exact shown_release ticket
  | clearTelop text ticket =>
      exact (shown_release ticket).trans
        (Session.shown_presentIf fun _ _ hf ↦ Stage.face_clearTelop hf)
  | coverShown cover stamp ticket => exact absurd rfl (h cover stamp ticket)
  | background path => exact Session.shown_present (Stage.face_setScenery _ _)
  | completed =>
      unfold finish
      dsimp only
      split <;> rfl

theorem shown_suspend {wait : Wait} {ending : Ending} {scopes : List Nat}
    (h : ∀ cover stamp ticket, ending ≠ .coverShown cover stamp ticket) :
    (p.suspend wait ending scopes).session.shown = p.session.shown := by
  have hlook := (p.looked_look wait).shown
  unfold suspend
  split
  next q w heq => rwa [heq] at hlook
  next q ran heq =>
    rw [heq] at hlook
    split
    · exact (shown_finish h).trans hlook
    · exact hlook
  next q heq => rwa [heq] at hlook

theorem shown_openWithin (scope : Nat) (step : Option Nat) :
    (p.openWithin scope step).session.shown = (p.announce step).session.shown :=
  (shown_release _).trans (shown_enter _ _)

/-- What a cue shows besides the place in the story: its line, or its cover. -/
theorem shown_performCue {cue : Cue} {scope : Nat} {scopes : List Nat} {step : Option Nat}
    (hover : p.isOver = false) (htalk : ∀ line, cue ≠ .talk line)
    (hcover : ∀ cover visible seconds, cue ≠ .cover cover visible seconds) :
    (p.performCue cue scope scopes step).session.shown = (p.announce step).session.shown := by
  unfold performCue
  rw [if_neg (by simp [hover])]
  refine Eq.trans ?_ (shown_enter scope cue.isTapBlocking)
  cases cue with
  | talk line => exact absurd rfl (htalk line)
  | telop text => exact (shown_suspend (by simp)).trans (Session.shown_present fun _ ↦ rfl)
  | model change =>
      exact (congrArg Session.shown (spawn_session _ _)).trans
        (Session.shown_presentIf fun _ _ hf ↦ change.face_apply hf)
  | tremble axis character => exact shown_release _
  | cover cover visible seconds => exact absurd rfl (hcover cover visible seconds)
  | shake shake seconds =>
      refine (shown_suspend (by simp)).trans ?_
      exact (congrArg Session.shown (spawn_session _ _)).trans
        (Session.shown_present fun _ ↦ Stage.face_setShake _ _ _)
  | scenery scenery path => exact shown_changeScenery scenery path _
  | delay seconds => exact shown_suspend (by simp)
  | waitForAll | waitForTap => exact (shown_suspend (by simp)).trans (shown_release _)

end Playback

end Storyline
