import Storyline.Proofs.Playback.Turns

/-!
# Settings

Playing by itself, fast-forward, the cached voices and the end of the session are
settings of a session.  Commands change them and turns of tasks do not.
-/

namespace Storyline

structure Settings where
  autoPlay : Bool
  fastForward : Bool
  cancelled : Bool
  voices : VoiceCache

namespace Session

def settings (s : Session) : Settings := ⟨s.autoPlay, s.fastForward, s.cancelled, s.voices⟩

theorem cancelled_eq {s s' : Session} (h : s'.settings = s.settings) :
    s'.cancelled = s.cancelled := congrArg Settings.cancelled h

section

variable (s : Session)

@[simp] theorem settings_present (f : Stage → Stage) : (s.present f).settings = s.settings := by
  unfold present
  split <;> rfl

@[simp] theorem settings_presentIf (f : Stage → Option Stage) :
    (s.presentIf f).settings = s.settings := by
  unfold presentIf
  split
  · rfl
  · split <;> rfl

@[simp] theorem settings_stopSound (channel : Channel) :
    (s.stopSound channel).settings = s.settings := by
  obtain ⟨calls, voiceEnd, h⟩ := s.stopSound_eq channel
  rw [h]
  rfl

@[simp] theorem settings_playSound (channel : Channel) (sound : Sound) (looping : Bool) :
    (s.playSound channel sound looping).settings = s.settings := by
  obtain ⟨calls, voiceEnd, h⟩ := s.playSound_eq channel sound looping
  rw [h]
  rfl

@[simp] theorem settings_playVoice (path : String) : (s.playVoice path).2.settings = s.settings := by
  unfold playVoice
  split <;> simp

@[simp] theorem settings_takeTap : s.takeTap.settings = s.settings := rfl

@[simp] theorem settings_skip : s.skip.settings = s.settings := rfl

@[simp] theorem settings_resetScopes : s.resetScopes.settings = s.settings := rfl

end

end Session

namespace Playback

variable {p q : Playback}

theorem settings_release (t : Ticket) : (p.release t).session.settings = p.session.settings := by
  have hcount : ∀ (p : Playback) (tally : Tally) (epoch : Nat),
      (p.releaseCount t.scope tally epoch).session.settings = p.session.settings := by
    intro p tally epoch
    unfold releaseCount
    split
    · rfl
    · split
      · rw [update_raise_eq_touch, touch_session]
        rfl
      · rfl
  unfold release
  cases t.tapEpoch with
  | none => exact hcount p _ _
  | some epoch => exact (hcount _ _ _).trans (hcount p _ _)

theorem settings_enter (scope : Nat) (tapBlocking : Bool) :
    (p.enter scope tapBlocking).session.settings = p.session.settings := by
  rw [enter_eq_touch, touch_session]
  rfl

theorem settings_announce (step : Option Nat) :
    (p.announce step).session.settings = p.session.settings := by
  cases step with
  | none => rfl
  | some n => exact Session.settings_present _ _

theorem settings_speak (line : Line) : (p.speak line).session.settings = p.session.settings := by
  unfold speak
  split
  · exact Session.settings_playVoice _ _
  · rfl

theorem settings_changeScenery (scenery : Scenery) (path : String) (ticket : Ticket) :
    (p.changeScenery scenery path ticket).session.settings = p.session.settings := by
  refine (settings_release ticket).trans ((Session.settings_present _ _).trans ?_)
  cases scenery with
  | background => rfl
  | bgm => exact (Session.settings_playSound _ _ _ _).trans (Session.settings_stopSound _ _)
  | se => exact Session.settings_playSound _ _ _ _

theorem settings_arm : p.arm.session.settings = p.session.settings := rfl

theorem Looked.settings (h : p.Looked q) : q.session.settings = p.session.settings := by
  have hunpark : ∀ (p : Playback) (park : Nat),
      (p.unpark park).session.settings = p.session.settings := by
    intro p park
    rw [unpark_eq_touch, touch_session]
    rfl
  have hsway : ∀ (s : Session) (n : Nat) (f : Stage → Option Stage),
      (Session.presentIf f { s with draws := n }).settings = s.settings :=
    fun s n f ↦ Session.settings_presentIf _ f
  cases h with
  | still => rfl
  | arms => rfl
  | movesOn park => exact hunpark p park
  | dwells park => exact hunpark _ park
  | sways n => exact hsway _ n _
  | swaysOn n => exact settings_arm.trans (hsway _ n _)
  | ticks =>
      have htick : p.fastForwardTick.session.settings = p.session.settings := by
        rw [fastForwardTick_session]
        rfl
      exact settings_arm.trans htick

theorem settings_finish (ending : Ending) :
    (p.finish ending).session.settings = p.session.settings := by
  cases ending with
  | nothing => rfl
  | release ticket => exact settings_release ticket
  | clearTelop text ticket => exact (settings_release ticket).trans (Session.settings_presentIf _ _)
  | coverShown cover stamp ticket =>
      exact (settings_release ticket).trans (Session.settings_presentIf _ _)
  | background path => exact Session.settings_present _ _
  | completed =>
      unfold finish
      dsimp only
      split <;> rfl

theorem settings_suspend (wait : Wait) (ending : Ending) (scopes : List Nat) :
    (p.suspend wait ending scopes).session.settings = p.session.settings := by
  have hlook := (p.looked_look wait).settings
  unfold suspend
  split
  next q w h => rwa [h] at hlook
  next q ran h =>
    rw [h] at hlook
    split
    · exact (settings_finish ending).trans hlook
    · exact hlook
  next q h => rwa [h] at hlook

theorem spawn_session (scope : Option Nat) (agenda : List Errand) :
    (p.spawn scope agenda).session = p.session := by
  unfold spawn
  split <;> rfl

theorem settings_sleep (d : Duration) (ending : Ending) (scopes : List Nat) :
    (p.sleep d ending scopes).session.settings = p.session.settings := settings_suspend _ _ _

theorem settings_park (kind : Dwell) (ending : Ending) (scopes : List Nat) :
    (p.park kind ending scopes).session.settings = p.session.settings := settings_suspend _ _ _

theorem settings_openWithin (scope : Nat) (step : Option Nat) :
    (p.openWithin scope step).session.settings = p.session.settings :=
  (settings_release _).trans ((settings_enter _ _).trans (settings_announce step))

theorem settings_performCue (cue : Cue) (scope : Nat) (scopes : List Nat) (step : Option Nat) :
    (p.performCue cue scope scopes step).session.settings = p.session.settings := by
  unfold performCue
  split
  · rfl
  refine Eq.trans ?_ ((settings_enter scope cue.isTapBlocking).trans (settings_announce step))
  cases cue with
  | talk line =>
      exact (settings_park _ _ _).trans ((settings_speak line).trans (Session.settings_present _ _))
  | telop text => exact (settings_park _ _ _).trans (Session.settings_present _ _)
  | model change =>
      exact (congrArg Session.settings (spawn_session _ _)).trans (Session.settings_presentIf _ _)
  | tremble axis character => exact settings_release _
  | cover cover visible seconds => exact (settings_sleep _ _ _).trans (Session.settings_present _ _)
  | shake shake seconds =>
      exact (settings_sleep _ _ _).trans
        ((congrArg Session.settings (spawn_session _ _)).trans (Session.settings_present _ _))
  | scenery scenery path => exact settings_changeScenery scenery path _
  | delay seconds => exact settings_sleep _ _ _
  | waitForAll | waitForTap => exact (settings_suspend _ _ _).trans (settings_release _)

mutual

theorem settings_perform (action : Action) (scope : Nat) (scopes : List Nat) (step : Option Nat)
    (p : Playback) : (perform action scope scopes step p).session.settings = p.session.settings := by
  cases action with
  | cue cue =>
      exact (settings_performCue cue scope scopes step).trans
        (congrArg Session.settings (note_session _ _ _))
  | block parts =>
      simp only [perform]
      split
      · rfl
      · refine (settings_performCue _ _ _ _).trans ((settings_performAll parts _ _ _).trans ?_)
        exact (settings_openWithin scope step).trans (congrArg Session.settings (note_session _ _ _))
  | fork parts =>
      simp only [perform]
      split
      · rfl
      · refine (congrArg Session.settings (spawn_session _ _)).trans ?_
        exact (settings_openWithin scope step).trans (congrArg Session.settings (note_session _ _ _))

theorem settings_performAll (parts : List Action) (scope : Nat) (scopes : List Nat)
    (p : Playback) : (performAll parts scope scopes p).session.settings = p.session.settings := by
  cases parts with
  | nil => rfl
  | cons part rest =>
      exact (settings_performAll rest scope scopes _).trans
        (settings_perform part scope scopes none p)

end

theorem settings_begin (errand : Errand) :
    (p.begin errand).session.settings = p.session.settings := by
  cases errand with
  | perform action scope step => exact settings_perform action scope [scope] step p
  | sleep d ending scopes => exact settings_sleep d ending scopes
  | _ => exact settings_suspend _ _ _

theorem settings_proceed (agenda : List Errand) :
    (proceed agenda p).session.settings = p.session.settings := by
  induction agenda generalizing p with
  | nil => rfl
  | cons errand rest ih =>
      simp only [proceed]
      split
      · exact ih.trans (settings_begin errand)
      · rfl

theorem settings_revisit (pause : Pause) :
    (p.revisit pause).session.settings = p.session.settings := by
  unfold revisit
  split
  · rfl
  · exact settings_suspend _ _ _

theorem settings_revisitAll (pauses : List Pause) :
    (pauses.foldl (fun p pause ↦ p.revisit pause) p).session.settings = p.session.settings := by
  induction pauses generalizing p with
  | nil => rfl
  | cons pause rest ih => exact ih.trans (settings_revisit pause)

theorem settings_worked (task : Task) : (p.worked task).session.settings = p.session.settings :=
  (settings_proceed task.agenda).trans (settings_revisitAll task.pauses)

theorem settings_takeTurn (task : Task) :
    (takeTurn task p).session.settings = p.session.settings := by
  obtain ⟨⟨taps, hend⟩, -⟩ := endTurn_session (p := p.worked task) task
  rw [takeTurn_eq, hend]
  exact settings_worked task

/-- The turns of tasks change no setting. -/
theorem settings_runTask (id : Nat) : (runTask id p).session.settings = p.session.settings := by
  unfold runTask
  split
  · rfl
  · split
    · rfl
    · exact settings_takeTurn _

end Playback

end Storyline
