import Storyline.Proofs.Playback.Debts

/-!
# The pace of a playback

What sets the pace: the flags, the skips so far, the end of the session and the
voices.  Nothing that is
done in a turn changes it but a tick of fast-forward, and the parked actions
stay on the stack until their own waits are over.
-/

namespace Storyline

structure Pace where
  autoPlay : Bool
  fastForward : Bool
  skips : Nat
  cancelled : Bool
  voices : VoiceCache

namespace Session

def pace (s : Session) : Pace := ⟨s.autoPlay, s.fastForward, s.skips, s.cancelled, s.voices⟩

/-- Neither the pace nor the stack of parked actions has changed. -/
structure Level (s s' : Session) : Prop where
  pace : s'.pace = s.pace
  taps : s'.taps = s.taps

variable {s s' s'' : Session}

theorem Level.refl (s : Session) : s.Level s := ⟨rfl, rfl⟩

theorem Level.trans (h : s.Level s') (h' : s'.Level s'') : s.Level s'' :=
  ⟨h'.pace.trans h.pace, h'.taps.trans h.taps⟩

theorem level_present (f : Stage → Stage) : s.Level (s.present f) := by
  unfold present
  split <;> exact ⟨rfl, rfl⟩

theorem level_presentIf (f : Stage → Option Stage) : s.Level (s.presentIf f) := by
  unfold presentIf
  split
  · exact .refl s
  · split <;> exact ⟨rfl, rfl⟩

theorem level_stopSound (channel : Channel) : s.Level (s.stopSound channel) := by
  obtain ⟨calls, voiceEnd, h⟩ := s.stopSound_eq channel
  rw [h]
  exact ⟨rfl, rfl⟩

theorem level_playSound (channel : Channel) (sound : Sound) (looping : Bool) :
    s.Level (s.playSound channel sound looping) := by
  obtain ⟨calls, voiceEnd, h⟩ := s.playSound_eq channel sound looping
  rw [h]
  exact ⟨rfl, rfl⟩

theorem level_playVoice (path : String) : s.Level (s.playVoice path).2 := by
  unfold playVoice
  split
  next blob _ =>
    have hplay := level_playSound (s := s.stopSound .voice) .voice (.blob blob) false
    exact (level_stopSound .voice).trans hplay
  next => exact .refl s

end Session

namespace Playback

/-- A stir that changes neither the pace nor the stack nor the status. -/
structure Smooth (p q : Playback) : Prop where
  stirs : p.Stirs q
  level : p.session.Level q.session
  status : q.status = p.status

namespace Smooth

variable {p q r : Playback}

theorem refl (p : Playback) : p.Smooth p := ⟨.refl p, .refl _, rfl⟩

theorem trans (h : p.Smooth q) (h' : q.Smooth r) : p.Smooth r :=
  ⟨h.stirs.trans h'.stirs, h.level.trans h'.level, h'.status.trans h.status⟩

theorem of_update {f : Session → Session} (hst : p.Stirs (p.update f))
    (hlevel : p.session.Level (f p.session)) : p.Smooth (p.update f) := ⟨hst, hlevel, rfl⟩

end Smooth

section smooth

variable (p : Playback)

theorem smooth_arm : p.Smooth p.arm := ⟨p.stirs_arm, ⟨rfl, rfl⟩, rfl⟩

theorem smooth_enter (scope : Nat) (tapBlocking : Bool) : p.Smooth (p.enter scope tapBlocking) := by
  refine ⟨p.stirs_enter scope tapBlocking, ?_, ?_⟩ <;> rw [enter_eq_touch]
  · rw [touch_session]
    exact ⟨rfl, rfl⟩
  · exact touch_status

theorem smooth_releaseCount (scope : Nat) (tally : Tally) (epoch : Nat) :
    p.Smooth (p.releaseCount scope tally epoch) := by
  refine ⟨p.stirs_releaseCount scope tally epoch, ?_, ?_⟩ <;> unfold releaseCount <;> split
  · exact .refl _
  · split
    · rw [update_raise_eq_touch, touch_session]
      exact ⟨rfl, rfl⟩
    · exact .refl _
  · rfl
  · split
    · rw [update_raise_eq_touch, touch_status]
    · rfl

theorem smooth_release (t : Ticket) : p.Smooth (p.release t) := by
  unfold release
  cases t.tapEpoch with
  | none => exact p.smooth_releaseCount _ _ _
  | some epoch => exact (p.smooth_releaseCount _ _ _).trans (smooth_releaseCount _ _ _ _)

theorem smooth_present (f : Stage → Stage) : p.Smooth (p.update (.present f)) :=
  .of_update (p.stirs_present f) (Session.level_present f)

theorem smooth_presentIf (f : Stage → Option Stage) : p.Smooth (p.update (.presentIf f)) :=
  .of_update (p.stirs_presentIf f) (Session.level_presentIf f)

theorem smooth_announce (step : Option Nat) : p.Smooth (p.announce step) := by
  cases step with
  | none => exact .refl p
  | some n => exact p.smooth_present _

theorem smooth_tell (line : Line) :
    p.Smooth (p.update (fun s ↦ (s.present (Stage.setTalk line)).pushBacklog line)) :=
  .of_update (p.stirs_tell line) ((Session.level_present _).trans ⟨rfl, rfl⟩)

theorem smooth_speak (line : Line) : p.Smooth (p.speak line) := by
  unfold speak
  split
  · exact .of_update (.of_update (Session.carries_playVoice _)) (Session.level_playVoice _)
  · exact .refl p

theorem smooth_number (f : Stage → Stage) :
    p.Smooth (p.update (fun s ↦ s.nextSerial.2.present f)) :=
  .of_update (p.stirs_number f) ⟨(Session.level_present f).pace, (Session.level_present f).taps⟩

theorem smooth_sway (n : Nat) (f : Stage → Option Stage) :
    p.Smooth (p.update (fun s ↦ Session.presentIf f { s with draws := n })) :=
  ⟨p.stirs_sway n f, ⟨(Session.level_presentIf f).pace, (Session.level_presentIf f).taps⟩, rfl⟩

theorem smooth_openWithin (scope : Nat) (step : Option Nat) :
    p.Smooth (p.openWithin scope step) := by
  unfold openWithin
  refine (p.smooth_announce step).trans ((smooth_enter _ scope false).trans ?_)
  exact (smooth_release _ _).trans (.of_update (.of_update (Session.carries_openScope _)) ⟨rfl, rfl⟩)

theorem smooth_changeScenery (scenery : Scenery) (path : String) (ticket : Ticket) :
    p.Smooth (p.changeScenery scenery path ticket) := by
  have hshows : ∀ {q : Playback}, p.Smooth q →
      p.Smooth ((q.update (.present (Stage.setScenery path scenery))).release ticket) :=
    fun hsound ↦ (hsound.trans (smooth_present _ _)).trans (smooth_release _ _)
  cases scenery with
  | background => exact hshows (.refl p)
  | bgm =>
      refine hshows (.of_update (.of_update ?_) ?_)
      · exact (Session.carries_stopSound _).trans (Session.carries_playSound _ _ _)
      · exact (Session.level_stopSound _).trans (Session.level_playSound _ _ _)
  | se =>
      exact hshows
        (.of_update (.of_update (Session.carries_playSound _ _ _)) (Session.level_playSound _ _ _))

/-- The end of a wait completes the story or changes nothing about its pace. -/
theorem smooth_finish {ending : Ending} (h : ending ≠ .completed) : p.Smooth (p.finish ending) := by
  cases ending with
  | nothing => exact .refl p
  | release ticket => exact p.smooth_release ticket
  | clearTelop text ticket => exact (p.smooth_presentIf _).trans (smooth_release _ ticket)
  | coverShown cover stamp ticket => exact (p.smooth_presentIf _).trans (smooth_release _ ticket)
  | background path => exact p.smooth_present _
  | completed => exact absurd rfl h

end smooth

end Playback

end Storyline
