import Storyline.Proofs.Playback.Machine
import Storyline.Proofs.Playback.Voicing

/-!
# Other voices in the cache

What a playback does depends on the cached voices only where a line is taken up, and there
only on the voice of this line.  With another cache that has the same voice for each line
that is taken up, the playback does the same.
-/

namespace Storyline

namespace Session

/-- The session with other voices in its cache. -/
def holding (voices : VoiceCache) (s : Session) : Session := { s with voices := voices }

variable {s : Session} {voices : VoiceCache}

theorem holding_present (f : Stage → Stage) :
    (s.present f).holding voices = (s.holding voices).present f := by
  have hended : (s.holding voices).cancelled = s.cancelled := rfl
  simp only [present, hended]
  split <;> rfl

theorem holding_presentIf (f : Stage → Option Stage) :
    (s.presentIf f).holding voices = (s.holding voices).presentIf f := by
  have hended : (s.holding voices).cancelled = s.cancelled := rfl
  have hstage : (s.holding voices).stage = s.stage := rfl
  simp only [presentIf, hended, hstage]
  split
  · rfl
  · split <;> rfl

theorem holding_setAutoPlay (on : Bool) :
    (s.setAutoPlay on).holding voices = (s.holding voices).setAutoPlay on := by
  have hended : (s.holding voices).cancelled = s.cancelled := rfl
  simp only [setAutoPlay, hended]
  split <;> rfl

theorem holding_setFastForward (on : Bool) :
    (s.setFastForward on).holding voices = (s.holding voices).setFastForward on := by
  have hended : (s.holding voices).cancelled = s.cancelled := rfl
  simp only [setFastForward, hended]
  split <;> rfl

theorem holding_stopSound (channel : Channel) :
    (s.stopSound channel).holding voices = (s.holding voices).stopSound channel := by
  cases hh : s.host.audible <;> cases channel <;> simp [stopSound, call, holding, hh]

theorem holding_playSound (channel : Channel) (sound : Sound) (looping : Bool) :
    (s.playSound channel sound looping).holding voices =
      (s.holding voices).playSound channel sound looping := by
  cases hh : s.host.audible <;> cases channel <;> cases sound <;>
    simp [playSound, call, holding, voiceEndOf, hh]

/-- A voice sounds the same if both caches have the same blob for it. -/
theorem holding_playVoice {path : String} (h : voices.get? path = s.voices.get? path) :
    (s.playVoice path).2.holding voices = ((s.holding voices).playVoice path).2 := by
  have hget : (s.holding voices).voices.get? path = s.voices.get? path := h
  simp only [playVoice, hget]
  split
  · rw [← holding_stopSound, ← holding_playSound]
  · rfl

end Session

namespace Playback

/-- The playback with other voices in its cache. -/
def holding (voices : VoiceCache) (p : Playback) : Playback := p.update (.holding voices)

variable {p : Playback} {voices : VoiceCache}

theorem holding_touch {s : Session} {signals : List Signal} :
    (p.touch s signals).holding voices = (p.holding voices).touch (s.holding voices) signals := by
  simp only [touch, raiseAll_eq]
  rfl

theorem holding_update {f : Session → Session} (h : (f p.session).holding voices = f (p.session.holding voices)) :
    (p.update f).holding voices = (p.holding voices).update f := by
  change ({ p with session := (f p.session).holding voices } : Playback) = _
  rw [h]
  rfl

theorem holding_present (f : Stage → Stage) :
    (p.update (.present f)).holding voices = (p.holding voices).update (.present f) :=
  holding_update (Session.holding_present f)

theorem holding_presentIf (f : Stage → Option Stage) :
    (p.update (.presentIf f)).holding voices = (p.holding voices).update (.presentIf f) :=
  holding_update (Session.holding_presentIf f)

theorem holding_enter (scope : Nat) (tapBlocking : Bool) :
    (p.enter scope tapBlocking).holding voices = (p.holding voices).enter scope tapBlocking := by
  rw [enter_eq_touch, enter_eq_touch, holding_touch]
  rfl

theorem holding_releaseCount (scope : Nat) (tally : Tally) (epoch : Nat) :
    (p.releaseCount scope tally epoch).holding voices =
      (p.holding voices).releaseCount scope tally epoch := by
  have hscope : (p.holding voices).session.scope? scope = p.session.scope? scope := rfl
  simp only [releaseCount, hscope]
  split
  · rfl
  · split
    · rw [update_raise_eq_touch, update_raise_eq_touch, holding_touch]
      rfl
    · rfl

theorem holding_release (t : Ticket) :
    (p.release t).holding voices = (p.holding voices).release t := by
  unfold release
  cases t.tapEpoch with
  | none => exact holding_releaseCount _ _ _
  | some epoch => simp only [holding_releaseCount]

theorem holding_unpark (id : Nat) : (p.unpark id).holding voices = (p.holding voices).unpark id := by
  rw [unpark_eq_touch, unpark_eq_touch, holding_touch]
  rfl

theorem holding_resetScopes : p.resetScopes.holding voices = (p.holding voices).resetScopes := by
  rw [resetScopes_eq_touch, resetScopes_eq_touch, holding_touch]
  rfl

theorem holding_tap : p.tap.holding voices = (p.holding voices).tap := by
  rw [tap_eq_touch, tap_eq_touch, holding_touch]
  rfl

theorem holding_fastForwardTick :
    p.fastForwardTick.holding voices = (p.holding voices).fastForwardTick := by
  unfold fastForwardTick
  rw [holding_tap, skip_eq_touch, holding_touch, skip_eq_touch, ← holding_resetScopes]
  rfl

theorem holding_setAutoPlay (on : Bool) :
    (p.setAutoPlay on).holding voices = (p.holding voices).setAutoPlay on := by
  have hended : (p.holding voices).session.cancelled = p.session.cancelled := rfl
  simp only [setAutoPlay, hended]
  split
  · rfl
  · rw [update_raise_eq_touch, update_raise_eq_touch, holding_touch, Session.holding_setAutoPlay]
    rfl

theorem holding_setFastForward (on : Bool) :
    (p.setFastForward on).holding voices = (p.holding voices).setFastForward on := by
  have hended : (p.holding voices).session.cancelled = p.session.cancelled := rfl
  simp only [setFastForward, hended]
  split
  · rfl
  · rw [update_raise_eq_touch, update_raise_eq_touch, holding_touch, Session.holding_setFastForward]
    rfl

theorem holding_spawn (scope : Option Nat) (agenda : List Errand) :
    (p.spawn scope agenda).holding voices = (p.holding voices).spawn scope agenda := by
  have hended : (p.holding voices).session.cancelled = p.session.cancelled := rfl
  simp only [spawn, hended]
  split <;> rfl

/-! ## Looks -/

/-- A look at a wait, with other voices in the cache. -/
def lookedHolding (voices : VoiceCache) (x : Playback × Verdict) : Playback × Verdict :=
  (x.1.holding voices, x.2)

theorem holding_dwell (park : Nat) (kind : Dwell) (d : Duration) :
    (p.holding voices).dwell park kind d = lookedHolding voices (p.dwell park kind d) := by
  have hnow : (p.holding voices).session.now = p.session.now := rfl
  have htimer (due : Option Nat) : (p.holding voices).timer due = p.timer due := rfl
  simp only [dwell, hnow, htimer]
  split
  · exact congrArg (fun q ↦ (q, Verdict.ends true)) (holding_unpark (p := p.arm) park).symm
  · rfl

theorem holding_lookAtTap (park : Nat) (kind : Dwell) (auto : Lingering) :
    (p.holding voices).lookAtTap park kind auto = lookedHolding voices (p.lookAtTap park kind auto) := by
  have hended : (p.holding voices).session.cancelled = p.session.cancelled := rfl
  have hparked : (p.holding voices).session.isParked park = p.session.isParked park := rfl
  have hauto : (p.holding voices).session.autoPlay = p.session.autoPlay := rfl
  have hnow : (p.holding voices).session.now = p.session.now := rfl
  have hspeaks : (p.holding voices).session.isSpeaking = p.session.isSpeaking := rfl
  have hconfig : (p.holding voices).session.config = p.session.config := rfl
  simp only [lookAtTap, hended, hparked, hauto]
  split
  · rfl
  split
  · rfl
  split
  · rfl
  cases auto with
  | off =>
      cases kind with
      | fixed d => exact holding_dwell park _ d
      | voice =>
          simp only [beginLingering, hconfig, hnow]
          split <;> rfl
  | listening start ticks timer =>
      simp only [hnow, hspeaks, hconfig]
      split
      · rfl
      split
      · rfl
      · exact holding_dwell park kind _
  | dwelling timer =>
      simp only [hnow]
      split
      · exact congrArg (fun q ↦ (q, Verdict.ends true)) (holding_unpark park).symm
      · rfl

theorem holding_drawOffset (finished : Bool) :
    (p.holding voices).drawOffset finished =
      ((p.drawOffset finished).1.holding voices, (p.drawOffset finished).2) := by
  have hconfig : (p.holding voices).session.config = p.session.config := rfl
  simp only [drawOffset, hconfig]
  split <;> rfl

theorem holding_lookAtFrame (shake : Shake) (stamp : Nat) (d : Duration) (start ticks : Nat)
    (timer : Timer) :
    (p.holding voices).lookAtFrame shake stamp d start ticks timer =
      lookedHolding voices (p.lookAtFrame shake stamp d start ticks timer) := by
  have hnow : (p.holding voices).session.now = p.session.now := rfl
  have hconfig : (p.holding voices).session.config = p.session.config := rfl
  have haccepts : ∀ (q : Playback) f, (q.holding voices).session.accepts f = q.session.accepts f :=
    fun _ _ ↦ rfl
  have hwaits : ∀ (q : Playback) start ticks,
      (q.holding voices).waitForFrame shake stamp d start ticks =
        lookedHolding voices (q.waitForFrame shake stamp d start ticks) := fun _ _ _ ↦ rfl
  simp only [lookAtFrame, hnow, hconfig, holding_drawOffset, haccepts, ← holding_presentIf, hwaits]
  split
  · rfl
  split
  · rfl
  generalize p.drawOffset _ = drawn
  split <;> rfl

theorem holding_lookAtForward (ticker : Option (Nat × Nat × Timer)) :
    (p.holding voices).lookAtForward ticker = lookedHolding voices (p.lookAtForward ticker) := by
  have hfast : (p.holding voices).session.fastForward = p.session.fastForward := rfl
  have hnow : (p.holding voices).session.now = p.session.now := rfl
  have hconfig : (p.holding voices).session.config = p.session.config := rfl
  have hwaits : ∀ (q : Playback) start ticks, (q.holding voices).waitForTick start ticks =
      lookedHolding voices (q.waitForTick start ticks) := fun _ _ _ ↦ rfl
  simp only [lookAtForward, hfast, hnow, hconfig, ← holding_fastForwardTick, hwaits]
  split
  · rfl
  split
  · split <;> rfl
  · split <;> rfl

theorem holding_look (wait : Wait) :
    (p.holding voices).look wait = lookedHolding voices (p.look wait) := by
  have hended : (p.holding voices).session.cancelled = p.session.cancelled := rfl
  cases wait with
  | tap park kind auto => exact holding_lookAtTap park kind auto
  | sleep timer skips =>
      have hnow : (p.holding voices).session.now = p.session.now := rfl
      have hskips : (p.holding voices).session.skips = p.session.skips := rfl
      simp only [look, lookAtSleep, hended, hnow, hskips]
      split
      · rfl
      · split <;> rfl
  | drained scope tally guarded =>
      have hpending : (p.holding voices).session.pending scope tally = p.session.pending scope tally := rfl
      simp only [look, lookAtCount, hended, hpending]
      split
      · rfl
      · split <;> rfl
  | cancelled => rfl
  | frame shake stamp d start ticks timer => exact holding_lookAtFrame shake stamp d start ticks timer
  | forward ticker => exact holding_lookAtForward ticker

/-! ## Suspending -/

theorem holding_finish (ending : Ending) :
    (p.finish ending).holding voices = (p.holding voices).finish ending := by
  cases ending with
  | nothing => rfl
  | release ticket => exact holding_release ticket
  | clearTelop text ticket | coverShown cover stamp ticket =>
      exact (holding_release ticket).trans (congrArg (fun q ↦ q.release ticket) (holding_presentIf _))
  | background path => exact holding_present _
  | completed =>
      have hstatus : (p.holding voices).status = p.status := rfl
      simp only [finish, hstatus]
      split <;> rfl

theorem holding_suspend (wait : Wait) (ending : Ending) (scopes : List Nat) :
    (p.suspend wait ending scopes).holding voices = (p.holding voices).suspend wait ending scopes := by
  obtain ⟨q, verdict, hlook⟩ : ∃ q verdict, p.look wait = (q, verdict) := ⟨_, _, rfl⟩
  simp only [suspend, holding_look, lookedHolding, hlook]
  cases verdict with
  | waits w => rfl
  | ends ran =>
      cases ran with
      | true => exact holding_finish ending
      | false => rfl
  | fails => rfl

theorem holding_sleep (d : Duration) (ending : Ending) (scopes : List Nat) :
    (p.sleep d ending scopes).holding voices = (p.holding voices).sleep d ending scopes :=
  holding_suspend _ _ _

theorem holding_park (kind : Dwell) (ending : Ending) (scopes : List Nat) :
    (p.park kind ending scopes).holding voices = (p.holding voices).park kind ending scopes :=
  holding_suspend _ _ _


/-! ## Performing -/

/-- Both caches have the same voice for what a cue says, if it says something. -/
def SameVoice (voices : VoiceCache) (cue : Cue) (p : Playback) : Prop :=
  ∀ path, cue.voicePath = some path → voices.get? path = p.session.voices.get? path

theorem SameVoice.of_settings {q : Playback} {cue : Cue} (h : p.SameVoice voices cue)
    (hsettings : q.session.settings = p.session.settings) : q.SameVoice voices cue := fun path hpath ↦ by
  have hsame : q.session.voices = p.session.voices := congrArg Settings.voices hsettings
  rw [hsame]
  exact h path hpath

theorem holding_announce (step : Option Nat) :
    (p.announce step).holding voices = (p.holding voices).announce step := by
  cases step with
  | none => rfl
  | some n => exact holding_present _

theorem holding_note (action : Action) (scope : Nat) (step : Option Nat) :
    (p.note action scope step).holding voices = (p.holding voices).note action scope step := by
  have hover : (p.holding voices).isOver = p.isOver := rfl
  simp only [note, hover]
  split <;> rfl

theorem holding_openWithin (scope : Nat) (step : Option Nat) :
    (p.openWithin scope step).holding voices = (p.holding voices).openWithin scope step := by
  have hticket : ∀ (q : Playback), (q.holding voices).session.ticket scope false =
      q.session.ticket scope false := fun _ ↦ rfl
  unfold openWithin
  dsimp only
  rw [← holding_announce, hticket, ← holding_enter, ← holding_release]
  exact holding_update rfl

theorem holding_speak {line : Line} (h : p.SameVoice voices (.talk line)) :
    (p.speak line).holding voices = (p.holding voices).speak line := by
  unfold speak
  split
  next path hpath => exact holding_update (Session.holding_playVoice (h path hpath))
  next => rfl

theorem holding_isVoiced {line : Line} (h : p.SameVoice voices (.talk line)) :
    (p.holding voices).isVoiced line = p.isVoiced line := by
  unfold isVoiced
  split
  next path hpath => exact congrArg Option.isSome (h path hpath)
  next => rfl

theorem holding_talk {line : Line} (h : p.SameVoice voices (.talk line)) (ticket : Ticket)
    (scopes : List Nat) :
    (p.talk line ticket scopes).holding voices = (p.holding voices).talk line ticket scopes := by
  have hconfig : (p.holding voices).session.config = p.session.config := rfl
  have htold : (p.update fun s ↦ (s.present (Stage.setTalk line)).pushBacklog line).holding voices =
      (p.holding voices).update fun s ↦ (s.present (Stage.setTalk line)).pushBacklog line := by
    refine holding_update ?_
    rw [← Session.holding_present]
    rfl
  simp only [talk, holding_isVoiced h, hconfig]
  rw [holding_park, holding_speak (h.of_settings (Session.settings_present _ _)), htold]

theorem holding_changeScenery (scenery : Scenery) (path : String) (ticket : Ticket) :
    (p.changeScenery scenery path ticket).holding voices =
      (p.holding voices).changeScenery scenery path ticket := by
  have hsound : ∀ q q' : Playback, q.holding voices = q' →
      ((q.update (.present (Stage.setScenery path scenery))).release ticket).holding voices =
        (q'.update (.present (Stage.setScenery path scenery))).release ticket := by
    rintro q _ rfl
    rw [holding_release, holding_present]
  cases scenery with
  | background => exact hsound _ _ rfl
  | bgm =>
      refine hsound _ _ (holding_update ?_)
      rw [Session.holding_playSound, Session.holding_stopSound]
  | se => exact hsound _ _ (holding_update (Session.holding_playSound _ _ _))

theorem holding_performCue {cue : Cue} (h : p.SameVoice voices cue) (scope : Nat) (scopes : List Nat)
    (step : Option Nat) :
    (p.performCue cue scope scopes step).holding voices =
      (p.holding voices).performCue cue scope scopes step := by
  have hover : (p.holding voices).isOver = p.isOver := rfl
  have hticket : ∀ (q : Playback), (q.holding voices).session.ticket scope cue.isTapBlocking =
      q.session.ticket scope cue.isTapBlocking := fun _ ↦ rfl
  unfold performCue
  rw [hover]
  split
  · rfl
  have hentered : ((p.announce step).enter scope cue.isTapBlocking).SameVoice voices cue :=
    h.of_settings ((settings_enter _ _).trans (settings_announce step))
  dsimp only
  rw [← holding_announce, hticket, ← holding_enter]
  generalize (p.announce step).enter scope cue.isTapBlocking = q at hentered ⊢
  have hserial : (q.holding voices).session.serial = q.session.serial := rfl
  have hconfig : (q.holding voices).session.config = q.session.config := rfl
  have hnumber : ∀ f : Stage → Stage, (q.update fun s ↦ s.nextSerial.2.present f).holding voices =
      (q.holding voices).update fun s ↦ s.nextSerial.2.present f := fun f ↦
    holding_update (Session.holding_present (s := q.session.nextSerial.2) f)
  cases cue with
  | talk line => exact holding_talk hentered _ _
  | telop text => simp only [telop, holding_park, holding_present, hconfig]
  | model change => simp only [changeModel, settleLater, holding_spawn, holding_presentIf, hconfig]
  | tremble axis character => exact holding_release _
  | cover cover visible seconds => simp only [coverScreen, holding_sleep, hnumber, hserial]
  | shake shake seconds => simp only [shakeTarget, holding_sleep, holding_spawn, hnumber, hserial]
  | scenery scenery path => exact holding_changeScenery _ _ _
  | delay seconds => exact holding_sleep _ _ _
  | waitForAll | waitForTap => simp only [holding_suspend, holding_release]

theorem holding_begin {errand : Errand} (h : ∀ action scope step, errand ≠ .perform action scope step) :
    (p.begin errand).holding voices = (p.holding voices).begin errand := by
  cases errand with
  | perform action scope step => exact absurd rfl (h action scope step)
  | sleep d ending scopes => exact holding_sleep d ending scopes
  | animate shake stamp d => exact holding_suspend (p := p.arm) _ _ _
  | _ => exact holding_suspend _ _ _

/-! ## Turns -/

theorem holding_revisit (pause : Pause) :
    (p.revisit pause).holding voices = (p.holding voices).revisit pause := by
  have hturn : (p.holding voices).turn = p.turn := rfl
  simp only [revisit, hturn]
  split
  · rfl
  · exact holding_suspend _ _ _

theorem holding_wake (id : Nat) : (p.wake id).holding voices = (p.holding voices).wake id := by
  have hqueue : (p.holding voices).queue = p.queue := rfl
  simp only [wake, hqueue]
  split <;> rfl

theorem holding_abandonAll (pauses : List Pause) :
    (abandonAll pauses p).holding voices = abandonAll pauses (p.holding voices) := by
  unfold abandonAll
  induction pauses.filterMap Pause.park? generalizing p with
  | nil => rfl
  | cons park rest ih => exact ih

theorem holding_endTurn (task : Task) :
    (p.endTurn task).holding voices = (p.holding voices).endTurn task := by
  have hturn : (p.holding voices).turn = p.turn := rfl
  simp only [endTurn, hturn]
  split
  · exact holding_abandonAll _
  split
  · rfl
  split
  · exact holding_wake _
  · rfl

end Playback

namespace Machine

open Playback

/-- The machine with other voices in its cache. -/
def holding (voices : VoiceCache) (m : Machine) : Machine :=
  { m with playback := m.playback.holding voices }

variable {m n : Machine} {voices : VoiceCache}

/-- Both caches have the same voice for the line that is taken up next, if one is. -/
def Agrees (voices : VoiceCache) (m : Machine) : Prop :=
  ∀ cue scope scopes step jobs, m.jobs = .perform (.cue cue) scope scopes step :: jobs →
    m.playback.isOver = false → m.playback.SameVoice voices cue

theorem Beat.holding (hb : Beat m n) (h : m.Agrees voices) :
    Beat (m.holding voices) (n.holding voices) := by
  cases hb with
  | @take p id rest task hq htask hwhole =>
      exact .take (p := p.holding voices) hq htask hwhole
  | @drop p id rest hq hgone =>
      have hdropped : (runTask id { p with queue := rest }).holding voices =
          runTask id { p.holding voices with queue := rest } := by
        have htask : ({ p.holding voices with queue := rest } : Playback).task? id = p.task? id := rfl
        have htask' : ({ p with queue := rest } : Playback).task? id = p.task? id := rfl
        simp only [runTask, htask, htask']
        split
        · rfl
        next task hsome =>
          rw [if_pos (hgone task hsome), if_pos (hgone task hsome)]
          rfl
      have hbeat := Beat.drop (p := p.holding voices) hq hgone
      rwa [← hdropped] at hbeat
  | @look p task pause jobs =>
      have hbeat : Beat ⟨p.holding voices, some task, .look pause :: jobs⟩
          ⟨(p.holding voices).revisit pause, some task, jobs⟩ := .look
      rwa [← holding_revisit] at hbeat
  | @walk p task action scope step rest hfree hagenda =>
      exact .walk (p := p.holding voices) hfree hagenda
  | @begin p task errand rest hfree hagenda hother =>
      have hbeat : Beat ⟨p.holding voices, some task, []⟩
          ⟨((p.updateTurn fun t ↦ { t with agenda := rest }).holding voices).begin errand, some task, []⟩ :=
        .begin hfree hagenda hother
      rwa [← holding_begin hother] at hbeat
  | @skip p task action scope scopes step jobs hover => exact .skip (p := p.holding voices) hover
  | @cue p task cue scope scopes step jobs hover =>
      have hsame := h cue scope scopes step jobs rfl hover
      have hbeat : Beat ⟨p.holding voices, some task, .perform (.cue cue) scope scopes step :: jobs⟩
          ⟨((p.holding voices).note (.cue cue) scope step).performCue cue scope scopes step, some task, jobs⟩ :=
        .cue hover
      rwa [← holding_note, ← holding_performCue
        (hsame.of_settings (congrArg Session.settings (note_session _ _ _)))] at hbeat
  | @block p task parts scope scopes step jobs hover =>
      have hbeat : Beat ⟨p.holding voices, some task, .perform (.block parts) scope scopes step :: jobs⟩
          ⟨((p.holding voices).note (.block parts) scope step).openWithin scope step, some task,
            blockJobs parts p.session.serial (p.session.serial :: scopes) ++ jobs⟩ := .block hover
      rwa [← holding_note, ← holding_openWithin] at hbeat
  | @fork p task parts scope scopes step jobs hover =>
      have hbeat : Beat ⟨p.holding voices, some task, .perform (.fork parts) scope scopes step :: jobs⟩
          ⟨(((p.holding voices).note (.fork parts) scope step).openWithin scope step).spawn
            (some p.session.serial) (Playback.walk p.session.serial false parts), some task, jobs⟩ := .fork hover
      rwa [← holding_note, ← holding_openWithin, ← holding_spawn] at hbeat
  | @close p task scope scopes jobs =>
      have hbeat : Beat ⟨p.holding voices, some task, .close scope scopes :: jobs⟩
          ⟨(p.holding voices).performCue .waitForAll scope scopes none, some task, jobs⟩ := .close
      rwa [← holding_performCue (by simp [SameVoice, Cue.voicePath])] at hbeat
  | @finish p task hheld =>
      have hbeat : Beat ⟨p.holding voices, some task, []⟩ (resting ((p.holding voices).endTurn task)) :=
        .finish hheld
      rwa [← holding_endTurn] at hbeat

end Machine

end Storyline
