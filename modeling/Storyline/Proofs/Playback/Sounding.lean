import Storyline.Proofs.Playback.Serving
import Storyline.Proofs.Playback.Teardown
import Storyline.Proofs.Playback.Unfolding
import Storyline.Proofs.Playback.Voicing
import Storyline.Proofs.Player.Account

/-!
# What is played

The sound player is called when a cue is taken up, and when the session ends.  So its
calls are those of the dispatches in their order, each at its time, and the last ones.
-/

namespace Storyline

/-- The calls of the sound player for what has been taken up. -/
def Dispatch.calls (voices : VoiceCache) (d : Dispatch) : List (Nat × AudioCall) :=
  match d.action with
  | .cue cue => (cue.calls voices).map (fun call ↦ (d.time, call))
  | _ => []

namespace Session

variable {s : Session}

/-- Some calls made now, as far as calls are heard. -/
def making (calls : List AudioCall) (s : Session) : List (Nat × AudioCall) :=
  if s.host.audible then calls.map (fun call ↦ (s.now, call)) else []

theorem making_congr {u : Session} (h : u.moment = s.moment) (calls : List AudioCall) :
    u.making calls = s.making calls := by
  have hhost : u.host = s.host := congrArg Moment.host h
  have hnow : u.now = s.now := congrArg Moment.now h
  simp only [making, hhost, hnow]

theorem making_nil : s.making [] = [] := by
  unfold making
  split <;> rfl

theorem calls_stopSound (channel : Channel) :
    (s.stopSound channel).calls = s.calls ++ s.making [.stop channel] := by
  cases h : s.host.audible <;> cases channel <;> simp [stopSound, call, making, h]

theorem calls_playSound (channel : Channel) (sound : Sound) (looping : Bool) :
    (s.playSound channel sound looping).calls = s.calls ++ s.making [.play channel sound looping] := by
  cases h : s.host.audible <;> cases channel <;> cases sound <;> simp [playSound, call, making, h]

end Session

namespace Playback

variable {p q : Playback}

theorem calls_of_heard (h : q.session.heard = p.session.heard) : q.session.calls = p.session.calls :=
  congrArg Prod.fst h

theorem calls_speak (line : Line) :
    (p.speak line).session.calls =
      p.session.calls ++ p.session.making ((Cue.talk line).calls p.session.voices) := by
  cases hvoice : p.session.voiceOf line with
  | none =>
      have hcalls : (Cue.talk line).calls p.session.voices = [] := by
        rw [Session.voiceOf] at hvoice
        simp only [Cue.calls, hvoice]
      rw [speak_of_none hvoice, hcalls, Session.making_nil, List.append_nil]
  | some blob =>
      have hcalls : (Cue.talk line).calls p.session.voices =
          [.stop .voice, .play .voice (.blob blob) false] := by
        rw [Session.voiceOf] at hvoice
        simp only [Cue.calls, hvoice]
      have hheard : (p.speak line).session.calls = (p.session.sounding blob).1 :=
        congrArg Prod.fst (speak_of_voice hvoice)
      rw [hheard, hcalls]
      cases h : p.session.host.audible <;> simp [Session.sounding, Session.making, h]

theorem calls_changeScenery (scenery : Scenery) (path : String) (ticket : Ticket) :
    (p.changeScenery scenery path ticket).session.calls =
      p.session.calls ++ p.session.making ((Cue.scenery scenery path).calls p.session.voices) := by
  have hrest : ∀ q : Playback,
      ((q.update (.present (Stage.setScenery path scenery))).release ticket).session.calls =
        q.session.calls := fun q ↦
    calls_of_heard ((heard_release ticket).trans (Session.heard_present _ _))
  refine (hrest _).trans ?_
  cases scenery with
  | background => simp [Cue.calls, Session.making_nil]
  | bgm =>
      have hstopped : (p.session.stopSound .bgm).moment = p.session.moment :=
        (Session.carries_stopSound .bgm).moment
      change ((p.session.stopSound .bgm).playSound .bgm (.path path) true).calls = _
      rw [Session.calls_playSound, Session.calls_stopSound, Session.making_congr hstopped,
        List.append_assoc]
      cases h : p.session.host.audible <;> simp [Cue.calls, Session.making, h]
  | se => exact p.session.calls_playSound _ _ _

/-- A cue that is taken up makes its calls at once. -/
theorem calls_performCue (cue : Cue) (scope : Nat) (scopes : List Nat) (step : Option Nat)
    (hover : p.isOver = false) :
    (p.performCue cue scope scopes step).session.calls =
      p.session.calls ++ p.session.making (cue.calls p.session.voices) := by
  by_cases htalk : ∃ line, cue = .talk line
  · obtain ⟨line, rfl⟩ := htalk
    obtain ⟨u, ticket, hu, hperform⟩ := p.performCue_talk line scope scopes step hover
    rw [hperform, calls_of_heard ((heard_suspend _ _ _).trans hu.heard), calls_speak]
  · have hquiet : p.Hushed ((p.announce step).enter scope cue.isTapBlocking) :=
      (hushed_announce step).trans (hushed_enter scope _)
    have hvoices : ((p.announce step).enter scope cue.isTapBlocking).session.voices =
        p.session.voices := congrArg Settings.voices hquiet.settings
    unfold performCue
    rw [if_neg (by simp [hover])]
    dsimp only
    rw [← calls_of_heard hquiet.heard, ← Session.making_congr hquiet.stirs.moment, ← hvoices]
    generalize (p.announce step).enter scope cue.isTapBlocking = q
    have hsilent : ∀ r : Playback, r.session.heard = q.session.heard →
        r.session.calls = q.session.calls ++ q.session.making [] := fun r hr ↦ by
      rw [Session.making_nil, List.append_nil, calls_of_heard hr]
    cases cue with
    | talk line => exact absurd ⟨line, rfl⟩ htalk
    | telop text => exact hsilent _ ((heard_suspend _ _ _).trans (Session.heard_present _ _))
    | model change =>
        exact hsilent _ ((congrArg _ (spawn_session _ _)).trans (Session.heard_presentIf _ _))
    | tremble axis character => exact hsilent _ (heard_release _)
    | cover cover visible seconds =>
        exact hsilent _ ((heard_suspend _ _ _).trans (Session.heard_present _ _))
    | shake shake seconds =>
        exact hsilent _ ((heard_suspend _ _ _).trans
          ((congrArg Session.heard (spawn_session _ _)).trans (Session.heard_present _ _)))
    | scenery scenery path => exact calls_changeScenery scenery path _
    | delay seconds => exact hsilent _ (heard_suspend _ _ _)
    | waitForAll | waitForTap => exact hsilent _ ((heard_suspend _ _ _).trans (heard_release _))

theorem heard_openWithin (scope : Nat) (step : Option Nat) :
    (p.openWithin scope step).session.heard = p.session.heard :=
  (heard_release _).trans ((heard_enter _ _).trans (heard_announce step))

theorem heard_begin {errand : Errand} (h : ∀ action scope step, errand ≠ .perform action scope step) :
    (p.begin errand).session.heard = p.session.heard := by
  cases errand with
  | perform action scope step => exact absurd rfl (h action scope step)
  | _ => exact heard_suspend _ _ _

theorem spawn_dispatches (scope : Option Nat) (agenda : List Errand) :
    (p.spawn scope agenda).dispatches = p.dispatches := by
  unfold spawn
  split <;> rfl

theorem heard_revisit (pause : Pause) : (p.revisit pause).session.heard = p.session.heard := by
  unfold revisit
  split
  · rfl
  · exact heard_suspend _ _ _

/-- The calls of the sound player are those of what has been taken up.  After the end of
the session they are followed by the last ones, which were made at its end. -/
def Sounds (voices : VoiceCache) (p : Playback) : Prop :=
  ∃ ended : Option Nat, ended.isSome = p.session.cancelled ∧
    p.session.calls = if p.session.host.audible then
      p.dispatches.flatMap (Dispatch.calls voices) ++
        ended.toList.flatMap (fun time ↦ Channel.all.map (fun c ↦ (time, .stop c)))
      else []

variable {voices : VoiceCache}

theorem Sounds.carry (h : p.Sounds voices) (hhost : q.session.host = p.session.host)
    (hended : q.session.cancelled = p.session.cancelled) (hcalls : q.session.calls = p.session.calls)
    (hdispatches : q.dispatches = p.dispatches) : q.Sounds voices := by
  unfold Sounds
  rw [hhost, hended, hcalls, hdispatches]
  exact h

/-- Something is taken up while the session goes on. -/
theorem Sounds.tell (h : p.Sounds voices) (hgoes : p.session.cancelled = false) {d : Dispatch}
    (hhost : q.session.host = p.session.host) (hended : q.session.cancelled = p.session.cancelled)
    (hcalls : q.session.calls =
      p.session.calls ++ if p.session.host.audible then d.calls voices else [])
    (hdispatches : q.dispatches = p.dispatches ++ [d]) : q.Sounds voices := by
  obtain ⟨ended, hnone, hlog⟩ := h
  obtain rfl : ended = none := by simpa [hgoes] using hnone
  refine ⟨none, by simp [hended, hgoes], ?_⟩
  rw [hcalls, hlog, hhost, hdispatches]
  split <;> simp

/-- The session ends. -/
theorem Sounds.ended (h : p.Sounds voices) (hgoes : p.session.cancelled = false)
    (hsession : q.session = p.session.cancel) (hdispatches : q.dispatches = p.dispatches) :
    q.Sounds voices := by
  obtain ⟨ended, hnone, hlog⟩ := h
  obtain rfl : ended = none := by simpa [hgoes] using hnone
  refine ⟨some p.session.now, by simp [hsession, Session.cancel_eq_farewell], ?_⟩
  have hcalls : q.session.calls = p.session.calls ++ p.session.farewell := by
    rw [hsession, Session.cancel_eq_farewell]
  have hhost : q.session.host = p.session.host := by
    rw [hsession, Session.cancel_eq_farewell]
    rfl
  rw [hcalls, hlog, hhost, hdispatches, Session.farewell]
  split <;> simp

end Playback

namespace Machine

open Playback

variable {m n : Machine} {voices : VoiceCache}

/-- A beat takes nothing up and makes no call, or it takes up an action and makes the
calls of this action. -/
theorem Beat.takesUp (hb : Beat m n) :
    (n.playback.dispatches = m.playback.dispatches ∧
      n.playback.session.calls = m.playback.session.calls) ∨
    ∃ (d : Dispatch) (scopes : List Nat) (jobs : List Job),
      m.jobs = .perform d.action d.scope scopes d.step :: jobs ∧ m.playback.isOver = false ∧
      d.time = m.playback.session.now ∧ n.playback.dispatches = m.playback.dispatches ++ [d] ∧
      n.playback.session.calls = m.playback.session.calls ++
        if m.playback.session.host.audible then d.calls m.playback.session.voices else [] := by
  cases hb with
  | take | walk | skip => exact .inl ⟨rfl, rfl⟩
  | @drop p id rest hq hgone =>
      refine .inl ⟨?_, congrArg Session.calls (session_drop hgone)⟩
      change (runTask id { p with queue := rest }).dispatches = p.dispatches
      unfold runTask
      split
      · rfl
      next task hsome => rw [if_pos (hgone task hsome)]; rfl
  | @look p task pause jobs =>
      have hserves : Serves true p (p.revisit pause) := serves_revisit (.inl rfl)
      exact .inl ⟨hserves.dispatches, calls_of_heard (heard_revisit pause)⟩
  | @begin p task errand rest hfree hagenda hother =>
      obtain ⟨q, hq⟩ : ∃ q, q = p.updateTurn (fun t ↦ { t with agenda := rest }) := ⟨_, rfl⟩
      have hserves : Serves true q (q.begin errand) := serves_begin hother (.inl rfl)
      rw [← hq]
      exact .inl ⟨hserves.dispatches.trans (hq ▸ rfl), (calls_of_heard (heard_begin hother)).trans (hq ▸ rfl)⟩
  | @cue p task cue scope scopes step jobs hover =>
      obtain ⟨q, hq⟩ : ∃ q, q = p.note (.cue cue) scope step := ⟨_, rfl⟩
      have hserves : Serves true q (q.performCue cue scope scopes step) := serves_performCue _ _ _ _
      have hnoted : q.session = p.session := hq ▸ note_session _ _ _
      have hcalls := q.calls_performCue cue scope scopes step (hq ▸ (note_isOver _ _ _).trans hover)
      rw [hnoted] at hcalls
      refine .inr ⟨⟨p.session.now, scope, step, .cue cue⟩, scopes, jobs, rfl, hover, rfl, ?_, ?_⟩
      · rw [← hq]
        exact hserves.dispatches.trans (hq ▸ (Effect.note _ scope step hover).dispatches)
      · rw [← hq]
        exact hcalls
  | @block p task parts scope scopes step jobs hover =>
      have hserves : Serves true (p.note (.block parts) scope step)
          ((p.note (.block parts) scope step).openWithin scope step) := serves_openWithin _ _
      refine .inr ⟨⟨p.session.now, scope, step, .block parts⟩, scopes, jobs, rfl, hover, rfl,
        hserves.dispatches.trans (Effect.note _ scope step hover).dispatches, ?_⟩
      have hheard := heard_openWithin (p := p.note (.block parts) scope step) scope step
      rw [note_session] at hheard
      refine (calls_of_heard hheard).trans ?_
      simp [Dispatch.calls]
  | @fork p task parts scope scopes step jobs hover =>
      have hserves : Serves true (p.note (.fork parts) scope step)
          ((p.note (.fork parts) scope step).openWithin scope step) := serves_openWithin _ _
      refine .inr ⟨⟨p.session.now, scope, step, .fork parts⟩, scopes, jobs, rfl, hover, rfl,
        (spawn_dispatches _ _).trans (hserves.dispatches.trans (Effect.note _ scope step hover).dispatches), ?_⟩
      have hheard := heard_openWithin (p := p.note (.fork parts) scope step) scope step
      rw [note_session] at hheard
      refine (congrArg Session.calls (spawn_session _ _)).trans ((calls_of_heard hheard).trans ?_)
      simp [Dispatch.calls]
  | @close p task scope scopes jobs =>
      have hserves : Serves true p (p.performCue .waitForAll scope scopes none) := serves_performCue _ _ _ _
      refine .inl ⟨hserves.dispatches, ?_⟩
      by_cases hover : p.isOver = true
      · change (p.performCue .waitForAll scope scopes none).session.calls = p.session.calls
        rw [performCue_over hover]
      · have hcalls := p.calls_performCue .waitForAll scope scopes none (isOver_eq_false hover)
        have hnone : Cue.waitForAll.calls p.session.voices = [] := rfl
        rwa [hnone, Session.making_nil, List.append_nil] at hcalls
  | @finish p task =>
      obtain ⟨taps, hend⟩ := (endTurn_session (p := p) task).1
      refine .inl ⟨(endTurn_dispatches task).1, ?_⟩
      change (p.endTurn task).session.calls = p.session.calls
      rw [hend]

theorem Beat.sounds (hb : Beat m n) (hvoices : m.playback.session.voices = voices)
    (h : m.playback.Sounds voices) : n.playback.Sounds voices := by
  have hhost : n.playback.session.host = m.playback.session.host := congrArg Moment.host hb.moment
  have hended := Session.cancelled_eq hb.settings
  rcases hb.takesUp with ⟨hdispatches, hcalls⟩ | ⟨d, scopes, jobs, -, hover, -, hdispatches, hcalls⟩
  · exact h.carry hhost hended hcalls hdispatches
  · have hgoes : m.playback.session.cancelled = false := by
      simp only [isOver, Bool.or_eq_false_iff] at hover
      exact hover.1
    exact h.tell hgoes hhost hended (hvoices ▸ hcalls) hdispatches

end Machine

end Storyline
