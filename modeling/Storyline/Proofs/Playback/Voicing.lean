import Storyline.Proofs.Playback.Listening
import Storyline.Proofs.Playback.Parks
import Storyline.Proofs.Playback.Stack

/-!
# Taking up a line

A line that is taken up plays its voice, if this is in the cache, and is parked under
the next number.  Without a voice the voice channel is left alone and the line stays for
the fixed time of lines.
-/

namespace Storyline

namespace Session

/-- The voice of a line, if it is in the cache. -/
def voiceOf (line : Line) (s : Session) : Option Bytes := line.voicePath.bind s.voices.get?

/-- The calls of the sound player, and the end of the voice on the voice channel. -/
def heard (s : Session) : List (Nat × AudioCall) × Option Nat := (s.calls, s.voiceEnd)

/-- What is heard after a voice has been played. -/
def sounding (blob : Bytes) (s : Session) : List (Nat × AudioCall) × Option Nat :=
  if s.host.audible then
    (s.calls ++ [(s.now, .stop .voice), (s.now, .play .voice (.blob blob) false)],
      s.voiceEndOf blob.length)
  else (s.calls, some 0)

section

variable (s : Session)

@[simp] theorem heard_present (f : Stage → Stage) : (s.present f).heard = s.heard := by
  unfold present
  split <;> rfl

@[simp] theorem heard_presentIf (f : Stage → Option Stage) : (s.presentIf f).heard = s.heard := by
  unfold presentIf
  split
  · rfl
  · split <;> rfl

theorem serial_playVoice (path : String) : (s.playVoice path).2.serial = s.serial := by
  unfold playVoice
  split
  next blob _ =>
    obtain ⟨calls, voiceEnd, h⟩ := Playback.Ledger.stopAndPlay .voice (.blob blob) false s
    rw [h]
  next => rfl

theorem heard_playVoice {path : String} {blob : Bytes} (h : s.voices.get? path = some blob) :
    (s.playVoice path).2.heard = s.sounding blob := by
  unfold playVoice
  rw [h]
  cases haudible : s.host.audible <;>
    simp [stopSound, playSound, call, heard, sounding, voiceEndOf, haudible]

theorem playVoice_none {path : String} (h : s.voices.get? path = none) :
    (s.playVoice path).2 = s := by
  unfold playVoice
  rw [h]

end

theorem sounding_congr {s u : Session} (hmoment : u.moment = s.moment) (hheard : u.heard = s.heard)
    (blob : Bytes) : u.sounding blob = s.sounding blob := by
  have hhost : u.host = s.host := congrArg Moment.host hmoment
  have hnow : u.now = s.now := congrArg Moment.now hmoment
  have hcalls : u.calls = s.calls := congrArg Prod.fst hheard
  simp only [sounding, voiceEndOf, hhost, hnow, hcalls]

end Session

/-- What a look leaves that has just found playing by itself on. -/
def Lingering.IsNew (mo : Moment) : Dwell → Lingering → Prop
  | _, .off => True
  | .fixed d, .dwelling timer => timer.due = d.endFrom mo.now
  | .voice, .listening start ticks timer =>
    start = mo.now ∧ ticks = 1 ∧ timer.due = mo.config.voicePoll.period.tickFrom mo.now 1
  | _, _ => False

/-- A wait for the tap of a parked action has just begun to count, if it does so. -/
def Wait.BeginsAs (mo : Moment) (park : Nat) (kind : Dwell) (w : Wait) : Prop :=
  ∀ kind' auto, w = .tap park kind' auto → kind' = kind ∧ auto.IsNew mo kind

/-- How far playing by itself can have got with what stays in a given way. -/
def Lingering.Suits : Dwell → Lingering → Prop
  | .fixed _, .listening .. => False
  | _, _ => True

/-- A wait for the tap of a parked action stays as the action does. -/
def Wait.DwellsAs (park : Nat) (kind : Dwell) (w : Wait) : Prop :=
  ∀ kind' auto, w = .tap park kind' auto → kind' = kind ∧ auto.Suits kind

section

variable {mo : Moment} {park : Nat} {kind : Dwell} {w : Wait} {s : Session}

theorem Lingering.IsNew.suits {auto : Lingering} (h : auto.IsNew mo kind) : auto.Suits kind := by
  cases kind <;> cases auto <;> first | exact h | trivial

theorem Wait.BeginsAs.dwellsAs (h : w.BeginsAs mo park kind) : w.DwellsAs park kind :=
  fun kind' auto hw ↦ (h kind' auto hw).imp_right Lingering.IsNew.suits

/-- What has just begun to count counts since now. -/
theorem Wait.BeginsAs.countsSince (h : w.BeginsAs s.moment park kind) :
    w.CountsSince s s.now park kind s.now := by
  intro kind' auto hw
  obtain ⟨rfl, hnew⟩ := h kind' auto hw
  refine ⟨rfl, ?_⟩
  cases auto with
  | off => exact .inr ⟨rfl, rfl⟩
  | listening start ticks timer =>
      cases kind' with
      | fixed d => exact hnew.elim
      | voice =>
          obtain ⟨rfl, rfl, hdue⟩ := hnew
          exact .inl ⟨rfl, Nat.le_refl 1, hdue, fun j tick hj hlt ↦ by omega⟩
  | dwelling timer =>
      cases kind' with
      | fixed d => exact .inl hnew
      | voice => exact hnew.elim

end

theorem lasting_park (park : Nat) : Lasting fun x ↦ x.park? = some park :=
  fun _ _ hx h ↦ hx.park.trans h

namespace Playback

variable {p q u : Playback}

/-! ## What leaves the sound alone -/

theorem heard_release (t : Ticket) : (p.release t).session.heard = p.session.heard := by
  have hcount : ∀ (p : Playback) (tally : Tally) (epoch : Nat),
      (p.releaseCount t.scope tally epoch).session.heard = p.session.heard := by
    intro p tally epoch
    unfold releaseCount
    split
    · rfl
    · split
      · rw [update_raise_eq_touch, touch_session]
        rfl
      · rfl
  unfold release
  cases t.tapEpoch with
  | none => exact hcount p _ _
  | some epoch => exact (hcount _ _ _).trans (hcount p _ _)

theorem heard_enter (scope : Nat) (tapBlocking : Bool) :
    (p.enter scope tapBlocking).session.heard = p.session.heard := by
  rw [enter_eq_touch, touch_session]
  rfl

theorem heard_announce (step : Option Nat) : (p.announce step).session.heard = p.session.heard := by
  cases step with
  | none => rfl
  | some n => exact Session.heard_present _ _

theorem heard_arm : p.arm.session.heard = p.session.heard := rfl

theorem Looked.heard (h : p.Looked q) : q.session.heard = p.session.heard := by
  have hunpark : ∀ (p : Playback) (park : Nat), (p.unpark park).session.heard = p.session.heard := by
    intro p park
    rw [unpark_eq_touch, touch_session]
    rfl
  have hsway : ∀ (s : Session) (n : Nat) (f : Stage → Option Stage),
      (Session.presentIf f { s with draws := n }).heard = s.heard :=
    fun s n f ↦ Session.heard_presentIf _ f
  cases h with
  | still | arms => rfl
  | movesOn park => exact hunpark p park
  | dwells park => exact hunpark _ park
  | sways n => exact hsway _ n _
  | swaysOn n => exact heard_arm.trans (hsway _ n _)
  | ticks =>
      have htick : p.fastForwardTick.session.heard = p.session.heard := by
        rw [fastForwardTick_session]
        rfl
      exact heard_arm.trans htick

theorem heard_finish (ending : Ending) : (p.finish ending).session.heard = p.session.heard := by
  cases ending with
  | nothing => rfl
  | release ticket => exact heard_release ticket
  | clearTelop text ticket | coverShown cover stamp ticket =>
      exact (heard_release ticket).trans (Session.heard_presentIf _ _)
  | background path => exact Session.heard_present _ _
  | completed =>
      unfold finish
      dsimp only
      split <;> rfl

/-- A wait plays and stops nothing, and neither does what follows it. -/
theorem heard_suspend (wait : Wait) (ending : Ending) (scopes : List Nat) :
    (p.suspend wait ending scopes).session.heard = p.session.heard := by
  have hlook := (p.looked_look wait).heard
  unfold suspend
  split
  next q w h => rwa [h] at hlook
  next q ran h =>
    rw [h] at hlook
    split
    · exact (heard_finish ending).trans hlook
    · exact hlook
  next q h => rwa [h] at hlook

/-! ## Parked lines -/

/-- How a line that is taken up stays. -/
def dwellOf (line : Line) (p : Playback) : Dwell :=
  match p.session.voiceOf line with
  | some _ => .voice
  | none => .fixed p.session.config.talkDwell

theorem isVoiced_eq (line : Line) : p.isVoiced line = (p.session.voiceOf line).isSome := by
  unfold isVoiced Session.voiceOf
  cases line.voicePath <;> rfl

theorem speak_of_voice {line : Line} {blob : Bytes} (h : p.session.voiceOf line = some blob) :
    (p.speak line).session.heard = p.session.sounding blob := by
  obtain ⟨path, hpath, hblob⟩ := Option.bind_eq_some_iff.mp h
  unfold speak
  rw [hpath]
  exact p.session.heard_playVoice hblob

theorem serial_speak (line : Line) : (p.speak line).session.serial = p.session.serial := by
  unfold speak
  split
  · exact p.session.serial_playVoice _
  · rfl

theorem speak_of_none {line : Line} (h : p.session.voiceOf line = none) : p.speak line = p := by
  unfold speak
  cases hpath : line.voicePath with
  | none => rfl
  | some path =>
      rw [Session.voiceOf, hpath] at h
      dsimp only [update]
      rw [p.session.playVoice_none h]

theorem speak_session (line : Line) (h : q.session = p.session) :
    (q.speak line).session = (p.speak line).session := by
  unfold speak
  cases line.voicePath with
  | none => exact h
  | some path => exact congrArg (fun s : Session ↦ (s.playVoice path).2) h

/-- Once a wait for a parked action has come to its end, the action is not parked any
more. -/
theorem unparked_of_ends {x : Pause} {park : Nat} {ran : Bool} (hc : p.session.cancelled = false)
    (hpark : x.park? = some park) (hlook : p.look x.wait = (q, .ends ran)) :
    (if ran then q.finish x.ending else q).session.isParked park = false := by
  have hall : ∀ id ∈ x.parks, q.session.isParked id = false := look_ends_park hc hlook
  have hgone : q.session.isParked park = false := hall park (by simp [Pause.parks, hpark])
  split
  · refine Session.isParked_eq_false.mpr fun hin ↦ Session.isParked_eq_false.mp hgone ?_
    exact ((sinks_finish x.ending).taps.map Parked.id).subset hin
  · exact hgone

/-- So a parked action that has begun to wait is waited for, or not parked any more. -/
theorem suspend_parks (x : Pause) {park : Nat} (hc : p.session.cancelled = false)
    (hpark : x.park? = some park) :
    (∃ y ∈ (p.suspend x.wait x.ending x.scopes).turn.pauses, y.park? = some park) ∨
      (p.suspend x.wait x.ending x.scopes).session.isParked park = false := by
  refine (suspend_keeps (lasting_park park) hpark).imp_right fun ⟨q, ran, hlook, hended⟩ ↦ ?_
  rw [hended]
  exact unparked_of_ends hc hpark hlook

/-- The first look at a wait for a tap. -/
theorem lookAtTap_first {park : Nat} {kind : Dwell} {w : Wait}
    (h : p.lookAtTap park kind .off = (q, .waits w)) :
    ∃ auto, w = .tap park kind auto ∧ auto.IsNew p.session.moment kind := by
  unfold lookAtTap at h
  split at h
  · cases (Prod.mk.inj h).2
  split at h
  · cases (Prod.mk.inj h).2
  split at h
  · exact ⟨.off, (Verdict.waits.inj (Prod.mk.inj h).2).symm, by cases kind <;> trivial⟩
  cases kind with
  | fixed d =>
      simp only [beginLingering, dwell] at h
      split at h
      · cases (Prod.mk.inj h).2
      · exact ⟨_, (Verdict.waits.inj (Prod.mk.inj h).2).symm, rfl⟩
  | voice =>
      simp only [beginLingering] at h
      split at h
      · exact ⟨_, (Verdict.waits.inj (Prod.mk.inj h).2).symm, rfl, rfl, rfl⟩
      · cases (Prod.mk.inj h).2

/-- What stays in a given way goes on to do so. -/
theorem lookAtTap_suits {park : Nat} {kind : Dwell} {auto : Lingering} {w : Wait} (hsuits : auto.Suits kind)
    (h : p.lookAtTap park kind auto = (q, .waits w)) :
    ∃ auto', w = .tap park kind auto' ∧ auto'.Suits kind := by
  have hsame : (p, Verdict.waits (.tap park kind auto)) = (q, .waits w) →
      ∃ auto', w = .tap park kind auto' ∧ auto'.Suits kind :=
    fun h ↦ ⟨auto, (Verdict.waits.inj (Prod.mk.inj h).2).symm, hsuits⟩
  have hoff : (p, Verdict.waits (.tap park kind .off)) = (q, .waits w) →
      ∃ auto', w = .tap park kind auto' ∧ auto'.Suits kind :=
    fun h ↦ ⟨.off, (Verdict.waits.inj (Prod.mk.inj h).2).symm, by cases kind <;> trivial⟩
  have hdwells : ∀ d, p.dwell park kind d = (q, .waits w) →
      ∃ auto', w = .tap park kind auto' ∧ auto'.Suits kind := by
    intro d h
    rcases p.dwell_cases park kind d with ⟨r, hends, -⟩ | ⟨r, timer, hwaits, -⟩
    · cases (Prod.mk.inj (h.symm.trans hends)).2
    · exact ⟨_, Verdict.waits.inj (Prod.mk.inj (h.symm.trans hwaits)).2, by cases kind <;> trivial⟩
  cases auto with
  | off =>
      obtain ⟨auto, rfl, hnew⟩ := lookAtTap_first h
      exact ⟨auto, rfl, hnew.suits⟩
  | listening start ticks timer =>
      unfold lookAtTap at h
      split at h
      · cases (Prod.mk.inj h).2
      split at h
      · cases (Prod.mk.inj h).2
      split at h
      · exact hoff h
      cases kind with
      | fixed d => exact hsuits.elim
      | voice =>
          dsimp only at h
          split at h
          · exact hsame h
          split at h
          · exact ⟨_, (Verdict.waits.inj (Prod.mk.inj h).2).symm, trivial⟩
          · exact hdwells _ h
  | dwelling timer =>
      unfold lookAtTap at h
      split at h
      · cases (Prod.mk.inj h).2
      split at h
      · cases (Prod.mk.inj h).2
      split at h
      · exact hoff h
      dsimp only at h
      split at h
      · cases (Prod.mk.inj h).2
      · exact hsame h

theorem abides_dwellsAs {s : Session} {park : Nat} {kind : Dwell} (hpast : park < s.serial) :
    Abides (Wait.DwellsAs park kind) s := by
  refine abides_of_park hpast (fun w hw kind' auto he ↦ absurd he (hw kind' auto)) ?_
  rintro p q kind₀ kind' auto₀ auto - - hlook hw _ _ ⟨⟩
  obtain ⟨rfl, hsuits⟩ := hw kind₀ auto₀ rfl
  obtain ⟨auto', he, hsuits⟩ := lookAtTap_suits hsuits hlook
  obtain ⟨-, rfl, rfl⟩ := Wait.tap.inj he
  exact ⟨rfl, hsuits⟩

/-- Part of a turn that plays nothing and numbers nothing. -/
structure Hushed (p q : Playback) : Prop where
  stirs : p.Stirs q
  settings : q.session.settings = p.session.settings
  serial : q.session.serial = p.session.serial
  heard : q.session.heard = p.session.heard

theorem Hushed.trans {r : Playback} (h : p.Hushed q) (h' : q.Hushed r) : p.Hushed r :=
  ⟨h.stirs.trans h'.stirs, h'.settings.trans h.settings, h'.serial.trans h.serial,
    h'.heard.trans h.heard⟩

theorem Hushed.voiceOf (h : p.Hushed q) (line : Line) :
    q.session.voiceOf line = p.session.voiceOf line := by
  have hvoices : q.session.voices = p.session.voices := congrArg Settings.voices h.settings
  simp only [Session.voiceOf, hvoices]

theorem Hushed.speak (h : p.Hushed q) (line : Line) :
    (q.speak line).session.heard = (p.speak line).session.heard := by
  cases hvoice : p.session.voiceOf line with
  | some blob =>
      rw [speak_of_voice hvoice, speak_of_voice ((h.voiceOf line).trans hvoice)]
      exact Session.sounding_congr h.stirs.moment h.heard blob
  | none => rw [speak_of_none hvoice, speak_of_none ((h.voiceOf line).trans hvoice), h.heard]

theorem Hushed.dwellOf (h : p.Hushed q) (line : Line) :
    (if q.isVoiced line then Dwell.voice else .fixed q.session.config.talkDwell) = p.dwellOf line := by
  rw [isVoiced_eq, h.voiceOf line, h.stirs.config]
  unfold Playback.dwellOf
  cases p.session.voiceOf line <;> rfl

theorem hushed_announce (step : Option Nat) : p.Hushed (p.announce step) :=
  ⟨p.stirs_announce step, settings_announce step, serial_announce step, heard_announce step⟩

theorem hushed_enter (scope : Nat) (tapBlocking : Bool) : p.Hushed (p.enter scope tapBlocking) :=
  ⟨p.stirs_enter scope tapBlocking, settings_enter _ _, serial_enter _ _, heard_enter _ _⟩

theorem hushed_tell (line : Line) :
    p.Hushed (p.update fun s ↦ (s.present (Stage.setTalk line)).pushBacklog line) :=
  ⟨p.stirs_tell line, Session.settings_present _ _, Session.serial_present _ _,
    Session.heard_present _ _⟩

theorem note_tasks (action : Action) (scope : Nat) (step : Option Nat) :
    (p.note action scope step).tasks = p.tasks := by
  unfold note
  split <;> rfl

/-- What is left of a new wait for a tap. -/
theorem suspend_first {park : Nat} {kind : Dwell} {ending : Ending} {scopes : List Nat} {x : Pause}
    (hx : x ∈ (p.suspend (.tap park kind .off) ending scopes).turn.pauses) :
    x ∈ p.turn.pauses ∨ ∃ auto, x.wait = .tap park kind auto ∧ auto.IsNew p.session.moment kind := by
  have hst := p.stirs_look (.tap park kind .off)
  unfold suspend at hx
  split at hx
  next q w hlook =>
    rw [hlook] at hst
    rcases List.mem_append.mp hx with hx | hx
    · exact .inl (hst.pauses ▸ hx)
    · rw [List.mem_singleton.mp hx]
      exact .inr (lookAtTap_first hlook)
  next q ran hlook =>
    rw [hlook] at hst
    split at hx
    · exact .inl (by rwa [(q.stirs_finish ending).pauses, hst.pauses] at hx)
    · exact .inl (hst.pauses ▸ hx)
  next q hlook =>
    rw [hlook] at hst
    rcases List.mem_append.mp hx with hx | hx
    · exact .inl (hst.pauses ▸ hx)
    · rw [List.mem_singleton.mp hx]
      exact .inr ⟨.off, rfl, by cases kind <;> trivial⟩

/-- What a line has done once it has been taken up, before the first look at its wait. -/
structure Uttered (line : Line) (p u : Playback) : Prop where
  stirs : p.Stirs u
  settings : u.session.settings = p.session.settings
  serial : u.session.serial = p.session.serial + 1
  heard : u.session.heard = (p.speak line).session.heard

theorem performCue_talk (line : Line) (scope : Nat) (scopes : List Nat) (step : Option Nat)
    (hover : p.isOver = false) :
    ∃ u ticket, Uttered line p u ∧ p.performCue (.talk line) scope scopes step =
      u.suspend (.tap p.session.serial (p.dwellOf line) .off) (.release ticket) scopes := by
  obtain ⟨r, hr⟩ : ∃ r, r = (p.announce step).enter scope true := ⟨_, rfl⟩
  have hentered : p.Hushed r := hr ▸ (hushed_announce step).trans (hushed_enter scope true)
  obtain ⟨t, ht⟩ : ∃ t, t = r.update fun s ↦ (s.present (Stage.setTalk line)).pushBacklog line :=
    ⟨_, rfl⟩
  have htold : p.Hushed t := ht ▸ hentered.trans (hushed_tell line)
  have hserial : (t.speak line).session.serial = p.session.serial := (serial_speak line).trans htold.serial
  refine ⟨(t.speak line).update fun s ↦ s.park.2, (p.announce step).session.ticket scope true, ?_, ?_⟩
  · exact
      { stirs := htold.stirs.trans ((t.stirs_speak line).trans (stirs_park _))
        settings := (settings_speak line).trans htold.settings
        serial := congrArg (· + 1) hserial
        heard := htold.speak line }
  · unfold performCue
    rw [if_neg (by simp [hover])]
    dsimp only [Cue.isTapBlocking]
    rw [← hr, talk, hentered.dwellOf line, ← ht, ← hserial]
    rfl

end Playback

namespace Machine

open Playback

/-- A line has been taken up.  It waits under the next number, unless playing by itself
has moved it on at once. -/
structure Takes (line : Line) (p : Playback) (n : Machine) : Prop where
  moment : n.playback.session.moment = p.session.moment
  serial : p.session.serial < n.playback.session.serial
  heard : n.playback.session.heard = (p.speak line).session.heard
  waits : n.Awaits (Wait.BeginsAs p.session.moment p.session.serial (p.dwellOf line))
  stands : n.playback.session.isParked p.session.serial = false ∨
    ∃ id, Keeps id (fun x ↦ x.park? = some p.session.serial) n

variable {p : Playback} {m n : Machine}

/-- Nobody waits yet for the action that is parked next. -/
theorem Distinct.beginsAs (h : Distinct m) {x : Pause} (kind : Dwell)
    (hx : ∀ id ∈ x.parks, id ∈ m.playback.parks) :
    x.wait.BeginsAs m.playback.session.moment m.playback.session.serial kind := by
  intro kind' auto hwait
  have hin : m.playback.session.serial ∈ m.playback.parks := hx _ (by simp [Pause.parks, Pause.park?, hwait])
  have hcount := h m.playback.session.serial
  rw [if_neg (Nat.lt_irrefl _)] at hcount
  exact absurd hin (List.count_eq_zero.mp (Nat.le_zero.mp hcount))

theorem Beat.takes {task : Task} {line : Line} {scope : Nat} {scopes : List Nat} {step : Option Nat}
    {jobs : List Job} (hc : Cast ⟨p, some task, .perform (.cue (.talk line)) scope scopes step :: jobs⟩)
    (hd : Distinct ⟨p, some task, .perform (.cue (.talk line)) scope scopes step :: jobs⟩)
    (hgoes : p.isOver = false)
    (hb : Beat ⟨p, some task, .perform (.cue (.talk line)) scope scopes step :: jobs⟩ n) :
    Takes line p n := by
  have hcasting : Casting p (.perform (.cue (.talk line)) scope scopes step :: jobs) := hc.running (by simp)
  obtain ⟨hplays, hjobs⟩ := hcasting.plays rfl
  have hb' := hb
  cases hb with
  | skip hover => cases hgoes.symm.trans hover
  | cue =>
      have hrunning : p.session.cancelled = false := by
        simp only [isOver, Bool.or_eq_false_iff] at hgoes
        exact hgoes.1
      obtain ⟨r, hr⟩ : ∃ r, r = p.note (.cue (.talk line)) scope step := ⟨_, rfl⟩
      have hnoted : r.session = p.session := hr ▸ note_session _ _ _
      have hturn : r.turn = p.turn := hr ▸ note_turn _ _ _
      have htasks : r.tasks = p.tasks := hr ▸ note_tasks _ _ _
      obtain ⟨u, ticket, hu, hperform⟩ := r.performCue_talk line scope scopes step
        (hr ▸ (note_isOver _ _ _).trans hgoes)
      have hspoken : (r.speak line).session = (p.speak line).session := speak_session line hnoted
      have hdwell : r.dwellOf line = p.dwellOf line := by simp only [dwellOf, hnoted]
      have hmoment : u.session.moment = p.session.moment := hu.stirs.moment.trans (congrArg _ hnoted)
      have hc : u.session.cancelled = false :=
        (Session.cancelled_eq hu.settings).trans (hnoted ▸ hrunning)
      rw [hnoted, hdwell] at hperform
      have hpast : p.session.serial < u.session.serial := by rw [hu.serial, hnoted]; exact Nat.lt_succ_self _
      rw [← hr, hperform] at hb' ⊢
      exact
        { moment := hb'.moment
          serial := Nat.lt_of_lt_of_le hpast (serial_suspend _ _ _)
          heard := (heard_suspend _ _ _).trans (hu.heard.trans (congrArg _ hspoken))
          waits := by
            refine ⟨fun t ht x hx ↦ ?_, fun x hx ↦ ?_, fun x hx ↦ absurd (hjobs _ hx) (by simp [Job.isLook])⟩
            · rw [suspend_tasks.1, hu.stirs.tasks, htasks] at ht
              refine hd.beginsAs (x := x) _ fun id hid ↦ List.mem_append_right _ ?_
              exact List.mem_flatMap.mpr ⟨t, ht, List.mem_flatMap.mpr ⟨x, hx, hid⟩⟩
            · rcases suspend_first hx with hold | ⟨auto, hwait, hnew⟩
              · rw [hu.stirs.pauses, hturn] at hold
                refine hd.beginsAs (x := x) _ fun id hid ↦ List.mem_append_left _ ?_
                exact List.mem_flatMap.mpr ⟨x, hold, hid⟩
              · rintro kind' auto' hwait'
                obtain ⟨-, rfl, rfl⟩ := Wait.tap.inj (hwait'.symm.trans hwait)
                exact ⟨rfl, hmoment ▸ hnew⟩
          stands := by
            rcases u.suspend_parks ⟨.tap p.session.serial (p.dwellOf line) .off, .release ticket, scopes⟩
              hc rfl with ⟨x, hx, hpark⟩ | hgone
            · exact .inr ⟨task.id, .turns rfl rfl (hb'.plays (by simp) (by simp) hcasting.awaits hplays)
                hx hpark⟩
            · exact .inl hgone }

end Machine

end Storyline
