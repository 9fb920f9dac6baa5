import Mathlib.Logic.Relation
import Storyline.Proofs.Playback.Machine
import Storyline.Proofs.Playback.Settings
import Storyline.Proofs.Playback.Teardown
import Storyline.Proofs.Stage.Edits
import Storyline.Stage.Command

/-!
# Announcing changes of the stage

Whatever happens to a session is made of single operations: the stage is changed
and announced, it is worked on in place and announced if the change reports that
it was made, or something else happens.  No operation changes the stage in
silence, and none does anything to it once the session has ended; so this is true
of all that operations come to, in whatever order tasks take them.  Each step of a
machine is such a chain of operations.
-/

namespace Storyline

open Relation

namespace Session

variable {s s' t : Session} {e : Edit} {f : Stage → Option Stage}

/-! ## Operations -/

/-- A change made in place: the stage is what has been made of it, and it is
announced if that is reported. -/
def edit (e : Edit) (s : Session) : Session :=
  if s.cancelled then s
  else
    { s with
      stage := (e s.stage).1
      revision := if (e s.stage).2 then s.revision + 1 else s.revision }

theorem edit_eq (h : e.Makes f) : s.edit e = s.presentIf f := by
  cases hf : f s.stage <;> simp [edit, presentIf, h s.stage, hf]

end Session

/-- A command in place; it reports what its reply confirms. -/
def StageCommand.edit (command : StageCommand) : Edit :=
  fun s ↦ (command.apply s, command.isConfirmed s)

namespace Session

variable {s s' t : Session} {e : Edit} {f : Stage → Option Stage}

/-- The changes that are made in place: those of a model, a title that is taken
away, a cover that hides the other one, a frame of a shake, and what a host asks
for that does not change the stage in silence itself. -/
inductive InPlace : Edit → Prop
  | model (change : ModelChange) : InPlace change.edit
  | title (text : String) : InPlace (Stage.amendTelop text)
  | cover (cover : Cover) (stamp : Nat) : InPlace (Stage.amendCovers cover stamp)
  | frame (shake : Shake) (stamp : Nat) (finished : Bool) (offset : Binary32 × Binary32) :
    InPlace (Stage.amendShake shake stamp finished offset)
  | asked (command : StageCommand) (h : command.edit.Honest) : InPlace command.edit

/-- None of them works on the stage and then reports nothing. -/
theorem InPlace.honest (h : InPlace e) : e.Honest := by
  cases h with
  | model change => exact change.edit_makes.honest
  | title text => exact (Stage.amendTelop_makes text).honest
  | cover cover stamp => exact (Stage.amendCovers_makes cover stamp).honest
  | frame shake stamp finished offset =>
    exact (Stage.amendShake_makes shake stamp finished offset).honest
  | asked command h => exact h

/-- A single operation on a session. -/
inductive Operation (s : Session) : Session → Prop
  /-- What has nothing to do with the stage.  A session that has ended does not go on. -/
  | apart {s' : Session} (stage : s'.stage = s.stage) (revision : s'.revision = s.revision)
    (ended : s.cancelled = true → s'.cancelled = true) : Operation s s'
  | present (f : Stage → Stage) : Operation s (s.present f)
  | edit {e : Edit} (h : InPlace e) : Operation s (s.edit e)

/-- What any operations come to: the stage is the same unless it was announced,
and after the end it is the same and nothing is announced. -/
structure Announces (s s' : Session) : Prop where
  le : s.revision ≤ s'.revision
  silent : s'.revision = s.revision → s'.stage = s.stage
  ended : s.cancelled = true →
    s'.cancelled = true ∧ s'.stage = s.stage ∧ s'.revision = s.revision

theorem Announces.refl (s : Session) : s.Announces s :=
  ⟨Nat.le_refl _, fun _ ↦ rfl, fun h ↦ ⟨h, rfl, rfl⟩⟩

theorem Announces.trans (h : s.Announces s') (h' : s'.Announces t) : s.Announces t where
  le := Nat.le_trans h.le h'.le
  silent := by
    intro heq
    have hfirst : s'.revision = s.revision := by
      have hle := h.le
      have hle' := h'.le
      omega
    exact (h'.silent (heq.trans hfirst.symm)).trans (h.silent hfirst)
  ended := by
    intro hover
    obtain ⟨hover', hstage, hrevision⟩ := h.ended hover
    obtain ⟨hover'', hstage', hrevision'⟩ := h'.ended hover'
    exact ⟨hover'', hstage'.trans hstage, hrevision'.trans hrevision⟩

/-- An operation that changes the stage announces it, once. -/
theorem Operation.announced (h : Operation s s') (hchange : s'.stage ≠ s.stage) :
    s'.revision = s.revision + 1 := by
  cases h with
  | apart hstage => exact absurd hstage hchange
  | present f =>
    cases hc : s.cancelled with
    | true => simp [Session.present, hc] at hchange
    | false => simp [Session.present, hc]
  | @edit e he =>
    cases hc : s.cancelled with
    | true => simp [Session.edit, hc] at hchange
    | false =>
      cases hreport : (e s.stage).2 with
      | true => simp [Session.edit, hc, hreport]
      | false => simp [Session.edit, hc, he.honest s.stage hreport] at hchange

theorem Operation.announces (h : Operation s s') : s.Announces s' := by
  have hle : s.revision ≤ s'.revision := by
    cases h with
    | apart _ hrevision => exact Nat.le_of_eq hrevision.symm
    | present f =>
      rw [Session.present]
      split <;> simp
    | edit =>
      rw [Session.edit]
      split
      · exact Nat.le_refl _
      · dsimp only
        split <;> simp
  refine ⟨hle, ?_, ?_⟩
  · intro hsame
    by_cases hchange : s'.stage = s.stage
    · exact hchange
    · have hannounced := h.announced hchange
      omega
  · intro hover
    cases h with
    | apart hstage hrevision hended => exact ⟨hended hover, hstage, hrevision⟩
    | present f => simp [Session.present, hover]
    | edit => simp [Session.edit, hover]

/-- Operations in any number and order. -/
theorem announces_of_operations (h : ReflTransGen Operation s s') : s.Announces s' := by
  induction h with
  | refl => exact .refl s
  | tail _ hop ih => exact ih.trans hop.announces

theorem operation_presentIf (he : InPlace e) (h : e.Makes f) : Operation s (s.presentIf f) :=
  edit_eq h ▸ .edit he

end Session

/-! ## What playbacks do -/

namespace Playback

open Session (Operation InPlace)

variable {p q r : Playback}

/-- The session has been taken on by operations. -/
def Operates (p q : Playback) : Prop := ReflTransGen Operation p.session q.session

namespace Operates

theorem refl (p : Playback) : Operates p p := ReflTransGen.refl

theorem trans (h : Operates p q) (h' : Operates q r) : Operates p r := ReflTransGen.trans h h'

theorem single (h : Operation p.session q.session) : Operates p q := ReflTransGen.single h

theorem of_eq (h : q.session = p.session) : Operates p q := by
  rw [Operates, h]

/-- The stage and the end of the session are left alone. -/
theorem apart (stage : q.session.stage = p.session.stage)
    (revision : q.session.revision = p.session.revision)
    (cancelled : q.session.cancelled = p.session.cancelled) : Operates p q :=
  single (.apart stage revision fun h ↦ cancelled.trans h)

end Operates

theorem operates_touch {s : Session} {signals : List Signal} (h : Operation p.session s) :
    Operates p (p.touch s signals) := by
  apply Operates.single
  rw [touch_session]
  exact h

theorem operates_arm : Operates p p.arm := .apart rfl rfl rfl

theorem operates_unpark (id : Nat) : Operates p (p.unpark id) :=
  unpark_eq_touch id ▸ operates_touch (.apart rfl rfl fun h ↦ h)

theorem operates_skip : Operates p p.skip :=
  skip_eq_touch ▸ operates_touch (.apart rfl rfl fun h ↦ h)

theorem operates_tap : Operates p p.tap :=
  tap_eq_touch ▸ operates_touch (.apart rfl rfl fun h ↦ h)

theorem operates_resetScope (scope : Nat) : Operates p (p.resetScope scope) :=
  resetScope_eq_touch scope ▸ operates_touch (.apart rfl rfl fun h ↦ h)

theorem operates_resetScopes : Operates p p.resetScopes :=
  resetScopes_eq_touch ▸ operates_touch (.apart rfl rfl fun h ↦ h)

theorem operates_setAutoPlay (on : Bool) : Operates p (p.setAutoPlay on) := by
  rw [setAutoPlay_eq_touch]
  apply operates_touch
  rw [Session.setAutoPlay]
  split <;> exact .apart rfl rfl fun h ↦ h

theorem operates_setFastForward (on : Bool) : Operates p (p.setFastForward on) := by
  rw [setFastForward_eq_touch]
  apply operates_touch
  rw [Session.setFastForward]
  split <;> exact .apart rfl rfl fun h ↦ h

theorem operates_enter (scope : Nat) (tapBlocking : Bool) :
    Operates p (p.enter scope tapBlocking) :=
  enter_eq_touch scope tapBlocking ▸ operates_touch (.apart rfl rfl fun h ↦ h)

theorem operates_releaseCount (scope : Nat) (tally : Tally) (epoch : Nat) :
    Operates p (p.releaseCount scope tally epoch) := by
  rw [releaseCount]
  split
  · exact .refl p
  · split
    · rw [update_raise_eq_touch]
      exact operates_touch (.apart rfl rfl fun h ↦ h)
    · exact .refl p

theorem operates_release (t : Ticket) : Operates p (p.release t) := by
  rw [release]
  cases t.tapEpoch with
  | none => exact operates_releaseCount t.scope .actions t.epoch
  | some epoch =>
    exact (operates_releaseCount t.scope .taps epoch).trans
      (operates_releaseCount t.scope .actions t.epoch)

theorem operates_present (f : Stage → Stage) : Operates p (p.update (.present f)) :=
  .single (.present f)

theorem operates_presentIf {e : Edit} {f : Stage → Option Stage} (he : InPlace e)
    (h : e.Makes f) : Operates p (p.update (.presentIf f)) :=
  .single (Session.operation_presentIf he h)

theorem operates_announce (step : Option Nat) : Operates p (p.announce step) := by
  cases step with
  | none => exact .refl p
  | some n => exact operates_present (Stage.setStep n)

theorem operation_stopSound (channel : Channel) (s : Session) :
    Operation s (s.stopSound channel) := by
  obtain ⟨calls, voiceEnd, h⟩ := s.stopSound_eq channel
  rw [h]
  exact .apart rfl rfl fun h ↦ h

theorem operation_playSound (channel : Channel) (sound : Sound) (looping : Bool) (s : Session) :
    Operation s (s.playSound channel sound looping) := by
  obtain ⟨calls, voiceEnd, h⟩ := s.playSound_eq channel sound looping
  rw [h]
  exact .apart rfl rfl fun h ↦ h

theorem operations_playVoice (path : String) (s : Session) :
    ReflTransGen Operation s (s.playVoice path).2 := by
  rw [Session.playVoice]
  split
  next blob _ =>
    exact (ReflTransGen.single (operation_stopSound .voice s)).tail
      (operation_playSound .voice (.blob blob) false (s.stopSound .voice))
  next => exact .refl

theorem operates_speak (line : Line) : Operates p (p.speak line) := by
  rw [speak]
  split
  · exact operations_playVoice _ p.session
  · exact .refl p

theorem Looked.operates (h : p.Looked q) : Operates p q := by
  have hsway (s : Session) (n : Nat) (shake : Shake) (stamp : Nat) (finished : Bool)
      (offset : Binary32 × Binary32) : ReflTransGen Operation s
        (Session.presentIf (Stage.sway shake stamp finished offset) { s with draws := n }) := by
    have hdraw : Operation s { s with draws := n } := .apart rfl rfl fun h ↦ h
    exact (ReflTransGen.single hdraw).tail
      (Session.operation_presentIf (.frame shake stamp finished offset)
        (Stage.amendShake_makes shake stamp finished offset))
  cases h with
  | still => exact .refl p
  | arms => exact operates_arm
  | movesOn park => exact operates_unpark park
  | dwells park => exact operates_arm.trans (operates_unpark park)
  | sways n shake stamp finished offset => exact hsway p.session n shake stamp finished offset
  | swaysOn n shake stamp finished offset =>
    exact Operates.trans (q := p.update fun s ↦ Session.presentIf _ { s with draws := n })
      (hsway p.session n shake stamp finished offset) operates_arm
  | ticks => exact ((operates_resetScopes.trans operates_skip).trans operates_tap).trans operates_arm

theorem operates_finish (ending : Ending) : Operates p (p.finish ending) := by
  cases ending with
  | nothing => exact .refl p
  | release ticket => exact operates_release ticket
  | clearTelop text ticket =>
    exact (operates_presentIf (.title text) (Stage.amendTelop_makes text)).trans
      (operates_release ticket)
  | coverShown cover stamp ticket =>
    exact (operates_presentIf (.cover cover stamp) (Stage.amendCovers_makes cover stamp)).trans
      (operates_release ticket)
  | background path => exact operates_present (Stage.setScenery path .background)
  | completed =>
    rw [finish]
    split <;> exact .of_eq rfl

theorem operates_suspend (wait : Wait) (ending : Ending) (scopes : List Nat) :
    Operates p (p.suspend wait ending scopes) := by
  have hlook := (p.looked_look wait).operates
  rw [suspend]
  split
  next q w h =>
    rw [h] at hlook
    exact hlook.trans (.of_eq rfl)
  next q ran h =>
    rw [h] at hlook
    split
    · exact hlook.trans (operates_finish ending)
    · exact hlook
  next q h =>
    rw [h] at hlook
    exact hlook.trans (.of_eq rfl)

theorem operates_sleep (d : Duration) (ending : Ending) (scopes : List Nat) :
    Operates p (p.sleep d ending scopes) :=
  operates_arm.trans (operates_suspend _ ending scopes)

theorem operates_park (dwell : Dwell) (ending : Ending) (scopes : List Nat) :
    Operates p (p.park dwell ending scopes) :=
  Operates.trans (q := p.update fun s ↦ s.park.2) (.apart rfl rfl rfl)
    (operates_suspend _ ending scopes)

theorem operates_spawn (scope : Option Nat) (agenda : List Errand) :
    Operates p (p.spawn scope agenda) := .of_eq (spawn_session scope agenda)

theorem operates_note (action : Action) (scope : Nat) (step : Option Nat) :
    Operates p (p.note action scope step) := .of_eq (note_session action scope step)

theorem operates_changeScenery (scenery : Scenery) (path : String) (ticket : Ticket) :
    Operates p (p.changeScenery scenery path ticket) := by
  refine Operates.trans ?_ (operates_release ticket)
  refine Operates.trans ?_ (operates_present (Stage.setScenery path scenery))
  cases scenery with
  | background => exact .refl p
  | bgm =>
    exact (ReflTransGen.single (operation_stopSound .bgm p.session)).tail
      (operation_playSound .bgm (.path path) true _)
  | se => exact .single (operation_playSound .se (.path path) false p.session)

/-- A stamp is taken, and with it the stage is changed. -/
theorem operates_stamped (f : Stage → Stage) :
    Operates p (p.update fun s ↦ s.nextSerial.2.present f) :=
  Operates.trans (q := p.update fun s ↦ s.nextSerial.2) (.apart rfl rfl rfl) (operates_present f)

/-- A line is shown, and kept. -/
theorem operates_shown (line : Line) :
    Operates p (p.update fun s ↦ (s.present (Stage.setTalk line)).pushBacklog line) :=
  Operates.trans (q := p.update (.present (Stage.setTalk line))) (operates_present _)
    (.apart rfl rfl rfl)

theorem operates_performCue (cue : Cue) (scope : Nat) (scopes : List Nat) (step : Option Nat) :
    Operates p (p.performCue cue scope scopes step) := by
  rw [performCue]
  split
  · exact .refl p
  refine ((operates_announce step).trans (operates_enter scope cue.isTapBlocking)).trans ?_
  cases cue with
  | talk line =>
    refine (Operates.trans ?_ (operates_speak line)).trans (operates_park _ _ scopes)
    exact operates_shown line
  | telop text => exact (operates_present (Stage.setTelop text)).trans (operates_park _ _ scopes)
  | model change =>
    exact (operates_presentIf (.model change) change.edit_makes).trans (operates_spawn none _)
  | tremble axis character => exact operates_release _
  | cover cover visible seconds => exact (operates_stamped _).trans (operates_sleep _ _ scopes)
  | shake shake seconds =>
    exact ((operates_stamped _).trans (operates_spawn none _)).trans (operates_sleep _ _ scopes)
  | scenery scenery path => exact operates_changeScenery scenery path _
  | delay seconds => exact operates_sleep _ _ scopes
  | waitForAll | waitForTap => exact (operates_release _).trans (operates_suspend _ _ scopes)

theorem operates_openWithin (scope : Nat) (step : Option Nat) :
    Operates p (p.openWithin scope step) := by
  have hpassed : Operates p (((p.announce step).enter scope false).release
      ((p.announce step).session.ticket scope false)) :=
    ((operates_announce step).trans (operates_enter scope false)).trans (operates_release _)
  exact hpassed.trans (.apart rfl rfl rfl)

theorem operates_begin {errand : Errand}
    (h : ∀ action scope step, errand ≠ .perform action scope step) :
    Operates p (p.begin errand) := by
  cases errand with
  | perform action scope step => exact absurd rfl (h action scope step)
  | sleep d ending scopes => exact operates_sleep d ending scopes
  | drain scope tally guarded ending => exact operates_suspend _ ending [scope]
  | awaitEnd => exact operates_suspend _ .nothing []
  | animate shake stamp d => exact operates_arm.trans (operates_suspend _ .nothing [])
  | fastForward => exact operates_suspend _ .nothing []

theorem operates_revisit (pause : Pause) : Operates p (p.revisit pause) := by
  rw [revisit]
  split
  · exact .refl p
  · exact Operates.trans (q := p.updateTurn _) (.of_eq rfl)
      (operates_suspend pause.wait pause.ending pause.scopes)

theorem operates_endTurn (task : Task) : Operates p (p.endTurn task) := by
  obtain ⟨⟨taps, h⟩, -⟩ := endTurn_session (p := p) task
  exact .apart (by rw [h]) (by rw [h]) (by rw [h])

theorem operates_moveTo (time : Nat) : Operates p (p.moveTo time) := by
  rw [moveTo, wakeAll_eq]
  exact .apart rfl rfl rfl

end Playback

namespace Machine

open Playback

variable {m n : Machine}

/-- A step of a turn is made of operations. -/
theorem Beat.operates (h : Beat m n) : Operates m.playback n.playback := by
  cases h with
  | take => exact .of_eq rfl
  | drop =>
    rename_i id rest hq hgone
    rw [resting, runTask]
    split
    · exact .of_eq rfl
    next task htask =>
      rw [if_pos (hgone task htask)]
      exact .of_eq rfl
  | look => exact operates_revisit _
  | walk => exact .of_eq rfl
  | begin _ _ hother => exact Operates.trans (q := Playback.updateTurn _ _) (.of_eq rfl) (operates_begin hother)
  | skip => exact .refl _
  | cue => exact (operates_note _ _ _).trans (operates_performCue _ _ _ _)
  | block => exact (operates_note _ _ _).trans (operates_openWithin _ _)
  | fork =>
    exact ((operates_note _ _ _).trans (operates_openWithin _ _)).trans (operates_spawn _ _)
  | close => exact operates_performCue .waitForAll _ _ none
  | finish => exact operates_endTurn _

/-- So is a whole run, if what is done from outside is. -/
theorem Runs.operates {acts : Playback → Playback → Prop} (h : Runs acts m n)
    (hacts : ∀ p q, acts p q → Operates p q) : Operates m.playback n.playback := by
  induction h with
  | refl => exact .refl _
  | step _ hs ih =>
    refine ih.trans ?_
    cases hs with
    | beat hb => exact hb.operates
    | act ha => exact hacts _ _ ha
    | move => exact operates_moveTo _
    | rest => exact .apart rfl rfl rfl

end Machine

namespace Playback

variable {p : Playback}

theorem operates_runReady (bound : Nat) : Operates p (runReady bound p) := by
  induction bound generalizing p with
  | zero => exact .refl p
  | succ bound ih =>
    rw [runReady]
    split
    · exact .refl p
    next id rest hq =>
      have hturn : Machine.Runs (fun _ _ ↦ False) (.resting p)
          (.resting (runTask id { p with queue := rest })) := Machine.runs_runTask hq
      exact (hturn.operates fun _ _ hnone ↦ hnone.elim).trans ih

theorem operates_passTime (target bound : Nat) : Operates p (passTime target bound p) := by
  induction bound generalizing p with
  | zero => exact .apart rfl rfl rfl
  | succ bound ih =>
    rw [passTime]
    split
    · split
      · exact ((operates_moveTo _).trans (operates_runReady _)).trans ih
      · exact .apart rfl rfl rfl
    · exact .apart rfl rfl rfl

theorem operates_advance (ms : Nat) : Operates p (p.advance ms) :=
  (operates_runReady p.turnBound).trans (operates_passTime _ ms)

theorem operates_shutdown : Operates p p.shutdown := by
  cases hc : p.session.cancelled with
  | true =>
    have hsame : p.shutdown = p := by rw [shutdown, if_pos hc]
    rw [hsame]
    exact .refl p
  | false =>
    obtain ⟨calls, voiceEnd, hcancel⟩ := p.session.cancel_eq
    have hsession : p.shutdown.session = p.session.cancel := shutdown_session hc
    apply Operates.single
    rw [hsession, hcancel]
    exact .apart rfl rfl fun _ ↦ rfl

end Playback

end Storyline
