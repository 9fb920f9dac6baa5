import Storyline.Proofs.Wrapping.Playbacks

/-!
# Performing wrapped actions

An action that is not wrapped is performed in step in both playbacks.  A wrapped action
enters the scope of its block where the action itself enters the scope around it, and
then the task has taken a detour.  If the action is over at once, so is the block, and
the playbacks are in step again.
-/

namespace Storyline

namespace Playback

variable {N M : Wrapping} {D E : Detours} {o scope' scope : Nat} {p q v w : Playback}
  {T : Ticket → Ticket → Prop} {t' t : Ticket} {e' e : Ending}

/-! ## Actions that hold up their timeline -/

/-- In both playbacks there is a wait for the same, and a ticket to release at its end. -/
inductive HoldsUp (N : Wrapping) (D : Detours) (o : Nat) (T : Ticket → Ticket → Prop)
    (p v : Playback) : Playback → Playback → Prop
  | intro {M : Wrapping} {q w : Playback} (x' x : Pause) (hle : N ≤ M) (h : q.InStep M D o w)
    (hpauses : q.turn.pauses = p.turn.pauses) (hfailed : q.turn.failed = p.turn.failed)
    (hwait : M.SameHold x'.wait x.wait) (hending : M.SameRelease T x'.ending x.ending) :
    HoldsUp N D o T p v (q.suspend x'.wait x'.ending x'.scopes)
      (w.suspend x.wait x.ending x.scopes)

theorem HoldsUp.weaken {p' v' : Playback} (h : HoldsUp M D o T q w p' v') (hle : N ≤ M)
    (hpauses : q.turn.pauses = p.turn.pauses) (hfailed : q.turn.failed = p.turn.failed) :
    HoldsUp N D o T p v p' v' := by
  obtain ⟨x', x, hle', h, hpauses', hfailed', hwait, hending⟩ := h
  exact .intro x' x (hle.trans hle') h (hpauses'.trans hpauses) (hfailed'.trans hfailed) hwait hending

theorem HoldsUp.inStep {p' v' : Playback} (h : HoldsUp N D o (N.SameTicket o) p v p' v')
    (hD : D o = none) : p'.InStepFrom N D o v' := by
  obtain ⟨x', x, hle, h, -, -, hwait, hending⟩ := h
  exact ⟨_, hle, h.suspend hD ⟨.hold hwait, .releases (hending.mono le_rfl fun ht ↦ ht.mono hle)⟩⟩

namespace InStep

section holds

variable (h : p.InStep N D o v) (scopes' scopes : List Nat)

include h

theorem park (kind : Dwell) (he : N.SameRelease T e' e) :
    HoldsUp N D o T p v (p.park kind e' scopes') (v.park kind e scopes) := by
  have hle := N.le_meet p.session.serial v.session.serial
  have hparked : (p.update fun s ↦ s.park.2).InStep _ D o (v.update fun s ↦ s.park.2) :=
    h.stirs p.stirs_park v.stirs_park hle (h.twins.update h.session.park)
  exact .intro ⟨.tap p.session.serial kind .off, e', scopes'⟩
    ⟨.tap v.session.serial kind .off, e, scopes⟩ hle hparked rfl rfl
    (.tap (N.mem_meet _ _) kind .off) (he.mono hle fun ht ↦ ht)

theorem sleep (d : Duration) (he : N.SameRelease T e' e) :
    HoldsUp N D o T p v (p.sleep d e' scopes') (v.sleep d e scopes) := by
  have harmed : p.arm.InStep N D o v.arm :=
    h.stirs p.stirs_arm v.stirs_arm le_rfl h.twins.arm
  unfold Playback.sleep
  rw [h.session.now, h.session.skips, h.twins.timer]
  exact .intro ⟨.sleep _ _, e', scopes'⟩ ⟨.sleep _ _, e, scopes⟩ le_rfl harmed rfl rfl (.sleep _ _) he

theorem talk (line : Line) (ht : T t' t) :
    HoldsUp N D o T p v (p.talk line t' scopes') (v.talk line t scopes) := by
  have htold : (p.update fun s ↦ (s.present (Stage.setTalk line)).pushBacklog line).InStep N D o
      (v.update fun s ↦ (s.present (Stage.setTalk line)).pushBacklog line) :=
    h.stirs (p.stirs_tell line) (v.stirs_tell line) le_rfl
      (h.twins.update ((h.session.present fun hs ↦ hs.setTalk line).pushBacklog line))
  have hst := p.stirs_tell line
  have hvoiced : p.isVoiced line = v.isVoiced line := by
    unfold isVoiced
    rw [h.session.voices]
  unfold Playback.talk
  rw [hvoiced, h.session.config]
  generalize (p.update fun s ↦ (s.present (Stage.setTalk line)).pushBacklog line) = q at htold hst
  generalize (v.update fun s ↦ (s.present (Stage.setTalk line)).pushBacklog line) = w at htold
  have hspoken : (q.speak line).InStep N D o (w.speak line) := by
    refine htold.stirs (q.stirs_speak line) (w.stirs_speak line) le_rfl ?_
    unfold Playback.speak
    split
    next path _ => exact htold.twins.update (htold.session.playVoice path)
    next => exact htold.twins.toAlike
  have hstirs := hst.trans (q.stirs_speak line)
  exact (hspoken.park scopes' scopes _ (.release ht)).weaken le_rfl hstirs.pauses hstirs.failed

theorem telop (text : String) (ht : T t' t) :
    HoldsUp N D o T p v (p.telop text t' scopes') (v.telop text t scopes) := by
  have hshown : (p.update (.present (Stage.setTelop text))).InStep N D o
      (v.update (.present (Stage.setTelop text))) :=
    h.stirs (p.stirs_present _) (v.stirs_present _) le_rfl
      (h.twins.update (h.session.present fun hs ↦ hs.setTelop (some text)))
  unfold Playback.telop
  rw [h.session.config]
  exact (hshown.park scopes' scopes _ (.clearTelop text ht)).weaken le_rfl rfl rfl

theorem coverScreen (cover : Cover) (visible : Bool) (d : Duration) (ht : T t' t) :
    HoldsUp N D o T p v (p.coverScreen cover visible d t' scopes')
      (v.coverScreen cover visible d t scopes) := by
  have hle := N.le_meet p.session.serial v.session.serial
  have hstamp := N.mem_meet p.session.serial v.session.serial
  have hshown := h.stirs (p.stirs_number (Stage.startCover cover visible d p.session.serial))
    (v.stirs_number (Stage.startCover cover visible d v.session.serial)) hle
    (h.twins.update (h.session.number fun hs ↦ hs.startCover hstamp cover visible d))
  unfold Playback.coverScreen
  refine (hshown.sleep scopes' scopes d ?_).weaken hle rfl rfl
  cases visible with
  | true => exact .coverShown cover hstamp ht
  | false => exact .release ht

/-- The frames of a shake are left to a task of their own. -/
theorem shakeTarget (shake : Shake) (d : Duration) (ht : T t' t) :
    HoldsUp N D o T p v (p.shakeTarget shake d t' scopes') (v.shakeTarget shake d t scopes) := by
  have hle := N.le_meet p.session.serial v.session.serial
  have hstamp := N.mem_meet p.session.serial v.session.serial
  have hshown := h.stirs (p.stirs_number (Stage.startShake shake d p.session.serial))
    (v.stirs_number (Stage.startShake shake d v.session.serial)) hle
    (h.twins.update (h.session.number fun hs ↦ hs.startShake hstamp shake d))
  have hspawned := hshown.spawn
    (.works (.plain (hshown.twins.fresh _ (Nat.le_refl _)) (.cons (.animate shake hstamp d) .nil) .nil))
    none none
  unfold Playback.shakeTarget
  refine (hspawned.sleep scopes' scopes d (.release ht)).weaken hle ?_ ?_ <;> rw [spawn_turn] <;> rfl

end holds

/-- What a cue does that holds up its timeline, once it has entered a scope. -/
theorem holds {c : Cue} (hc : c.holdsUp = true) (hp : p.isOver = false) (hv : v.isOver = false)
    {step' step : Option Nat} (scopes' scopes : List Nat)
    (h : ((p.announce step').enter scope' c.isTapBlocking).InStep N D o
      ((v.announce step).enter scope c.isTapBlocking))
    (ht : T ((p.announce step').session.ticket scope' c.isTapBlocking)
      ((v.announce step).session.ticket scope c.isTapBlocking)) :
    HoldsUp N D o T ((p.announce step').enter scope' c.isTapBlocking)
      ((v.announce step).enter scope c.isTapBlocking) (p.performCue c scope' scopes' step')
      (v.performCue c scope scopes step) := by
  unfold Playback.performCue
  rw [if_neg (by simp [hp]), if_neg (by simp [hv])]
  cases c with
  | talk line => exact h.talk scopes' scopes line ht
  | telop text => exact h.telop scopes' scopes text ht
  | cover cover visible seconds => exact h.coverScreen scopes' scopes cover visible _ ht
  | shake shake seconds => exact h.shakeTarget scopes' scopes shake _ ht
  | delay seconds => exact h.sleep scopes' scopes _ (.release ht)
  | model | tremble | scenery | waitForAll | waitForTap => cases hc

/-! ## Cues -/

theorem changeModel (h : p.InStep N D o v) (change : ModelChange) (ht : N.SameTicket o t' t)
    (htap : t.tapEpoch = none) :
    (p.changeModel change t').InStep N D o (v.changeModel change t) := by
  have hchanged : (p.update (.presentIf change.apply)).InStep N D o
      (v.update (.presentIf change.apply)) :=
    h.stirs (p.stirs_presentIf _) (v.stirs_presentIf _) le_rfl
      (h.twins.update (h.session.presentIf (h.session.stage.change change)))
  unfold Playback.changeModel settleLater
  rw [h.session.config]
  exact hchanged.spawn (.settling _ ⟨⟨o, ht⟩, htap⟩ _ _ rfl rfl rfl rfl) none none

theorem changeScenery (h : p.InStep N D o v) (hD : D o = none) (scenery : Scenery) (path : String)
    (ht : N.SameTicket o t' t) :
    (p.changeScenery scenery path t').InStep N D o (v.changeScenery scenery path t) := by
  have hshown : ∀ {q w : Playback}, q.InStep N D o w →
      ((q.update (.present (Stage.setScenery path scenery))).release t').InStep N D o
        ((w.update (.present (Stage.setScenery path scenery))).release t) := fun {q w} hq ↦
    (hq.stirs (q.stirs_present _) (w.stirs_present _) le_rfl
      (hq.twins.update (hq.session.present fun hs ↦ hs.setScenery path scenery))).release hD ht
  cases scenery with
  | background => exact hshown h
  | bgm =>
      have hst : ∀ q : Playback,
          q.Stirs (q.update fun s ↦ (s.stopSound .bgm).playSound .bgm (.path path) true) := fun q ↦
        .of_update ((Session.carries_stopSound _).trans (Session.carries_playSound _ _ _))
      exact hshown (h.stirs (hst p) (hst v) le_rfl
        (h.twins.update ((h.session.stopSound .bgm).playSound .bgm (.path path) true)))
  | se =>
      have hst : ∀ q : Playback, q.Stirs (q.update (.playSound .se (.path path) false)) := fun q ↦
        .of_update (Session.carries_playSound _ _ _)
      exact hshown (h.stirs (hst p) (hst v) le_rfl
        (h.twins.update (h.session.playSound .se (.path path) false)))

theorem performCue (h : p.InStep N D o v) (hD : D o = none) (c : Cue)
    (hroom : N.SameRoom o scope' scope) (scopes' scopes : List Nat) (step : Option Nat) :
    (p.performCue c scope' scopes' step).InStepFrom N D o (v.performCue c scope scopes step) := by
  cases hover : v.isOver with
  | true =>
      unfold Playback.performCue
      rw [if_pos (h.isOver.trans hover), if_pos hover]
      exact h.here
  | false =>
      have hannounced := h.announce step
      have hentered := hannounced.enter hroom c.isTapBlocking
      have hticket := hannounced.session.ticket hroom c.isTapBlocking
      cases hc : c.holdsUp with
      | true =>
          exact (hentered.holds hc (h.isOver.trans hover) hover scopes' scopes hticket).inStep hD
      | false =>
          unfold Playback.performCue
          rw [if_neg (by simp [h.isOver, hover]), if_neg (by simp [hover])]
          have hreleased := hentered.release hD hticket
          cases c with
          | model change =>
              exact (hentered.changeModel change hticket (Session.ticket_tapless scope)).here
          | tremble => exact hreleased.here
          | scenery scenery path => exact (hentered.changeScenery hD scenery path hticket).here
          | waitForAll =>
              have hx : N.SamePause o ⟨.drained scope' .actions true, .nothing, scopes'⟩
                  ⟨.drained scope .actions true, .nothing, scopes⟩ :=
                ⟨.drained hroom .actions true, .nothing⟩
              exact (hreleased.suspend hD hx).here
          | waitForTap =>
              have hx : N.SamePause o ⟨.drained scope' .taps true, .nothing, scopes'⟩
                  ⟨.drained scope .taps true, .nothing, scopes⟩ :=
                ⟨.drained hroom .taps true, .nothing⟩
              exact (hreleased.suspend hD hx).here
          | talk | telop | cover | shake | delay => cases hc

/-! ## Actions -/

/-- Both playbacks open a scope, for a task that has taken no detour. -/
theorem openWithin (h : p.InStep N D o v) (hD : D o = none) (hroom : N.SameRoom o scope' scope)
    {u : Nat} (hu : D u = none) (step : Option Nat) :
    (p.openWithin scope' step).InStep (N.furnish p.session.serial v.session.serial u) D o
      (v.openWithin scope step) := by
  have hannounced := h.announce step
  have hpassed := (hannounced.enter hroom false).release hD (hannounced.session.ticket hroom false)
  have hopened := hpassed.session.openScope hu (some scope') (some scope)
  rw [serial_passed, serial_passed] at hopened
  have hst : ∀ (q : Playback) (scope : Nat),
      q.Stirs (q.update fun s ↦ (s.openScope (some scope)).2) := fun q scope ↦
    .of_update (Session.carries_openScope _)
  exact hpassed.stirs (hst _ scope') (hst _ scope) (N.le_furnish _ _ _)
    (hpassed.twins.withSession hopened)

/-- A block opens a scope, performs its parts there and waits for them. -/
theorem performBlock (h : p.InStep N D o v) (hD : D o = none) {parts' parts : List Action}
    (hparts : ∀ {M : Wrapping} {q w : Playback} {inner' inner : Nat}, q.InStep M D o w →
      M.SameRoom o inner' inner → ∀ scopes' scopes : List Nat,
        (performAll parts' inner' scopes' q).InStepFrom M D o (performAll parts inner scopes w))
    (hroom : N.SameRoom o scope' scope) (scopes' scopes : List Nat) (step : Option Nat) :
    (perform (.block parts') scope' scopes' step p).InStepFrom N D o
      (perform (.block parts) scope scopes step v) := by
  simp only [Playback.perform]
  cases hover : v.isOver with
  | true =>
      rw [if_pos (h.isOver.trans hover), if_pos rfl]
      exact h.here
  | false =>
      rw [if_neg (by simp [h.isOver, hover]), if_neg Bool.false_ne_true]
      have hopened := (h.note (.block parts') (.block parts) scope' scope step step).openWithin hD hroom
        hD step
      rw [note_session, note_session] at hopened
      have hle := N.le_furnish p.session.serial v.session.serial o
      have hinner := N.sameRoom_furnish p.session.serial v.session.serial o
      obtain ⟨M, hle', hall⟩ := hparts hopened hinner (p.session.serial :: scopes')
        (v.session.serial :: scopes)
      exact (hall.performCue hD .waitForAll (hinner.mono hle') _ _ none).weaken (hle.trans hle')

/-- The walks through two lists. -/
theorem walk {parts' parts : List Action} (hparts : Action.WrapsAll true parts' parts)
    (hroom : N.SameRoom o scope' scope) (indexed : Bool) :
    List.Forall₂ (N.SameErrand o) (walk scope' indexed parts') (walk scope indexed parts) := by
  have hall := hparts.forall₂
  clear hparts
  unfold Playback.walk
  generalize 0 = n
  induction hall generalizing n with
  | nil => exact .nil
  | cons hpart _ ih =>
      rw [List.zipIdx_cons, List.zipIdx_cons]
      exact .cons (.perform hpart hroom _) (ih _)

/-- A fork opens a scope for a new task. -/
theorem performFork (h : p.InStep N D o v) (hD : D o = none) {parts' parts : List Action}
    (hparts : Action.WrapsAll true parts' parts) (hroom : N.SameRoom o scope' scope)
    (scopes' scopes : List Nat) (step : Option Nat) :
    (perform (.fork parts') scope' scopes' step p).InStepFrom N D o
      (perform (.fork parts) scope scopes step v) := by
  simp only [Playback.perform]
  cases hover : v.isOver with
  | true =>
      rw [if_pos (h.isOver.trans hover), if_pos rfl]
      exact h.here
  | false =>
      rw [if_neg (by simp [h.isOver, hover]), if_neg Bool.false_ne_true]
      have hnoted := h.note (.fork parts') (.fork parts) scope' scope step step
      have hnew := hnoted.twins.fresh _ (Nat.le_refl _)
      have hopened := hnoted.openWithin hD hroom hnew step
      rw [note_session, note_session] at hopened
      have hwalk := walk hparts (N.sameRoom_furnish p.session.serial v.session.serial
        (p.note (.fork parts') scope' step).spawned) false
      rw [← (stirs_openWithin _ scope' step).spawned] at hnew hopened hwalk
      exact ⟨_, N.le_furnish _ _ _, hopened.spawn (.works (.plain hnew hwalk .nil)) _ _⟩

mutual

theorem perform {N : Wrapping} {p v : Playback} {scope' scope : Nat} {action' : Action}
    (action : Action) (h : p.InStep N D o v) (hD : D o = none)
    (hwraps : Action.Wraps false action' action) (hroom : N.SameRoom o scope' scope)
    (scopes' scopes : List Nat) (step : Option Nat) :
    (Playback.perform action' scope' scopes' step p).InStepFrom N D o
      (Playback.perform action scope scopes step v) := by
  cases action with
  | cue c =>
      cases hwraps
      exact (h.note _ _ scope' scope step step).performCue hD c hroom scopes' scopes step
  | block parts =>
      obtain _ | _ | ⟨_, hparts⟩ | _ := hwraps
      exact h.performBlock hD (fun hq hinner ↦ performAll parts hq hD hparts hinner) hroom scopes'
        scopes step
  | fork parts =>
      obtain _ | _ | _ | ⟨_, hparts⟩ := hwraps
      exact h.performFork hD hparts hroom scopes' scopes step

theorem performAll {N : Wrapping} {p v : Playback} {scope' scope : Nat} {parts' : List Action}
    (parts : List Action) (h : p.InStep N D o v) (hD : D o = none)
    (hwraps : Action.WrapsAll false parts' parts) (hroom : N.SameRoom o scope' scope)
    (scopes' scopes : List Nat) :
    (Playback.performAll parts' scope' scopes' p).InStepFrom N D o
      (Playback.performAll parts scope scopes v) := by
  cases parts with
  | nil =>
      cases hwraps
      exact h.here
  | cons part rest =>
      obtain _ | ⟨hpart, hrest⟩ := hwraps
      obtain ⟨M, hle, hperformed⟩ := perform part h hD hpart hroom scopes' scopes none
      exact (performAll rest hperformed hD hrest (hroom.mono hle) scopes' scopes).weaken hle

end

end InStep

end Playback

end Storyline
