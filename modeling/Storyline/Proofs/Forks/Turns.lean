import Storyline.Proofs.Forks.Lockstep
import Storyline.Proofs.Playback.Places
import Storyline.Proofs.Playback.Settings
import Storyline.Proofs.Playback.Veils

/-!
# Turns in lockstep

A turn of the main timeline goes the same way in the story and in its solo.  A
cover and a shake take the time of a delay, a fork takes the place of a cue that
does nothing, and whatever they leave behind are strays.
-/

namespace Storyline

namespace Playback

variable {N M : Naming} {p v q w : Playback} {s s' : Session} {scope scope' : Nat}

/-! ## What a performance leaves alone -/

theorem note_eq_self {action : Action} {step : Option Nat} (h : p.isOver = true) :
    p.note action scope step = p := if_pos h

/-- The parts of a fork are left to strays. -/
theorem strays_walk {parts : List Action}
    (htapless : (Action.cuesOfList parts).all (fun c ↦ !c.isTapBlocking) = true)
    (hscope : scope ∈ N.strayScopes) : ∀ e ∈ walk scope false parts, N.StrayErrand e := by
  intro e he
  obtain ⟨a, ha, rfl⟩ := List.mem_map.mp he
  refine .perform (fun c hc ↦ ?_) hscope
  have hmem : c ∈ Action.cuesOfList parts := Action.mem_cuesOfList.mpr ⟨a.1, List.fst_mem_of_mem_zipIdx ha, hc⟩
  simpa using List.all_eq_true.mp htapless c hmem

namespace Abreast

/-! ## Cues -/

theorem isOver (h : p.Abreast N v) : p.isOver = v.isOver := by
  unfold Playback.isOver
  rw [h.session.cancelled, h.turn.failed]

theorem note (h : p.Abreast N v) (action action' : Action) (scope scope' : Nat) (step : Option Nat) :
    (p.note action scope step).Abreast N (v.note action' scope' step) := by
  unfold Playback.note
  rw [h.isOver]
  split
  · exact h
  · exact ⟨{ h.mirrors with }, h.turn⟩

theorem announce (h : p.Abreast N v) (step : Option Nat) :
    (p.announce step).Abreast N (v.announce step) := by
  cases step with
  | none => exact h
  | some n =>
      exact h.update (h.session.present fun hfront ↦
        congrArg (fun front : Option Nat × Option Line × Option String ↦ (some n, front.2)) hfront)

theorem unseen (h : p.Abreast N v) (hs : p.session.Unseen s) : ({ p with session := s }).Abreast N v :=
  h.withSession (h.session.unseen hs (.refl _))

section cues

variable {t t' : Ticket}

theorem talk (h : p.Abreast N v) (line : Line) (ht : N.SameTicket t t') (scopes scopes' : List Nat) :
    (p.talk line t scopes).AbreastFrom N (v.talk line t' scopes') := by
  have hshown : (p.update fun s ↦ (s.present (Stage.setTalk line)).pushBacklog line).Abreast N
      (v.update fun s ↦ (s.present (Stage.setTalk line)).pushBacklog line) :=
    h.update ((h.session.present fun hfront ↦ congrArg
      (fun front : Option Nat × Option Line × Option String ↦ (front.1, some line, front.2.2))
      hfront).pushBacklog line)
  have hspoken : ((p.update fun s ↦ (s.present (Stage.setTalk line)).pushBacklog line).speak
      line).Abreast N ((v.update fun s ↦ (s.present (Stage.setTalk line)).pushBacklog line).speak
      line) := by
    unfold speak
    split
    next path _ => exact hshown.update (hshown.session.playVoice path)
    next => exact hshown
  have hvoiced : p.isVoiced line = v.isVoiced line := by
    unfold isVoiced
    rw [h.session.voices]
  unfold Playback.talk
  rw [hvoiced, h.session.config]
  exact hspoken.park _ (.release ht) scopes scopes'

theorem telop (h : p.Abreast N v) (text : String) (ht : N.SameTicket t t')
    (scopes scopes' : List Nat) :
    (p.telop text t scopes).AbreastFrom N (v.telop text t' scopes') := by
  have hshown : (p.update (.present (Stage.setTelop text))).Abreast N
      (v.update (.present (Stage.setTelop text))) :=
    h.update (h.session.present fun hfront ↦ congrArg
      (fun front : Option Nat × Option Line × Option String ↦ (front.1, front.2.1, some text)) hfront)
  unfold Playback.telop
  rw [h.session.config]
  exact hshown.park _ (.clearTelop text ht) scopes scopes'

theorem changeModel (h : p.Abreast N v) (change : ModelChange) (ht : N.SameTicket t t') :
    (p.changeModel change t).AbreastFrom N (v.changeModel change t') := by
  have hchanged : (p.update (.presentIf change.apply)).Abreast N
      (v.update (.presentIf change.apply)) :=
    h.update (h.session.unseen (Session.unseen_change change) (Session.unseen_change change))
  unfold Playback.changeModel settleLater
  rw [h.session.config]
  exact hchanged.spawn (.cons (.sleep _ (.release ht) _ _) .nil) none none

/-- A cover takes the time that a delay takes. -/
theorem coverScreen (h : p.Abreast N v) (cover : Cover) (visible : Bool) (d : Duration)
    (ht : N.SameTicket t t') (scopes scopes' : List Nat) :
    (p.coverScreen cover visible d t scopes).AbreastFrom N (v.sleep d (.release t') scopes') := by
  have hshown : (p.update fun s ↦
      s.nextSerial.2.present (Stage.startCover cover visible d p.session.serial)).Abreast N v :=
    h.unseen (Session.unseen_startCover cover visible d _)
  unfold Playback.coverScreen
  cases visible with
  | true => exact hshown.sleep d (.coverShown cover _ ht) scopes scopes'
  | false => exact hshown.sleep d (.release ht) scopes scopes'

/-- A shake takes the time that a delay takes; its frames are left to a stray. -/
theorem shakeTarget (h : p.Abreast N v) (shake : Shake) (d : Duration) (ht : N.SameTicket t t')
    (scopes scopes' : List Nat) :
    (p.shakeTarget shake d t scopes).AbreastFrom N (v.sleep d (.release t') scopes') := by
  have hshown : (p.update fun s ↦
      s.nextSerial.2.present (Stage.startShake shake d p.session.serial)).Abreast N v :=
    h.unseen (Session.unseen_startShake shake d _)
  have hframes : ∀ e ∈ [Errand.animate shake p.session.serial d], N.StrayErrand e :=
    fun e he ↦ List.mem_singleton.mp he ▸ .animate shake _ d
  obtain ⟨M, hle, hspawned⟩ := hshown.spawnStray hframes none
  exact (hspawned.sleep d (.release (ht.mono hle)) scopes scopes').weaken hle

theorem changeScenery (h : p.Abreast N v) (scenery : Scenery) (path : String)
    (ht : N.SameTicket t t') :
    (p.changeScenery scenery path t).Abreast N (v.changeScenery scenery path t') := by
  have hshown : ∀ {q w : Playback}, q.Abreast N w →
      (q.update (.present (Stage.setScenery path scenery))).Abreast N
        (w.update (.present (Stage.setScenery path scenery))) := fun hq ↦
    hq.update (hq.session.unseen (Session.unseen_setScenery path scenery)
      (Session.unseen_setScenery path scenery))
  unfold Playback.changeScenery
  refine (hshown ?_).release ht
  cases scenery with
  | background => exact h
  | bgm => exact h.update (h.session.unseen (Session.unseen_playBgm path) (Session.unseen_playBgm path))
  | se => exact h.update (h.session.unseen (Session.unseen_playSe path) (Session.unseen_playSe path))

end cues

theorem performCue (h : p.Abreast N v) (cue : Cue) (hscope : (scope, scope') ∈ N.ids)
    (scopes scopes' : List Nat) (step : Option Nat) :
    (p.performCue cue scope scopes step).AbreastFrom N
      (v.performCue cue.solo scope' scopes' step) := by
  have hannounced := h.announce step
  have hentered : ∀ tapBlocking, ((p.announce step).enter scope tapBlocking).Abreast N
      ((v.announce step).enter scope' tapBlocking) := fun b ↦ hannounced.enter hscope b
  have hticket := hannounced.session.ticket hscope
  refine .ite (by rw [h.isOver]) (fun _ ↦ h.here) fun _ ↦ ?_
  cases cue with
  | talk line => exact (hentered true).talk line (hticket true) scopes scopes'
  | telop text => exact (hentered true).telop text (hticket true) scopes scopes'
  | model change => exact (hentered false).changeModel change (hticket false)
  | tremble axis character => exact ((hentered false).release (hticket false)).here
  | cover cover visible seconds =>
      exact (hentered false).coverScreen cover visible _ (hticket false) scopes scopes'
  | shake shake seconds =>
      exact (hentered false).shakeTarget shake _ (hticket false) scopes scopes'
  | scenery scenery path =>
      exact ((hentered false).changeScenery scenery path (hticket false)).here
  | delay seconds => exact (hentered false).sleep _ (.release (hticket false)) scopes scopes'
  | waitForAll =>
      exact ((hentered false).release (hticket false)).suspend (.drained hscope .actions true)
        .nothing scopes scopes'
  | waitForTap =>
      exact ((hentered false).release (hticket false)).suspend (.drained hscope .taps true)
        .nothing scopes scopes'

/-! ## Actions -/

/-- Every action but a cue begins with a ticket that is given back at once. -/
theorem pass (h : p.Abreast N v) (hscope : (scope, scope') ∈ N.ids) (step : Option Nat) :
    (((p.announce step).enter scope false).release
      ((p.announce step).session.ticket scope false)).Abreast N
        (((v.announce step).enter scope' false).release
          ((v.announce step).session.ticket scope' false)) :=
  ((h.announce step).enter hscope false).release ((h.announce step).session.ticket hscope false)

theorem openWithin (h : p.Abreast N v) (hscope : (scope, scope') ∈ N.ids) (step : Option Nat) :
    (p.openWithin scope step).Abreast (N.meetId p.session.serial v.session.serial)
      (v.openWithin scope' step) := by
  have hpassed := h.pass hscope step
  have hopened := hpassed.session.openScope (some scope) (some scope')
  rw [serial_passed, serial_passed] at hopened
  exact hpassed.learn (N.le_meetId _ _) rfl rfl hopened

/-- To its own timeline, a fork does what a cue does that nobody sees. -/
theorem openStray (h : p.Abreast N v) (hscope : (scope, scope') ∈ N.ids) (step : Option Nat) :
    (p.openWithin scope step).Abreast (N.strayScope p.session.serial)
      (((v.announce step).enter scope' false).release
        ((v.announce step).session.ticket scope' false)) := by
  have hpassed := h.pass hscope step
  have hopened := hpassed.session.openStray (some scope)
  rw [serial_passed] at hopened
  exact hpassed.learn (N.le_strayScope _) rfl rfl hopened

mutual

theorem perform {N : Naming} {p v : Playback} {scope scope' : Nat} (action : Action)
    (h : p.Abreast N v) (htapless : action.forksTapless = true) (hscope : (scope, scope') ∈ N.ids)
    (scopes scopes' : List Nat) (step : Option Nat) :
    (perform action scope scopes step p).AbreastFrom N
      (perform action.solo scope' scopes' step v) := by
  cases action with
  | cue cue => exact (h.note _ _ scope scope' step).performCue cue hscope scopes scopes' step
  | block parts =>
      simp only [Action.solo, Playback.perform]
      refine .ite (by rw [h.isOver]) (fun _ ↦ h.here) fun _ ↦ ?_
      have hopened := (h.note (.block parts) (.block (Action.soloAll parts)) scope scope' step).openWithin
        hscope step
      rw [note_session, note_session] at hopened
      have hle := N.le_meetId p.session.serial v.session.serial
      have hinner := N.mem_meetId p.session.serial v.session.serial
      obtain ⟨M, hle', hparts⟩ := performAll parts hopened htapless hinner
        (p.session.serial :: scopes) (v.session.serial :: scopes')
      exact (hparts.performCue .waitForAll (hle'.ids hinner) _ _ none).weaken (hle.trans hle')
  | fork parts =>
      have hnoted := h.note (.fork parts) (.cue (.tremble .horizontal 0)) scope scope' step
      simp only [Action.solo, Playback.perform, Playback.performCue]
      by_cases hover : p.isOver = true
      · have hover' := hnoted.isOver
        rw [note_eq_self hover] at hover' hnoted
        rw [if_pos hover, if_pos (hover'.symm.trans hover)]
        exact hnoted.here
      · have hover' : ¬(v.note (.cue (.tremble .horizontal 0)) scope' step).isOver = true := by
          rwa [note_isOver, ← h.isOver]
        rw [if_neg hover, if_neg hover']
        have hopened := hnoted.openStray hscope step
        rw [note_session] at hopened
        exact (hopened.spawnStray (strays_walk htapless (N.mem_strayScope _)) _).weaken
          (N.le_strayScope _)

theorem performAll {N : Naming} {p v : Playback} {scope scope' : Nat} (parts : List Action)
    (h : p.Abreast N v) (htapless : Action.allForksTapless parts = true)
    (hscope : (scope, scope') ∈ N.ids) (scopes scopes' : List Nat) :
    (performAll parts scope scopes p).AbreastFrom N
      (performAll (Action.soloAll parts) scope' scopes' v) := by
  cases parts with
  | nil => exact h.here
  | cons part rest =>
      obtain ⟨hpart, hrest⟩ := Bool.and_eq_true_iff.mp htapless
      obtain ⟨M, hle, hperformed⟩ := perform part h hpart hscope scopes scopes' none
      exact (performAll rest hperformed hrest (hle.ids hscope) scopes scopes').weaken hle

end

/-! ## Turns -/

theorem begin (h : p.Abreast N v) {e e' : Errand} (he : N.SameErrand e e') :
    (p.begin e).AbreastFrom N (v.begin e') := by
  cases he with
  | perform htapless hscope step => exact h.perform _ htapless hscope _ _ step
  | sleep d he scopes scopes' => exact h.sleep d he scopes scopes'
  | drain hscope tally guarded he => exact h.suspend (.drained hscope tally guarded) he _ _
  | fastForward => exact h.suspend .unlit .nothing _ _

theorem proceed {agenda agenda' : List Errand} (h : p.Abreast N v)
    (hagenda : List.Forall₂ N.SameErrand agenda agenda') :
    (proceed agenda p).AbreastFrom N (proceed agenda' v) := by
  induction agenda generalizing N p v agenda' with
  | nil =>
      cases hagenda
      exact h.here
  | cons e rest ih =>
      obtain _ | @⟨_, _, _, rest', he, hrest⟩ := hagenda
      have hfree : p.turn.isFree = v.turn.isFree := by
        unfold Turn.isFree
        rw [h.turn.failed, isEmpty_eq_of_forall₂ h.turn.pauses]
      refine .ite (by rw [hfree]) (fun _ ↦ ?_) fun _ ↦ h.here
      have htaken : (p.updateTurn fun t ↦ { t with agenda := rest }).Abreast N
          (v.updateTurn fun t ↦ { t with agenda := rest' }) :=
        ⟨{ h.mirrors with }, { h.turn with agenda := hrest }⟩
      obtain ⟨M, hle, hbegun⟩ := htaken.begin he
      exact (ih hbegun (hrest.imp fun _ _ he ↦ he.mono hle)).weaken hle

theorem revisit (h : p.Abreast N v) {x x' : Pause} (hx : N.SamePause x x') :
    (p.revisit x).AbreastFrom N (v.revisit x') := by
  refine .ite (by rw [h.turn.failed]) (fun _ ↦ h.here) fun _ ↦ ?_
  have htaken : (p.updateTurn fun t ↦ { t with pauses := t.pauses.tail }).Abreast N
      (v.updateTurn fun t ↦ { t with pauses := t.pauses.tail }) := by
    have htail := List.forall₂_drop 1 h.turn.pauses
    rw [List.drop_one, List.drop_one] at htail
    exact ⟨{ h.mirrors with }, { h.turn with pauses := htail }⟩
  exact htaken.suspend hx.wait hx.ending _ _

theorem revisitAll {pauses pauses' : List Pause} (h : p.Abreast N v)
    (hpauses : List.Forall₂ N.SamePause pauses pauses') :
    (pauses.foldl (fun p x ↦ p.revisit x) p).AbreastFrom N
      (pauses'.foldl (fun v x ↦ v.revisit x) v) := by
  induction pauses generalizing N p v pauses' with
  | nil =>
      cases hpauses
      exact h.here
  | cons x rest ih =>
      obtain _ | ⟨hx, hrest⟩ := hpauses
      obtain ⟨M, hle, hvisited⟩ := h.revisit hx
      exact (ih hvisited (hrest.imp fun _ _ hx ↦ hx.mono hle)).weaken hle

end Abreast

namespace Mirrors

variable {task task' : Task}

theorem abandonAll (h : p.Mirrors N v) {pauses pauses' : List Pause}
    (hpauses : List.Forall₂ N.SamePause pauses pauses') :
    (p.abandonAll pauses).Mirrors N (v.abandonAll pauses') := by
  have hparks : List.Forall₂ (fun a b ↦ (a, b) ∈ N.ids) (pauses.filterMap Pause.park?)
      (pauses'.filterMap Pause.park?) := by
    refine List.rel_filterMap (fun x x' hx ↦ ?_) hpauses
    obtain ⟨wait, ending, scopes⟩ := x
    obtain ⟨wait', ending', scopes'⟩ := x'
    cases hx.wait with
    | tap hpark kind hauto => exact .some hpark
    | _ => exact .none
  unfold Playback.abandonAll
  revert hparks
  generalize pauses.filterMap Pause.park? = parks
  generalize pauses'.filterMap Pause.park? = parks'
  intro hparks
  induction hparks generalizing p v with
  | nil => exact h
  | cons hpark _ ih => exact ih (h.withSession (h.session.abandon hpark))

theorem endTask (h : p.Mirrors N v) (ht : N.SameTask task task') (outcome outcome' : Outcome) :
    (p.endTask task outcome).Mirrors N (v.endTask task' outcome') :=
  { h.removeTask ht.id with }

theorem wake (h : p.Mirrors N v) {id id' : Nat} (hid : (id, id') ∈ N.tasks) :
    (p.wake id).Mirrors N (v.wake id') := by
  have hqueue := h.enqueue (.pair hid .nil : Weave _ _ [id] [id'])
  have hwake : ∀ (q : Playback) (id : Nat),
      q.wake id = { q with queue := Playback.enqueue q.queue [id] } := fun q id ↦ wakeAll_eq q [id]
  rw [hwake, hwake]
  exact { h with queue := hqueue }

end Mirrors

/-- At the end of its turn a task is put back in both playbacks, or taken out of both. -/
theorem Abreast.endTurn {task task' : Task} (h : p.Abreast N v) (ht : N.SameTask task task') :
    (p.endTurn task).Mirrors N (v.endTurn task') := by
  have hcleared : (p.updateTurn fun _ ↦ .none).Mirrors N (v.updateTurn fun _ ↦ .none) :=
    { h.mirrors with }
  unfold Playback.endTurn
  dsimp only
  rw [h.turn.failed, isEmpty_eq_of_forall₂ h.turn.pauses, h.turn.again]
  split
  · exact (hcleared.endTask ht _ _).abandonAll h.turn.pauses
  split
  · exact hcleared.endTask ht _ _
  have hput := hcleared.modifyTask ht.id
    (f := fun t ↦ { t with agenda := p.turn.agenda, pauses := p.turn.pauses })
    (g := fun t ↦ { t with agenda := v.turn.agenda, pauses := v.turn.pauses })
    fun hsame ↦ { hsame with agenda := h.turn.agenda, pauses := h.turn.pauses }
  split
  · exact hput.wake ht.id
  · exact hput

/-- A turn of the main timeline, or of what belongs to it. -/
theorem Mirrors.takeTurn {task task' : Task} (h : p.Mirrors N v) (ht : N.SameTask task task') :
    ∃ M, N ≤ M ∧ (takeTurn task p).Mirrors M (takeTurn task' v) := by
  have hput := h.modifyTask ht.id (f := fun t ↦ { t with agenda := [], pauses := [] })
    (g := fun t ↦ { t with agenda := [], pauses := [] })
    fun hsame ↦ { hsame with agenda := .nil, pauses := .nil }
  have hbegun : (p.begun task).Abreast N (v.begun task') :=
    ⟨{ hput with }, ⟨ht.agenda, ht.pauses, rfl, rfl⟩⟩
  obtain ⟨L, hle, hvisited⟩ := hbegun.revisitAll ht.pauses
  obtain ⟨M, hle', hworked⟩ := hvisited.proceed (ht.agenda.imp fun _ _ he ↦ he.mono hle)
  exact ⟨M, hle.trans hle', hworked.endTurn (ht.mono (hle.trans hle'))⟩

theorem Mirrors.runTask (h : p.Mirrors N v) {id id' : Nat} (hid : (id, id') ∈ N.tasks) :
    ∃ M, N ≤ M ∧ (runTask id p).Mirrors M (runTask id' v) := by
  have htask := h.task? hid
  unfold Playback.runTask
  revert htask
  generalize p.task? id = a
  generalize v.task? id' = b
  rintro (ht | _)
  · dsimp only
    rw [ht.aborted]
    split
    · exact ⟨N, le_rfl, h.removeTask hid⟩
    · exact h.takeTurn ht
  · exact ⟨N, le_rfl, h⟩

end Playback

end Storyline
