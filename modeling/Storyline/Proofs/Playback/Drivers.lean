import Storyline.Proofs.Playback.Titles

/-!
# The drivers of shakes

Every shake is driven by a task of its own, which waits from frame to frame and
does nothing else.  Apart from the frames and from the shakes that are taken up,
a turn neither moves a shaken target nor adds or drops a driver.
-/

namespace Storyline

/-- The draws of a host are taken from the range that they are asked for: there is
such a range, and nothing is drawn outside of it. -/
structure Host.Draws (host : Host) (magnitude : Binary32) : Prop where
  spans : Playback.canSway magnitude = true → Playback.spans magnitude = true
  within : Playback.canSway magnitude = true → ∀ n, (host.sway n magnitude).absLe magnitude = true

/-- An offset that is none, or that lies within a magnitude. -/
def Within (magnitude : Binary32) (offset : Binary32 × Binary32) : Prop :=
  offset = Stage.still ∨ offset.1.absLe magnitude = true ∧ offset.2.absLe magnitude = true

/-- A task that drives a shake: the target, the stamp and the duration of the shake
and, once the driver has begun, when that was, the frame that it waits for and the
timer of this frame. -/
structure Driver where
  task : Nat
  shake : Shake
  stamp : Nat
  duration : Duration
  frame : Option (Nat × Nat × Timer)
deriving DecidableEq

namespace Driver

/-- The errand of a driver that has yet to begin. -/
def agenda (x : Driver) : List Errand :=
  match x.frame with
  | none => [.animate x.shake x.stamp x.duration]
  | some _ => []

/-- What a driver that has begun waits for. -/
def pauses (x : Driver) : List Pause :=
  match x.frame with
  | none => []
  | some (start, ticks, timer) =>
    [⟨.frame x.shake x.stamp x.duration start ticks timer, .nothing, []⟩]

/-- The driver has its given frame now, the frames being counted from its start. -/
def Reaches (x : Driver) (now start ticks : Nat) : Prop :=
  x.frame = none ∧ start = now ∧ ticks = 0 ∨
    ∃ timer, x.frame = some (start, ticks, timer) ∧ timer.due = some now

end Driver

def Errand.driver? (id : Nat) : Errand → Option Driver
  | animate shake stamp d => some ⟨id, shake, stamp, d, none⟩
  | _ => none

def Wait.driver? (id : Nat) : Wait → Option Driver
  | frame shake stamp d start ticks timer => some ⟨id, shake, stamp, d, some (start, ticks, timer)⟩
  | _ => none

def Pause.driver? (id : Nat) (q : Pause) : Option Driver := q.wait.driver? id

/-- All that a task with this agenda and these pauses drives. -/
def drivers (id : Nat) (agenda : List Errand) (pauses : List Pause) : List Driver :=
  agenda.filterMap (Errand.driver? id) ++ pauses.filterMap (Pause.driver? id)

def Task.drivers (t : Task) : List Driver := Storyline.drivers t.id t.agenda t.pauses

/-- A task that drives nothing, or one shake and does nothing else. -/
def Lone (id : Nat) (agenda : List Errand) (pauses : List Pause) : Prop :=
  drivers id agenda pauses = [] ∨ ∃ x : Driver, x.task = id ∧ agenda = x.agenda ∧ pauses = x.pauses

theorem Driver.drivers_eq (x : Driver) : drivers x.task x.agenda x.pauses = [x] := by
  obtain ⟨task, shake, stamp, d, _ | ⟨start, ticks, timer⟩⟩ := x <;> rfl

theorem drivers_nil (id : Nat) : drivers id [] [] = [] := rfl

theorem drivers_of_performs {id : Nat} {agenda : List Errand}
    (h : ∀ e ∈ agenda, e.driver? id = none) : drivers id agenda [] = [] := by
  rw [drivers, List.filterMap_eq_nil_iff.mpr h, List.filterMap_nil, List.append_nil]

namespace Stage

theorem shake_setShake_self (k : Shake) (state : ShakeState) (s : Stage) :
    (s.setShake k state).shake k = state := by
  cases k <;> rfl

theorem shake_setShake_ne {k other : Shake} (h : other ≠ k) (state : ShakeState) (s : Stage) :
    (s.setShake k state).shake other = s.shake other := by
  cases k <;> cases other <;> first | rfl | exact absurd rfl h

end Stage

theorem ModelChange.shake_apply {change : ModelChange} {s s' : Stage} (h : change.apply s = some s') :
    s'.shake = s.shake := by
  obtain ⟨f, hf⟩ := change.apply_layouts
  rw [hf] at h
  obtain ⟨layouts, -, rfl⟩ := Option.map_eq_some_iff.mp h
  rfl

theorem Within.zero_le {magnitude : Binary32} {offset : Binary32 × Binary32}
    (h : Within magnitude offset) (hm : magnitude.isNaN = false) :
    offset.1.absLe magnitude = true ∧ offset.2.absLe magnitude = true := by
  rcases h with rfl | h
  · simp [Stage.still, Binary.absLe, Binary.zero, hm]
    decide
  · exact h

namespace Playback

/-- Part of a turn that has nothing to do with shakes. -/
structure Unshaken (p q : Playback) : Prop where
  targets : q.session.stage.shake = p.session.stage.shake
  pauses : ∀ id, q.turn.pauses.filterMap (Pause.driver? id) = p.turn.pauses.filterMap (Pause.driver? id)
  tasks : ∃ new, q.tasks = p.tasks ++ new ∧ ∀ t ∈ new, t.drivers = []

variable {p q r : Playback}

namespace Unshaken

theorem of_stirs (h : p.Stirs q) (htargets : q.session.stage.shake = p.session.stage.shake) :
    Unshaken p q :=
  ⟨htargets, fun _ ↦ by rw [h.pauses], [], by rw [h.tasks, List.append_nil], by simp⟩

theorem refl (p : Playback) : Unshaken p p := .of_stirs (.refl p) rfl

theorem trans (h : Unshaken p q) (h' : Unshaken q r) : Unshaken p r where
  targets := h'.targets.trans h.targets
  pauses := fun id ↦ (h'.pauses id).trans (h.pauses id)
  tasks := by
    obtain ⟨new, hnew, hadded⟩ := h.tasks
    obtain ⟨new', hnew', hadded'⟩ := h'.tasks
    refine ⟨new ++ new', by rw [hnew', hnew, List.append_assoc], fun t ht ↦ ?_⟩
    exact (List.mem_append.mp ht).elim (hadded t) (hadded' t)

theorem of_turn {f : Turn → Turn}
    (h : ∀ t id, (f t).pauses.filterMap (Pause.driver? id) = t.pauses.filterMap (Pause.driver? id)) :
    Unshaken p (p.updateTurn f) :=
  ⟨rfl, fun id ↦ h p.turn id, [], (List.append_nil _).symm, by simp⟩

end Unshaken

/-! ## What leaves shakes alone -/

theorem targets_present {f : Stage → Stage} (hf : ∀ s : Stage, (f s).shake = s.shake) (s : Session) :
    (s.present f).stage.shake = s.stage.shake := by
  unfold Session.present
  split
  · rfl
  · exact hf s.stage

theorem targets_presentIf {f : Stage → Option Stage}
    (hf : ∀ s s' : Stage, f s = some s' → s'.shake = s.shake) (s : Session) :
    (s.presentIf f).stage.shake = s.stage.shake := by
  unfold Session.presentIf
  split
  · rfl
  split
  next stage hstage => exact hf _ _ hstage
  next => rfl

theorem unshaken_present {f : Stage → Stage} (hf : ∀ s : Stage, (f s).shake = s.shake) :
    Unshaken p (p.update (.present f)) := .of_stirs (p.stirs_present f) (targets_present hf p.session)

theorem unshaken_presentIf {f : Stage → Option Stage}
    (hf : ∀ s s' : Stage, f s = some s' → s'.shake = s.shake) :
    Unshaken p (p.update (.presentIf f)) :=
  .of_stirs (p.stirs_presentIf f) (targets_presentIf hf p.session)

theorem unshaken_announce (step : Option Nat) : Unshaken p (p.announce step) := by
  cases step with
  | none => exact .refl p
  | some n => exact unshaken_present fun _ ↦ rfl

theorem unshaken_arm : Unshaken p p.arm := .of_stirs p.stirs_arm rfl

theorem unshaken_enter (scope : Nat) (tapBlocking : Bool) : Unshaken p (p.enter scope tapBlocking) := by
  refine .of_stirs (p.stirs_enter scope tapBlocking) ?_
  rw [enter_eq_touch, touch_session]
  rfl

theorem stage_release (t : Ticket) : (p.release t).session.stage = p.session.stage := by
  have hcount : ∀ (p : Playback) (tally : Tally) (epoch : Nat),
      (p.releaseCount t.scope tally epoch).session.stage = p.session.stage := by
    intro p tally epoch
    unfold releaseCount
    split
    · rfl
    · split
      · rw [update_raise_eq_touch, touch_session]
        rfl
      · rfl
  unfold release
  cases t.tapEpoch with
  | none => exact hcount p _ _
  | some epoch => exact (hcount _ _ _).trans (hcount p _ _)

theorem unshaken_release (t : Ticket) : Unshaken p (p.release t) :=
  .of_stirs (p.stirs_release t) (congrArg Stage.shake (stage_release t))

theorem unshaken_finish (ending : Ending) : Unshaken p (p.finish ending) := by
  cases ending with
  | nothing => exact .refl p
  | release ticket => exact unshaken_release ticket
  | clearTelop text ticket =>
      refine (unshaken_presentIf fun s s' hs ↦ ?_).trans (unshaken_release ticket)
      unfold Stage.clearTelop at hs
      split at hs
      · rw [← Option.some.inj hs]
        rfl
      · cases hs
  | coverShown cover stamp ticket =>
      refine (unshaken_presentIf fun s s' hs ↦ ?_).trans (unshaken_release ticket)
      unfold Stage.coverShown at hs
      dsimp only at hs
      split at hs
      · rw [← Option.some.inj hs]
        cases cover <;> rfl
      · cases hs
  | background path => exact unshaken_present fun _ ↦ rfl
  | completed =>
      refine .of_stirs (p.stirs_finish .completed) ?_
      simp only [finish]
      split <;> rfl

/-- Only a frame of a shake moves anything when it is looked at. -/
theorem targets_look {wait : Wait} (h : wait.driver? 0 = none) :
    (p.look wait).1.session.stage.shake = p.session.stage.shake := by
  have hunpark : ∀ (p : Playback) (park : Nat), (p.unpark park).session.stage = p.session.stage := by
    intro p park
    rw [unpark_eq_touch, touch_session]
    rfl
  have hdwell : ∀ (park : Nat) (kind : Dwell) (d : Duration),
      (p.dwell park kind d).1.session.stage = p.session.stage := by
    intro park kind d
    unfold dwell
    dsimp only
    split
    · exact hunpark p.arm park
    · rfl
  have htick : ∀ start ticks : Nat,
      (p.fastForwardTick.waitForTick start ticks).1.session.stage = p.session.stage := by
    intro start ticks
    simp only [waitForTick, arm, update, fastForwardTick_session]
    rfl
  refine congrArg Stage.shake ?_
  cases wait with
  | tap park kind auto =>
      simp only [look, lookAtTap]
      split
      · rfl
      split
      · rfl
      split
      · rfl
      cases auto with
      | off =>
          cases kind with
          | fixed d => exact hdwell park _ d
          | voice =>
              simp only [beginLingering]
              split <;> rfl
      | listening start ticks timer =>
          dsimp only
          split
          · rfl
          split
          · rfl
          · exact hdwell park _ _
      | dwelling timer =>
          dsimp only
          split
          · exact hunpark p park
          · rfl
  | sleep timer skips =>
      simp only [look, lookAtSleep]
      split
      · rfl
      split <;> rfl
  | drained scope tally guarded =>
      simp only [look, lookAtCount]
      split
      · rfl
      split <;> rfl
  | cancelled => rfl
  | frame => cases h
  | forward ticker =>
      simp only [look, lookAtForward]
      split
      · rfl
      split
      · split <;> rfl
      · split
        · exact htick _ _
        · rfl

theorem unshaken_look {wait : Wait} (h : wait.driver? 0 = none) : Unshaken p (p.look wait).1 :=
  .of_stirs (p.stirs_look wait) (targets_look h)

theorem unshaken_leave {pause : Pause} (h : ∀ id, pause.driver? id = none) :
    Unshaken p (p.leave pause) := by
  refine .of_turn fun t id ↦ ?_
  rw [List.filterMap_append, List.filterMap_cons_none (h id), List.filterMap_nil, List.append_nil]

theorem driver?_eq_none {wait : Wait} {id : Nat} (h : wait.driver? id = none) (other : Nat) :
    wait.driver? other = none := by
  cases wait with
  | frame => cases h
  | _ => rfl

theorem driver?_of_look {wait w : Wait} (h : wait.driver? 0 = none) (hlook : p.look wait = (q, .waits w)) :
    w.driver? 0 = none := by
  cases look_becomes hlook with
  | same => exact h
  | frame => cases h
  | _ => rfl

theorem unshaken_suspend {wait : Wait} {ending : Ending} {scopes : List Nat}
    (h : wait.driver? 0 = none) : Unshaken p (p.suspend wait ending scopes) := by
  have hlook := unshaken_look (p := p) h
  unfold suspend
  split
  next q w heq =>
    rw [heq] at hlook
    exact hlook.trans (unshaken_leave (driver?_eq_none (driver?_of_look h heq)))
  next q ran heq =>
    rw [heq] at hlook
    split
    · exact hlook.trans (unshaken_finish ending)
    · exact hlook
  next q heq =>
    rw [heq] at hlook
    have hleft : Unshaken q (q.leave ⟨wait, ending, scopes⟩) := unshaken_leave (driver?_eq_none h)
    exact { hlook.trans hleft with }

theorem unshaken_spawn (scope : Option Nat) {agenda : List Errand} (h : ∀ e ∈ agenda, ∀ id, e.driver? id = none) :
    Unshaken p (p.spawn scope agenda) := by
  unfold spawn
  split
  · exact .refl p
  · refine ⟨rfl, fun _ ↦ rfl, [_], rfl, fun t ht ↦ ?_⟩
    rw [List.mem_singleton.mp ht]
    exact drivers_of_performs fun e he ↦ h e he p.spawned

theorem unshaken_sleep (d : Duration) (ending : Ending) (scopes : List Nat) :
    Unshaken p (p.sleep d ending scopes) := unshaken_arm.trans (unshaken_suspend rfl)

theorem unshaken_park (kind : Dwell) (ending : Ending) (scopes : List Nat) :
    Unshaken p (p.park kind ending scopes) :=
  (Unshaken.of_stirs p.stirs_park rfl).trans (unshaken_suspend rfl)

theorem unshaken_speak (line : Line) : Unshaken p (p.speak line) := by
  refine .of_stirs (p.stirs_speak line) ?_
  unfold speak
  split
  · unfold update Session.playVoice
    dsimp only
    split
    next blob _ =>
      obtain ⟨calls, voiceEnd, h⟩ := Ledger.stopAndPlay .voice (.blob blob) false p.session
      rw [h]
    next => rfl
  · rfl

theorem unshaken_changeScenery (scenery : Scenery) (path : String) (ticket : Ticket) :
    Unshaken p (p.changeScenery scenery path ticket) := by
  refine .of_stirs (p.stirs_changeScenery scenery path ticket) ?_
  refine (congrArg Stage.shake (stage_release ticket)).trans
    ((targets_present (fun s ↦ by cases scenery <;> rfl) _).trans ?_)
  cases scenery with
  | background => rfl
  | bgm =>
      obtain ⟨calls, voiceEnd, h⟩ := Ledger.stopAndPlay .bgm (.path path) true p.session
      simp only [update, h]
  | se =>
      obtain ⟨calls, voiceEnd, h⟩ := p.session.playSound_eq .se (.path path) false
      simp only [update, h]

theorem unshaken_openWithin (scope : Nat) (step : Option Nat) : Unshaken p (p.openWithin scope step) := by
  have hopen : ∀ q : Playback, Unshaken q (q.update fun s ↦ (s.openScope (some scope)).2) :=
    fun _ ↦ .of_stirs (.of_update (Session.carries_openScope _)) rfl
  exact (unshaken_announce step).trans
    ((unshaken_enter scope false).trans ((unshaken_release _).trans (hopen _)))

theorem unshaken_note (action : Action) (scope : Nat) (step : Option Nat) :
    Unshaken p (p.note action scope step) where
  targets := congrArg (fun s : Session ↦ s.stage.shake) (note_session action scope step)
  pauses := fun _ ↦ by rw [note_turn]
  tasks := ⟨[], by unfold note; split <;> simp, by simp⟩

/-- Every cue but a shake leaves shakes alone. -/
theorem unshaken_performCue {cue : Cue} (scope : Nat) (scopes : List Nat) (step : Option Nat)
    (h : ∀ shake seconds, cue ≠ .shake shake seconds) : Unshaken p (p.performCue cue scope scopes step) := by
  unfold performCue
  split
  · exact .refl p
  refine ((unshaken_announce step).trans (unshaken_enter scope cue.isTapBlocking)).trans ?_
  cases cue with
  | talk line =>
      refine (Unshaken.of_stirs (stirs_tell _ line) ?_).trans ((unshaken_speak line).trans (unshaken_park _ _ _))
      exact targets_present (f := Stage.setTalk line) (fun _ ↦ rfl) _
  | telop text =>
      exact (unshaken_present (f := Stage.setTelop text) fun _ ↦ rfl).trans (unshaken_park _ _ _)
  | model change =>
      exact (unshaken_presentIf fun _ _ hs ↦ change.shake_apply hs).trans
        (unshaken_spawn _ (by simp [Errand.driver?]))
  | tremble axis character => exact unshaken_release _
  | cover cover visible seconds =>
      refine (Unshaken.of_stirs (stirs_number _ _) ?_).trans (unshaken_sleep _ _ _)
      exact targets_present (fun _ ↦ by cases cover <;> rfl) _
  | shake shake seconds => exact absurd rfl (h shake seconds)
  | scenery scenery path => exact unshaken_changeScenery _ _ _
  | delay seconds => exact unshaken_sleep _ _ _
  | waitForAll | waitForTap => exact (unshaken_release _).trans (unshaken_suspend rfl)

/-- A shake that is taken up gets the next number for a stamp and a driver of its own. -/
theorem performCue_shake (shake : Shake) (seconds : Binary64) (scope : Nat) (scopes : List Nat)
    (step : Option Nat) (hover : p.isOver = false) :
    let q := (p.note (.cue (.shake shake seconds)) scope step).performCue (.shake shake seconds) scope
      scopes step
    p.session.serial < q.session.serial ∧ q.turn.agenda = p.turn.agenda ∧
      (∀ id, q.turn.pauses.filterMap (Pause.driver? id) = p.turn.pauses.filterMap (Pause.driver? id)) ∧
      q.session.stage.shake shake =
        ⟨.ofSeconds seconds, (p.session.stage.shake shake).offset, p.session.serial⟩ ∧
      (∀ k, k ≠ shake → q.session.stage.shake k = p.session.stage.shake k) ∧
      ∃ id, q.tasks = p.tasks ++
        [⟨id, true, false, none, false, [.animate shake p.session.serial (.ofSeconds seconds)], []⟩] := by
  have hc : p.session.cancelled = false := by
    simp only [isOver, Bool.or_eq_false_iff] at hover
    exact hover.1
  obtain ⟨r, hr⟩ : ∃ r, r = ((p.note (.cue (.shake shake seconds)) scope step).announce step).enter scope
    false := ⟨_, rfl⟩
  have hstirs : (p.note (.cue (.shake shake seconds)) scope step).Stirs r :=
    hr ▸ (stirs_announce _ step).trans (stirs_enter _ scope false)
  have hbefore : Unshaken p r := hr ▸ (unshaken_note _ scope step).trans
    ((unshaken_announce step).trans (unshaken_enter scope false))
  have hserial : r.session.serial = p.session.serial := by
    rw [hr, serial_enter, serial_announce, note_session]
  have hgoes : r.session.cancelled = false := by
    refine (Session.cancelled_eq ?_).trans hc
    rw [hr]
    exact (settings_enter _ _).trans
      ((settings_announce step).trans (congrArg Session.settings (note_session _ _ _)))
  -- the stage, and the driver
  obtain ⟨u, hu⟩ : ∃ u, u = r.update fun s ↦
    s.nextSerial.2.present (Stage.startShake shake (.ofSeconds seconds) p.session.serial) := ⟨_, rfl⟩
  have hcu : u.session.cancelled = false := by
    simp [hu, update, Session.present, Session.nextSerial, hgoes]
  have hpast : u.session.serial = p.session.serial + 1 := by
    simp [hu, update, Session.present, Session.nextSerial, hgoes, hserial]
  have hstage : u.session.stage =
      Stage.startShake shake (.ofSeconds seconds) p.session.serial r.session.stage := by
    simp [hu, update, Session.present, Session.nextSerial, hgoes]
  obtain ⟨v, hv⟩ : ∃ v, v = u.addTask true false none
    [.animate shake p.session.serial (.ofSeconds seconds)] := ⟨_, rfl⟩
  have hturn : v.turn = r.turn := by rw [hv, hu]; rfl
  obtain ⟨ticket, hperform⟩ : ∃ ticket, (p.note (.cue (.shake shake seconds)) scope step).performCue
      (.shake shake seconds) scope scopes step = v.sleep (.ofSeconds seconds) (.release ticket) scopes := by
    refine ⟨((p.note (.cue (.shake shake seconds)) scope step).announce step).session.ticket scope false, ?_⟩
    unfold performCue
    rw [if_neg (by simp [note_isOver, hover])]
    dsimp only [Cue.isTapBlocking]
    rw [← hr, shakeTarget, hserial]
    rw [← hu, spawn, if_neg (by simp [hcu]), ← hv]
  intro q
  have hq : q = v.sleep (.ofSeconds seconds) (.release ticket) scopes := hperform
  have hafter : Unshaken v q := hq ▸ unshaken_sleep _ _ _
  have htargets : q.session.stage.shake =
      (Stage.startShake shake (.ofSeconds seconds) p.session.serial r.session.stage).shake := by
    rw [hafter.targets, hv]
    exact congrArg Stage.shake hstage
  refine ⟨?_, ?_, fun id ↦ ?_, ?_, fun k hk ↦ ?_, u.spawned, ?_⟩
  · have hlater : v.session.serial ≤ q.session.serial := hq ▸ serial_suspend (p := v.arm) _ _ _
    have hsame : v.session.serial = u.session.serial := by rw [hv]; rfl
    omega
  · rw [hq, Playback.sleep, suspend_agenda]
    change v.turn.agenda = _
    rw [hturn, hstirs.agenda, note_turn]
  · rw [hafter.pauses, hturn, hbefore.pauses]
  · rw [htargets, Stage.startShake, Stage.shake_setShake_self, hbefore.targets]
  · rw [htargets, Stage.startShake, Stage.shake_setShake_ne hk, hbefore.targets]
  · have htasks : r.tasks = p.tasks := by
      rw [hstirs.tasks]
      unfold note
      split <;> rfl
    rw [hq, Playback.sleep, suspend_tasks.1]
    change v.tasks = _
    rw [hv, ← htasks, hu]
    rfl

theorem walk_driver? (scope : Nat) (indexed : Bool) (actions : List Action) :
    ∀ e ∈ walk scope indexed actions, ∀ id, e.driver? id = none := by
  intro e he id
  obtain ⟨a, -, rfl⟩ := List.mem_map.mp he
  rfl

/-- An errand leaves shakes alone, unless it performs an action or drives a shake. -/
theorem unshaken_begin {errand : Errand} (h : ∀ action scope step, errand ≠ .perform action scope step)
    (hidle : errand.driver? 0 = none) : Unshaken p (p.begin errand) := by
  cases errand with
  | perform action scope step => exact absurd rfl (h action scope step)
  | sleep d ending scopes => exact unshaken_sleep d ending scopes
  | animate => cases hidle
  | _ => exact unshaken_suspend rfl

/-! ## What a frame does -/

/-- What becomes of a shake at a frame: another shake has taken its target over, and
nothing changes but what has been drawn; or it has lasted long enough and its target comes to
rest; or its target is moved and the next frame is waited for. -/
inductive Frames (p : Playback) (shake : Shake) (stamp : Nat) (d : Duration) (start ticks : Nat) :
    Playback × Verdict → Prop
  | stale {q : Playback} {draws : Nat} (hq : q.session = { p.session with draws := draws })
    (hstamp : (p.session.stage.shake shake).stamp ≠ stamp) :
    Frames p shake stamp d start ticks (q, .ends true)
  | rests {q : Playback} (hstamp : (p.session.stage.shake shake).stamp = stamp)
    (hover : d.nanos ≤ (Duration.ofMillis (p.session.now - start)).nanos)
    (hq : q.session.stage = p.session.stage.setShake shake ⟨.zero, Stage.still, stamp⟩) :
    Frames p shake stamp d start ticks (q, .ends true)
  | sways {q : Playback} {offset : Binary32 × Binary32} {timer : Timer}
    (hstamp : (p.session.stage.shake shake).stamp = stamp)
    (hlasts : (Duration.ofMillis (p.session.now - start)).nanos < d.nanos)
    (hoffset : Within p.session.config.shakeMagnitude.abs offset)
    (hq : q.session.stage =
      p.session.stage.setShake shake { p.session.stage.shake shake with offset := offset })
    (hdue : timer.due = p.session.config.shakeFrame.period.tickFrom start (ticks + 1)) :
    Frames p shake stamp d start ticks (q, .waits (.frame shake stamp d start (ticks + 1) timer))

theorem drawOffset_spec (finished : Bool) (hdraws : p.session.host.Draws p.session.config.shakeMagnitude.abs) :
    ∃ n offset, p.drawOffset finished = (p.update (fun s ↦ { s with draws := n }), offset) ∧
      Within p.session.config.shakeMagnitude.abs offset ∧ (finished = true → offset = Stage.still) := by
  unfold drawOffset
  dsimp only
  split
  · exact ⟨p.session.draws, _, rfl, .inl rfl, fun _ ↦ rfl⟩
  next h =>
    obtain ⟨hf, hsway⟩ : finished = false ∧ canSway p.session.config.shakeMagnitude.abs = true := by
      simpa using h
    exact ⟨_, _, rfl, .inr ⟨hdraws.within hsway _, hdraws.within hsway _⟩, by simp [hf]⟩

theorem frames_lookAtFrame {shake : Shake} {stamp : Nat} {d : Duration} {start ticks : Nat} {timer : Timer}
    (hdraws : p.session.host.Draws p.session.config.shakeMagnitude.abs)
    (hc : p.session.cancelled = false) (hdue : timer.isDue p.session.now = true) :
    Frames p shake stamp d start ticks (p.lookAtFrame shake stamp d start ticks timer) := by
  unfold lookAtFrame
  rw [if_neg (by simp [hdue])]
  dsimp only
  have hspans : ∀ finished : Bool, (!finished && canSway p.session.config.shakeMagnitude.abs &&
      !spans p.session.config.shakeMagnitude.abs) = false := by
    intro finished
    cases hsway : canSway p.session.config.shakeMagnitude.abs with
    | false => simp
    | true => simp [hdraws.spans hsway]
  rw [hspans, if_neg (by simp)]
  obtain ⟨n, offset, hdraw, hoffset, hstill⟩ := drawOffset_spec
    (decide (d.nanos ≤ (Duration.ofMillis (p.session.now - start)).nanos)) hdraws
  rw [hdraw]
  dsimp only
  by_cases hstamp : (p.session.stage.shake shake).stamp = stamp
  · by_cases hover : d.nanos ≤ (Duration.ofMillis (p.session.now - start)).nanos
    · rw [if_pos (by simp [hover])]
      refine .rests hstamp hover ?_
      obtain rfl := hstill (by simpa using hover)
      simp [update, Session.presentIf, hc, Stage.sway, hstamp, hover]
    · rw [if_neg (by simp [hover, Session.accepts, update, hc, Stage.sway, hstamp])]
      refine .sways hstamp (Nat.lt_of_not_le hover) hoffset ?_ ?_
      · simp [update, arm, Session.presentIf, hc, Stage.sway, hstamp, hover]
      · simp [Playback.timer, update, Session.presentIf, hc, Stage.sway, hstamp]
  · rw [if_pos (by simp [Session.accepts, Stage.sway, update, hstamp])]
    have hsame : Session.presentIf (Stage.sway shake stamp
        (decide (d.nanos ≤ (Duration.ofMillis (p.session.now - start)).nanos)) offset)
        { p.session with draws := n } = { p.session with draws := n } := by
      simp [Session.presentIf, hc, Stage.sway, hstamp]
    exact .stale hsame hstamp

end Playback

end Storyline
