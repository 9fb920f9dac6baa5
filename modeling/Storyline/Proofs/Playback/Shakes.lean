import Storyline.Proofs.Playback.Covers
import Storyline.Proofs.Playback.Drivers
import Storyline.Proofs.Playback.Waiting

/-!
# Shakes step by step

A step of a machine leaves the shakes alone, or it takes up one shake, or it is
one frame of one driver.  A driver that has been overtaken does nothing at its
frame and ends; the others move their target or bring it to rest.
-/

namespace Storyline

namespace Machine

open Playback

/-- The state of a target of shakes. -/
def target (m : Machine) : Shake → ShakeState := m.playback.session.stage.shake

/-- All that drives shakes: waiting tasks, and the one that is running. -/
def drivers (m : Machine) : List Driver :=
  m.playback.tasks.flatMap Task.drivers ++
    m.running.toList.flatMap fun t ↦ Storyline.drivers t.id m.playback.turn.agenda m.playback.turn.pauses

/-- Whatever drives a shake does nothing else. -/
structure Posted (m : Machine) : Prop where
  tasks : ∀ t ∈ m.playback.tasks, Lone t.id t.agenda t.pauses
  turn : ∀ task, m.running = some task →
    Lone task.id m.playback.turn.agenda m.playback.turn.pauses ∧
      (m.playback.turn.failed = true →
        Storyline.drivers task.id m.playback.turn.agenda m.playback.turn.pauses = [])

/-- A session that goes on, with all its drivers at their posts. -/
structure Manned (m : Machine) : Prop where
  cast : Cast m
  goes : m.playback.session.cancelled = false
  whole : ∀ t ∈ m.playback.tasks, t.aborted = false
  draws : m.playback.session.host.Draws m.playback.session.config.shakeMagnitude.abs
  posted : Posted m

/-- All that a step can do to shakes and to their drivers. -/
inductive Tremor (m n : Machine) : Prop
  /-- Nothing. -/
  | calm (hdrivers : n.drivers.Perm m.drivers) (htargets : n.target = m.target)
  /-- A shake is taken up, with the next number of the session for a stamp. -/
  | rouse (x : Driver) (hbegins : x.frame = none) (hstamp : x.stamp = m.playback.session.serial)
    (hserial : m.playback.session.serial < n.playback.session.serial)
    (hdrivers : n.drivers.Perm (x :: m.drivers))
    (htarget : n.target x.shake = ⟨x.duration, (m.target x.shake).offset, x.stamp⟩)
    (hothers : ∀ k, k ≠ x.shake → n.target k = m.target k)
  /-- A driver whose target has been taken over ends at its frame. -/
  | stale (x : Driver) (start ticks draws armed : Nat)
    (hframe : x.Reaches m.playback.session.now start ticks)
    (hdrivers : m.drivers.Perm (x :: n.drivers)) (hstamp : (m.target x.shake).stamp ≠ x.stamp)
    (hsession : n.playback.session = { m.playback.session with draws := draws, armed := armed })
  /-- A driver whose shake has lasted long enough brings its target to rest and ends. -/
  | rests (x : Driver) (start ticks : Nat) (hframe : x.Reaches m.playback.session.now start ticks)
    (hdrivers : m.drivers.Perm (x :: n.drivers)) (hstamp : (m.target x.shake).stamp = x.stamp)
    (hover : x.duration.nanos ≤ (Duration.ofMillis (m.playback.session.now - start)).nanos)
    (htarget : n.target x.shake = ⟨.zero, Stage.still, x.stamp⟩)
    (hothers : ∀ k, k ≠ x.shake → n.target k = m.target k)
  /-- A driver moves its target and waits for its next frame. -/
  | sways (x : Driver) (start ticks : Nat) (timer : Timer) (offset : Binary32 × Binary32)
    (rest : List Driver) (hframe : x.Reaches m.playback.session.now start ticks)
    (hbefore : m.drivers.Perm (x :: rest))
    (hafter : n.drivers.Perm ({ x with frame := some (start, ticks + 1, timer) } :: rest))
    (hdue : timer.due = m.playback.session.config.shakeFrame.period.tickFrom start (ticks + 1))
    (hstamp : (m.target x.shake).stamp = x.stamp)
    (hlasts : (Duration.ofMillis (m.playback.session.now - start)).nanos < x.duration.nanos)
    (hoffset : Within m.playback.session.config.shakeMagnitude.abs offset)
    (htarget : n.target x.shake = { m.target x.shake with offset := offset })
    (hothers : ∀ k, k ≠ x.shake → n.target k = m.target k)

section

variable {m n : Machine} {p q : Playback} {task : Task} {jobs jobs' : List Job}

theorem drivers_running : (⟨p, some task, jobs⟩ : Machine).drivers =
    p.tasks.flatMap Task.drivers ++ Storyline.drivers task.id p.turn.agenda p.turn.pauses := by
  simp [drivers]

theorem drivers_resting : (resting p).drivers = p.tasks.flatMap Task.drivers := by
  simp [drivers, resting]

/-! ## What leaves shakes alone -/

theorem flatMap_unshaken (h : Unshaken p q) :
    q.tasks.flatMap Task.drivers = p.tasks.flatMap Task.drivers := by
  obtain ⟨new, hnew, hadded⟩ := h.tasks
  rw [hnew, List.flatMap_append, List.flatMap_eq_nil_iff.mpr hadded, List.append_nil]

theorem lone_unshaken (h : Unshaken p q) (hp : ∀ t ∈ p.tasks, Lone t.id t.agenda t.pauses) :
    ∀ t ∈ q.tasks, Lone t.id t.agenda t.pauses := by
  obtain ⟨new, hnew, hadded⟩ := h.tasks
  intro t ht
  exact (List.mem_append.mp (hnew ▸ ht)).elim (hp t) fun ht ↦ .inl (hadded t ht)

theorem idle_unshaken {id : Nat} (h : Unshaken p q) (hagenda : q.turn.agenda ⊆ p.turn.agenda)
    (hidle : Storyline.drivers id p.turn.agenda p.turn.pauses = []) :
    Storyline.drivers id q.turn.agenda q.turn.pauses = [] := by
  obtain ⟨hnone, hpauses⟩ := List.append_eq_nil_iff.mp hidle
  have hnone' := List.filterMap_eq_nil_iff.mp hnone
  rw [Storyline.drivers, h.pauses, hpauses, List.append_nil, List.filterMap_eq_nil_iff]
  exact fun e he ↦ hnone' e (hagenda he)

/-- Part of the turn of a task that drives nothing leaves shakes alone, if the part
has nothing to do with them. -/
theorem calm_within (hm : Posted ⟨p, some task, jobs⟩)
    (hidle : Storyline.drivers task.id p.turn.agenda p.turn.pauses = []) (h : Unshaken p q)
    (hagenda : q.turn.agenda ⊆ p.turn.agenda) :
    Tremor ⟨p, some task, jobs⟩ ⟨q, some task, jobs'⟩ ∧ Posted ⟨q, some task, jobs'⟩ := by
  have hidle' := idle_unshaken h hagenda hidle
  refine ⟨.calm ?_ h.targets, lone_unshaken h hm.tasks, fun t ht ↦ ?_⟩
  · rw [drivers_running, drivers_running, hidle, hidle', flatMap_unshaken h]
  · obtain rfl := Option.some.inj ht
    exact ⟨.inl hidle', fun _ ↦ hidle'⟩

/-! ## A frame -/

/-- The turn of a driver that waits for its next frame. -/
theorem Posted.drives {x : Driver} (htasks : ∀ t ∈ q.tasks, Lone t.id t.agenda t.pauses)
    (hid : x.task = task.id) (hagenda : q.turn.agenda = x.agenda) (hpauses : q.turn.pauses = x.pauses)
    (hgoes : q.turn.failed = false) : Posted ⟨q, some task, jobs⟩ := by
  refine ⟨htasks, fun t ht ↦ ?_⟩
  obtain rfl := Option.some.inj ht
  exact ⟨.inr ⟨x, hid, hagenda, hpauses⟩, fun hf ↦ by cases hgoes.symm.trans hf⟩

theorem Posted.ends (htasks : ∀ t ∈ q.tasks, Lone t.id t.agenda t.pauses)
    (hagenda : q.turn.agenda = []) (hpauses : q.turn.pauses = []) : Posted ⟨q, some task, jobs⟩ := by
  refine ⟨htasks, fun t ht ↦ ?_⟩
  rw [hagenda, hpauses]
  exact ⟨.inl (drivers_nil _), fun _ ↦ drivers_nil _⟩

/-- The frame of a driver, which has nothing else on its agenda. -/
theorem tremor_frame {x : Driver} {start ticks armed : Nat} {timer : Timer} (hm : Manned ⟨p, some task, jobs⟩)
    (hid : x.task = task.id) (hagenda : p.turn.agenda = x.agenda) (hpauses : p.turn.pauses = x.pauses)
    (hframe : x.Reaches p.session.now start ticks) (hdue : timer.isDue p.session.now = true)
    (htasks : q.tasks = p.tasks) (hsession : q.session = { p.session with armed := armed })
    (hturn : q.turn = ⟨[], [], q.turn.again, false⟩) :
    let r := q.suspend (.frame x.shake x.stamp x.duration start ticks timer) .nothing []
    Tremor ⟨p, some task, jobs⟩ ⟨r, some task, jobs'⟩ ∧ Posted ⟨r, some task, jobs'⟩ := by
  have hbefore : (⟨p, some task, jobs⟩ : Machine).drivers.Perm (x :: p.tasks.flatMap Task.drivers) := by
    rw [drivers_running, hagenda, hpauses, ← hid, x.drivers_eq]
    exact List.perm_append_comm
  have hstirs := q.stirs_look (.frame x.shake x.stamp x.duration start ticks timer)
  have hframes : Frames q x.shake x.stamp x.duration start ticks
      (q.lookAtFrame x.shake x.stamp x.duration start ticks timer) :=
    frames_lookAtFrame (by rw [hsession]; exact hm.draws) (by rw [hsession]; exact hm.goes)
      (by rw [hsession]; exact hdue)
  have hended : ∀ u : Playback, q.Stirs u →
      Posted ⟨u, some task, jobs'⟩ ∧
        (⟨u, some task, jobs'⟩ : Machine).drivers = p.tasks.flatMap Task.drivers := by
    intro u hu
    have hagenda' : u.turn.agenda = [] := by rw [hu.agenda, hturn]
    have hpauses' : u.turn.pauses = [] := by rw [hu.pauses, hturn]
    have htasks' : u.tasks = p.tasks := hu.tasks.trans htasks
    refine ⟨.ends (htasks' ▸ hm.posted.tasks) hagenda' hpauses', ?_⟩
    rw [drivers_running, hagenda', hpauses', drivers_nil, List.append_nil, htasks']
  have hmoved : ∀ {state : ShakeState} {u : Playback},
      u.session.stage = p.session.stage.setShake x.shake state →
      (⟨u, some task, jobs'⟩ : Machine).target x.shake = state ∧ ∀ k, k ≠ x.shake →
        (⟨u, some task, jobs'⟩ : Machine).target k = (⟨p, some task, jobs⟩ : Machine).target k := by
    intro state u hu
    refine ⟨?_, fun k hk ↦ ?_⟩
    · simp only [target, hu, Stage.shake_setShake_self]
    · simp only [target, hu, Stage.shake_setShake_ne hk]
  intro r
  have hr : r = q.suspend (.frame x.shake x.stamp x.duration start ticks timer) .nothing [] := rfl
  unfold suspend at hr
  simp only [look] at hr hstirs
  generalize q.lookAtFrame x.shake x.stamp x.duration start ticks timer = looked at hr hstirs hframes
  cases hframes with
  | @stale u draws hu hstamp =>
      rw [hsession] at hu hstamp
      obtain ⟨hposted, hafter⟩ := hended u hstirs
      have hr : r = u := hr
      rw [hr]
      exact ⟨.stale x start ticks draws armed hframe (hafter ▸ hbefore) hstamp hu, hposted⟩
  | @rests u hstamp hover hu =>
      rw [hsession] at hu hstamp hover
      obtain ⟨hposted, hafter⟩ := hended u hstirs
      have hr : r = u := hr
      rw [hr]
      obtain ⟨htarget, hkept⟩ := hmoved hu
      exact ⟨.rests x start ticks hframe (hafter ▸ hbefore) hstamp hover htarget hkept, hposted⟩
  | @sways u offset next hstamp hlasts hoffset hu hnext =>
      rw [hsession] at hu hstamp hlasts hoffset hnext
      let y : Driver := { x with frame := some (start, ticks + 1, next) }
      let pause : Pause := ⟨.frame x.shake x.stamp x.duration start (ticks + 1) next, .nothing, []⟩
      have hr : r = u.leave pause := hr
      rw [hr]
      have htasks' : u.tasks = p.tasks := hstirs.tasks.trans htasks
      have hagenda' : u.turn.agenda = [] := by rw [hstirs.agenda, hturn]
      have hfailed' : u.turn.failed = false := by rw [hstirs.failed, hturn]
      have hleft : (u.leave pause).turn.pauses = y.pauses := by
        change u.turn.pauses ++ [pause] = _
        rw [hstirs.pauses, hturn]
        rfl
      obtain ⟨htarget, hkept⟩ := hmoved (u := u.leave pause) hu
      refine ⟨.sways x start ticks next offset (p.tasks.flatMap Task.drivers) hframe hbefore ?_ hnext
        hstamp hlasts hoffset htarget hkept, ?_⟩
      · rw [drivers_running, hleft]
        change (u.tasks.flatMap Task.drivers ++ Storyline.drivers task.id u.turn.agenda y.pauses).Perm _
        rw [hagenda', htasks', ← hid]
        exact List.perm_append_comm
      · exact .drives (x := y) (htasks' ▸ hm.posted.tasks) hid hagenda' hleft hfailed'

/-! ## A shake that is taken up -/

theorem tremor_shake {shake : Shake} {seconds : Binary64} {scope : Nat} {scopes : List Nat}
    {step : Option Nat} (hm : Manned ⟨p, some task, jobs⟩) (hover : p.isOver = false)
    (hidle : Storyline.drivers task.id p.turn.agenda p.turn.pauses = []) :
    let q := (p.note (.cue (.shake shake seconds)) scope step).performCue (.shake shake seconds) scope
      scopes step
    Tremor ⟨p, some task, jobs⟩ ⟨q, some task, jobs'⟩ ∧ Posted ⟨q, some task, jobs'⟩ := by
  intro q
  obtain ⟨hserial, hagenda, hpauses, htarget, hothers, id, htasks⟩ :=
    performCue_shake shake seconds scope scopes step hover
  let x : Driver := ⟨id, shake, p.session.serial, .ofSeconds seconds, none⟩
  have hidle' : Storyline.drivers task.id q.turn.agenda q.turn.pauses = [] := by
    rw [Storyline.drivers, hagenda, hpauses]
    exact hidle
  refine ⟨.rouse x rfl rfl hserial ?_ htarget hothers, fun t ht ↦ ?_, fun t ht ↦ ?_⟩
  · rw [drivers_running, drivers_running, hidle, hidle', htasks, List.flatMap_append, List.append_nil,
      List.append_nil]
    exact List.perm_append_comm
  · rcases List.mem_append.mp (htasks ▸ ht) with ht | ht
    · exact hm.posted.tasks t ht
    · rw [List.mem_singleton.mp ht]
      exact .inr ⟨x, rfl, rfl, rfl⟩
  · obtain rfl := Option.some.inj ht
    exact ⟨.inl hidle', fun _ ↦ hidle'⟩

/-! ## Beats -/

/-- A task that performs actions drives nothing. -/
theorem idle_of_plays (h : Plays p) (id : Nat) :
    Storyline.drivers id p.turn.agenda p.turn.pauses = [] := by
  refine List.append_eq_nil_iff.mpr ⟨List.filterMap_eq_nil_iff.mpr fun e he ↦ ?_,
    List.filterMap_eq_nil_iff.mpr fun x hx ↦ ?_⟩
  · have hyields := h.agenda e he
    cases e with
    | animate => exact hyields.elim
    | _ => rfl
  · have hyields := h.pauses x hx
    obtain ⟨wait, ending, scopes⟩ := x
    cases wait with
    | frame => exact hyields.elim
    | _ => rfl

theorem idle_of_job {job : Job} (hm : Manned ⟨p, some task, job :: jobs⟩) (hjob : job.isLook = false)
    (id : Nat) : Storyline.drivers id p.turn.agenda p.turn.pauses = [] :=
  idle_of_plays (Casting.plays (hm.cast.running (by simp)) hjob).1 id

theorem Timer.due_eq_now {now : Nat} {t : Timer} (hdue : t.isDue now = true) (hpast : t.NotPast now) :
    t.due = some now := by
  unfold Timer.isDue at hdue
  cases htimer : t.due with
  | none => simp [htimer] at hdue
  | some due =>
      have hle : due ≤ now := by simpa [htimer] using hdue
      exact congrArg some (Nat.le_antisymm hle (hpast due htimer))

/-- A driver looks at the frame that it waits for. -/
theorem tremor_driver {shake : Shake} {stamp : Nat} {d : Duration} {start ticks : Nat} {timer : Timer}
    (hm : Manned ⟨p, some task, jobs⟩) (hpunctual : timer.NotPast p.session.now)
    (hagenda : p.turn.agenda = []) (hgoes : p.turn.failed = false)
    (hpauses : p.turn.pauses = [⟨.frame shake stamp d start ticks timer, .nothing, []⟩]) :
    let q := p.aside.suspend (.frame shake stamp d start ticks timer) .nothing []
    Tremor ⟨p, some task, jobs⟩ ⟨q, some task, jobs'⟩ ∧ Posted ⟨q, some task, jobs'⟩ := by
  let x : Driver := ⟨task.id, shake, stamp, d, some (start, ticks, timer)⟩
  have hnone : p.aside.turn = ⟨[], [], p.aside.turn.again, false⟩ := by
    simp [aside, updateTurn, hagenda, hpauses, hgoes]
  cases hdue : timer.isDue p.session.now with
  | true =>
      exact tremor_frame (x := x) hm rfl hagenda hpauses (.inr ⟨timer, rfl, Timer.due_eq_now hdue hpunctual⟩)
        hdue rfl rfl hnone
  | false =>
      have hlook : p.aside.look (.frame shake stamp d start ticks timer) =
          (p.aside, .waits (.frame shake stamp d start ticks timer)) := look_of_settled hdue
      have hleft : p.aside.suspend (.frame shake stamp d start ticks timer) .nothing [] =
          p.aside.leave ⟨.frame shake stamp d start ticks timer, .nothing, []⟩ := by
        unfold suspend
        rw [hlook]
      have hturn : (p.aside.leave ⟨.frame shake stamp d start ticks timer, .nothing, []⟩).turn = p.turn := by
        change ({ p.turn with pauses := p.turn.pauses.tail ++ [_] } : Turn) = p.turn
        rw [hpauses, List.tail_cons, List.nil_append, ← hpauses]
      rw [hleft]
      refine ⟨.calm ?_ rfl, .drives (x := x) hm.posted.tasks rfl ?_ ?_ ?_⟩
      · rw [drivers_running, drivers_running, hturn]
        exact .refl _
      all_goals rw [hturn]; assumption

/-- A look at a pause. -/
theorem tremor_look {pause : Pause} (hs : Sound ⟨p, some task, .look pause :: jobs⟩)
    (hm : Manned ⟨p, some task, .look pause :: jobs⟩) :
    Tremor ⟨p, some task, .look pause :: jobs⟩ ⟨p.revisit pause, some task, jobs⟩ ∧
      Posted ⟨p.revisit pause, some task, jobs⟩ := by
  have hawaits : p.Awaits (pause :: looks jobs) := (hm.cast.running (by simp)).awaits
  obtain ⟨hlone, hfailed⟩ := hm.posted.turn task rfl
  by_cases hf : p.turn.failed = true
  · rw [revisit_failed hf]
    exact calm_within hm.posted (hfailed hf) (.refl p) (List.Subset.refl _)
  have hgoes : p.turn.failed = false := by simpa using hf
  obtain ⟨done, hdone⟩ := hawaits.resolve_left hf
  have hdone : p.turn.pauses = pause :: (looks jobs ++ done) := hdone
  rw [revisit_eq hgoes]
  rcases hlone with hidle | ⟨⟨id, shake, stamp, d, _ | ⟨start, ticks, timer⟩⟩, hid, hagenda, hpauses⟩
  · have hnone := List.filterMap_eq_nil_iff.mp (List.append_eq_nil_iff.mp hidle).2 pause
      (hdone ▸ List.mem_cons_self)
    have haside : Unshaken p p.aside := ⟨rfl,
      fun id ↦ by simp [aside, updateTurn, hdone, Pause.driver?, driver?_eq_none hnone id],
      [], (List.append_nil _).symm, by simp⟩
    refine calm_within hm.posted hidle (haside.trans (unshaken_suspend (driver?_eq_none hnone 0))) ?_
    rw [suspend_agenda]
    exact List.Subset.refl _
  · cases hdone.symm.trans hpauses
  · obtain ⟨rfl, -⟩ := List.cons.inj (hdone.symm.trans hpauses)
    exact tremor_driver hm (hs.looks _ List.mem_cons_self).1 hagenda hgoes hpauses

/-- The beginning of an errand that performs no action. -/
theorem tremor_begin {errand : Errand} {rest : List Errand} (hm : Manned ⟨p, some task, []⟩)
    (hfree : p.turn.isFree = true) (hagenda : p.turn.agenda = errand :: rest)
    (hother : ∀ action scope step, errand ≠ .perform action scope step) :
    let q := (p.updateTurn (fun t ↦ { t with agenda := rest })).begin errand
    Tremor ⟨p, some task, []⟩ ⟨q, some task, []⟩ ∧ Posted ⟨q, some task, []⟩ := by
  obtain ⟨hlone, -⟩ := hm.posted.turn task rfl
  rcases hlone with hidle | ⟨⟨id, shake, stamp, d, _ | ⟨start, ticks, timer⟩⟩, hid, hagenda', hpauses⟩
  · have hnone := List.filterMap_eq_nil_iff.mp (List.append_eq_nil_iff.mp hidle).1 errand
      (hagenda ▸ List.mem_cons_self)
    have hset : Unshaken p (p.updateTurn (fun t ↦ { t with agenda := rest })) := .of_turn fun _ _ ↦ rfl
    have hidle' : errand.driver? 0 = none := by
      cases errand with
      | animate => cases hnone
      | _ => rfl
    refine calm_within hm.posted hidle (hset.trans (unshaken_begin hother hidle')) ?_
    rw [(costs_begin errand rfl).agenda, hagenda]
    exact List.subset_cons_self _ _
  · obtain ⟨rfl, rfl⟩ := List.cons.inj (hagenda.symm.trans hagenda')
    simp only [Turn.isFree, Bool.and_eq_true, Bool.not_eq_true'] at hfree
    have hdue : (p.timer (some p.session.now)).isDue p.session.now = true := by
      simp [Timer.isDue, Playback.timer]
    refine tremor_frame (x := ⟨id, shake, stamp, d, none⟩) hm hid hagenda' hpauses (.inl ⟨rfl, rfl, rfl⟩)
      hdue rfl rfl ?_
    simp only [arm, update, updateTurn, hfree.2]
    rw [hpauses]
    rfl
  · cases hagenda.symm.trans hagenda'

/-- The beginning of a turn hands the drivers of a task over to the turn. -/
theorem tremor_take {id : Nat} {rest : List Nat} (hs : Sound (resting p)) (hm : Manned (resting p))
    (htask : p.task? id = some task) :
    let n : Machine := ⟨({ p with queue := rest } : Playback).begun task, some task, task.pauses.map .look⟩
    Tremor (resting p) n ∧ Posted n := by
  obtain ⟨hmem, -⟩ := Orderly.task?_eq htask
  let g : Task → Task := fun t ↦ { t with agenda := [], pauses := [] }
  refine ⟨.calm ?_ rfl, fun t ht ↦ ?_, fun t ht ↦ ?_⟩
  · rw [drivers_running, drivers_resting]
    change ((p.modifyTask task.id g).tasks.flatMap Task.drivers ++ task.drivers).Perm _
    refine List.perm_iff_count.mpr fun x ↦ ?_
    have hcount := count_modifyTask (g := g) Task.drivers x hs.orderly.nodup_ids hmem
    have hempty : (g task).drivers = [] := drivers_nil _
    rw [hempty, List.count_nil, Nat.add_zero] at hcount
    rwa [List.count_append]
  · rcases mem_modifyTask ht with ⟨old, -, -, rfl⟩ | ⟨hold, -⟩
    · exact .inl (drivers_nil _)
    · exact hm.posted.tasks t hold
  · obtain rfl := Option.some.inj ht
    exact ⟨hm.posted.tasks task hmem, by simp [begun, updateTurn, Turn.ofTask]⟩

/-- The end of a turn hands the drivers of the turn back to the task. -/
theorem tremor_finish (hs : Sound ⟨p, some task, []⟩) (hm : Manned ⟨p, some task, []⟩)
    (hheld : p.turn.isFree = false ∨ p.turn.agenda = []) :
    Tremor ⟨p, some task, []⟩ (resting (p.endTurn task)) ∧ Posted (resting (p.endTurn task)) := by
  obtain ⟨hlone, hfailed⟩ := hm.posted.turn task rfl
  have hentry : ∀ t ∈ p.tasks, t.id = task.id → t.drivers = [] := by
    intro t ht hid
    obtain ⟨hpauses, hagenda⟩ := hs.orderly.empty t ht (congrArg some hid)
    rw [Task.drivers, hagenda, hpauses, drivers_nil]
  obtain ⟨taps, hsession⟩ := (endTurn_session (p := p) task).1
  have htargets : (resting (p.endTurn task)).target = (⟨p, some task, []⟩ : Machine).target := by
    simp only [target, resting, hsession]
  refine ⟨.calm ?_ htargets, fun t ht ↦ ?_, by simp [resting]⟩
  · rw [drivers_running, drivers_resting]
    unfold endTurn
    dsimp only
    split
    next hf =>
      rw [hfailed hf, List.append_nil, (abandonAll_stirs _).tasks,
        flatMap_endTask (p := p.updateTurn fun _ ↦ .none) Task.drivers hentry]
      exact .refl _
    next hf =>
      split
      next hnone =>
        have hpauses : p.turn.pauses = [] := by simpa using hnone
        have hagenda : p.turn.agenda = [] :=
          hheld.resolve_left (by simp [Turn.isFree, hpauses, Bool.not_eq_true _ ▸ hf])
        rw [hpauses, hagenda, drivers_nil, List.append_nil,
          flatMap_endTask (p := p.updateTurn fun _ ↦ .none) Task.drivers hentry]
        exact .refl _
      next =>
        obtain ⟨t, ht, hid⟩ := List.mem_map.mp (hs.orderly.running_mem task.id rfl)
        let g : Task → Task := fun t ↦ { t with agenda := p.turn.agenda, pauses := p.turn.pauses }
        have hput : ((p.modifyTask task.id g).tasks.flatMap Task.drivers).Perm
            (p.tasks.flatMap Task.drivers ++ Storyline.drivers task.id p.turn.agenda p.turn.pauses) := by
          refine List.perm_iff_count.mpr fun x ↦ ?_
          have hcount := count_modifyTask (g := g) Task.drivers x hs.orderly.nodup_ids ht
          have hback : (g t).drivers = Storyline.drivers task.id p.turn.agenda p.turn.pauses := by
            rw [Task.drivers, ← hid]
          rw [hentry t ht hid, List.count_nil, Nat.add_zero, hback, hid] at hcount
          rwa [List.count_append]
        split
        · unfold wake
          split <;> exact hput
        · exact hput
  · rcases mem_endTurn ht with ⟨hold, -⟩ | ⟨hid, hagenda, hpauses, -, -⟩
    · exact hm.posted.tasks t hold
    · rw [hid, hagenda, hpauses]
      exact hlone

/-- What a beat does to shakes; whatever drives one goes on doing nothing else. -/
theorem Beat.tremor (hs : Sound m) (hm : Manned m) (hb : Beat m n) : Tremor m n ∧ Posted n := by
  cases hb with
  | take hq htask hwhole => exact tremor_take hs hm htask
  | @drop p id rest hq hgone =>
      have hdropped : runTask id { p with queue := rest } = { p with queue := rest } := by
        unfold runTask
        split
        · rfl
        next task htask =>
          have htask : p.task? id = some task := htask
          cases (hgone task htask).symm.trans (hm.whole task (Orderly.task?_eq htask).1)
      rw [hdropped]
      exact ⟨.calm (by rw [drivers_resting, drivers_resting]) rfl, hm.posted.tasks, by simp [resting]⟩
  | look => exact tremor_look hs hm
  | @walk p task action scope step rest hfree hagenda =>
      have hidle : Storyline.drivers task.id p.turn.agenda p.turn.pauses = [] := by
        rcases (hm.posted.turn task rfl).1 with
          hidle | ⟨⟨id, shake, stamp, d, _ | ⟨start, ticks, timer⟩⟩, -, hagenda', -⟩
        · exact hidle
        · cases hagenda.symm.trans hagenda'
        · cases hagenda.symm.trans hagenda'
      exact calm_within hm.posted hidle (.of_turn fun _ _ ↦ rfl)
        fun e he ↦ hagenda ▸ List.mem_cons_of_mem _ he
  | begin hfree hagenda hother => exact tremor_begin hm hfree hagenda hother
  | skip => exact calm_within hm.posted (idle_of_job hm rfl _) (.refl _) (List.Subset.refl _)
  | @cue p task cue scope scopes step jobs hover =>
      have hidle := idle_of_job hm rfl task.id
      by_cases hshake : ∃ shake seconds, cue = .shake shake seconds
      · obtain ⟨shake, seconds, rfl⟩ := hshake
        exact tremor_shake hm hover hidle
      · refine calm_within hm.posted hidle ((unshaken_note _ scope step).trans
          (unshaken_performCue scope scopes step fun shake seconds he ↦ hshake ⟨shake, seconds, he⟩)) ?_
        rw [performCue_agenda, note_turn]
        exact List.Subset.refl _
  | block =>
      refine calm_within hm.posted (idle_of_job hm rfl _)
        ((unshaken_note _ _ _).trans (unshaken_openWithin _ _)) ?_
      rw [openWithin_agenda]
      exact List.Subset.refl _
  | fork =>
      refine calm_within hm.posted (idle_of_job hm rfl _) (((unshaken_note _ _ _).trans
        (unshaken_openWithin _ _)).trans (unshaken_spawn _ (walk_driver? _ _ _))) ?_
      rw [spawn_turn, openWithin_agenda]
      exact List.Subset.refl _
  | close =>
      refine calm_within hm.posted (idle_of_job hm rfl _) (unshaken_performCue _ _ _ (by simp)) ?_
      rw [performCue_agenda]
      exact List.Subset.refl _
  | finish hheld => exact tremor_finish hs hm hheld

variable {acts : Playback → Playback → Prop}

/-- What a step does to shakes. -/
theorem Step.tremor (hacts : ∀ p q, acts p q → Player.AtRest p → Meek p q ∧ Unshaken p q)
    (hs : Sound m) (hm : Manned m) (hstep : Step acts m n) : Tremor m n ∧ Posted n := by
  cases hstep with
  | beat hb => exact hb.tremor hs hm
  | act ha =>
      obtain ⟨-, h⟩ := hacts _ _ ha hs.orderly
      refine ⟨.calm ?_ h.targets, lone_unshaken h hm.posted.tasks, by simp [resting]⟩
      rw [drivers_resting, drivers_resting, flatMap_unshaken h]
  | @move p time =>
      obtain ⟨queue, hmoved⟩ := moveTo_eq time p
      rw [hmoved]
      exact ⟨.calm (by rw [drivers_resting, drivers_resting]) rfl, hm.posted.tasks, by simp [resting]⟩
  | rest =>
      exact ⟨.calm (by rw [drivers_resting, drivers_resting]; exact .refl _) rfl, hm.posted.tasks, by simp [resting]⟩

end

end Machine

end Storyline
