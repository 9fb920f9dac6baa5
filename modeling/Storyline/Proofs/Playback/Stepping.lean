import Mathlib.Logic.Relation
import Storyline.Proofs.Playback.Machine

/-!
# Taking steps

What a machine does next, if nothing is done from outside, can be computed.
-/

namespace Storyline

namespace Machine

open Playback

/-- The performance of an action, when the turn goes on. -/
def stepPerform (p : Playback) (task : Task) (jobs : List Job) (action : Action) (scope : Nat)
    (scopes : List Nat) (step : Option Nat) : Machine :=
  match action with
  | .cue cue => ⟨(p.note (.cue cue) scope step).performCue cue scope scopes step, some task, jobs⟩
  | .block parts =>
    ⟨(p.note (.block parts) scope step).openWithin scope step, some task,
      blockJobs parts p.session.serial (p.session.serial :: scopes) ++ jobs⟩
  | .fork parts =>
    ⟨((p.note (.fork parts) scope step).openWithin scope step).spawn (some p.session.serial)
      (Playback.walk p.session.serial false parts), some task, jobs⟩

/-- What a task does next that has nothing left to do before it goes on with its agenda. -/
def stepProceed (p : Playback) (task : Task) : Machine :=
  if p.turn.isFree then
    match p.turn.agenda with
    | [] => resting (p.endTurn task)
    | .perform action scope step :: rest =>
      ⟨p.updateTurn (fun t ↦ { t with agenda := rest }), some task,
        [.perform action scope [scope] step]⟩
    | errand :: rest =>
      ⟨(p.updateTurn (fun t ↦ { t with agenda := rest })).begin errand, some task, []⟩
  else resting (p.endTurn task)

/-- The next step of a running task. -/
def stepTurn (p : Playback) (task : Task) : List Job → Machine
  | [] => stepProceed p task
  | .look pause :: jobs => ⟨p.revisit pause, some task, jobs⟩
  | .perform action scope scopes step :: jobs =>
    if p.isOver then ⟨p, some task, jobs⟩ else stepPerform p task jobs action scope scopes step
  | .close scope scopes :: jobs => ⟨p.performCue .waitForAll scope scopes none, some task, jobs⟩

/-- The next step between turns: the turn of the next ready task, or the next time at
which a timer is due. -/
def stepResting (p : Playback) : Option Machine :=
  match p.queue with
  | [] => p.nextDue.map fun time ↦ resting (p.moveTo time)
  | id :: rest =>
    match p.task? id with
    | some task =>
      if task.aborted then some (resting (runTask id { p with queue := rest }))
      else some ⟨({ p with queue := rest } : Playback).begun task, some task, task.pauses.map .look⟩
    | none => some (resting (runTask id { p with queue := rest }))

def step? : Machine → Option Machine
  | ⟨p, some task, jobs⟩ => some (stepTurn p task jobs)
  | ⟨p, none, []⟩ => stepResting p
  | ⟨_, none, _ :: _⟩ => none

variable {acts : Playback → Playback → Prop} {p : Playback} {m n : Machine}

theorem beat_stepPerform {task : Task} {jobs : List Job} {action : Action} {scope : Nat} {scopes : List Nat}
    {step : Option Nat} (h : p.isOver = false) :
    Beat ⟨p, some task, .perform action scope scopes step :: jobs⟩
      (stepPerform p task jobs action scope scopes step) := by
  cases action with
  | cue cue => exact .cue h
  | block parts => exact .block h
  | fork parts => exact .fork h

theorem beat_stepProceed (task : Task) : Beat ⟨p, some task, []⟩ (stepProceed p task) := by
  unfold stepProceed
  split
  next hfree =>
    split
    next hagenda => exact .finish (.inr hagenda)
    next hagenda => exact .walk hfree hagenda
    next errand rest hother hagenda => exact .begin hfree hagenda hother
  next hheld => exact .finish (.inl (by simpa using hheld))

theorem beat_stepTurn (task : Task) (jobs : List Job) : Beat ⟨p, some task, jobs⟩ (stepTurn p task jobs) := by
  cases jobs with
  | nil => exact beat_stepProceed task
  | cons job jobs =>
      cases job with
      | look pause => exact .look
      | perform action scope scopes step =>
          simp only [stepTurn]
          split
          next hover => exact .skip hover
          next hgoes => exact beat_stepPerform (isOver_eq_false hgoes)
      | close scope scopes => exact .close

theorem step_stepResting (h : stepResting p = some n) : Step acts (resting p) n := by
  unfold stepResting at h
  split at h
  next hq =>
    obtain ⟨time, htime, rfl⟩ := Option.map_eq_some_iff.mp h
    exact .move hq htime
  next id rest hq =>
    split at h
    next task htask =>
      split at h
      next haborted =>
        rw [← Option.some.inj h]
        exact .beat (.drop hq fun other hother ↦ Option.some.inj (htask.symm.trans hother) ▸ haborted)
      next hwhole =>
        rw [← Option.some.inj h]
        exact .beat (.take hq htask (by simpa using hwhole))
    next hnone =>
      rw [← Option.some.inj h]
      exact .beat (.drop hq fun other hother ↦ by cases hnone.symm.trans hother)

/-- What is computed is a step. -/
theorem step_of_step? (h : m.step? = some n) : Step acts m n := by
  obtain ⟨p, running, jobs⟩ := m
  cases running with
  | some task => exact Option.some.inj h ▸ .beat (beat_stepTurn task jobs)
  | none =>
      cases jobs with
      | nil => exact step_stepResting h
      | cons job jobs => cases h

/-- Steps as long as they pass a check. -/
def stepsWhile (check : Machine → Machine → Bool) : Nat → Machine → Option Machine
  | 0, m => some m
  | k + 1, m =>
    match m.step? with
    | some n => if check m n then stepsWhile check k n else none
    | none => none

theorem steps_stepsWhile {check : Machine → Machine → Bool} (k : Nat) (h : m.stepsWhile check k = some n) :
    Relation.ReflTransGen (fun u v ↦ u.step? = some v ∧ check u v = true) m n := by
  induction k generalizing m with
  | zero => exact Option.some.inj h ▸ .refl
  | succ k ih =>
      unfold stepsWhile at h
      split at h
      next l hnext =>
        split at h
        next hcheck => exact .head ⟨hnext, hcheck⟩ (ih h)
        next => cases h
      next => cases h

theorem runs_stepsWhile {check : Machine → Machine → Bool} (k : Nat) (h : m.stepsWhile check k = some n) :
    Runs acts m n := by
  have hsteps := steps_stepsWhile k h
  clear h
  induction hsteps with
  | refl => exact .refl
  | tail _ hstep ih => exact ih.step (step_of_step? hstep.1)

end Machine

end Storyline
