import Storyline.Proofs.Playback.Turns
import Storyline.Proofs.Player.Reach

/-!
# Turns step by step

A turn is taken in small steps: a look at a pause, the beginning of an errand,
the performance of one action, the wait that closes a block.  A machine that
takes these steps has done, at the end of a turn, what the turn does.
-/

namespace Storyline

/-- What a running task is about to do before it goes on with its agenda. -/
inductive Job where
  | look (pause : Pause)
  | perform (action : Action) (scope : Nat) (scopes : List Nat) (step : Option Nat)
  | close (scope : Nat) (scopes : List Nat)

def Job.isLook : Job → Bool
  | look _ => true
  | _ => false

/-- A playback at a moment of a turn, or between turns. -/
structure Machine where
  playback : Playback
  running : Option Task
  jobs : List Job

/-- The jobs of a block: its parts, and the wait for them. -/
def blockJobs (parts : List Action) (scope : Nat) (scopes : List Nat) : List Job :=
  parts.map (fun part ↦ .perform part scope scopes none) ++ [.close scope scopes]

namespace Machine

open Playback

def resting (p : Playback) : Machine := ⟨p, none, []⟩

/-- The small steps of a turn. -/
inductive Beat : Machine → Machine → Prop
  | take {p : Playback} {id : Nat} {rest : List Nat} {task : Task} (hq : p.queue = id :: rest)
    (htask : p.task? id = some task) (hwhole : task.aborted = false) :
    Beat (resting p) ⟨({ p with queue := rest } : Playback).begun task, some task, task.pauses.map .look⟩
  | drop {p : Playback} {id : Nat} {rest : List Nat} (hq : p.queue = id :: rest)
    (hgone : ∀ task, p.task? id = some task → task.aborted = true) :
    Beat (resting p) (resting (runTask id { p with queue := rest }))
  | look {p : Playback} {task : Task} {pause : Pause} {jobs : List Job} :
    Beat ⟨p, some task, .look pause :: jobs⟩ ⟨p.revisit pause, some task, jobs⟩
  | walk {p : Playback} {task : Task} {action : Action} {scope : Nat} {step : Option Nat}
    {rest : List Errand} (hfree : p.turn.isFree = true)
    (hagenda : p.turn.agenda = .perform action scope step :: rest) :
    Beat ⟨p, some task, []⟩
      ⟨p.updateTurn (fun t ↦ { t with agenda := rest }), some task,
        [.perform action scope [scope] step]⟩
  | begin {p : Playback} {task : Task} {errand : Errand} {rest : List Errand}
    (hfree : p.turn.isFree = true) (hagenda : p.turn.agenda = errand :: rest)
    (hother : ∀ action scope step, errand ≠ .perform action scope step) :
    Beat ⟨p, some task, []⟩
      ⟨(p.updateTurn (fun t ↦ { t with agenda := rest })).begin errand, some task, []⟩
  | skip {p : Playback} {task : Task} {action : Action} {scope : Nat} {scopes : List Nat}
    {step : Option Nat} {jobs : List Job} (hover : p.isOver = true) :
    Beat ⟨p, some task, .perform action scope scopes step :: jobs⟩ ⟨p, some task, jobs⟩
  | cue {p : Playback} {task : Task} {cue : Cue} {scope : Nat} {scopes : List Nat}
    {step : Option Nat} {jobs : List Job} (hover : p.isOver = false) :
    Beat ⟨p, some task, .perform (.cue cue) scope scopes step :: jobs⟩
      ⟨(p.note (.cue cue) scope step).performCue cue scope scopes step, some task, jobs⟩
  | block {p : Playback} {task : Task} {parts : List Action} {scope : Nat} {scopes : List Nat}
    {step : Option Nat} {jobs : List Job} (hover : p.isOver = false) :
    Beat ⟨p, some task, .perform (.block parts) scope scopes step :: jobs⟩
      ⟨(p.note (.block parts) scope step).openWithin scope step, some task,
        blockJobs parts p.session.serial (p.session.serial :: scopes) ++ jobs⟩
  | fork {p : Playback} {task : Task} {parts : List Action} {scope : Nat} {scopes : List Nat}
    {step : Option Nat} {jobs : List Job} (hover : p.isOver = false) :
    Beat ⟨p, some task, .perform (.fork parts) scope scopes step :: jobs⟩
      ⟨((p.note (.fork parts) scope step).openWithin scope step).spawn (some p.session.serial)
        (Playback.walk p.session.serial false parts), some task, jobs⟩
  | close {p : Playback} {task : Task} {scope : Nat} {scopes : List Nat} {jobs : List Job} :
    Beat ⟨p, some task, .close scope scopes :: jobs⟩
      ⟨p.performCue .waitForAll scope scopes none, some task, jobs⟩
  | finish {p : Playback} {task : Task} (hheld : p.turn.isFree = false ∨ p.turn.agenda = []) :
    Beat ⟨p, some task, []⟩ (resting (p.endTurn task))

/-- The steps of a machine whose playback is also acted on from outside, between
turns, and whose clock moves while nothing is ready. -/
inductive Step (acts : Playback → Playback → Prop) : Machine → Machine → Prop
  | beat {m n : Machine} (h : Beat m n) : Step acts m n
  | act {p q : Playback} (h : acts p q) : Step acts (resting p) (resting q)
  | move {p : Playback} {time : Nat} (hq : p.queue = []) (hnext : p.nextDue = some time) :
    Step acts (resting p) (resting (p.moveTo time))
  | rest {p : Playback} {time : Nat} (hq : p.queue = []) (hle : p.session.now ≤ time)
    (hnext : ∀ next, p.nextDue = some next → time < next) :
    Step acts (resting p) (resting (p.update fun s ↦ { s with now := time }))

inductive Runs (acts : Playback → Playback → Prop) (m : Machine) : Machine → Prop
  | refl : Runs acts m m
  | step {n k : Machine} (h : Runs acts m n) (hs : Step acts n k) : Runs acts m k

section

variable {acts : Playback → Playback → Prop} {m n k : Machine} {p q : Playback} {task : Task}
  {jobs : List Job}

theorem Runs.trans (h : Runs acts m n) (h' : Runs acts n k) : Runs acts m k := by
  induction h' with
  | refl => exact h
  | step _ hs ih => exact ih.step hs

theorem Runs.single (hs : Step acts m n) : Runs acts m n := Runs.refl.step hs

theorem Runs.beat (hb : Beat m n) : Runs acts m n := .single (.beat hb)

/-! ## What a turn does -/

theorem isOver_eq_false (h : ¬p.isOver = true) : p.isOver = false := by simpa using h

theorem performCue_over {cue : Cue} {scope : Nat} {scopes : List Nat} {step : Option Nat}
    (h : p.isOver = true) : p.performCue cue scope scopes step = p := by
  unfold performCue
  rw [if_pos h]

theorem perform_over {action : Action} {scope : Nat} {scopes : List Nat} {step : Option Nat}
    (h : p.isOver = true) : perform action scope scopes step p = p := by
  cases action with
  | cue cue =>
      have hnote : p.note (.cue cue) scope step = p := by
        unfold note
        rw [if_pos h]
      rw [perform, hnote, performCue_over h]
  | block parts => rw [perform, if_pos h]
  | fork parts => rw [perform, if_pos h]

mutual

/-- The machine performs an action as a whole. -/
theorem runs_perform (action : Action) (scope : Nat) (scopes : List Nat) (step : Option Nat)
    (p : Playback) (jobs : List Job) :
    Runs acts ⟨p, some task, .perform action scope scopes step :: jobs⟩
      ⟨perform action scope scopes step p, some task, jobs⟩ := by
  by_cases hover : p.isOver = true
  · rw [perform_over hover]
    exact .beat (.skip hover)
  have hgoes := isOver_eq_false hover
  cases action with
  | cue cue => exact .beat (.cue hgoes)
  | block parts =>
      rw [perform, if_neg hover]
      refine (Runs.beat (.block hgoes)).trans ?_
      rw [blockJobs, List.append_assoc]
      exact (runs_performAll parts _ _ _ _).trans (.beat .close)
  | fork parts =>
      rw [perform, if_neg hover]
      exact .beat (.fork hgoes)

theorem runs_performAll (parts : List Action) (scope : Nat) (scopes : List Nat) (p : Playback)
    (jobs : List Job) :
    Runs acts ⟨p, some task, parts.map (fun part ↦ .perform part scope scopes none) ++ jobs⟩
      ⟨performAll parts scope scopes p, some task, jobs⟩ := by
  cases parts with
  | nil => exact .refl
  | cons part rest =>
      exact (runs_perform part scope scopes none p _).trans
        (runs_performAll rest scope scopes _ jobs)

end

theorem runs_revisitAll (pauses : List Pause) (p : Playback) :
    Runs acts ⟨p, some task, pauses.map .look⟩
      ⟨pauses.foldl (fun p pause ↦ p.revisit pause) p, some task, []⟩ := by
  induction pauses generalizing p with
  | nil => exact .refl
  | cons pause rest ih => exact (Runs.beat .look).trans (ih _)

theorem runs_begin {errand : Errand} {rest : List Errand} (hfree : p.turn.isFree = true)
    (hagenda : p.turn.agenda = errand :: rest) :
    Runs acts ⟨p, some task, []⟩
      ⟨(p.updateTurn (fun t ↦ { t with agenda := rest })).begin errand, some task, []⟩ := by
  cases errand with
  | perform action scope step =>
      exact (Runs.beat (.walk hfree hagenda)).trans (runs_perform action scope [scope] step _ [])
  | _ => exact .beat (.begin hfree hagenda (by simp))

theorem runs_proceed (agenda : List Errand) (p : Playback) (hagenda : p.turn.agenda = agenda) :
    Runs acts ⟨p, some task, []⟩ (resting ((proceed agenda p).endTurn task)) := by
  induction agenda generalizing p with
  | nil => exact .beat (.finish (.inr hagenda))
  | cons errand rest ih =>
      simp only [proceed]
      split
      next hfree => exact (runs_begin hfree hagenda).trans (ih _ (costs_begin errand rfl).agenda)
      next hheld => exact .beat (.finish (.inl (by simpa using hheld)))

/-- A turn is a run of the machine. -/
theorem runs_runTask {id : Nat} {rest : List Nat} (hq : p.queue = id :: rest) :
    Runs acts (resting p) (resting (runTask id { p with queue := rest })) := by
  cases htask : p.task? id with
  | none => exact .beat (.drop hq (by simp [htask]))
  | some task =>
      cases hwhole : task.aborted with
      | true => exact .beat (.drop hq (by simp [htask, hwhole]))
      | false =>
          have hrun : runTask id { p with queue := rest } =
              takeTurn task { p with queue := rest } := by
            unfold runTask
            have htask' : ({ p with queue := rest } : Playback).task? id = some task := htask
            simp only [htask']
            rw [if_neg (by simp [hwhole])]
          rw [hrun, takeTurn_eq]
          refine (Runs.beat (.take hq htask hwhole)).trans
            ((runs_revisitAll task.pauses _).trans (runs_proceed task.agenda _ ?_))
          rw [revisitAll_agenda]
          rfl

/-- Whatever the steps of a run of tasks are, the machine takes them. -/
theorem runs_passes (h : p.Passes q) : Runs acts (resting p) (resting q) := by
  induction h with
  | refl => exact .refl
  | step _ hs ih =>
      refine ih.trans ?_
      cases hs with
      | turn hq => exact runs_runTask hq
      | move hq hnext => exact .single (.move hq hnext)
      | rest hq hle hnext => exact .single (.rest hq hle hnext)
      | start hc | next hc | autoPlay on hc | fastForward on hc | cacheVoice path content hc =>
          exact hc.elim
      | stop hc => exact (hc.elim id id).elim

/-! ## Order -/

/-- The machine is in order, with the pauses that it has yet to look at. -/
structure Sound (m : Machine) : Prop where
  orderly : m.playback.Orderly m.playback.session.moment (m.running.map Task.id)
    (m.jobs.countP Job.isLook)
  looks : ∀ pause, .look pause ∈ m.jobs → pause.wait.Punctual m.playback.session.moment
  idle : m.running = none → m.jobs = []

theorem sound_resting (h : Player.AtRest p) : Sound (resting p) := ⟨h, by simp [resting], fun _ ↦ rfl⟩

theorem Sound.running {q : Playback} {mo : Moment} {jobs jobs' : List Job}
    (ho : q.Orderly mo (some task.id) (jobs'.countP Job.isLook))
    (hlooks : ∀ pause, .look pause ∈ jobs → pause.wait.Punctual mo)
    (hsub : ∀ pause, .look pause ∈ jobs' → .look pause ∈ jobs) : Sound ⟨q, some task, jobs'⟩ := by
  have hm := ho.moment
  exact ⟨hm ▸ ho, fun pause hp ↦ hm ▸ hlooks pause (hsub pause hp), by simp⟩

theorem look_mem_blockJobs {parts : List Action} {scope : Nat} {scopes : List Nat} {pause : Pause} :
    .look pause ∉ blockJobs parts scope scopes := by
  simp [blockJobs]

theorem countP_blockJobs (parts : List Action) (scope : Nat) (scopes : List Nat) :
    (blockJobs parts scope scopes).countP Job.isLook = 0 := by
  simp [blockJobs, Job.isLook, List.countP_eq_zero]

theorem Beat.sound (h : Sound m) (hb : Beat m n) : Sound n := by
  obtain ⟨ho, hlooks, hidle⟩ := h
  cases hb with
  | @take p id rest task hq htask hwhole =>
      obtain ⟨hmem, rfl⟩ := Orderly.task?_eq htask
      have hbegun := Orderly.beginTurn ho hq hmem
      refine ⟨?_, fun pause hp ↦ ?_, by simp⟩
      · have hcount : (task.pauses.map Job.look).countP Job.isLook = task.pauses.length := by
          simp [List.countP_map, Function.comp_def, Job.isLook]
        rw [← hcount] at hbegun
        exact hbegun
      · obtain ⟨x, hx, he⟩ := List.mem_map.mp hp
        exact Job.look.inj he ▸ ho.punctual task hmem x hx
  | drop hq hgone => exact sound_resting (.of_orderly (Orderly.runTask ho hq))
  | @look p task pause jobs =>
      have hcount : (Job.look pause :: jobs).countP Job.isLook = jobs.countP Job.isLook + 1 := by
        rw [List.countP_cons]
        rfl
      have hlook := Orderly.revisit pause (hcount ▸ ho) (hlooks pause (by simp))
      exact .running hlook hlooks fun x hx ↦ List.mem_cons_of_mem _ hx
  | walk => exact .running (ho.setAgenda _) hlooks (by simp)
  | begin => exact .running ((ho.setAgenda _).begin _) hlooks (by simp)
  | skip => exact .running ho hlooks fun x hx ↦ List.mem_cons_of_mem _ hx
  | cue =>
      exact .running ((ho.note _ _ _).performCue _ _ _ _) hlooks fun x hx ↦ List.mem_cons_of_mem _ hx
  | @block p task parts scope scopes step jobs hover =>
      have hopen := (ho.note (.block parts) scope step).stirs (stirs_openWithin _ scope step)
      have hcount : (blockJobs parts p.session.serial (p.session.serial :: scopes) ++ jobs).countP
          Job.isLook = jobs.countP Job.isLook := by
        rw [List.countP_append, countP_blockJobs, Nat.zero_add]
      refine .running (hcount.symm ▸ hopen) hlooks fun x hx ↦ ?_
      exact List.mem_cons_of_mem _ ((List.mem_append.mp hx).resolve_left look_mem_blockJobs)
  | fork =>
      exact .running (((ho.note _ _ _).stirs (stirs_openWithin _ _ _)).spawn _ _) hlooks
        fun x hx ↦ List.mem_cons_of_mem _ hx
  | close => exact .running (ho.performCue _ _ _ _) hlooks fun x hx ↦ List.mem_cons_of_mem _ hx
  | finish => exact sound_resting (.of_orderly (Orderly.endTurn ho))

/-- Acts from outside that leave a playback in order. -/
theorem Step.sound (hacts : ∀ p q, acts p q → Player.AtRest p → Player.AtRest q) (h : Sound m)
    (hs : Step acts m n) : Sound n := by
  cases hs with
  | beat hb => exact hb.sound h
  | act ha => exact sound_resting (hacts _ _ ha h.orderly)
  | move hq hnext => exact sound_resting (.of_orderly (Orderly.moveTo h.orderly hq hnext))
  | rest hq hle hnext => exact sound_resting (.of_orderly (Orderly.rest h.orderly hq hnext))

/-- What every step preserves holds throughout every run. -/
theorem Runs.induct {I : Machine → Prop}
    (hacts : ∀ p q, acts p q → Player.AtRest p → Player.AtRest q) (hr : Runs acts m n)
    (hm : Sound m) (h0 : I m) (hstep : ∀ k l, Sound k → I k → Step acts k l → I l) :
    I n ∧ Sound n := by
  induction hr with
  | refl => exact ⟨h0, hm⟩
  | step _ hs ih => exact ⟨hstep _ _ ih.2 ih.1 hs, hs.sound hacts ih.2⟩

end

end Machine

end Storyline
