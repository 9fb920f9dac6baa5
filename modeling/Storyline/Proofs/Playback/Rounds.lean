import Storyline.Proofs.Playback.Machine

/-!
# Turn by turn

At every moment of a turn it is settled what the playback will be at its end.  So a
run of the machine from rest to rest is a run by whole turns, and what whole turns
preserve is preserved by every run.
-/

namespace Storyline

/-- What a job does as a whole. -/
def Job.work : Job → Playback → Playback
  | look pause, p => p.revisit pause
  | perform action scope scopes step, p => p.perform action scope scopes step
  | close scope scopes, p => p.performCue .waitForAll scope scopes none

namespace Machine

open Playback

/-- The playback at the end of the turn. -/
def turnEnd (m : Machine) : Playback :=
  match m.running with
  | none => m.playback
  | some task =>
    let p := m.jobs.foldl (fun p job ↦ job.work p) m.playback
    (proceed p.turn.agenda p).endTurn task

variable {acts : Playback → Playback → Prop} {m n : Machine} {p q : Playback} {task : Task}

theorem work_blockJobs (parts : List Action) (scope : Nat) (scopes : List Nat) (p : Playback) :
    (blockJobs parts scope scopes).foldl (fun p job ↦ job.work p) p =
      (performAll parts scope scopes p).performCue .waitForAll scope scopes none := by
  unfold blockJobs
  rw [List.foldl_append]
  refine congrArg (fun p ↦ performCue .waitForAll scope scopes none p) ?_
  induction parts generalizing p with
  | nil => rfl
  | cons part rest ih => exact ih _

/-- In the midst of a turn its end stays the same. -/
theorem Beat.turnEnd (hb : Beat m n) (hm : m.running ≠ none) : n.turnEnd = m.turnEnd := by
  cases hb with
  | take | drop => exact absurd rfl hm
  | look | close => rfl
  | @walk p task action scope step rest hfree hagenda =>
      have hleft : (perform action scope [scope] step
          (p.updateTurn fun t ↦ { t with agenda := rest })).turn.agenda = rest :=
        (costs_begin (.perform action scope step) rfl).agenda
      simp only [Machine.turnEnd, List.foldl_cons, List.foldl_nil, Job.work, hleft]
      rw [hagenda, proceed, if_pos hfree]
      rfl
  | @begin p task errand rest hfree hagenda hother =>
      have hleft : ((p.updateTurn fun t ↦ { t with agenda := rest }).begin errand).turn.agenda = rest :=
        (costs_begin errand rfl).agenda
      simp only [Machine.turnEnd, List.foldl_nil, hleft]
      rw [hagenda, proceed, if_pos hfree]
  | @skip p task action scope scopes step jobs hover =>
      have hwork : (Job.perform action scope scopes step).work p = p := perform_over hover
      simp only [Machine.turnEnd, List.foldl_cons, hwork]
  | @cue p task cue scope scopes step jobs hover =>
      have hwork : (Job.perform (.cue cue) scope scopes step).work p =
          (p.note (.cue cue) scope step).performCue cue scope scopes step := rfl
      simp only [Machine.turnEnd, List.foldl_cons, hwork]
  | @block p task parts scope scopes step jobs hover =>
      have hwork : (Job.perform (.block parts) scope scopes step).work p =
          (performAll parts p.session.serial (p.session.serial :: scopes)
            ((p.note (.block parts) scope step).openWithin scope step)).performCue .waitForAll
              p.session.serial (p.session.serial :: scopes) none := if_neg (by simp [hover])
      simp only [Machine.turnEnd, List.foldl_cons, List.foldl_append, work_blockJobs, hwork]
  | @fork p task parts scope scopes step jobs hover =>
      have hwork : (Job.perform (.fork parts) scope scopes step).work p =
          ((p.note (.fork parts) scope step).openWithin scope step).spawn (some p.session.serial)
            (Playback.walk p.session.serial false parts) := if_neg (by simp [hover])
      simp only [Machine.turnEnd, List.foldl_cons, hwork]
  | @finish p task hheld =>
      have hdone : proceed p.turn.agenda p = p := by
        rcases hheld with hheld | hnone
        · cases hagenda : p.turn.agenda with
          | nil => rfl
          | cons errand rest => rw [proceed, if_neg (by simp [hheld])]
        · rw [hnone]
          rfl
      simp only [Machine.turnEnd, resting, List.foldl_nil, hdone]

/-- Between turns a beat begins the next turn. -/
theorem Beat.turn (hb : Beat (resting p) n) :
    ∃ id rest, p.queue = id :: rest ∧ n.turnEnd = runTask id { p with queue := rest } := by
  cases hb with
  | @take p id rest task hq htask hwhole =>
      refine ⟨id, rest, hq, ?_⟩
      have htask' : ({ p with queue := rest } : Playback).task? id = some task := htask
      have hrun : runTask id { p with queue := rest } = takeTurn task { p with queue := rest } := by
        unfold runTask
        simp only [htask']
        rw [if_neg (by simp [hwhole])]
      have hlooks : (task.pauses.map Job.look).foldl (fun p job ↦ job.work p)
          (({ p with queue := rest } : Playback).begun task) =
            task.pauses.foldl (fun p pause ↦ p.revisit pause)
              (({ p with queue := rest } : Playback).begun task) := by
        rw [List.foldl_map]
        rfl
      simp only [Machine.turnEnd, hlooks]
      rw [revisitAll_agenda, hrun, takeTurn_eq]
      rfl
  | @drop p id rest hq hgone => exact ⟨id, rest, hq, rfl⟩

/-- The jobs of a machine are done as a whole. -/
theorem runs_jobs (jobs : List Job) (p : Playback) :
    Runs acts ⟨p, some task, jobs⟩ ⟨jobs.foldl (fun p job ↦ job.work p) p, some task, []⟩ := by
  induction jobs generalizing p with
  | nil => exact .refl
  | cons job rest ih =>
      refine Runs.trans ?_ (ih (job.work p))
      cases job with
      | look pause => exact .beat .look
      | perform action scope scopes step => exact runs_perform action scope scopes step p rest
      | close scope scopes => exact .beat .close

/-- A turn comes to its end. -/
theorem runs_turnEnd (m : Machine) (h : m.running ≠ none) : Runs acts m (resting m.turnEnd) := by
  obtain ⟨p, running, jobs⟩ := m
  obtain ⟨task, rfl⟩ := Option.ne_none_iff_exists'.mp h
  exact (runs_jobs jobs p).trans (runs_proceed _ _ rfl)

/-- What holds between turns, throughout a run. -/
theorem Runs.rounds {I : Playback → Prop} (hr : Runs acts (resting p) m)
    (hacts : ∀ p q, acts p q → Player.AtRest p → Player.AtRest q) (hp : Player.AtRest p) (h0 : I p)
    (hturn : ∀ (r : Playback) (id : Nat) (rest : List Nat), Player.AtRest r → I r →
      r.queue = id :: rest → I (runTask id { r with queue := rest }))
    (hact : ∀ r r', Player.AtRest r → I r → acts r r' → I r')
    (hlater : ∀ (r r' : Playback) (time : Nat), Player.AtRest r → I r → r.session.now ≤ time →
      r'.session = { r.session with now := time } → r'.tasks = r.tasks → r'.turn = r.turn → I r') :
    I m.turnEnd ∧ Player.AtRest m.turnEnd := by
  refine (hr.induct (I := fun m ↦ I m.turnEnd ∧ Player.AtRest m.turnEnd) hacts (sound_resting hp)
    ⟨h0, hp⟩ fun m n hm h hs ↦ ?_).1
  obtain ⟨hI, ho⟩ := h
  cases hs with
  | @beat m n hb =>
      cases hrun : m.running with
      | none =>
          obtain ⟨playback, running, jobs⟩ := m
          obtain rfl : running = none := hrun
          obtain rfl : jobs = [] := hm.idle rfl
          obtain ⟨id, rest, hq, hend⟩ := hb.turn
          rw [hend]
          exact ⟨hturn _ _ _ ho hI hq, .of_orderly (Orderly.runTask ho hq)⟩
      | some task =>
          rw [hb.turnEnd (by simp [hrun])]
          exact ⟨hI, ho⟩
  | act ha => exact ⟨hact _ _ ho hI ha, hacts _ _ ha ho⟩
  | @move r time hq hnext =>
      refine ⟨hlater r _ time ho hI (Nat.le_of_lt (lt_nextDue hnext)) ?_ ?_ ?_,
        .of_orderly (Orderly.moveTo ho hq hnext)⟩
      all_goals
        unfold resting turnEnd moveTo
        dsimp only
        rw [wakeAll_eq]
        rfl
  | rest hq hle hnext =>
      exact ⟨hlater _ _ _ ho hI hle rfl rfl rfl, .of_orderly (Orderly.rest ho hq hnext)⟩

end Machine

end Storyline
