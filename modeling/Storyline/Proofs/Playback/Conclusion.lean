import Storyline.Proofs.Playback.Serving
import Storyline.Proofs.Playback.Waiting

/-!
# The end of the story is to come

While a story is playing, a task has the end of the story before it: an errand of
its agenda completes the story, or a pause does.  The task can only be lost when
the clock cannot show any more when a voice is to be looked at.
-/

namespace Storyline

/-- An errand that completes the story. -/
def Errand.Concludes (e : Errand) : Prop :=
  ∃ scope tally guarded, e = .drain scope tally guarded .completed

/-- Whether the story is completed by what is on an agenda, or after a pause. -/
def Concludes (agenda : List Errand) (pauses : List Pause) : Prop :=
  (∃ e ∈ agenda, e.Concludes) ∨ ∃ x ∈ pauses, x.ending = .completed

namespace Machine

open Playback

/-- The story is not playing, or a task has its end before it. -/
inductive Concluding (m : Machine) : Prop
  | ended (h : m.playback.status ≠ .playing)
  | outOfTime (h : m.playback.session.OutOfTime)
  | waits {t : Task} (ht : t ∈ m.playback.tasks) (hp : ∀ x ∈ t.pauses, x.Yields)
    (ha : ∀ e ∈ t.agenda, e.Yields) (h : Concludes t.agenda t.pauses)
  | turns (hrun : m.running ≠ none) (hplays : Plays m.playback)
    (h : Concludes m.playback.turn.agenda m.playback.turn.pauses)

section

variable {p q : Playback} {m n : Machine} {task : Task} {job : Job} {jobs : List Job}

theorem note_status (action : Action) (scope : Nat) (step : Option Nat) :
    (p.note action scope step).status = p.status := by
  unfold note
  split <;> rfl

theorem spawn_status (scope : Option Nat) (agenda : List Errand) :
    (p.spawn scope agenda).status = p.status := by
  unfold spawn
  split <;> rfl

/-- The status changes only when the story is completed. -/
theorem Beat.status (hb : Beat m n) :
    n.playback.status = m.playback.status ∨ n.playback.status = .completed := by
  have hserves : ∀ {p q : Playback}, Serves true p q → q.status = p.status ∨ q.status = .completed :=
    fun h ↦ h.status.imp_right And.right
  have hopen : ∀ (p : Playback) (action : Action) (scope : Nat) (step : Option Nat),
      ((p.note action scope step).openWithin scope step).status = p.status ∨
        ((p.note action scope step).openWithin scope step).status = .completed := by
    intro p action scope step
    rw [← note_status (p := p) action scope step]
    exact hserves (serves_openWithin scope step)
  cases hb with
  | take | walk | skip => exact .inl rfl
  | @drop p id rest hq hgone =>
      left
      change (runTask id { p with queue := rest }).status = p.status
      unfold runTask
      split
      · rfl
      next task hsome =>
        rw [if_pos (hgone task hsome)]
        rfl
  | look => exact hserves (serves_revisit (.inl rfl))
  | @begin p task errand rest hfree hagenda hother =>
      have hset : Serves true p (p.updateTurn fun t ↦ { t with agenda := rest }) :=
        .of_turn fun _ ↦ List.Subset.refl _
      exact hserves (hset.trans (serves_begin hother (.inl rfl)))
  | @cue p task cue scope scopes step =>
      have hcue := hserves (serves_performCue (p := p.note (.cue cue) scope step) cue scope scopes step)
      rwa [note_status] at hcue
  | block => exact hopen _ _ _ _
  | fork => exact (hopen _ _ _ _).imp (spawn_status _ _).trans (spawn_status _ _).trans
  | @close p task scope scopes =>
      exact hserves (serves_performCue (p := p) .waitForAll scope scopes none)
  | @finish p task => exact .inl (endTurn_session (p := p) task).2

theorem finish_ends (p : Playback) : (p.finish .completed).status ≠ .playing := by
  unfold finish
  dsimp only
  split
  · simp
  next h => exact h

/-- A pause of the running task that ends the story is left alone, or the story is
completed. -/
theorem Beat.concluding_pause (hb : Beat m n) (hm : m.running ≠ none) (hn : n.running ≠ none)
    (hc : Cast m) (hgoes : m.playback.session.cancelled = false) {x : Pause}
    (hx : x ∈ m.playback.turn.pauses) (hending : x.ending = .completed) :
    (∃ y ∈ n.playback.turn.pauses, y.ending = .completed) ∨ n.playback.status ≠ .playing := by
  have hlasting : Lasting fun x ↦ x.ending = .completed :=
    fun _ _ hx h ↦ hx.ending.trans h
  obtain ⟨task, hrun⟩ := Option.ne_none_iff_exists'.mp hm
  refine (hb.holds hlasting hm hn (hc.running hm).awaits hrun hx hending).imp_right fun hends ↦ ?_
  cases hends with
  | @intro p q task pause jobs ran hid hcompleted hfailed hlook =>
      obtain rfl := look_ran (p := p.aside) hgoes hlook
      have hcompleted : pause.ending = .completed := hcompleted
      rw [if_pos rfl, hcompleted]
      exact finish_ends q

/-- A job is done, perhaps with others in its place; the agenda stays as it is. -/
theorem Beat.of_job (hb : Beat ⟨p, some task, job :: jobs⟩ n) :
    ∃ q new, n = ⟨q, some task, new ++ jobs⟩ ∧ q.turn.agenda = p.turn.agenda ∧
      ∀ x, .look x ∉ new := by
  cases hb with
  | look => exact ⟨_, [], rfl, revisit_agenda _, by simp⟩
  | skip => exact ⟨_, [], rfl, rfl, by simp⟩
  | cue =>
      exact ⟨_, [], rfl, (performCue_agenda _ _ _ _).trans (congrArg Turn.agenda (note_turn _ _ _)),
        by simp⟩
  | block => exact ⟨_, _, rfl, openWithin_agenda _ _ _, fun _ ↦ look_mem_blockJobs⟩
  | fork =>
      exact ⟨_, [], rfl, (congrArg Turn.agenda (spawn_turn _ _)).trans (openWithin_agenda _ _ _),
        by simp⟩
  | close => exact ⟨_, [], rfl, performCue_agenda (p := p) .waitForAll _ _ none, by simp⟩

/-- Between the beginning and the end of a turn, the end of the story stays ahead or
the story is completed. -/
theorem Beat.concluding_turn (hb : Beat m n) (hm : m.running ≠ none) (hn : n.running ≠ none)
    (hc : Cast m) (hgoes : m.playback.session.cancelled = false)
    (h : Concludes m.playback.turn.agenda m.playback.turn.pauses) :
    Concludes n.playback.turn.agenda n.playback.turn.pauses ∨ n.playback.status ≠ .playing := by
  rcases h with ⟨e, he, hends⟩ | ⟨x, hx, hends⟩
  · have hsame : n.playback.turn.agenda = m.playback.turn.agenda →
        Concludes n.playback.turn.agenda n.playback.turn.pauses ∨ n.playback.status ≠ .playing :=
      fun hagenda ↦ .inl (.inl ⟨e, hagenda ▸ he, hends⟩)
    have hb' := hb
    cases hb with
    | take | drop => exact absurd rfl hm
    | finish => exact absurd rfl hn
    | @walk p task action scope step rest hfree hagenda =>
        have he : e ∈ p.turn.agenda := he
        rw [hagenda] at he
        rcases List.mem_cons.mp he with rfl | he
        · obtain ⟨_, _, _, hother⟩ := hends
          cases hother
        · exact .inl (.inl ⟨e, he, hends⟩)
    | @begin p task errand rest hfree hagenda hother =>
        let taken := p.updateTurn fun t ↦ { t with agenda := rest }
        have he : e ∈ p.turn.agenda := he
        rw [hagenda] at he
        rcases List.mem_cons.mp he with rfl | he
        · obtain ⟨scope, tally, guarded, rfl⟩ := hends
          change Concludes _ (taken.suspend _ _ _).turn.pauses ∨ (taken.suspend _ _ _).status ≠ _
          rw [suspend_drained (p := taken) hgoes]
          split
          · exact .inr (finish_ends taken)
          · refine .inl (.inr ⟨_, List.mem_append_right _ (List.mem_singleton.mpr rfl), rfl⟩)
        · refine .inl (.inl ⟨e, ?_, hends⟩)
          exact (costs_begin (p := taken) errand rfl).agenda ▸ he
    | _ =>
        obtain ⟨q, new, hq, hagenda, -⟩ := hb'.of_job
        exact hsame ((congrArg (fun m : Machine ↦ m.playback.turn.agenda) hq).trans hagenda)
  · exact (hb.concluding_pause hm hn hc hgoes hx hends).imp_left .inr

theorem Beat.concluding (hs : Sound m) (hc : Cast m) (hwhole : ∀ t ∈ m.playback.tasks, t.aborted = false)
    (hgoes : m.playback.session.cancelled = false) (hb : Beat m n) (h : Concluding m) :
    Concluding n := by
  have hb' := hb
  cases h with
  | ended h =>
      refine .ended ?_
      rcases hb.status with he | he <;> rw [he]
      · exact h
      · simp
  | outOfTime h => exact .outOfTime (hb.outOfTime h)
  | @waits t ht hp ha h =>
      cases hb with
      | @take p id rest task hq htask hall =>
          by_cases he : t.id = task.id
          · obtain rfl := List.inj_on_of_nodup_map hs.orderly.nodup_ids ht (Orderly.task?_eq htask).1 he
            exact .turns (by simp) ⟨hp, ha, by simp [begun, updateTurn, Turn.ofTask]⟩ h
          · exact .waits (List.mem_map.mpr ⟨t, ht, by simp [he]⟩) hp ha h
      | @drop p id rest hq hgone =>
          rw [runTask_gone (p := p) hwhole hgone]
          exact .waits ht hp ha h
      | @finish p task =>
          by_cases he : t.id = task.id
          · obtain ⟨hpauses, hagenda⟩ := hs.orderly.empty t ht (congrArg some he)
            simp [Concludes, hpauses, hagenda] at h
          · exact .waits (endTurn_others ht he) hp ha h
      | _ =>
          obtain ⟨new, hnew, -⟩ := (hb'.extends (by simp) (by simp)).tasks
          exact .waits (hnew ▸ List.mem_append_left _ ht) hp ha h
  | turns hrun hplays h =>
      cases hb with
      | take | drop => exact absurd rfl hrun
      | @finish p task hheld =>
          by_cases hf : p.turn.failed = true
          · exact .outOfTime (outOfTime_endTurn (hplays.failed hf))
          have hne : p.turn.pauses ≠ [] := by
            intro hnil
            have hagenda := hheld.resolve_left (by simp [Turn.isFree, hnil, hf])
            simp [Concludes, hnil, hagenda] at h
          obtain ⟨t, ht, -, hagenda, hpauses⟩ :=
            (endTurn_keeps (hs.orderly.running_mem _ rfl) hne).resolve_left fun h ↦ hf h.1
          refine .waits ht (hpauses ▸ hplays.pauses) (hagenda ▸ hplays.agenda) ?_
          rw [hagenda, hpauses]
          exact h
      | _ =>
          have hawaits := (hc.running hrun).awaits
          exact (hb'.concluding_turn (by simp) (by simp) hc hgoes h).elim
            (.turns (by simp) (hb'.plays (by simp) (by simp) hawaits hplays)) .ended

/-! ## Whole turns -/

/-- A story that goes on, with its end to come. -/
structure Going (m : Machine) : Prop where
  cast : Cast m
  concluding : Concluding m
  whole : ∀ t ∈ m.playback.tasks, t.aborted = false
  running : m.playback.session.cancelled = false

theorem Beat.going (hs : Sound m) (h : Going m) (hb : Beat m n) : Going n where
  cast := hb.cast h.cast
  concluding := hb.concluding hs h.cast h.whole h.running h.concluding
  whole := hb.whole h.whole
  running := (Session.cancelled_eq hb.settings).trans h.running

/-- Between turns the story goes on as long as its tasks do. -/
theorem Going.resting (h : Going (resting p)) (htasks : q.tasks = p.tasks)
    (hstatus : q.status = p.status) (hrunning : q.session.cancelled = p.session.cancelled)
    (htime : p.session.OutOfTime → q.session.OutOfTime) : Going (resting q) where
  cast := ⟨htasks ▸ h.cast.tasks, fun hrun ↦ absurd rfl hrun⟩
  concluding := by
    cases h.concluding with
    | ended hover => exact .ended fun hplays ↦ hover (hstatus.symm.trans hplays)
    | outOfTime hout => exact .outOfTime (htime hout)
    | waits ht hp ha hends => exact .waits (htasks ▸ ht) hp ha hends
    | turns hrun => exact absurd rfl hrun
  whole := htasks ▸ h.whole
  running := hrunning.trans h.running

theorem Going.stirs (h : Going (Machine.resting p)) (hst : p.Stirs q) (hstatus : q.status = p.status)
    (hrunning : q.session.cancelled = p.session.cancelled) : Going (Machine.resting q) := by
  refine h.resting hst.tasks hstatus hrunning ?_
  unfold Session.OutOfTime
  rw [hst.config, hst.now]
  exact id

theorem Going.later {time : Nat} (h : Going (Machine.resting p)) (hle : p.session.now ≤ time)
    (hsession : q.session = { p.session with now := time }) (htasks : q.tasks = p.tasks)
    (hstatus : q.status = p.status) : Going (Machine.resting q) := by
  refine h.resting htasks hstatus (by rw [hsession]) fun hout ↦ ?_
  rw [hsession]
  exact outOfTime_later hout hle

/-- In a turn the status changes only when the story is completed. -/
theorem status_runTask {id : Nat} {rest : List Nat} (ho : Player.AtRest p) (hq : p.queue = id :: rest) :
    (runTask id { p with queue := rest }).status = p.status ∨
      (runTask id { p with queue := rest }).status = .completed := by
  have hrun : Runs (fun _ _ ↦ False) (Machine.resting p)
      (Machine.resting (runTask id { p with queue := rest })) := runs_runTask hq
  refine (hrun.induct (I := fun m ↦ m.playback.status = p.status ∨ m.playback.status = .completed)
    (fun _ _ h ↦ h.elim) (sound_resting ho) (.inl rfl) fun m n _ hm hs ↦ ?_).1
  cases hs with
  | beat hb => exact hb.status.elim (fun he ↦ hm.imp he.trans he.trans) .inr
  | act h => exact h.elim
  | @move r time =>
      obtain ⟨queue, hmoved⟩ := moveTo_eq time r
      rw [hmoved]
      exact hm
  | rest => exact hm

theorem Going.runTask {id : Nat} {rest : List Nat} (h : Going (Machine.resting p))
    (ho : Player.AtRest p) (hq : p.queue = id :: rest) :
    Going (Machine.resting (runTask id { p with queue := rest })) := by
  have hrun : Runs (fun _ _ ↦ False) (Machine.resting p)
      (Machine.resting (Playback.runTask id { p with queue := rest })) := runs_runTask hq
  refine (hrun.induct (fun _ _ h ↦ h.elim) (sound_resting ho) h fun m n hm hgoes hs ↦ ?_).1
  cases hs with
  | beat hb => exact hb.going hm hgoes
  | act h => exact h.elim
  | @move r time hq hnext =>
      obtain ⟨queue, hmoved⟩ := moveTo_eq time r
      rw [hmoved]
      exact hgoes.later (Nat.le_of_lt (lt_nextDue hnext)) rfl rfl rfl
  | rest hq hle => exact hgoes.later hle rfl rfl rfl

end

end Machine

end Storyline
