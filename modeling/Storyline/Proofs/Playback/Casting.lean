import Storyline.Proofs.Playback.Machine
import Storyline.Proofs.Playback.Yielding

/-!
# The parts that tasks play

A task either performs actions, and then only leaves pauses that give way, or it
performs none.  A task that performs actions fails only when the clock cannot
show any more when a voice is to be looked at.
-/

namespace Storyline

/-- A task that performs actions or serves them, or that performs none. -/
def Task.Cast (t : Task) : Prop :=
  ((∀ q ∈ t.pauses, q.Yields) ∧ ∀ e ∈ t.agenda, e.Yields) ∨ ∀ e ∈ t.agenda, e.performs = false

theorem Task.New.cast {t : Task} (h : t.New) : t.Cast :=
  h.agenda.imp_left fun ha ↦ ⟨by simp [h.pauses], ha⟩

/-- The pauses that have yet to be looked at. -/
def looks (jobs : List Job) : List Pause :=
  jobs.filterMap fun job ↦ match job with
    | .look pause => some pause
    | _ => none

@[simp] theorem looks_cons_look (pause : Pause) (jobs : List Job) :
    looks (.look pause :: jobs) = pause :: looks jobs := rfl

@[simp] theorem looks_cons_perform (action : Action) (scope : Nat) (scopes : List Nat)
    (step : Option Nat) (jobs : List Job) :
    looks (.perform action scope scopes step :: jobs) = looks jobs := rfl

@[simp] theorem looks_cons_close (scope : Nat) (scopes : List Nat) (jobs : List Job) :
    looks (.close scope scopes :: jobs) = looks jobs := rfl

theorem looks_map_look (pauses : List Pause) : looks (pauses.map .look) = pauses := by
  induction pauses with
  | nil => rfl
  | cons pause rest ih => rw [List.map_cons, looks_cons_look, ih]

theorem looks_eq_nil {jobs : List Job} (h : ∀ job ∈ jobs, job.isLook = false) : looks jobs = [] := by
  refine List.filterMap_eq_nil_iff.mpr fun job hjob ↦ ?_
  have := h job hjob
  cases job <;> simp_all [Job.isLook]

theorem isLook_blockJobs (parts : List Action) (scope : Nat) (scopes : List Nat) :
    ∀ job ∈ blockJobs parts scope scopes, job.isLook = false := by
  intro job hjob
  rcases List.mem_append.mp hjob with hjob | hjob
  · obtain ⟨part, -, rfl⟩ := List.mem_map.mp hjob
    rfl
  · rw [List.mem_singleton.mp hjob]
    rfl

namespace Machine

open Playback

/-- The turn of a task that performs actions or serves them. -/
structure Plays (p : Playback) : Prop where
  pauses : ∀ q ∈ p.turn.pauses, q.Yields
  agenda : ∀ e ∈ p.turn.agenda, e.Yields
  failed : p.turn.failed = true → p.session.OutOfTime

/-- A turn begins with looks at the pauses; only a task that performs actions
has other jobs afterwards. -/
structure Casting (p : Playback) (jobs : List Job) : Prop where
  awaits : p.Awaits (looks jobs)
  part : Plays p ∧ (∀ job ∈ jobs, job.isLook = false) ∨
    (∀ job ∈ jobs, job.isLook = true) ∧ (Plays p ∨ ∀ e ∈ p.turn.agenda, e.performs = false)

/-- Every task, and the one that is running, plays one part. -/
structure Cast (m : Machine) : Prop where
  tasks : ∀ t ∈ m.playback.tasks, t.Cast
  running : m.running ≠ none → Casting m.playback m.jobs

section

variable {p q : Playback} {task : Task} {jobs jobs' : List Job} {m n : Machine}

theorem Plays.extend (h : Plays p) (hext : Extends false p q)
    (hagenda : q.turn.agenda ⊆ p.turn.agenda) : Plays q where
  pauses := fun x hx ↦ (hext.pauses.resolve_left (by simp) x hx).elim (h.pauses x) id
  agenda := fun e he ↦ h.agenda e (hagenda he)
  failed := fun hf ↦ hext.outOfTime.mpr ((hext.failed.resolve_left (by simp) hf).elim h.failed id)

theorem cast_extend {free : Bool} (h : ∀ t ∈ p.tasks, t.Cast) (hext : Extends free p q) :
    ∀ t ∈ q.tasks, t.Cast := by
  obtain ⟨new, hnew, hadded⟩ := hext.tasks
  intro t ht
  rw [hnew] at ht
  exact (List.mem_append.mp ht).elim (h t) fun ht ↦ (hadded t ht).cast

/-- While a task runs, part of its turn adds tasks and fails for want of time only. -/
theorem Beat.extends (hb : Beat m n) (hm : m.running ≠ none) (hn : n.running ≠ none) :
    Extends true m.playback n.playback := by
  have hset : ∀ (p : Playback) (rest : List Errand),
      Extends true p (p.updateTurn (fun t ↦ { t with agenda := rest })) :=
    fun p rest ↦ .of_subset rfl rfl rfl (List.Subset.refl _) rfl
  cases hb with
  | take | drop => exact absurd rfl hm
  | look => exact extends_revisit (.inl rfl)
  | walk => exact hset _ _
  | begin => exact (hset _ _).trans (extends_begin (.inl rfl))
  | skip => exact .refl _
  | cue => exact (extends_note _ _ _).trans (extends_performCue _ _ _ _)
  | block => exact (extends_note _ _ _).trans (.of_stirs (stirs_openWithin _ _ _))
  | fork =>
      exact ((extends_note _ _ _).trans (.of_stirs (stirs_openWithin _ _ _))).trans
        (extends_spawn _ (.inl (walk_yields _ false _)))
  | @close p task scope scopes => exact extends_performCue (p := p) .waitForAll scope scopes none
  | finish => exact absurd rfl hn

theorem performCue_agenda (cue : Cue) (scope : Nat) (scopes : List Nat) (step : Option Nat) :
    (p.performCue cue scope scopes step).turn.agenda = p.turn.agenda :=
  (costs_performCue cue scope scopes step rfl).agenda

theorem openWithin_agenda (action : Action) (scope : Nat) (step : Option Nat) :
    ((p.note action scope step).openWithin scope step).turn.agenda = p.turn.agenda := by
  rw [(stirs_openWithin _ scope step).agenda, note_turn]

/-- What is left on the agenda was there before. -/
theorem Beat.agenda (hb : Beat m n) (hm : m.running ≠ none) (hn : n.running ≠ none) :
    n.playback.turn.agenda ⊆ m.playback.turn.agenda := by
  have hsame : ∀ {l l' : List Errand}, l = l' → l ⊆ l' := fun h ↦ h ▸ List.Subset.refl _
  cases hb with
  | take | drop => exact absurd rfl hm
  | @look p task pause jobs => exact hsame (revisit_agenda pause)
  | @walk p task action scope step rest hfree hagenda =>
      exact fun e he ↦ hagenda ▸ List.mem_cons_of_mem _ he
  | @begin p task errand rest hfree hagenda =>
      have hleft : _ ⊆ rest := hsame
        (costs_begin (p := p.updateTurn (fun t ↦ { t with agenda := rest })) errand rfl).agenda
      exact fun e he ↦ hagenda ▸ List.mem_cons_of_mem _ (hleft he)
  | skip => exact List.Subset.refl _
  | cue =>
      exact hsame ((performCue_agenda _ _ _ _).trans (congrArg Turn.agenda (note_turn _ _ _)))
  | block => exact hsame (openWithin_agenda _ _ _)
  | fork =>
      exact hsame ((congrArg Turn.agenda (spawn_turn _ _)).trans (openWithin_agenda _ _ _))
  | @close p task scope scopes => exact hsame (performCue_agenda (p := p) .waitForAll scope scopes none)
  | finish => exact absurd rfl hn

/-- A task that performs actions goes on doing so. -/
theorem Beat.plays (hb : Beat m n) (hm : m.running ≠ none) (hn : n.running ≠ none)
    (hawaits : m.playback.Awaits (looks m.jobs)) (h : Plays m.playback) : Plays n.playback := by
  have hagenda := hb.agenda hm hn
  cases hb with
  | take | drop => exact absurd rfl hm
  | @look p task pause jobs =>
      by_cases hf : p.turn.failed = true
      · have hsame : p.revisit pause = p := by
          unfold revisit
          rw [if_pos hf]
        exact hsame.symm ▸ h
      · obtain ⟨done, hdone⟩ := hawaits.resolve_left hf
        have hdone : p.turn.pauses = pause :: (looks jobs ++ done) := hdone
        have hy : pause.Yields := h.pauses pause (by simp [hdone])
        exact h.extend (extends_revisit (.inr hy)) hagenda
  | walk => exact ⟨h.pauses, fun e he ↦ h.agenda e (hagenda he), h.failed⟩
  | @begin p task errand rest hfree hfirst =>
      have hset : Extends false p (p.updateTurn (fun t ↦ { t with agenda := rest })) :=
        .of_subset rfl rfl rfl (List.Subset.refl _) rfl
      have hy : errand.Yields := h.agenda errand (by simp [hfirst])
      exact h.extend (hset.trans (extends_begin (.inr hy))) hagenda
  | skip => exact h
  | cue => exact h.extend ((extends_note _ _ _).trans (extends_performCue _ _ _ _)) hagenda
  | block =>
      exact h.extend ((extends_note _ _ _).trans (.of_stirs (stirs_openWithin _ _ _))) hagenda
  | fork =>
      exact h.extend (((extends_note _ _ _).trans (.of_stirs (stirs_openWithin _ _ _))).trans
        (extends_spawn _ (.inl (walk_yields _ false _)))) hagenda
  | @close p task scope scopes =>
      exact h.extend (extends_performCue (p := p) .waitForAll scope scopes none) hagenda
  | finish => exact absurd rfl hn

/-- A task that performs an action is of the first kind. -/
theorem Casting.plays {job : Job} (h : Casting p (job :: jobs)) (hjob : job.isLook = false) :
    Plays p ∧ ∀ x ∈ jobs, x.isLook = false := by
  obtain ⟨hplays, hnone⟩ := h.part.resolve_right fun hall ↦ by
    have := hall.1 job (by simp)
    simp [hjob] at this
  exact ⟨hplays, fun x hx ↦ hnone x (List.mem_cons_of_mem _ hx)⟩

/-- Part of a turn in which an action is performed. -/
theorem Cast.perform {job : Job} (h : Cast ⟨p, some task, job :: jobs⟩) (hjob : job.isLook = false)
    (hb : Beat ⟨p, some task, job :: jobs⟩ ⟨q, some task, jobs'⟩)
    (hjobs : ∀ x ∈ jobs', x.isLook = false ∨ x ∈ jobs) : Cast ⟨q, some task, jobs'⟩ := by
  have hcasting := h.running (by simp)
  obtain ⟨hplays, hnone⟩ := hcasting.plays hjob
  have hnone' : ∀ x ∈ jobs', x.isLook = false :=
    fun x hx ↦ (hjobs x hx).elim id fun hx ↦ hnone x hx
  refine ⟨cast_extend h.tasks (hb.extends (by simp) (by simp)), fun _ ↦ ⟨?_, .inl ⟨?_, hnone'⟩⟩⟩
  · rw [looks_eq_nil hnone']
    exact .inr ⟨_, rfl⟩
  · exact hb.plays (by simp) (by simp) hcasting.awaits hplays

theorem Beat.cast (h : Cast m) (hb : Beat m n) : Cast n := by
  have hb' := hb
  cases hb with
  | @take p id rest task hq htask hwhole =>
      obtain ⟨hmem, -⟩ := Orderly.task?_eq htask
      refine ⟨fun t ht ↦ ?_, fun _ ↦ ⟨?_, .inr ⟨fun job hjob ↦ ?_, ?_⟩⟩⟩
      · rcases mem_modifyTask ht with ⟨old, -, -, rfl⟩ | ⟨hold, -⟩
        · exact .inr (by simp)
        · exact h.tasks t hold
      · rw [looks_map_look]
        exact .inr ⟨[], (List.append_nil _).symm⟩
      · obtain ⟨x, -, rfl⟩ := List.mem_map.mp hjob
        rfl
      · exact (h.tasks task hmem).imp_left fun ⟨hp, ha⟩ ↦
          ⟨hp, ha, by simp [begun, Turn.ofTask, updateTurn]⟩
  | @drop p id rest hq hgone =>
      refine ⟨fun t ht ↦ h.tasks t ?_, by simp [resting]⟩
      have ht : t ∈ (runTask id { p with queue := rest }).tasks := ht
      unfold runTask at ht
      split at ht
      · exact ht
      next task hsome =>
        rw [if_pos (hgone task hsome)] at ht
        exact (List.mem_filter.mp ht).1
  | @look p task pause jobs =>
      obtain ⟨hawaits, hpart⟩ := h.running (by simp)
      obtain ⟨hall, hrest⟩ := hpart.resolve_left fun hnone ↦ by
        have := hnone.2 (.look pause) (by simp)
        simp [Job.isLook] at this
      refine ⟨cast_extend h.tasks (hb'.extends (by simp) (by simp)),
        fun _ ↦ ⟨revisit_awaits hawaits, .inr ⟨?_, hrest.imp ?_ fun hidle ↦ ?_⟩⟩⟩
      · exact fun job hjob ↦ hall job (List.mem_cons_of_mem _ hjob)
      · exact hb'.plays (by simp) (by simp) hawaits
      · exact fun e he ↦ hidle e (hb'.agenda (by simp) (by simp) he)
  | @walk p task action scope step rest hfree hagenda =>
      obtain ⟨hawaits, hpart⟩ := h.running (by simp)
      have hplays : Plays p := by
        rcases hpart with ⟨hplays, -⟩ | ⟨-, hplays | hidle⟩
        · exact hplays
        · exact hplays
        · have := hidle (.perform action scope step) (by simp [hagenda])
          simp [Errand.performs] at this
      refine ⟨h.tasks, fun _ ↦ ⟨.inr ⟨_, rfl⟩, .inl ⟨?_, by simp [Job.isLook]⟩⟩⟩
      exact hb'.plays (by simp) (by simp) hawaits hplays
  | @begin p task errand rest hfree hagenda hother =>
      obtain ⟨hawaits, hpart⟩ := h.running (by simp)
      have hcases : Plays p ∨ ∀ e ∈ p.turn.agenda, e.performs = false :=
        hpart.elim (fun hplays ↦ .inl hplays.1) And.right
      refine ⟨cast_extend h.tasks (hb'.extends (by simp) (by simp)),
        fun _ ↦ ⟨.inr ⟨_, rfl⟩, .inr ⟨by simp, hcases.imp ?_ fun hidle ↦ ?_⟩⟩⟩
      · exact hb'.plays (by simp) (by simp) hawaits
      · exact fun e he ↦ hidle e (hb'.agenda (by simp) (by simp) he)
  | skip | cue | fork | close => exact h.perform rfl hb' fun x hx ↦ .inr hx
  | block =>
      exact h.perform rfl hb' fun x hx ↦
        (List.mem_append.mp hx).imp (isLook_blockJobs _ _ _ x) id
  | @finish p task hheld =>
      refine ⟨fun t ht ↦ ?_, by simp [resting]⟩
      rcases mem_endTurn ht with ⟨hold, -⟩ | ⟨-, hagenda, hpauses, -, -⟩
      · exact h.tasks t hold
      · obtain ⟨-, hpart⟩ := h.running (by simp)
        have hcases : Plays p ∨ ∀ e ∈ p.turn.agenda, e.performs = false :=
          hpart.elim (fun hplays ↦ .inl hplays.1) And.right
        unfold Task.Cast
        rw [hagenda, hpauses]
        exact hcases.imp_left fun hplays ↦ ⟨hplays.pauses, hplays.agenda⟩

end

end Machine

end Storyline
