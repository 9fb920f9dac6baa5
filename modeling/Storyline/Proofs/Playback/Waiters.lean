import Mathlib.Data.List.Flatten
import Storyline.Proofs.Playback.Covers
import Storyline.Proofs.Playback.Pace

/-!
# Waiters for a count

A task that waits for a count does so until a look finds the count at zero, or
until the task fails.  The wait changes nothing, and an action that waits for its
own scope leaves the counts as they were before it entered the scope.
-/

namespace Storyline

/-- The count that a job waits for, with the scopes that its wait keeps in use. -/
def Job.awaits? : Job → Option (Nat × Tally × List Nat)
  | perform (.cue .waitForAll) scope scopes _ | close scope scopes => some (scope, .actions, scopes)
  | perform (.cue .waitForTap) scope scopes _ => some (scope, .taps, scopes)
  | _ => none

/-- A task waits: its number and what it waits for. -/
def Task.waiters (t : Task) : List (Nat × Wait) := t.pauses.map fun x ↦ (t.id, x.wait)

namespace Session

variable {s : Session}

/-- Whoever enters a scope and leaves it at once has changed nothing. -/
theorem modifyScope_enter_release (h : s.Numbered) (id : Nat) :
    (s.modifyScope id (.enter false)).modifyScope id (.release (s.ticket id false)) = s := by
  have hback : ∀ sc ∈ s.scopes, sc.id = id →
      (sc.enter false).release (s.ticket id false) = sc := by
    rintro sc hsc rfl
    have hticket : s.ticket sc.id false = sc.ticket false := by
      unfold ticket
      rw [scope?_eq h hsc]
    rw [hticket]
    simp [Scope.release, Scope.enter, Scope.ticket, Scope.modify, Counter.release, Counter.counts,
      Counter.acquire]
  have hmap : (s.scopes.map fun sc ↦ if sc.id == id then sc.enter false else sc).map
      (fun sc ↦ if sc.id == id then sc.release (s.ticket id false) else sc) = s.scopes := by
    rw [List.map_map]
    refine (List.map_congr_left fun sc hsc ↦ ?_).trans (List.map_id _)
    by_cases he : sc.id = id
    · have hid : (sc.enter false).id = id := he
      simp [he, hid, hback sc hsc he]
    · simp [he]
  unfold modifyScope
  rw [hmap]

end Session

namespace Playback

variable {p : Playback} {scope : Nat} {tally : Tally}

/-- An action that waits for the count of its scope does so for what others have left
there, and changes no count. -/
theorem performCue_waits (h : p.session.Numbered) (hgoes : p.isOver = false) {cue : Cue}
    (hcue : cue = .waitForAll ∧ tally = .actions ∨ cue = .waitForTap ∧ tally = .taps) (scope : Nat)
    (scopes : List Nat) (step : Option Nat) :
    (p.performCue cue scope scopes step).session.scopes = p.session.scopes ∧
      (p.performCue cue scope scopes step).turn.pauses = p.turn.pauses ++
        if p.session.pending scope tally = 0 then []
        else [⟨.drained scope tally true, .nothing, scopes⟩] := by
  have hannounced := p.smooth_announce step
  have hscopes : (p.announce step).session.scopes = p.session.scopes := by
    cases step with
    | none => rfl
    | some n =>
        simp only [announce, update, Session.present]
        split <;> rfl
  obtain ⟨q, hq⟩ : ∃ q, q = ((p.announce step).enter scope false).release
      ((p.announce step).session.ticket scope false) := ⟨_, rfl⟩
  have hst : p.Stirs q := hq ▸ hannounced.stirs.trans ((stirs_enter _ _ _).trans (stirs_release _ _))
  have hsession : q.session = (p.announce step).session := by
    have hnumbered : (p.announce step).session.Numbered :=
      ⟨hscopes ▸ h.nodup, fun sc hsc ↦
        Nat.lt_of_lt_of_le (h.lt sc (hscopes ▸ hsc)) hannounced.stirs.serial⟩
    have hentered : ((p.announce step).enter scope false).session =
        (p.announce step).session.modifyScope scope (.enter false) := by
      rw [enter_eq_touch, touch_session]
    rw [hq, release_session, hentered, Session.ticket_scope]
    · exact Session.modifyScope_enter_release hnumbered scope
    · rw [hentered]
      exact Session.numbered_modifyScope (fun sc ↦ rfl) hnumbered
  have hrunning : q.session.cancelled = false := by
    rw [hsession, show (p.announce step).session.cancelled = p.session.cancelled from
      congrArg Pace.cancelled hannounced.level.pace]
    cases hc : p.session.cancelled <;> simp_all [isOver]
  have hpending : q.session.pending scope tally = p.session.pending scope tally := by
    simp only [Session.pending, Session.scope?, hsession, hscopes]
  have hperform : p.performCue cue scope scopes step =
      q.suspend (.drained scope tally true) .nothing scopes := by
    unfold performCue
    rw [if_neg (by simp [hgoes]), hq]
    rcases hcue with ⟨rfl, rfl⟩ | ⟨rfl, rfl⟩ <;> rfl
  rw [hperform, suspend_drained hrunning, hpending]
  split
  · exact ⟨(congrArg Session.scopes hsession).trans hscopes, by rw [List.append_nil]; exact hst.pauses⟩
  · exact ⟨(congrArg Session.scopes hsession).trans hscopes,
      congrArg (· ++ [_]) hst.pauses⟩

/-- A look at a wait for a count changes nothing. -/
theorem revisit_drained {x : Pause} {guarded : Bool} (hgoes : p.turn.failed = false)
    (hc : p.session.cancelled = false) (hx : x.wait = .drained scope tally guarded) :
    p.revisit x = if p.session.pending scope tally = 0 then p.aside.finish x.ending
      else p.aside.leave x := by
  obtain ⟨wait, ending, scopes⟩ := x
  obtain rfl : wait = .drained scope tally guarded := hx
  rw [revisit_eq hgoes, suspend_drained (p := p.aside) hc]
  rfl

end Playback

namespace Machine

open Playback

/-- All that is waited for, with the tasks that wait. -/
def waiters (m : Machine) : List (Nat × Wait) :=
  m.running.toList.flatMap (fun task ↦ m.playback.turn.pauses.map fun x ↦ (task.id, x.wait)) ++
    m.playback.tasks.flatMap Task.waiters

/-- A look finds the count at zero for which a task waits. -/
inductive Polls (id scope : Nat) (tally : Tally) (guarded : Bool) : Machine → Machine → Prop
  | intro {p : Playback} {task : Task} {x : Pause} {jobs : List Job} (hid : task.id = id)
    (hwait : x.wait = .drained scope tally guarded) (hgoes : p.turn.failed = false)
    (hzero : p.session.pending scope tally = 0) :
    Polls id scope tally guarded ⟨p, some task, .look x :: jobs⟩
      ⟨p.aside.finish x.ending, some task, jobs⟩

section

variable {m n : Machine} {p q : Playback} {task : Task} {jobs jobs' : List Job} {w : Nat × Wait}
  {id scope : Nat} {tally : Tally} {guarded : Bool}

theorem count_running : (waiters ⟨p, some task, jobs⟩).count w =
    (p.turn.pauses.map fun x ↦ (task.id, x.wait)).count w + (p.tasks.flatMap Task.waiters).count w := by
  simp [waiters]

theorem count_resting : (waiters (resting p)).count w = (p.tasks.flatMap Task.waiters).count w := rfl

/-- Nobody stops waiting while pauses and tasks are only added. -/
theorem count_kept (hpauses : p.turn.pauses <+: q.turn.pauses) (htasks : p.tasks <+: q.tasks) :
    (waiters ⟨p, some task, jobs⟩).count w ≤ (waiters ⟨q, some task, jobs'⟩).count w := by
  rw [count_running, count_running]
  have hturn := (hpauses.sublist.map fun x ↦ (task.id, x.wait)).count_le w
  have hrest := (htasks.sublist.flatMap Task.waiters).count_le w
  omega

/-- A task begins its turn with what it waits for. -/
theorem count_begun (hnodup : (p.tasks.map Task.id).Nodup) (htask : task ∈ p.tasks) {rest : List Nat} :
    (waiters ⟨({ p with queue := rest } : Playback).begun task, some task, jobs⟩).count w =
      (waiters (resting p)).count w := by
  have hcount := count_modifyTask (p := p) (g := fun t ↦ { t with agenda := [], pauses := [] })
    Task.waiters w hnodup htask
  have hnone : (Task.waiters { task with agenda := [], pauses := [] }).count w = 0 := rfl
  rw [hnone] at hcount
  rw [count_running, count_resting]
  change (Task.waiters task).count w + ((p.modifyTask task.id _).tasks.flatMap Task.waiters).count w = _
  omega

theorem waiters_of_empty {t : Task} (h : t.pauses = []) : t.waiters = [] := by
  rw [Task.waiters, h, List.map_nil]

/-- At the end of its turn a task is put back with what it waits for, if it has not failed. -/
theorem count_endTurn {wait : Wait} (ho : p.Orderly p.session.moment (some task.id) 0) :
    (waiters ⟨p, some task, []⟩).count (id, wait) ≤
      (waiters (resting (p.endTurn task))).count (id, wait) ∨
        (id, .failed) ∈ (p.endTurn task).outcomes := by
  have hempty : ∀ t ∈ p.tasks, t.id = task.id → t.waiters = [] :=
    fun t ht he ↦ waiters_of_empty (ho.empty t ht (by rw [he])).1
  have hmem := ho.running_mem task.id rfl
  by_cases hfell : p.turn.failed = true ∧ id = task.id
  · obtain ⟨hf, rfl⟩ := hfell
    refine .inr ?_
    unfold Playback.endTurn
    dsimp only
    rw [if_pos hf, (abandonAll_stirs _).outcomes]
    exact List.mem_append_right _ (List.mem_singleton.mpr rfl)
  left
  rw [count_running, count_resting]
  have hended : ∀ outcome, (p.turn.pauses.map fun x ↦ (task.id, x.wait)).count (id, wait) = 0 →
      (p.turn.pauses.map fun x ↦ (task.id, x.wait)).count (id, wait) +
          (p.tasks.flatMap Task.waiters).count (id, wait) ≤
        (((p.updateTurn fun _ ↦ .none).endTask task outcome).tasks.flatMap Task.waiters).count
          (id, wait) := by
    intro outcome hzero
    rw [hzero, Nat.zero_add,
      flatMap_endTask (p := p.updateTurn fun _ ↦ .none) Task.waiters hempty]
    exact Nat.le_refl _
  unfold Playback.endTurn
  dsimp only
  split
  next hf =>
    rw [(abandonAll_stirs _).tasks]
    refine hended _ (List.count_eq_zero.mpr fun hin ↦ hfell ⟨hf, ?_⟩)
    obtain ⟨x, -, he⟩ := List.mem_map.mp hin
    exact (Prod.mk.inj he).1.symm
  split
  next hnil =>
    have hnil : p.turn.pauses = [] := by simpa using hnil
    exact hended _ (by rw [hnil]; rfl)
  next =>
    obtain ⟨entry, hentry, hid⟩ := List.mem_map.mp hmem
    have hcount := count_modifyTask (p := p.updateTurn fun _ ↦ .none)
      (g := fun t ↦ { t with agenda := p.turn.agenda, pauses := p.turn.pauses })
      Task.waiters (id, wait) ho.nodup_ids hentry
    rw [hempty entry hentry hid, hid] at hcount
    have hback : (p.turn.pauses.map fun x ↦ (task.id, x.wait)).count (id, wait) +
        (p.tasks.flatMap Task.waiters).count (id, wait) =
          (((p.updateTurn fun _ ↦ .none).modifyTask task.id
            fun t ↦ { t with agenda := p.turn.agenda, pauses := p.turn.pauses }).tasks.flatMap
              Task.waiters).count (id, wait) := by
      simp only [Task.waiters, updateTurn, List.count_nil] at hcount ⊢
      omega
    split
    · unfold wake
      split <;> exact Nat.le_of_eq hback
    · exact Nat.le_of_eq hback

/-- A task looks at what it waits for: it goes on waiting, or its count is zero. -/
theorem count_revisit {x : Pause} {others : List Pause} (hgoes : p.session.cancelled = false)
    (hawaits : p.Awaits (x :: others)) :
    (waiters ⟨p, some task, .look x :: jobs⟩).count (id, .drained scope tally guarded) ≤
        (waiters ⟨p.revisit x, some task, jobs⟩).count (id, .drained scope tally guarded) ∨
      Polls id scope tally guarded ⟨p, some task, .look x :: jobs⟩ ⟨p.revisit x, some task, jobs⟩ ∧
        (waiters ⟨p, some task, .look x :: jobs⟩).count (id, .drained scope tally guarded) =
          (waiters ⟨p.revisit x, some task, jobs⟩).count (id, .drained scope tally guarded) + 1 := by
  by_cases hf : p.turn.failed = true
  · rw [revisit_failed hf]
    exact .inl (Nat.le_refl _)
  have hf : p.turn.failed = false := by simpa using hf
  obtain ⟨done, hpauses⟩ := hawaits.resolve_left (by simp [hf])
  have hpauses : p.turn.pauses = x :: p.aside.turn.pauses := by
    simp only [aside, updateTurn, hpauses, List.cons_append, List.tail_cons]
  have hcount : (waiters ⟨p, some task, .look x :: jobs⟩).count (id, .drained scope tally guarded) =
      (waiters ⟨p.aside, some task, jobs⟩).count (id, .drained scope tally guarded) +
        if (task.id, x.wait) = (id, .drained scope tally guarded) then 1 else 0 := by
    rw [count_running, count_running, hpauses, List.map_cons, List.count_cons]
    simp only [beq_iff_eq]
    change _ = _ + (p.tasks.flatMap Task.waiters).count _ + _
    omega
  have hafter : (waiters ⟨p.aside, some task, jobs⟩).count (id, .drained scope tally guarded) ≤
      (waiters ⟨p.revisit x, some task, jobs⟩).count (id, .drained scope tally guarded) := by
    rw [revisit_eq hf]
    exact count_kept kept_suspend ⟨[], by rw [suspend_tasks.1, List.append_nil]⟩
  split at hcount
  next he =>
    obtain ⟨hid, hwait⟩ := Prod.mk.inj he
    have hrevisit := revisit_drained hf hgoes hwait
    split at hrevisit
    next hzero =>
      have hst := p.aside.stirs_finish x.ending
      refine .inr ⟨hrevisit ▸ .intro hid hwait hf hzero, ?_⟩
      rw [hcount, hrevisit, count_running, count_running, hst.pauses, hst.tasks]
    next =>
      refine .inl (Nat.le_of_eq ?_)
      rw [hcount, hrevisit, count_running, count_running]
      simp only [leave, updateTurn, List.map_append, List.map_singleton, List.count_append, he,
        List.count_singleton_self]
      omega
  next => exact .inl (by omega)

/-- A wait for a count stands until a look finds the count at zero, or its task fails. -/
theorem Beat.waits (hs : Sound m) (hc : Cast m) (hwhole : ∀ t ∈ m.playback.tasks, t.aborted = false)
    (hgoes : m.playback.session.cancelled = false) (hb : Beat m n) :
    m.waiters.count (id, .drained scope tally guarded) ≤ n.waiters.count (id, .drained scope tally guarded) ∨
      (Polls id scope tally guarded m n ∧ m.waiters.count (id, .drained scope tally guarded) =
        n.waiters.count (id, .drained scope tally guarded) + 1) ∨
      (id, .failed) ∈ n.playback.outcomes := by
  have hb' := hb
  have hkept : ∀ {p q : Playback} {task : Task} {jobs jobs' : List Job},
      Beat ⟨p, some task, jobs⟩ ⟨q, some task, jobs'⟩ →
      (∀ pause, jobs.head? ≠ some (.look pause)) →
      (waiters ⟨p, some task, jobs⟩).count (id, .drained scope tally guarded) ≤
        (waiters ⟨q, some task, jobs'⟩).count (id, .drained scope tally guarded) := by
    intro p q task jobs jobs' hb hlook
    obtain ⟨new, hnew, -⟩ := (hb.extends (by simp) (by simp)).tasks
    exact count_kept (hb.kept (by simp) (by simp) hlook) ⟨new, hnew.symm⟩
  cases hb with
  | @take p _ rest task hq htask =>
      exact .inl (Nat.le_of_eq (count_begun hs.orderly.nodup_ids (Orderly.task?_eq htask).1).symm)
  | @drop p _ rest hq hgone =>
      rw [runTask_gone (p := p) hwhole hgone]
      exact .inl (Nat.le_refl _)
  | @look p task x jobs =>
      have hawaits : p.Awaits (x :: looks jobs) := (hc.running (by simp)).awaits
      exact (count_revisit hgoes hawaits).imp_right .inl
  | finish => exact (count_endTurn hs.orderly).imp_right .inr
  | _ => exact .inl (hkept hb' (by simp))

end

end Machine

end Storyline
