import Storyline.Proofs.Playback.Quiet

/-!
# What a turn leaves

The pauses that a wait leaves behind, the entry of a task in the table, and what
the end of a turn does to the table and the session.
-/

namespace Storyline

theorem Session.serial_present (f : Stage → Stage) (s : Session) :
    (s.present f).serial = s.serial := by
  unfold present
  split <;> rfl

namespace Playback

variable {p : Playback}

theorem mem_modifyTask {id : Nat} {f : Task → Task} {t : Task}
    (ht : t ∈ (p.modifyTask id f).tasks) :
    (∃ old ∈ p.tasks, old.id = id ∧ t = f old) ∨ (t ∈ p.tasks ∧ t.id ≠ id) := by
  obtain ⟨old, hold, rfl⟩ := List.mem_map.mp ht
  by_cases he : old.id = id
  · exact .inl ⟨old, hold, he, by simp [he]⟩
  · exact .inr ⟨by simpa [he] using hold, by simp [he]⟩

/-- After its turn a task is gone or holds what the turn has left. -/
theorem mem_endTurn {task t : Task} (ht : t ∈ (p.endTurn task).tasks) :
    (t ∈ p.tasks ∧ t.id ≠ task.id) ∨
      (t.id = task.id ∧ t.agenda = p.turn.agenda ∧ t.pauses = p.turn.pauses ∧
        p.turn.failed = false ∧ p.turn.pauses ≠ []) := by
  have hended : ∀ outcome, t ∈ ((p.updateTurn (fun _ ↦ .none)).endTask task outcome).tasks →
      t ∈ p.tasks ∧ t.id ≠ task.id := by
    intro outcome hmem
    obtain ⟨hmem, hne⟩ := List.mem_filter.mp hmem
    exact ⟨hmem, by simpa using hne⟩
  unfold endTurn at ht
  dsimp only at ht
  split at ht
  · rw [(abandonAll_stirs _).tasks] at ht
    exact .inl (hended _ ht)
  next hf =>
    split at ht
    · exact .inl (hended _ ht)
    next hne =>
      have hmem : t ∈ ((p.updateTurn (fun _ ↦ .none)).modifyTask task.id
          (fun t ↦ { t with agenda := p.turn.agenda, pauses := p.turn.pauses })).tasks := by
        split at ht
        · unfold wake at ht
          split at ht <;> exact ht
        · exact ht
      rcases mem_modifyTask hmem with ⟨old, -, hid, rfl⟩ | hother
      · exact .inr ⟨hid, rfl, rfl, by simpa using hf, by simpa using hne⟩
      · exact .inl hother

theorem spawn_turn (scope : Option Nat) (agenda : List Errand) :
    (p.spawn scope agenda).turn = p.turn := by
  unfold spawn
  split <;> rfl

theorem note_turn (action : Action) (scope : Nat) (step : Option Nat) :
    (p.note action scope step).turn = p.turn := by
  unfold note
  split <;> rfl

theorem note_session (action : Action) (scope : Nat) (step : Option Nat) :
    (p.note action scope step).session = p.session := by
  unfold note
  split <;> rfl

theorem note_isOver (action : Action) (scope : Nat) (step : Option Nat) :
    (p.note action scope step).isOver = p.isOver := by
  unfold note
  split <;> rfl

theorem serial_announce (step : Option Nat) :
    (p.announce step).session.serial = p.session.serial := by
  cases step with
  | none => rfl
  | some n => exact Session.serial_present _ _

theorem serial_enter (scope : Nat) (tapBlocking : Bool) :
    (p.enter scope tapBlocking).session.serial = p.session.serial := by
  rw [enter_eq_touch, touch_session]
  rfl

theorem serial_release (t : Ticket) : (p.release t).session.serial = p.session.serial := by
  have hcount : ∀ (q : Playback) (tally : Tally) (epoch : Nat),
      (q.releaseCount t.scope tally epoch).session.serial = q.session.serial := by
    intro q tally epoch
    unfold releaseCount
    split
    · rfl
    split
    · rw [update_raise_eq_touch, touch_session]
      rfl
    · rfl
  unfold release
  rw [hcount]
  split
  · exact hcount _ _ _
  · rfl

theorem serial_passed (scope : Nat) (step : Option Nat) (t : Ticket) :
    (((p.announce step).enter scope false).release t).session.serial = p.session.serial := by
  rw [serial_release, serial_enter, serial_announce]

theorem abandonAll_session (pauses : List Pause) :
    ∃ taps, (p.abandonAll pauses).session = { p.session with taps := taps } := by
  unfold abandonAll
  generalize pauses.filterMap Pause.park? = parks
  induction parks generalizing p with
  | nil => exact ⟨p.session.taps, rfl⟩
  | cons park rest ih =>
      obtain ⟨taps, h⟩ := ih (p := p.update (.abandon park))
      exact ⟨taps, h⟩

theorem abandonAll_status (pauses : List Pause) : (p.abandonAll pauses).status = p.status := by
  unfold abandonAll
  generalize pauses.filterMap Pause.park? = parks
  induction parks generalizing p with
  | nil => rfl
  | cons park rest ih => exact ih (p := p.update (.abandon park))

/-- The end of a turn changes neither the session nor the status, but for the
parked actions of a task that has failed. -/
theorem endTurn_session (task : Task) :
    (∃ taps, (p.endTurn task).session = { p.session with taps := taps }) ∧
      (p.endTurn task).status = p.status := by
  unfold endTurn
  dsimp only
  split
  · exact ⟨abandonAll_session _, abandonAll_status _⟩
  split
  · exact ⟨⟨p.session.taps, rfl⟩, rfl⟩
  split
  · unfold wake
    split <;> exact ⟨⟨p.session.taps, rfl⟩, rfl⟩
  · exact ⟨⟨p.session.taps, rfl⟩, rfl⟩

/-- A wait for a count changes nothing but what it ends with. -/
theorem suspend_drained {scope : Nat} {tally : Tally} {guarded : Bool} {ending : Ending}
    {scopes : List Nat} (hc : p.session.cancelled = false) :
    p.suspend (.drained scope tally guarded) ending scopes =
      if p.session.pending scope tally = 0 then p.finish ending
      else p.leave ⟨.drained scope tally guarded, ending, scopes⟩ := by
  simp only [suspend, look, lookAtCount, hc, Bool.and_false, Bool.false_eq_true, if_false]
  by_cases hp : p.session.pending scope tally = 0 <;> simp [hp]

/-- Counting what the tasks hold, before and after one of them is changed. -/
theorem count_modifyTask {α : Type} [BEq α] {task : Task} {g : Task → Task} (f : Task → List α)
    (x : α) (hnodup : (p.tasks.map Task.id).Nodup) (htask : task ∈ p.tasks) :
    ((p.modifyTask task.id g).tasks.flatMap f).count x + (f task).count x =
      (p.tasks.flatMap f).count x + (f (g task)).count x := by
  simp only [List.count_flatMap]
  exact sum_modifyTask (fun t ↦ (f t).count x) hnodup htask

/-- A task that ends takes nothing away, if its entry is empty. -/
theorem flatMap_endTask {α : Type} {task : Task} {outcome : Outcome} (f : Task → List α)
    (hempty : ∀ t ∈ p.tasks, t.id = task.id → f t = []) :
    (p.endTask task outcome).tasks.flatMap f = p.tasks.flatMap f := by
  simp only [endTask, removeTask]
  generalize p.tasks = tasks at hempty ⊢
  induction tasks with
  | nil => rfl
  | cons t rest ih =>
      have hrest := ih fun x hx ↦ hempty x (List.mem_cons_of_mem _ hx)
      by_cases he : t.id = task.id
      · simpa [he, hempty t List.mem_cons_self he] using hrest
      · simpa [he] using hrest

/-- A turn takes errands from the front of the agenda, one at least if nothing
has to be waited for. -/
theorem proceed_subset {agenda : List Errand} (h : p.turn.agenda = agenda) :
    (proceed agenda p).turn.agenda ⊆ agenda ∧
      (p.turn.isFree = true → (proceed agenda p).turn.agenda ⊆ agenda.tail) := by
  induction agenda generalizing p with
  | nil => exact ⟨fun x hx ↦ h ▸ hx, fun _ x hx ↦ by simp [proceed, h] at hx⟩
  | cons errand rest ih =>
      simp only [proceed]
      split
      next hp =>
        obtain ⟨hsub, -⟩ := ih (p := (p.updateTurn (fun t ↦ { t with agenda := rest })).begin errand)
          (costs_begin errand rfl).agenda
        exact ⟨fun x hx ↦ List.mem_cons_of_mem _ (hsub hx), fun _ ↦ hsub⟩
      next hp => exact ⟨fun x hx ↦ h ▸ hx, fun hfree ↦ absurd hfree hp⟩

/-- The agenda is worked off while nothing is left to wait for. -/
theorem proceed_agenda {agenda : List Errand} (h : p.turn.agenda = agenda)
    (hfree : (proceed agenda p).turn.isFree = true) : (proceed agenda p).turn.agenda = [] := by
  induction agenda generalizing p with
  | nil => exact h
  | cons errand rest ih =>
      simp only [proceed] at hfree ⊢
      split at hfree
      next hp =>
        rw [if_pos hp]
        exact ih (costs_begin errand rfl).agenda hfree
      next hp => exact absurd hfree hp

/-! ## The parts of a turn -/

variable {task : Task}

/-- The beginning of a turn. -/
def begun (task : Task) (p : Playback) : Playback :=
  (p.modifyTask task.id (fun t ↦ { t with agenda := [], pauses := [] })).updateTurn
    (fun _ ↦ .ofTask task)

/-- What a turn does before its end. -/
def worked (task : Task) (p : Playback) : Playback :=
  proceed task.agenda (task.pauses.foldl (fun p pause ↦ p.revisit pause) (p.begun task))

theorem takeTurn_eq : takeTurn task p = (p.worked task).endTurn task := rfl

/-- What is left on the agenda was there before. -/
theorem worked_agenda : (p.worked task).turn.agenda ⊆ task.agenda :=
  (proceed_subset (by rw [revisitAll_agenda]; rfl)).1

end Playback

end Storyline
