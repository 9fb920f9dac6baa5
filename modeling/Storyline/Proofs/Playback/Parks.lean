import Mathlib.Data.List.Flatten
import Storyline.Proofs.Playback.Following
import Storyline.Proofs.Playback.Ledger

/-!
# Parked actions have one waiter each

A parked action gets the next number of the session's counter, and one pause
waits for it.  So no two pauses ever wait for the same parked action, and one
that nobody waits for any more is never waited for again.
-/

namespace Storyline

namespace Playback

/-- No parked action is waited for anew, but for those numbered in between. -/
structure Reparks (p q : Playback) : Prop where
  serial : p.session.serial ≤ q.session.serial
  count : ∀ id, q.parks.count id ≤
    p.parks.count id + if p.session.serial ≤ id ∧ id < q.session.serial then 1 else 0

variable {p q r : Playback}

namespace Reparks

theorem of_count (hserial : p.session.serial ≤ q.session.serial)
    (hcount : ∀ id, q.parks.count id ≤ p.parks.count id) : Reparks p q :=
  ⟨hserial, fun id ↦ Nat.le_trans (hcount id) (Nat.le_add_right _ _)⟩

theorem of_parks (hserial : p.session.serial ≤ q.session.serial) (hparks : q.parks = p.parks) :
    Reparks p q := of_count hserial fun _ ↦ hparks ▸ Nat.le_refl _

theorem refl (p : Playback) : Reparks p p := of_parks (Nat.le_refl _) rfl

theorem trans (h : Reparks p q) (h' : Reparks q r) : Reparks p r where
  serial := Nat.le_trans h.serial h'.serial
  count := by
    intro id
    have hfirst := h.count id
    have hthen := h'.count id
    have hp := h.serial
    have hq := h'.serial
    split at hfirst <;> split at hthen <;> split <;> omega

theorem of_stirs (h : p.Stirs q) : Reparks p q :=
  of_parks h.serial (by simp only [parks, h.pauses, h.tasks])

end Reparks

/-! ## Parts of a turn -/

theorem parks_leave (pause : Pause) (id : Nat) :
    (p.leave pause).parks.count id = p.parks.count id + pause.parks.count id := by
  simp only [parks, leave, updateTurn, List.flatMap_append, List.flatMap_singleton,
    List.count_append]
  omega

/-- A wait leaves at most its own pause. -/
theorem count_suspend (wait : Wait) (ending : Ending) (scopes : List Nat) (id : Nat) :
    (p.suspend wait ending scopes).parks.count id ≤
      p.parks.count id + (⟨wait, ending, scopes⟩ : Pause).parks.count id := by
  have hst := p.stirs_look wait
  have hsame : ∀ {q : Playback}, p.Stirs q → q.parks = p.parks := fun h ↦ by
    simp only [parks, h.pauses, h.tasks]
  unfold suspend
  split
  next q w hlook =>
    rw [hlook] at hst
    have hpark : (⟨w, ending, scopes⟩ : Pause).parks = (⟨wait, ending, scopes⟩ : Pause).parks :=
      congrArg Option.toList (pause_becomes ending scopes hlook).park
    exact Nat.le_of_eq (by rw [parks_leave, hsame hst, hpark])
  next q ran hlook =>
    rw [hlook] at hst
    split
    · rw [hsame (hst.trans (q.stirs_finish ending))]
      exact Nat.le_add_right _ _
    · rw [hsame hst]
      exact Nat.le_add_right _ _
  next q hlook =>
    rw [hlook] at hst
    change (q.leave ⟨wait, ending, scopes⟩).parks.count id ≤ _
    exact Nat.le_of_eq (by rw [parks_leave, hsame hst])

theorem serial_suspend (wait : Wait) (ending : Ending) (scopes : List Nat) :
    p.session.serial ≤ (p.suspend wait ending scopes).session.serial :=
  (veils_suspend wait ending scopes).serial

/-- A wait for something else than a parked action. -/
theorem reparks_suspend {wait : Wait} {ending : Ending} {scopes : List Nat}
    (h : (⟨wait, ending, scopes⟩ : Pause).park? = none) : Reparks p (p.suspend wait ending scopes) := by
  refine .of_count (serial_suspend wait ending scopes) fun id ↦ ?_
  have hcount := p.count_suspend wait ending scopes id
  rwa [Pause.parks, h, Option.toList_none, List.count_nil, Nat.add_zero] at hcount

theorem reparks_sleep (d : Duration) (ending : Ending) (scopes : List Nat) :
    Reparks p (p.sleep d ending scopes) :=
  (Reparks.of_stirs p.stirs_arm).trans (reparks_suspend rfl)

/-- A parked action is numbered by the session's counter. -/
theorem reparks_park (kind : Dwell) (ending : Ending) (scopes : List Nat) :
    Reparks p (p.park kind ending scopes) := by
  have hserial : p.session.serial + 1 ≤ (p.park kind ending scopes).session.serial :=
    serial_suspend (p := p.update fun s ↦ s.park.2) _ _ _
  refine ⟨Nat.le_of_succ_le hserial, fun id ↦ ?_⟩
  have hcount := (p.update fun s ↦ s.park.2).count_suspend (.tap p.session.serial kind .off) ending
    scopes id
  have hone : (⟨.tap p.session.serial kind .off, ending, scopes⟩ : Pause).parks.count id ≤
      if p.session.serial ≤ id ∧ id < (p.park kind ending scopes).session.serial then 1 else 0 := by
    rw [Pause.parks, Pause.park?, Option.toList_some, List.count_singleton]
    split
    next he =>
      have he : p.session.serial = id := by simpa using he
      exact Nat.le_of_eq (if_pos (by omega)).symm
    next => exact Nat.zero_le _
  exact Nat.le_trans hcount (Nat.add_le_add_left hone _)

theorem reparks_spawn (scope : Option Nat) (agenda : List Errand) :
    Reparks p (p.spawn scope agenda) := by
  refine .of_parks (Nat.le_of_eq (congrArg Session.serial (spawn_session scope agenda)).symm) ?_
  unfold spawn
  split
  · rfl
  · simp [parks, addTask, Task.parks]

theorem reparks_note (action : Action) (scope : Nat) (step : Option Nat) :
    Reparks p (p.note action scope step) := by
  refine .of_parks (Nat.le_of_eq (congrArg Session.serial (note_session action scope step)).symm) ?_
  unfold note
  split <;> rfl

theorem reparks_performCue (cue : Cue) (scope : Nat) (scopes : List Nat) (step : Option Nat) :
    Reparks p (p.performCue cue scope scopes step) := by
  unfold performCue
  split
  · exact .refl p
  refine (Reparks.of_stirs ((p.stirs_announce step).trans
    (stirs_enter _ scope cue.isTapBlocking))).trans ?_
  cases cue with
  | talk line =>
      exact (Reparks.of_stirs ((stirs_tell _ line).trans (stirs_speak _ line))).trans
        (reparks_park _ _ _)
  | telop text => exact (Reparks.of_stirs (stirs_present _ _)).trans (reparks_park _ _ _)
  | model change => exact (Reparks.of_stirs (stirs_presentIf _ _)).trans (reparks_spawn _ _)
  | tremble axis character => exact .of_stirs (stirs_release _ _)
  | cover cover visible seconds =>
      exact (Reparks.of_stirs (stirs_number _ _)).trans (reparks_sleep _ _ _)
  | shake shake seconds =>
      exact (Reparks.of_stirs (stirs_number _ _)).trans ((reparks_spawn _ _).trans (reparks_sleep _ _ _))
  | scenery scenery path => exact .of_stirs (stirs_changeScenery _ scenery path _)
  | delay seconds => exact reparks_sleep _ _ _
  | waitForAll | waitForTap =>
      exact (Reparks.of_stirs (stirs_release _ _)).trans (reparks_suspend rfl)

theorem reparks_open (action : Action) (scope : Nat) (step : Option Nat) :
    Reparks p ((p.note action scope step).openWithin scope step) :=
  (reparks_note action scope step).trans (.of_stirs (stirs_openWithin _ scope step))

theorem reparks_begin {errand : Errand} (h : ∀ action scope step, errand ≠ .perform action scope step) :
    Reparks p (p.begin errand) := by
  cases errand with
  | perform action scope step => exact absurd rfl (h action scope step)
  | sleep d ending scopes => exact reparks_sleep d ending scopes
  | animate => exact (Reparks.of_stirs p.stirs_arm).trans (reparks_suspend rfl)
  | _ => exact reparks_suspend rfl

/-- A look takes a pause off and puts it back, if it goes on. -/
theorem reparks_revisit {pause : Pause} {others : List Pause}
    (h : p.Awaits (pause :: others)) : Reparks p (p.revisit pause) := by
  by_cases hf : p.turn.failed = true
  · rw [revisit_failed hf]
    exact .refl p
  obtain ⟨done, hpauses⟩ := h.resolve_left hf
  rw [revisit_eq (by simpa using hf)]
  refine .of_count (serial_suspend (p := p.aside) _ _ _) fun id ↦ ?_
  refine Nat.le_trans (p.aside.count_suspend _ _ _ id) (Nat.le_of_eq ?_)
  simp only [parks, aside, updateTurn, hpauses, List.cons_append, List.tail_cons, List.flatMap_cons,
    List.count_append]
  change _ + pause.parks.count id = _
  omega

/-! ## A whole turn -/

theorem reparks_begun {task : Task} (hnodup : (p.tasks.map Task.id).Nodup) (htask : task ∈ p.tasks)
    (hidle : p.turn = .none) : Reparks p (p.begun task) := by
  refine .of_count (Nat.le_refl _) fun id ↦ ?_
  have hcount := count_modifyTask (p := p) (g := fun t ↦ { t with agenda := [], pauses := [] })
    Task.parks id hnodup htask
  have hnone : (Task.parks { task with agenda := [], pauses := [] }).count id = 0 := rfl
  rw [hnone] at hcount
  simp only [parks, begun, updateTurn, Turn.ofTask, hidle, Turn.none, List.flatMap_nil,
    List.nil_append, List.count_append]
  change (Task.parks task).count id + _ ≤ _
  omega

theorem reparks_endTurn {task : Task} (hnodup : (p.tasks.map Task.id).Nodup)
    (hmem : task.id ∈ p.tasks.map Task.id) : Reparks p (p.endTurn task) := by
  obtain ⟨⟨taps, hsession⟩, -⟩ := endTurn_session (p := p) task
  refine .of_count (Nat.le_of_eq (by rw [hsession])) fun id ↦ ?_
  have hended : ∀ outcome,
      ((p.updateTurn (fun _ ↦ .none)).endTask task outcome).parks.count id ≤ p.parks.count id := by
    intro outcome
    have hsub : (((p.updateTurn (fun _ ↦ .none)).endTask task outcome).tasks.flatMap Task.parks).Sublist
        (p.tasks.flatMap Task.parks) := List.filter_sublist.flatMap _
    simp only [parks, List.count_append]
    exact Nat.le_trans (Nat.le_of_eq (by rfl)) (Nat.add_le_add (Nat.zero_le _) (hsub.count_le id))
  have hput : ((p.updateTurn (fun _ ↦ .none)).modifyTask task.id
      (fun t ↦ { t with agenda := p.turn.agenda, pauses := p.turn.pauses })).parks.count id ≤
        p.parks.count id := by
    obtain ⟨entry, hentry, hid⟩ := List.mem_map.mp hmem
    have hcount := count_modifyTask (p := p)
      (g := fun t ↦ { t with agenda := p.turn.agenda, pauses := p.turn.pauses })
      Task.parks id hnodup hentry
    rw [hid] at hcount
    have hturn : (Task.parks ⟨task.id, entry.owned, entry.asks, entry.scope, entry.aborted,
        p.turn.agenda, p.turn.pauses⟩).count id = (p.turn.pauses.flatMap Pause.parks).count id := rfl
    rw [hturn] at hcount
    simp only [parks, List.count_append]
    change 0 + ((p.modifyTask task.id _).tasks.flatMap Task.parks).count id ≤ _
    omega
  have hwoken : ∀ (q : Playback) (other : Nat), (q.wake other).parks = q.parks := by
    intro q other
    unfold wake
    split <;> rfl
  unfold endTurn
  dsimp only
  split
  · have hst := abandonAll_stirs (p := (p.updateTurn (fun _ ↦ .none)).endTask task .failed) p.turn.pauses
    have hsame : (((p.updateTurn (fun _ ↦ .none)).endTask task .failed).abandonAll p.turn.pauses).parks =
        ((p.updateTurn (fun _ ↦ .none)).endTask task .failed).parks := by
      simp only [parks, hst.pauses, hst.tasks]
    rw [hsame]
    exact hended _
  split
  · exact hended _
  split
  · rw [hwoken]
    exact hput
  · exact hput

end Playback

namespace Machine

open Playback

/-- Every parked action is waited for by one pause at most, and has been numbered. -/
def Distinct (m : Machine) : Prop :=
  ∀ id, m.playback.parks.count id ≤ if id < m.playback.session.serial then 1 else 0

variable {m n : Machine} {p q : Playback}

theorem Distinct.of_reparks (h : Distinct m) (hr : Reparks m.playback n.playback) : Distinct n := by
  intro id
  have hcount := hr.count id
  have hbefore := h id
  have hserial := hr.serial
  split at hcount <;> split at hbefore <;> split <;> omega

/-- A parked action that nobody waits for any more is not waited for again. -/
theorem gone_of_reparks {id : Nat} (hr : Reparks p q) (hpast : id < p.session.serial)
    (hgone : id ∉ p.parks) : id < q.session.serial ∧ id ∉ q.parks := by
  have hcount := hr.count id
  rw [List.count_eq_zero_of_not_mem hgone, if_neg (by omega)] at hcount
  exact ⟨Nat.lt_of_lt_of_le hpast hr.serial, List.count_eq_zero.mp (Nat.le_zero.mp hcount)⟩

theorem Beat.reparks (hs : Sound m) (hc : Cast m) (hwhole : ∀ t ∈ m.playback.tasks, t.aborted = false)
    (hb : Beat m n) : Reparks m.playback n.playback := by
  have hset : ∀ (p : Playback) (rest : List Errand),
      Reparks p (p.updateTurn (fun t ↦ { t with agenda := rest })) :=
    fun p rest ↦ .of_parks (Nat.le_refl _) rfl
  cases hb with
  | @take p id rest task hq htask =>
      have hqueue : Reparks p { p with queue := rest } := .of_parks (Nat.le_refl _) rfl
      exact hqueue.trans (reparks_begun hs.orderly.nodup_ids (Orderly.task?_eq htask).1
        (hs.orderly.idle rfl))
  | @drop p id rest hq hgone =>
      rw [runTask_gone (p := p) hwhole hgone]
      exact .of_parks (Nat.le_refl _) rfl
  | @look p task pause jobs =>
      have hawaits : p.Awaits (pause :: looks jobs) := (hc.running (by simp)).awaits
      exact reparks_revisit hawaits
  | walk => exact hset _ _
  | begin _ _ hother => exact (hset _ _).trans (reparks_begin hother)
  | skip => exact .refl _
  | cue => exact (reparks_note _ _ _).trans (reparks_performCue _ _ _ _)
  | block => exact reparks_open _ _ _
  | fork => exact (reparks_open _ _ _).trans (reparks_spawn _ _)
  | @close p task scope scopes => exact reparks_performCue (p := p) .waitForAll scope scopes none
  | @finish p task => exact reparks_endTurn hs.orderly.nodup_ids (hs.orderly.running_mem _ rfl)

end Machine

end Storyline
