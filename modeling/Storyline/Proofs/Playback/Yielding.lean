import Mathlib.Data.List.Nodup
import Storyline.Proofs.Playback.Commands
import Storyline.Proofs.Playback.Holders
import Storyline.Proofs.Playback.Turns

/-!
# Giving way

The session aborts the tasks that it owns when it ends.  Every other task waits
only for what comes about by then, and does nothing more once its wait is cut
short.  All tasks that a turn adds are owned by the session.
-/

namespace Storyline

/-- A pause whose wait is over when the session has ended, and that does nothing
more then. -/
def Pause.Yields (q : Pause) : Prop :=
  match q.wait with
  | .tap .. | .sleep .. | .drained _ _ true => True
  | .drained _ _ false | .cancelled => q.ending = .nothing
  | .frame .. | .forward _ => False

def Errand.Yields : Errand → Prop
  | .perform .. | .sleep .. | .awaitEnd | .drain _ _ true _ => True
  | .drain _ _ false ending => ending = .nothing
  | .animate .. | .fastForward => False

def Errand.performs : Errand → Bool
  | .perform .. => true
  | _ => false

/-- An agenda that gives way, or that performs no action. -/
def Castable (agenda : List Errand) : Prop :=
  (∀ e ∈ agenda, e.Yields) ∨ ∀ e ∈ agenda, e.performs = false

/-- A task as a turn adds it. -/
structure Task.New (t : Task) : Prop where
  owned : t.owned = true
  whole : t.aborted = false
  pauses : t.pauses = []
  agenda : Castable t.agenda

/-- The clock cannot show any more when a voice is to be looked at. -/
def Session.OutOfTime (s : Session) : Prop := s.config.voicePoll.period.tickFrom s.now 1 = none

/-- A task that the session owns, or that has not been aborted and gives way. -/
def Task.Yields (t : Task) : Prop :=
  t.owned = true ∨ t.aborted = false ∧ (∀ q ∈ t.pauses, q.Yields) ∧ ∀ e ∈ t.agenda, e.Yields

namespace Playback

/-- Part of a turn adds tasks and, unless it may do otherwise, pauses that give
way, and fails for want of time only. -/
structure Extends (free : Bool) (p q : Playback) : Prop where
  moment : q.session.moment = p.session.moment
  tasks : ∃ new, q.tasks = p.tasks ++ new ∧ ∀ t ∈ new, t.New
  outcomes : q.outcomes = p.outcomes
  pauses : free = true ∨ ∀ x ∈ q.turn.pauses, x ∈ p.turn.pauses ∨ x.Yields
  failed : free = true ∨ (q.turn.failed = true → p.turn.failed = true ∨ p.session.OutOfTime)

namespace Extends

variable {free : Bool} {p q r : Playback}

theorem of_subset (hmoment : q.session.moment = p.session.moment) (htasks : q.tasks = p.tasks)
    (houtcomes : q.outcomes = p.outcomes) (hpauses : q.turn.pauses ⊆ p.turn.pauses)
    (hfailed : q.turn.failed = p.turn.failed) : Extends free p q :=
  ⟨hmoment, ⟨[], by simp [htasks], by simp⟩, houtcomes, .inr fun _ hx ↦ .inl (hpauses hx),
    .inr fun hf ↦ .inl (hfailed ▸ hf)⟩

theorem refl (p : Playback) : Extends free p p := of_subset rfl rfl rfl (List.Subset.refl _) rfl

theorem of_stirs (h : p.Stirs q) : Extends free p q :=
  of_subset h.moment h.tasks h.outcomes (h.pauses ▸ List.Subset.refl _) h.failed

theorem outOfTime (h : Extends free p q) : q.session.OutOfTime ↔ p.session.OutOfTime := by
  have hconfig : q.session.config = p.session.config := congrArg Moment.config h.moment
  have hnow : q.session.now = p.session.now := congrArg Moment.now h.moment
  unfold Session.OutOfTime
  rw [hconfig, hnow]

theorem trans (h : Extends free p q) (h' : Extends free q r) : Extends free p r where
  moment := h'.moment.trans h.moment
  tasks := by
    obtain ⟨new, htasks, hnew⟩ := h.tasks
    obtain ⟨new', htasks', hnew'⟩ := h'.tasks
    refine ⟨new ++ new', by rw [htasks', htasks, List.append_assoc], fun t ht ↦ ?_⟩
    exact (List.mem_append.mp ht).elim (hnew t) (hnew' t)
  outcomes := h'.outcomes.trans h.outcomes
  pauses := by
    rcases h.pauses with ho | hp
    · exact .inl ho
    · exact h'.pauses.imp_right fun hq x hx ↦ (hq x hx).elim (hp x) .inr
  failed := by
    rcases h.failed with ho | hf
    · exact .inl ho
    · exact h'.failed.imp_right fun hq hr ↦ (hq hr).elim hf fun ht ↦ .inr (h.outOfTime.mp ht)

theorem leave {pause : Pause} (h : Extends free p q) (hy : free = true ∨ pause.Yields) :
    Extends free p (q.leave pause) where
  moment := h.moment
  tasks := h.tasks
  failed := h.failed
  outcomes := h.outcomes
  pauses := by
    rcases h.pauses, hy with ⟨ho | hp, ho' | hy⟩
    · exact .inl ho
    · exact .inl ho
    · exact .inl ho'
    · refine .inr fun x hx ↦ ?_
      rcases List.mem_append.mp hx with hx | hx
      · exact hp x hx
      · exact .inr (List.mem_singleton.mp hx ▸ hy)

end Extends

section turn

variable {free : Bool} {p q : Playback}

theorem look_waits_yields {wait w : Wait} {ending : Ending} {scopes : List Nat}
    (h : p.look wait = (q, .waits w)) (hy : Pause.Yields ⟨wait, ending, scopes⟩) :
    Pause.Yields ⟨w, ending, scopes⟩ := by
  cases wait with
  | tap park kind auto =>
      obtain ⟨_, _, rfl⟩ := lookAtTap_kind h
      trivial
  | sleep timer skips =>
      simp only [look, lookAtSleep] at h
      split at h
      · cases (Prod.mk.inj h).2
      split at h
      · cases (Prod.mk.inj h).2
      · rw [← Verdict.waits.inj (Prod.mk.inj h).2]
        trivial
  | drained scope tally guarded =>
      simp only [look, lookAtCount] at h
      split at h
      · cases (Prod.mk.inj h).2
      split at h
      · cases (Prod.mk.inj h).2
      · rwa [← Verdict.waits.inj (Prod.mk.inj h).2]
  | cancelled =>
      simp only [look] at h
      split at h
      · cases (Prod.mk.inj h).2
      · rwa [← Verdict.waits.inj (Prod.mk.inj h).2]
  | frame | forward => exact hy.elim

/-- A wait that gives way fails for want of time only. -/
theorem look_fails_yields {wait : Wait} {ending : Ending} {scopes : List Nat}
    (h : p.look wait = (q, .fails)) (hy : Pause.Yields ⟨wait, ending, scopes⟩) :
    p.session.OutOfTime := by
  cases wait with
  | tap park kind auto =>
      have hfits : Pause.Fits .timeline
          ⟨.tap park kind auto, .release ⟨0, 0, some 0⟩, [0]⟩ := ⟨_, rfl, rfl, by simp⟩
      exact (look_fails_kind h hfits).resolve_left (by simp)
  | sleep timer skips =>
      simp only [look, lookAtSleep] at h
      split at h
      · cases (Prod.mk.inj h).2
      split at h <;> cases (Prod.mk.inj h).2
  | drained scope tally guarded =>
      simp only [look, lookAtCount] at h
      split at h
      · cases (Prod.mk.inj h).2
      split at h <;> cases (Prod.mk.inj h).2
  | cancelled =>
      simp only [look] at h
      split at h <;> cases (Prod.mk.inj h).2
  | frame | forward => exact hy.elim

theorem extends_suspend {wait : Wait} {ending : Ending} {scopes : List Nat}
    (hy : free = true ∨ Pause.Yields ⟨wait, ending, scopes⟩) :
    Extends free p (p.suspend wait ending scopes) := by
  have hst := p.stirs_look wait
  unfold suspend
  split
  next q w hlook =>
    rw [hlook] at hst
    exact (Extends.of_stirs hst).leave (hy.imp_right (look_waits_yields hlook))
  next q ran hlook =>
    rw [hlook] at hst
    split
    · exact .of_stirs (hst.trans (q.stirs_finish ending))
    · exact .of_stirs hst
  next q hlook =>
    rw [hlook] at hst
    have hleft : Extends free p (q.leave ⟨wait, ending, scopes⟩) := (Extends.of_stirs hst).leave hy
    exact ⟨hleft.moment, hleft.tasks, hleft.outcomes, hleft.pauses,
      hy.imp_right fun hy _ ↦ .inr (look_fails_yields hlook hy)⟩

theorem extends_spawn (scope : Option Nat) {agenda : List Errand} (ha : Castable agenda) :
    Extends free p (p.spawn scope agenda) := by
  unfold spawn
  split
  · exact .refl p
  · refine ⟨rfl, ⟨[_], rfl, fun t ht ↦ ?_⟩, rfl, .inr fun x hx ↦ .inl hx, .inr .inl⟩
    rw [List.mem_singleton.mp ht]
    exact ⟨rfl, rfl, rfl, ha⟩

theorem walk_yields (scope : Nat) (indexed : Bool) (actions : List Action) :
    ∀ e ∈ walk scope indexed actions, e.Yields := by
  intro e he
  obtain ⟨a, -, rfl⟩ := List.mem_map.mp he
  trivial

theorem extends_sleep (d : Duration) (ending : Ending) (scopes : List Nat) :
    Extends free p (p.sleep d ending scopes) :=
  (Extends.of_stirs p.stirs_arm).trans (extends_suspend (.inr trivial))

theorem extends_park (kind : Dwell) (ending : Ending) (scopes : List Nat) :
    Extends free p (p.park kind ending scopes) :=
  (Extends.of_stirs p.stirs_park).trans (extends_suspend (.inr trivial))

theorem extends_note (action : Action) (scope : Nat) (step : Option Nat) :
    Extends free p (p.note action scope step) := by
  unfold note
  split
  · exact .refl p
  · exact .of_subset rfl rfl rfl (List.Subset.refl _) rfl

theorem extends_performCue (cue : Cue) (scope : Nat) (scopes : List Nat) (step : Option Nat) :
    Extends free p (p.performCue cue scope scopes step) := by
  unfold performCue
  split
  · exact .refl p
  refine (Extends.of_stirs ((p.stirs_announce step).trans
    (stirs_enter _ scope cue.isTapBlocking))).trans ?_
  cases cue with
  | talk line =>
      exact (Extends.of_stirs ((stirs_tell _ line).trans (stirs_speak _ line))).trans
        (extends_park _ _ _)
  | telop text => exact (Extends.of_stirs (stirs_present _ _)).trans (extends_park _ _ _)
  | model change =>
      exact (Extends.of_stirs (stirs_presentIf _ _)).trans
        (extends_spawn _ (.inl (by simp [Errand.Yields])))
  | tremble axis character => exact .of_stirs (stirs_release _ _)
  | cover cover visible seconds =>
      exact (Extends.of_stirs (stirs_number _ _)).trans (extends_sleep _ _ _)
  | shake shake seconds =>
      exact (Extends.of_stirs (stirs_number _ _)).trans
        ((extends_spawn _ (.inr (by simp [Errand.performs]))).trans (extends_sleep _ _ _))
  | scenery scenery path => exact .of_stirs (stirs_changeScenery _ scenery path _)
  | delay seconds => exact extends_sleep _ _ _
  | waitForAll | waitForTap =>
      exact (Extends.of_stirs (stirs_release _ _)).trans (extends_suspend (.inr trivial))

mutual

theorem extends_perform (action : Action) (scope : Nat) (scopes : List Nat) (step : Option Nat)
    (p : Playback) : Extends free p (perform action scope scopes step p) := by
  cases action with
  | cue cue => exact (extends_note _ _ _).trans (extends_performCue cue scope scopes step)
  | block parts =>
      simp only [perform]
      split
      · exact .refl p
      · have hopen : Extends free p ((p.note (.block parts) scope step).openWithin scope step) :=
          (extends_note _ _ _).trans (.of_stirs (stirs_openWithin _ scope step))
        exact hopen.trans ((extends_performAll parts _ _ _).trans (extends_performCue _ _ _ _))
  | fork parts =>
      simp only [perform]
      split
      · exact .refl p
      · have hopen : Extends free p ((p.note (.fork parts) scope step).openWithin scope step) :=
          (extends_note _ _ _).trans (.of_stirs (stirs_openWithin _ scope step))
        exact hopen.trans (extends_spawn _ (.inl (walk_yields _ false parts)))

theorem extends_performAll (parts : List Action) (scope : Nat) (scopes : List Nat) (p : Playback) :
    Extends free p (performAll parts scope scopes p) := by
  cases parts with
  | nil => exact .refl p
  | cons part rest =>
      exact (extends_perform part scope scopes none p).trans (extends_performAll rest scope scopes _)

end

theorem extends_begin {errand : Errand} (hy : free = true ∨ errand.Yields) :
    Extends free p (p.begin errand) := by
  cases errand with
  | perform action scope step => exact extends_perform action scope [scope] step p
  | sleep d ending scopes => exact extends_sleep d ending scopes
  | drain scope tally guarded ending =>
      refine extends_suspend (hy.imp_right fun hy ↦ ?_)
      cases guarded <;> exact hy
  | awaitEnd => exact extends_suspend (.inr rfl)
  | animate shake stamp d =>
      exact (Extends.of_stirs p.stirs_arm).trans (extends_suspend (hy.imp_right False.elim))
  | fastForward => exact extends_suspend (hy.imp_right False.elim)

theorem extends_proceed {agenda : List Errand} (hy : free = true ∨ ∀ e ∈ agenda, e.Yields) :
    Extends free p (proceed agenda p) := by
  induction agenda generalizing p with
  | nil => exact .refl p
  | cons errand rest ih =>
      simp only [proceed]
      split
      · have hset : Extends free p (p.updateTurn (fun t ↦ { t with agenda := rest })) :=
          .of_subset rfl rfl rfl (List.Subset.refl _) rfl
        refine (hset.trans (extends_begin (hy.imp_right fun hy ↦ hy errand (by simp)))).trans ?_
        exact ih (hy.imp_right fun hy e he ↦ hy e (by simp [he]))
      · exact .refl p

theorem extends_revisit {pause : Pause} (hy : free = true ∨ pause.Yields) :
    Extends free p (p.revisit pause) := by
  unfold revisit
  split
  · exact .refl p
  · have htail : Extends free p (p.updateTurn (fun t ↦ { t with pauses := t.pauses.tail })) :=
      .of_subset rfl rfl rfl (fun _ hx ↦ List.mem_of_mem_tail hx) rfl
    exact htail.trans (extends_suspend hy)

theorem extends_revisitAll {pauses : List Pause} (hy : free = true ∨ ∀ x ∈ pauses, x.Yields) :
    Extends free p (pauses.foldl (fun p pause ↦ p.revisit pause) p) := by
  induction pauses generalizing p with
  | nil => exact .refl p
  | cons pause rest ih =>
      refine (extends_revisit (hy.imp_right fun hy ↦ hy pause (by simp))).trans ?_
      exact ih (hy.imp_right fun hy x hx ↦ hy x (by simp [hx]))

theorem timeline_yields (actions : List Action) : ∀ e ∈ Player.timeline actions, e.Yields := by
  intro e he
  rcases List.mem_append.mp he with he | he
  · exact walk_yields _ _ _ e he
  · rw [List.mem_singleton.mp he]
    trivial

theorem extends_launch (actions : List Action) (p : Playback) :
    Extends free p (Player.launch actions p) := by
  have hstatus : Extends free p { p with status := .playing } :=
    .of_subset rfl rfl rfl (List.Subset.refl _) rfl
  refine hstatus.trans ((extends_spawn none (.inr ?_)).trans
    (extends_spawn (some Player.root) (.inl (timeline_yields actions))))
  simp [Errand.performs]

end turn

/-! ## After a turn -/

section tasks

variable {p : Playback} {task t : Task}

/-- Nothing but the agenda and the pauses of a task changes. -/
def SameTask (t t' : Task) : Prop :=
  t'.id = t.id ∧ t'.owned = t.owned ∧ t'.aborted = t.aborted ∧ t'.scope = t.scope

theorem modifyTask_same {id : Nat} {agenda : List Errand} {pauses : List Pause}
    (ht : t ∈ (p.modifyTask id (fun t ↦ { t with agenda := agenda, pauses := pauses })).tasks) :
    ∃ old ∈ p.tasks, SameTask old t := by
  rcases mem_modifyTask ht with ⟨old, hold, -, rfl⟩ | ⟨hold, -⟩
  · exact ⟨old, hold, rfl, rfl, rfl, rfl⟩
  · exact ⟨t, hold, rfl, rfl, rfl, rfl⟩

/-- The end of a turn gives no task to another owner, and aborts none. -/
theorem endTurn_same (ht : t ∈ (p.endTurn task).tasks) : ∃ old ∈ p.tasks, SameTask old t := by
  unfold endTurn at ht
  dsimp only at ht
  split at ht
  · rw [(abandonAll_stirs _).tasks] at ht
    exact ⟨t, (List.mem_filter.mp ht).1, rfl, rfl, rfl, rfl⟩
  split at ht
  · exact ⟨t, (List.mem_filter.mp ht).1, rfl, rfl, rfl, rfl⟩
  split at ht
  · unfold wake at ht
    split at ht <;> exact modifyTask_same ht
  · exact modifyTask_same ht

theorem extends_worked (hy : task.Yields) : Extends task.owned (p.begun task) (p.worked task) := by
  have hy : task.owned = true ∨ _ := hy
  exact (extends_revisitAll (hy.imp_right fun hy ↦ hy.2.1)).trans
    (extends_proceed (hy.imp_right fun hy ↦ hy.2.2))

/-- A task after a turn had no turn, or had it, or is new. -/
theorem mem_takeTurn (h : (p.tasks.map Task.id).Nodup) (htask : task ∈ p.tasks) (hy : task.Yields)
    (ht : t ∈ (takeTurn task p).tasks) :
    (t ∈ p.tasks ∧ t.id ≠ task.id) ∨ t.owned = true ∨ (t.owned = task.owned ∧ t.Yields) := by
  have hext := extends_worked (p := p) hy
  obtain ⟨new, hnew, howned⟩ := hext.tasks
  have hcases : ∀ x ∈ (p.worked task).tasks,
      (x ∈ p.tasks ∧ x.id ≠ task.id) ∨ SameTask task x ∨ x.owned = true := by
    intro x hx
    rw [hnew] at hx
    rcases List.mem_append.mp hx with hx | hx
    · rcases mem_modifyTask hx with ⟨old, hold, he, rfl⟩ | hother
      · rw [List.inj_on_of_nodup_map h hold htask he]
        exact .inr (.inl ⟨rfl, rfl, rfl, rfl⟩)
      · exact .inl hother
    · exact .inr (.inr (howned x hx).owned)
  rw [takeTurn_eq] at ht
  obtain ⟨old, hold, hid, hsame, haborted, -⟩ := endTurn_same ht
  rcases mem_endTurn ht with ⟨hmem, hne⟩ | ⟨hid', hagenda, hpauses, -, -⟩
  · rcases hcases t hmem with hother | ⟨he, -⟩ | howned
    · exact .inl hother
    · exact absurd he hne
    · exact .inr (.inl howned)
  · rcases hcases old hold with ⟨-, hne⟩ | ⟨-, howned, haborted', -⟩ | howned
    · exact absurd (hid.symm.trans hid') hne
    · have htowned := hsame.trans howned
      refine .inr (.inr ⟨htowned, ?_⟩)
      rcases hy, hext.pauses with ⟨ho | ⟨hwhole, hp, ha⟩, ho' | hp'⟩
      · exact .inl (htowned.trans ho)
      · exact .inl (htowned.trans ho)
      · exact .inl (htowned.trans ho')
      · refine .inr ⟨(haborted.trans haborted').trans hwhole, fun x hx ↦ ?_,
          fun e he ↦ ha e (worked_agenda (hagenda ▸ he))⟩
        exact (hp' x (hpauses ▸ hx)).elim (hp x) id
    · exact .inr (.inl (hsame.trans howned))

/-- Whatever has had turns still gives way. -/
theorem runTask_yields {id : Nat} (h : (p.tasks.map Task.id).Nodup) (hy : ∀ t ∈ p.tasks, t.Yields) :
    ∀ t ∈ (runTask id p).tasks, t.Yields := by
  intro t ht
  unfold runTask at ht
  split at ht
  · exact hy t ht
  next task hsome =>
    have htask := (Orderly.task?_eq hsome).1
    split at ht
    · exact hy t (List.mem_filter.mp ht).1
    · rcases mem_takeTurn h htask (hy task htask) ht with ⟨hold, -⟩ | howned | ⟨-, hyields⟩
      · exact hy t hold
      · exact .inl howned
      · exact hyields

theorem runTask_owned {id : Nat} (h : (p.tasks.map Task.id).Nodup)
    (ho : ∀ t ∈ p.tasks, t.owned = true) : ∀ t ∈ (runTask id p).tasks, t.owned = true := by
  intro t ht
  unfold runTask at ht
  split at ht
  · exact ho t ht
  next task hsome =>
    have htask := (Orderly.task?_eq hsome).1
    split at ht
    · exact ho t (List.mem_filter.mp ht).1
    · rcases mem_takeTurn h htask (.inl (ho task htask)) ht with ⟨hold, -⟩ | howned | ⟨hsame, -⟩
      · exact ho t hold
      · exact howned
      · exact hsame.trans (ho task htask)

/-! ## Tasks that are still known -/

/-- A task that the session does not own is there, or has an outcome. -/
def Knows (id : Nat) (p : Playback) : Prop :=
  (∃ t ∈ p.tasks, t.id = id ∧ t.owned = false) ∨ id ∈ p.outcomes.map Prod.fst

theorem knows_endTurn {id : Nat} (h : p.Knows id) : (p.endTurn task).Knows id := by
  have hended : ∀ outcome, ((p.updateTurn (fun _ ↦ .none)).endTask task outcome).Knows id := by
    intro outcome
    rcases h with ⟨t, ht, hid, howned⟩ | hin
    · by_cases he : t.id = task.id
      · exact .inr (List.mem_map.mpr ⟨(task.id, outcome), by simp [endTask], by rw [← he, hid]⟩)
      · exact .inl ⟨t, List.mem_filter.mpr ⟨ht, by simpa using he⟩, hid, howned⟩
    · right
      simp only [endTask, updateTurn, List.map_append]
      exact List.mem_append_left _ hin
  have hkept : ∀ agenda pauses, ((p.updateTurn (fun _ ↦ .none)).modifyTask task.id
      (fun t ↦ { t with agenda := agenda, pauses := pauses })).Knows id := by
    intro agenda pauses
    rcases h with ⟨t, ht, hid, howned⟩ | hin
    · refine .inl ⟨_, List.mem_map_of_mem ht, ?_⟩
      split <;> exact ⟨hid, howned⟩
    · exact .inr hin
  unfold endTurn
  dsimp only
  split
  · have hst := abandonAll_stirs (p := (p.updateTurn (fun _ ↦ .none)).endTask task .failed) p.turn.pauses
    unfold Knows
    rw [hst.tasks, hst.outcomes]
    exact hended _
  split
  · exact hended _
  split
  · unfold wake
    split <;> exact hkept _ _
  · exact hkept _ _

theorem knows_runTask {id other : Nat} (hnodup : (p.tasks.map Task.id).Nodup)
    (hy : ∀ t ∈ p.tasks, t.Yields) (h : p.Knows id) : (runTask other p).Knows id := by
  unfold runTask
  split
  · exact h
  next task hsome =>
    have htask := Orderly.task?_eq hsome
    split
    next haborted =>
      refine h.imp_left fun ⟨t, ht, hid, howned⟩ ↦ ⟨t, List.mem_filter.mpr ⟨ht, ?_⟩, hid, howned⟩
      suffices hne : t.id ≠ other by simpa using hne
      rintro rfl
      obtain rfl := List.inj_on_of_nodup_map hnodup ht htask.1 htask.2.symm
      rcases hy t ht with ho | ⟨hwhole, -⟩
      · simp [ho] at howned
      · simp [hwhole] at haborted
    next =>
      rw [takeTurn_eq]
      refine knows_endTurn ?_
      obtain ⟨new, hnew, -⟩ := (extends_worked (p := p) (hy task htask.1)).tasks
      unfold Knows
      rw [(extends_worked (p := p) (hy task htask.1)).outcomes, hnew]
      refine h.imp_left fun ⟨t, ht, hid, howned⟩ ↦
        ⟨_, List.mem_append_left _ (List.mem_map_of_mem ht), ?_⟩
      split <;> exact ⟨hid, howned⟩

end tasks

end Playback

end Storyline
