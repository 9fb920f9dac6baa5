import Storyline.Proofs.Playback.Casting
import Storyline.Proofs.Playback.Veils

/-!
# Following a pause

What a pause is parked as, what it does at its end and the scopes that it keeps
stay the same from one look to the next.  A pause that is known by these stands
until a look finds its wait at an end, or until its task fails because the clock
cannot show when a voice is to be looked at.
-/

namespace Storyline

/-- What a wait may be after a look that finds it going on: it is as before, or it is
for the same parked action, or it ticks on. -/
inductive Wait.Becomes : Wait → Wait → Prop
  | same (wait : Wait) : Becomes wait wait
  | tap (park : Nat) (kind kind' : Dwell) (auto auto' : Lingering) :
    Becomes (.tap park kind auto) (.tap park kind' auto')
  | frame (shake : Shake) (stamp : Nat) (d : Duration) (start start' ticks ticks' : Nat)
    (timer timer' : Timer) :
    Becomes (.frame shake stamp d start ticks timer) (.frame shake stamp d start' ticks' timer')
  | forward (ticker ticker' : Option (Nat × Nat × Timer)) : Becomes (.forward ticker) (.forward ticker')

/-- What a pause may be after a look: what it does at its end and the scopes that it
keeps stay the same. -/
structure Pause.Becomes (q x : Pause) : Prop where
  wait : q.wait.Becomes x.wait
  ending : x.ending = q.ending
  scopes : x.scopes = q.scopes

/-- A pause stays parked as the same action. -/
theorem Pause.Becomes.park {q x : Pause} (h : q.Becomes x) : x.park? = q.park? := by
  obtain ⟨wait, ending, scopes⟩ := q
  obtain ⟨wait', ending', scopes'⟩ := x
  obtain ⟨hwait, -, -⟩ := h
  cases hwait <;> rfl

/-- A property that a pause has whatever it waits for next. -/
def Lasting (P : Pause → Prop) : Prop := ∀ q x : Pause, q.Becomes x → P q → P x

theorem lasting_raises (c : Cover) (stamp : Nat) : Lasting (Pause.Raises c stamp) :=
  fun _ _ hx ⟨ticket, h⟩ ↦ ⟨ticket, hx.ending.trans h⟩

namespace Playback

variable {p q : Playback}

/-! ## What a wait leaves behind -/

theorem look_becomes {wait w : Wait} (h : p.look wait = (q, .waits w)) : wait.Becomes w := by
  cases wait with
  | tap park kind auto =>
      obtain ⟨kind', auto', rfl⟩ := lookAtTap_kind h
      exact .tap park kind kind' auto auto'
  | sleep | drained =>
      simp only [look, lookAtSleep, lookAtCount] at h
      split at h
      · cases (Prod.mk.inj h).2
      split at h
      · cases (Prod.mk.inj h).2
      · exact Verdict.waits.inj (Prod.mk.inj h).2 ▸ .same _
  | cancelled =>
      simp only [look] at h
      split at h
      · cases (Prod.mk.inj h).2
      · exact Verdict.waits.inj (Prod.mk.inj h).2 ▸ .same _
  | frame shake stamp d start ticks timer =>
      rcases p.lookAtFrame_cases shake stamp d start ticks timer with
        ⟨-, h'⟩ | ⟨-, h' | ⟨n, finished, offset, h' | h'⟩⟩ <;> rw [look, h'] at h
      · exact Verdict.waits.inj (Prod.mk.inj h).2 ▸ .same _
      · cases (Prod.mk.inj h).2
      · cases (Prod.mk.inj h).2
      · exact Verdict.waits.inj (Prod.mk.inj h).2 ▸ .frame ..
  | forward ticker =>
      suffices hticks : ∃ ticker', Wait.forward ticker' = w by
        obtain ⟨ticker', rfl⟩ := hticks
        exact .forward ticker ticker'
      simp only [look, lookAtForward] at h
      split at h
      · exact ⟨_, Verdict.waits.inj (Prod.mk.inj h).2⟩
      split at h
      · split at h
        · exact ⟨_, Verdict.waits.inj (Prod.mk.inj h).2⟩
        · cases (Prod.mk.inj h).2
      · split at h
        · exact ⟨_, Verdict.waits.inj (Prod.mk.inj h).2⟩
        · exact ⟨_, Verdict.waits.inj (Prod.mk.inj h).2⟩

/-- A wait that goes on leaves what its pause may become. -/
theorem pause_becomes {wait w : Wait} (ending : Ending) (scopes : List Nat)
    (h : p.look wait = (q, .waits w)) :
    Pause.Becomes ⟨wait, ending, scopes⟩ ⟨w, ending, scopes⟩ := ⟨look_becomes h, rfl, rfl⟩

/-- A pause that a wait has left was there before, or is the pause of this wait
after a look. -/
theorem suspend_left {wait : Wait} {ending : Ending} {scopes : List Nat} {x : Pause}
    (hx : x ∈ (p.suspend wait ending scopes).turn.pauses) :
    x ∈ p.turn.pauses ∨ Pause.Becomes ⟨wait, ending, scopes⟩ x := by
  have hst := p.stirs_look wait
  unfold suspend at hx
  split at hx
  next q w hlook =>
    rw [hlook] at hst
    rcases List.mem_append.mp hx with hx | hx
    · exact .inl (hst.pauses ▸ hx)
    · rw [List.mem_singleton.mp hx]
      exact .inr (pause_becomes ending scopes hlook)
  next q ran hlook =>
    rw [hlook] at hst
    split at hx
    · exact .inl (by rwa [(q.stirs_finish ending).pauses, hst.pauses] at hx)
    · exact .inl (hst.pauses ▸ hx)
  next q hlook =>
    rw [hlook] at hst
    rcases List.mem_append.mp hx with hx | hx
    · exact .inl (hst.pauses ▸ hx)
    · rw [List.mem_singleton.mp hx]
      exact .inr ⟨.same wait, rfl, rfl⟩

/-- A wait leaves its pause behind, unless a look finds it at its end. -/
theorem suspend_keeps {P : Pause → Prop} (hP : Lasting P) {wait : Wait} {ending : Ending}
    {scopes : List Nat} (h : P ⟨wait, ending, scopes⟩) :
    (∃ x ∈ (p.suspend wait ending scopes).turn.pauses, P x) ∨
      ∃ q ran, p.look wait = (q, .ends ran) ∧
        p.suspend wait ending scopes = if ran then q.finish ending else q := by
  unfold suspend
  split
  next q w hlook =>
    exact .inl ⟨⟨w, ending, scopes⟩, List.mem_append_right _ (List.mem_singleton.mpr rfl),
      hP _ _ (pause_becomes ending scopes hlook) h⟩
  next q ran hlook => exact .inr ⟨q, ran, hlook, rfl⟩
  next q hlook =>
    exact .inl ⟨⟨wait, ending, scopes⟩, List.mem_append_right _ (List.mem_singleton.mpr rfl), h⟩

theorem suspend_tasks {wait : Wait} {ending : Ending} {scopes : List Nat} :
    (p.suspend wait ending scopes).tasks = p.tasks ∧
      (p.suspend wait ending scopes).dispatches = p.dispatches := by
  have hst := p.stirs_look wait
  unfold suspend
  split
  next q w hlook =>
    rw [hlook] at hst
    exact ⟨hst.tasks, hst.dispatches⟩
  next q ran hlook =>
    rw [hlook] at hst
    split
    · have hended := hst.trans (q.stirs_finish ending)
      exact ⟨hended.tasks, hended.dispatches⟩
    · exact ⟨hst.tasks, hst.dispatches⟩
  next q hlook =>
    rw [hlook] at hst
    exact ⟨hst.tasks, hst.dispatches⟩

/-- The turn without its first pause. -/
def aside (p : Playback) : Playback := p.updateTurn (fun t ↦ { t with pauses := t.pauses.tail })

theorem revisit_eq {pause : Pause} (h : p.turn.failed = false) :
    p.revisit pause = p.aside.suspend pause.wait pause.ending pause.scopes := by
  unfold revisit
  rw [if_neg (by simp [h])]
  rfl

theorem revisit_failed {pause : Pause} (h : p.turn.failed = true) : p.revisit pause = p := by
  unfold revisit
  rw [if_pos h]

end Playback

namespace Machine

open Playback

/-- A task has a pause with a property. -/
def Holds (id : Nat) (P : Pause → Prop) (m : Machine) : Prop :=
  (∃ t ∈ m.playback.tasks, t.id = id ∧ ∃ q ∈ t.pauses, P q) ∨
    ∃ task, m.running = some task ∧ task.id = id ∧ ∃ q ∈ m.playback.turn.pauses, P q

/-- A task has failed because the clock could not show when a voice was to be
looked at. -/
def Fallen (id : Nat) (m : Machine) : Prop :=
  (id, .failed) ∈ m.playback.outcomes ∧ m.playback.session.OutOfTime

/-- A task that performs actions, or serves them, has a pause with a property, or
it has fallen. -/
inductive Keeps (id : Nat) (P : Pause → Prop) (m : Machine) : Prop
  | waits {t : Task} {q : Pause} (ht : t ∈ m.playback.tasks) (hid : t.id = id)
    (hp : ∀ q ∈ t.pauses, q.Yields) (ha : ∀ e ∈ t.agenda, e.Yields) (hq : q ∈ t.pauses) (hP : P q)
  | turns {task : Task} {q : Pause} (hrun : m.running = some task) (hid : task.id = id)
    (hplays : Plays m.playback) (hq : q ∈ m.playback.turn.pauses) (hP : P q)
  | falls (h : Fallen id m)

/-- A beat that finds the wait of a pause with a property at an end. -/
inductive Ends (id : Nat) (P : Pause → Prop) : Machine → Machine → Prop
  | intro {p q : Playback} {task : Task} {pause : Pause} {jobs : List Job} {ran : Bool}
    (hid : task.id = id) (hP : P pause) (hgoes : p.turn.failed = false)
    (hlook : p.aside.look pause.wait = (q, .ends ran)) :
    Ends id P ⟨p, some task, .look pause :: jobs⟩
      ⟨if ran then q.finish pause.ending else q, some task, jobs⟩

section

variable {p q : Playback} {m n : Machine} {id : Nat} {P : Pause → Prop}

theorem Keeps.cases (h : Keeps id P m) : Holds id P m ∨ Fallen id m := by
  cases h with
  | waits ht hid _ _ hq hP => exact .inl (.inl ⟨_, ht, hid, _, hq, hP⟩)
  | turns hrun hid _ hq hP => exact .inl (.inr ⟨_, hrun, hid, _, hq, hP⟩)
  | falls h => exact .inr h

/-! ## What a beat leaves alone -/

theorem session_drop {id : Nat} {rest : List Nat}
    (hgone : ∀ task, p.task? id = some task → task.aborted = true) :
    (runTask id { p with queue := rest }).session = p.session := by
  unfold runTask
  split
  · rfl
  next task hsome => rw [if_pos (hgone task hsome)]; rfl

theorem Beat.settings (hb : Beat m n) :
    n.playback.session.settings = m.playback.session.settings := by
  cases hb with
  | take | walk | skip => rfl
  | drop hq hgone => exact congrArg Session.settings (session_drop hgone)
  | look => exact settings_revisit _
  | begin => exact settings_begin _
  | cue => exact (settings_performCue _ _ _ _).trans (congrArg _ (note_session _ _ _))
  | block => exact (settings_openWithin _ _).trans (congrArg _ (note_session _ _ _))
  | fork =>
      exact (congrArg _ (spawn_session _ _)).trans
        ((settings_openWithin _ _).trans (congrArg _ (note_session _ _ _)))
  | @close p task scope scopes => exact settings_performCue (p := p) .waitForAll scope scopes none
  | @finish p task =>
      obtain ⟨taps, hend⟩ := (endTurn_session (p := p) task).1
      exact (congrArg Session.settings hend).trans rfl

theorem runTask_gone {id : Nat} {rest : List Nat} (hwhole : ∀ t ∈ p.tasks, t.aborted = false)
    (hgone : ∀ task, p.task? id = some task → task.aborted = true) :
    runTask id { p with queue := rest } = { p with queue := rest } := by
  unfold runTask
  split
  · rfl
  next task hsome =>
    have haborted := hwhole task (Orderly.task?_eq hsome).1
    rw [hgone task hsome] at haborted
    cases haborted

theorem Beat.whole (hb : Beat m n) (h : ∀ t ∈ m.playback.tasks, t.aborted = false) :
    ∀ t ∈ n.playback.tasks, t.aborted = false := by
  have hb' := hb
  cases hb with
  | take =>
      intro t ht
      obtain ⟨old, hold, -, -, haborted, -⟩ := modifyTask_same ht
      exact haborted.trans (h old hold)
  | @drop p id rest hq hgone =>
      rw [runTask_gone (p := p) h hgone]
      exact h
  | finish =>
      intro t ht
      obtain ⟨old, hold, -, -, haborted, -⟩ := endTurn_same ht
      exact haborted.trans (h old hold)
  | _ =>
      intro t ht
      obtain ⟨new, hnew, hadded⟩ := (hb'.extends (by simp) (by simp)).tasks
      rcases List.mem_append.mp (hnew ▸ ht) with ht | ht
      · exact h t ht
      · exact (hadded t ht).whole

theorem kept_begin {errand : Errand} (h : ∀ action scope step, errand ≠ .perform action scope step) :
    p.turn.pauses <+: (p.begin errand).turn.pauses := by
  cases errand with
  | perform action scope step => exact absurd rfl (h action scope step)
  | sleep d ending scopes => exact kept_sleep d ending scopes
  | animate => exact p.stirs_arm.kept.trans kept_suspend
  | _ => exact kept_suspend

/-- Without a look no pause is given up. -/
theorem Beat.kept (hb : Beat m n) (hm : m.running ≠ none) (hn : n.running ≠ none)
    (hlook : ∀ pause, m.jobs.head? ≠ some (.look pause)) :
    m.playback.turn.pauses <+: n.playback.turn.pauses := by
  have hopen : ∀ (p : Playback) (action : Action) (scope : Nat) (step : Option Nat),
      p.turn.pauses <+: ((p.note action scope step).openWithin scope step).turn.pauses := by
    intro p action scope step
    have hsame := (stirs_openWithin (p.note action scope step) scope step).pauses
    rw [note_turn] at hsame
    exact hsame ▸ List.prefix_refl _
  cases hb with
  | take | drop => exact absurd rfl hm
  | @look p task pause => exact absurd rfl (hlook pause)
  | walk | skip => exact List.prefix_refl _
  | @begin p task errand rest hfree hagenda hother =>
      exact kept_begin (p := p.updateTurn (fun t ↦ { t with agenda := rest })) hother
  | @cue p task cue scope scopes step =>
      have hkept := kept_performCue (p := p.note (.cue cue) scope step) cue scope scopes step
      rwa [note_turn] at hkept
  | block => exact hopen _ _ _ _
  | fork => exact (hopen _ _ _ _).trans (kept_spawn _ _)
  | @close p task scope scopes => exact kept_performCue (p := p) .waitForAll scope scopes none
  | finish => exact absurd rfl hn

/-! ## The end of a turn -/

theorem outOfTime_endTurn {task : Task} (h : p.session.OutOfTime) :
    (p.endTurn task).session.OutOfTime := by
  obtain ⟨taps, hend⟩ := (endTurn_session (p := p) task).1
  rw [hend]
  exact h

/-- At the end of its turn a task is put back with its pauses, or it has failed. -/
theorem endTurn_keeps {task : Task} (h : task.id ∈ p.tasks.map Task.id) (hne : p.turn.pauses ≠ []) :
    (p.turn.failed = true ∧ (task.id, .failed) ∈ (p.endTurn task).outcomes) ∨
      ∃ t ∈ (p.endTurn task).tasks, t.id = task.id ∧ t.agenda = p.turn.agenda ∧
        t.pauses = p.turn.pauses := by
  have hpauses : p.turn.pauses.isEmpty = false := by simpa using hne
  unfold endTurn
  dsimp only
  split
  next hf =>
    refine .inl ⟨hf, ?_⟩
    rw [(abandonAll_stirs _).outcomes]
    exact List.mem_append_right _ (List.mem_singleton.mpr rfl)
  next =>
    rw [if_neg (by simp [hpauses])]
    right
    obtain ⟨old, hold, hid⟩ := List.mem_map.mp h
    have hput : ∃ t ∈ ((p.updateTurn (fun _ ↦ .none)).modifyTask task.id
        (fun t ↦ { t with agenda := p.turn.agenda, pauses := p.turn.pauses })).tasks,
        t.id = task.id ∧ t.agenda = p.turn.agenda ∧ t.pauses = p.turn.pauses :=
      ⟨_, List.mem_map.mpr ⟨old, hold, rfl⟩, by simp [hid]⟩
    split
    · unfold wake
      split <;> exact hput
    · exact hput

/-- The other tasks and their outcomes stay as they are. -/
theorem endTurn_others {task t : Task} (ht : t ∈ p.tasks) (hne : t.id ≠ task.id) :
    t ∈ (p.endTurn task).tasks := by
  have hended : ∀ outcome, t ∈ ((p.updateTurn (fun _ ↦ .none)).endTask task outcome).tasks :=
    fun outcome ↦ List.mem_filter.mpr ⟨ht, by simpa using hne⟩
  have hput : t ∈ ((p.updateTurn (fun _ ↦ .none)).modifyTask task.id
      (fun t ↦ { t with agenda := p.turn.agenda, pauses := p.turn.pauses })).tasks :=
    List.mem_map.mpr ⟨t, ht, by simp [hne]⟩
  unfold endTurn
  dsimp only
  split
  · rw [(abandonAll_stirs _).tasks]
    exact hended _
  split
  · exact hended _
  split
  · unfold wake
    split <;> exact hput
  · exact hput

theorem endTurn_outcomes {task : Task} : p.outcomes ⊆ (p.endTurn task).outcomes := by
  have hended : ∀ outcome,
      p.outcomes ⊆ ((p.updateTurn (fun _ ↦ .none)).endTask task outcome).outcomes :=
    fun outcome x hx ↦ List.mem_append_left _ hx
  unfold endTurn
  dsimp only
  split
  · rw [(abandonAll_stirs _).outcomes]
    exact hended _
  split
  · exact hended _
  split
  · unfold wake
    split <;> exact List.Subset.refl _
  · exact List.Subset.refl _

theorem endTurn_dispatches (task : Task) :
    (p.endTurn task).dispatches = p.dispatches ∧ (p.endTurn task).spawned = p.spawned := by
  unfold endTurn
  dsimp only
  split
  · rw [(abandonAll_stirs _).dispatches, (abandonAll_stirs _).spawned]
    exact ⟨rfl, rfl⟩
  split
  · exact ⟨rfl, rfl⟩
  split
  · unfold wake
    split <;> exact ⟨rfl, rfl⟩
  · exact ⟨rfl, rfl⟩

/-! ## What becomes of a pause -/

theorem Keeps.take {rest : List Nat} {task : Task} (hs : Sound (resting p)) (htask : task ∈ p.tasks)
    (h : Keeps id P (resting p)) :
    Keeps id P
      ⟨({ p with queue := rest } : Playback).begun task, some task, task.pauses.map .look⟩ := by
  cases h with
  | @waits t q ht hid hp ha hq hP =>
      by_cases he : t.id = task.id
      · obtain rfl := List.inj_on_of_nodup_map hs.orderly.nodup_ids ht htask he
        exact .turns rfl hid ⟨hp, ha, by simp [begun, updateTurn, Turn.ofTask]⟩ hq hP
      · exact .waits (List.mem_map.mpr ⟨t, ht, by simp [he]⟩) hid hp ha hq hP
  | turns hrun => cases hrun
  | falls h => exact .falls h

/-- A pause of the running task is left alone, or it is looked at. -/
theorem Beat.holds (hP : Lasting P) (hb : Beat m n) (hm : m.running ≠ none) (hn : n.running ≠ none)
    (hawaits : m.playback.Awaits (looks m.jobs)) {task : Task} (hrun : m.running = some task)
    {x : Pause} (hx : x ∈ m.playback.turn.pauses) (h : P x) :
    (∃ q ∈ n.playback.turn.pauses, P q) ∨ Ends task.id P m n := by
  by_cases hlook : ∀ pause, m.jobs.head? ≠ some (.look pause)
  · exact .inl ⟨x, (hb.kept hm hn hlook).subset hx, h⟩
  obtain ⟨pause, hpause⟩ := not_forall_not.mp hlook
  cases hb with
  | take | drop => exact absurd rfl hm
  | @look p task first jobs =>
      obtain rfl := Option.some.inj hrun
      change (∃ q ∈ (p.revisit first).turn.pauses, P q) ∨ _
      by_cases hf : p.turn.failed = true
      · exact .inl ⟨x, (revisit_failed hf).symm ▸ hx, h⟩
      have hgoes : p.turn.failed = false := by simpa using hf
      obtain ⟨done, hdone⟩ := hawaits.resolve_left hf
      have hdone : p.turn.pauses = first :: (looks jobs ++ done) := hdone
      rw [revisit_eq hgoes]
      have hx : x ∈ p.turn.pauses := hx
      rw [hdone] at hx
      rcases List.mem_cons.mp hx with rfl | hx
      · refine (suspend_keeps hP h).imp_right fun ⟨q, ran, hlooked, hq⟩ ↦ ?_
        rw [hq]
        exact .intro rfl h hgoes hlooked
      · refine .inl ⟨x, kept_suspend.subset ?_, h⟩
        simpa [aside, updateTurn, hdone] using hx
  | finish => exact absurd rfl hn
  | _ => simp at hpause

theorem Keeps.within (hP : Lasting P) (hb : Beat m n) (hm : m.running ≠ none) (hn : n.running ≠ none)
    (hsame : n.running = m.running) (hc : Cast m) (h : Keeps id P m) :
    Keeps id P n ∨ Ends id P m n := by
  have hext := hb.extends hm hn
  obtain ⟨new, hnew, -⟩ := hext.tasks
  have hawaits := (hc.running hm).awaits
  cases h with
  | waits ht hid hp ha hq h => exact .inl (.waits (hnew ▸ List.mem_append_left _ ht) hid hp ha hq h)
  | turns hrun hid hplays hq h =>
      rcases hb.holds hP hm hn hawaits hrun hq h with ⟨x, hx, h⟩ | hends
      · exact .inl (.turns (hsame.trans hrun) hid (hb.plays hm hn hawaits hplays) hx h)
      · exact .inr (hid ▸ hends)
  | falls h => exact .inl (.falls ⟨hext.outcomes.symm ▸ h.1, hext.outOfTime.mpr h.2⟩)

theorem Keeps.finish {task : Task} (hs : Sound ⟨p, some task, []⟩)
    (h : Keeps id P ⟨p, some task, []⟩) : Keeps id P (resting (p.endTurn task)) := by
  cases h with
  | @waits t q ht hid hp ha hq hP =>
      by_cases he : t.id = task.id
      · have hempty := (hs.orderly.empty t ht (congrArg some he)).1
        rw [hempty] at hq
        cases hq
      · exact .waits (endTurn_others ht he) hid hp ha hq hP
  | @turns other q hrun hid hplays hq hP =>
      obtain rfl := Option.some.inj hrun
      have hmem := hs.orderly.running_mem _ rfl
      rcases endTurn_keeps hmem (List.ne_nil_of_mem hq) with ⟨hf, hout⟩ | ⟨t, ht, hid', hagenda, hpauses⟩
      · exact .falls ⟨hid ▸ hout, outOfTime_endTurn (hplays.failed hf)⟩
      · exact .waits ht (hid'.trans hid) (hpauses ▸ hplays.pauses) (hagenda ▸ hplays.agenda)
          (hpauses ▸ hq) hP
  | falls h => exact .falls ⟨endTurn_outcomes h.1, outOfTime_endTurn h.2⟩

/-- From one beat to the next a pause stands, or a look finds its wait at an end. -/
theorem Beat.keeps (hP : Lasting P) (hs : Sound m) (hc : Cast m)
    (hwhole : ∀ t ∈ m.playback.tasks, t.aborted = false) (hb : Beat m n) (h : Keeps id P m) :
    Keeps id P n ∨ Ends id P m n := by
  have hb' := hb
  cases hb with
  | take hq htask => exact .inl (h.take hs (Orderly.task?_eq htask).1)
  | @drop p other rest hq hgone =>
      rw [runTask_gone (p := p) hwhole hgone]
      left
      cases h with
      | waits ht hid hp ha hq hP => exact .waits ht hid hp ha hq hP
      | turns hrun => cases hrun
      | falls h => exact .falls h
  | finish => exact .inl (h.finish hs)
  | _ => exact h.within hP hb' (by simp) (by simp) rfl hc

/-- The pauses at the beginning of a turn are those of the task. -/
theorem Holds.of_take {rest : List Nat} {task : Task} {jobs : List Job} (htask : task ∈ p.tasks)
    (h : Holds id P ⟨({ p with queue := rest } : Playback).begun task, some task, jobs⟩) :
    Holds id P (resting p) := by
  left
  rcases h with ⟨t, ht, hid, q, hq, hP⟩ | ⟨other, hrun, hid, q, hq, hP⟩
  · rcases mem_modifyTask ht with ⟨old, -, -, rfl⟩ | ⟨hold, -⟩
    · cases hq
    · exact ⟨t, hold, hid, q, hq, hP⟩
  · obtain rfl := Option.some.inj hrun
    exact ⟨_, htask, hid, q, hq, hP⟩

/-- A task that is put back has the pauses of its turn. -/
theorem Holds.of_finish {task : Task} {jobs : List Job} (h : Holds id P (resting (p.endTurn task))) :
    Holds id P ⟨p, some task, jobs⟩ := by
  rcases h with ⟨t, ht, hid, q, hq, hP⟩ | ⟨other, hrun, -⟩
  · rcases mem_endTurn ht with ⟨hold, -⟩ | ⟨hid', -, hpauses, -, -⟩
    · exact .inl ⟨t, hold, hid, q, hq, hP⟩
    · exact .inr ⟨task, rfl, hid'.symm.trans hid, q, hpauses ▸ hq, hP⟩
  · cases hrun

/-! ## Between turns -/

/-- Between turns a pause stands whatever is added. -/
theorem Keeps.resting (htasks : p.tasks ⊆ q.tasks) (houtcomes : p.outcomes ⊆ q.outcomes)
    (htime : p.session.OutOfTime → q.session.OutOfTime) (h : Keeps id P (resting p)) :
    Keeps id P (resting q) := by
  cases h with
  | waits ht hid hp ha hq hP => exact .waits (htasks ht) hid hp ha hq hP
  | turns hrun => cases hrun
  | falls h => exact .falls ⟨houtcomes h.1, htime h.2⟩

theorem outOfTime_later {time : Nat} (h : p.session.OutOfTime) (hle : p.session.now ≤ time) :
    Session.OutOfTime { p.session with now := time } := by
  unfold Session.OutOfTime at h ⊢
  by_contra hnot
  have hsome := Duration.tickFrom_isSome hle (Option.isSome_iff_ne_none.mpr hnot)
  rw [h] at hsome
  cases hsome

theorem moveTo_eq (time : Nat) (p : Playback) :
    ∃ queue, p.moveTo time =
      { p with session := { p.session with now := time }, queue := queue } := by
  simp only [moveTo, wakeAll_eq]
  exact ⟨_, rfl⟩

end

end Machine

end Storyline
