import Storyline.Proofs.Playback.Following

/-!
# Pauses that stand

A task fails only in a look that finds playing by itself on for the first time.  So
once it has found all pauses of a task, and while it is on, these pauses stand until
looks find their waits at an end.
-/

namespace Storyline

/-- A wait that playing by itself has found, if it is for a tap. -/
def Wait.IsFound : Wait → Prop
  | .tap _ _ auto => auto ≠ .off
  | _ => True

/-- A pause of a task that performs actions, or serves them, which playing by itself has
found. -/
structure Pause.Sturdy (q : Pause) : Prop where
  yields : q.Yields
  found : q.wait.IsFound

theorem Wait.Settled.isFound {w : Wait} {s : Session} (h : w.Settled s) (hon : s.autoPlay = true) :
    w.IsFound := by
  cases w with
  | tap park kind auto =>
      rintro rfl
      obtain ⟨-, -, hoff⟩ := h
      cases hoff.symm.trans hon
  | _ => trivial

namespace Playback

variable {p q : Playback} {wait w : Wait} {ending : Ending} {scopes : List Nat}

theorem look_sturdy (hon : p.session.autoPlay = true) (hpunctual : wait.Punctual p.session.moment)
    (h : p.look wait = (q, .waits w)) (hx : Pause.Sturdy ⟨wait, ending, scopes⟩) :
    Pause.Sturdy ⟨w, ending, scopes⟩ := by
  have hsettings := (p.looked_look wait).settings
  rw [h] at hsettings
  have hsame : q.session.autoPlay = p.session.autoPlay := congrArg Settings.autoPlay hsettings
  exact ⟨look_waits_yields h hx.yields, (look_waits hpunctual h).1.isFound (hsame.trans hon)⟩

/-- A look at such a pause does not fail. -/
theorem look_goes (hx : Pause.Sturdy ⟨wait, ending, scopes⟩) : p.look wait ≠ (q, .fails) := by
  intro h
  obtain ⟨hyields, hfound⟩ := hx
  cases wait with
  | tap park kind auto =>
      simp only [look, lookAtTap] at h
      split at h
      · cases (Prod.mk.inj h).2
      split at h
      · cases (Prod.mk.inj h).2
      split at h
      · cases (Prod.mk.inj h).2
      cases auto with
      | off => exact hfound rfl
      | listening start ticks timer =>
          dsimp only at h
          split at h
          · cases (Prod.mk.inj h).2
          split at h
          · cases (Prod.mk.inj h).2
          · exact absurd (congrArg Prod.snd h) dwell_ne_fails
      | dwelling timer =>
          dsimp only at h
          split at h <;> cases (Prod.mk.inj h).2
  | sleep timer skips =>
      simp only [look, lookAtSleep] at h
      split at h
      · cases (Prod.mk.inj h).2
      split at h <;> cases (Prod.mk.inj h).2
  | drained scope tally guarded =>
      simp only [look, lookAtCount] at h
      split at h
      · cases (Prod.mk.inj h).2
      split at h <;> cases (Prod.mk.inj h).2
  | cancelled =>
      simp only [look] at h
      split at h <;> cases (Prod.mk.inj h).2
  | frame | forward => exact hyields

/-- So the turn goes on with such pauses. -/
theorem revisit_sturdy {x : Pause} (hon : p.session.autoPlay = true) (hgoes : p.turn.failed = false)
    (hpunctual : x.wait.Punctual p.session.moment) (hx : x.Sturdy) (hp : ∀ y ∈ p.turn.pauses, y.Sturdy) :
    (p.revisit x).turn.failed = false ∧ ∀ y ∈ (p.revisit x).turn.pauses, y.Sturdy := by
  rw [revisit_eq hgoes]
  have haside : ∀ y ∈ p.aside.turn.pauses, y.Sturdy := fun y hy ↦ hp y (List.mem_of_mem_tail hy)
  have hfree : p.aside.turn.failed = false := hgoes
  have hst := p.aside.stirs_look x.wait
  unfold suspend
  split
  next q w hlook =>
    rw [hlook] at hst
    refine ⟨hst.failed.trans hfree, fun y hy ↦ ?_⟩
    rcases List.mem_append.mp hy with hy | hy
    · exact haside y (hst.pauses ▸ hy)
    · rw [List.mem_singleton.mp hy]
      exact look_sturdy (p := p.aside) hon hpunctual hlook hx
  next q ran hlook =>
    rw [hlook] at hst
    have hended : p.aside.Stirs (if ran = true then q.finish x.ending else q) := by
      split
      · exact hst.trans (q.stirs_finish x.ending)
      · exact hst
    exact ⟨hended.failed.trans hfree, fun y hy ↦ haside y (hended.pauses ▸ hy)⟩
  next q hlook => exact absurd hlook (look_goes hx)

end Playback

namespace Machine

open Playback

/-- A task has a pause with a property, and all its pauses have been found by playing by
itself.  If it is running it does nothing but look at them. -/
structure Persists (id : Nat) (P : Pause → Prop) (m : Machine) : Prop where
  holds : Holds id P m
  tasks : ∀ t ∈ m.playback.tasks, t.id = id → ∀ x ∈ t.pauses, x.Sturdy
  goes : ∀ task, m.running = some task → task.id = id → m.playback.turn.failed = false
  looking : ∀ task, m.running = some task → task.id = id → ∀ job ∈ m.jobs, job.isLook = true
  turn : ∀ task, m.running = some task → task.id = id → ∀ x ∈ m.playback.turn.pauses, x.Sturdy

variable {p q : Playback} {m n : Machine} {id : Nat} {P : Pause → Prop}

theorem Persists.of_tasks (hholds : Holds id P (resting p))
    (htasks : ∀ t ∈ p.tasks, t.id = id → ∀ x ∈ t.pauses, x.Sturdy) : Persists id P (resting p) :=
  ⟨hholds, htasks, nofun, nofun, nofun⟩

/-- Between turns a pause stands whatever tasks are added. -/
theorem Persists.resting {new : List Task} (htasks : q.tasks = p.tasks ++ new)
    (hnew : ∀ t ∈ new, t.pauses = []) (h : Persists id P (resting p)) : Persists id P (resting q) := by
  refine .of_tasks ?_ fun t ht hid x hx ↦ ?_
  · rcases h.holds with ⟨t, ht, hid, x, hx, hP⟩ | ⟨task, hrun, -⟩
    · exact .inl ⟨t, htasks ▸ List.mem_append_left _ ht, hid, x, hx, hP⟩
    · cases hrun
  · rcases List.mem_append.mp (htasks ▸ ht) with ht | ht
    · exact h.tasks t ht hid x hx
    · rw [hnew t ht] at hx
      cases hx

theorem Persists.take {rest : List Nat} {task : Task} (hs : Sound (Machine.resting p)) (htask : task ∈ p.tasks)
    (h : Persists id P (Machine.resting p)) :
    Persists id P
      ⟨({ p with queue := rest } : Playback).begun task, some task, task.pauses.map .look⟩ := by
  constructor
  case holds =>
    rcases h.holds with ⟨t, ht, hid, x, hx, hP⟩ | ⟨other, hrun, -⟩
    · by_cases he : t.id = task.id
      · obtain rfl := List.inj_on_of_nodup_map hs.orderly.nodup_ids ht htask he
        exact .inr ⟨t, rfl, hid, x, hx, hP⟩
      · exact .inl ⟨t, List.mem_map.mpr ⟨t, ht, by simp [he]⟩, hid, x, hx, hP⟩
    · cases hrun
  case tasks =>
    intro t ht hid x hx
    rcases mem_modifyTask ht with ⟨old, -, -, rfl⟩ | ⟨hold, -⟩
    · cases hx
    · exact h.tasks t hold hid x hx
  case goes => exact fun _ _ _ ↦ rfl
  case looking =>
    intro _ _ _ job hjob
    obtain ⟨x, -, rfl⟩ := List.mem_map.mp hjob
    rfl
  case turn =>
    rintro _ ⟨⟩ hid x hx
    exact h.tasks task htask hid x hx

/-- Within the turn of another task nothing changes for a pause. -/
theorem Persists.aside (hb : Beat m n) (hm : m.running ≠ none) (hn : n.running ≠ none)
    (hsame : n.running = m.running) (hother : ∀ task, m.running = some task → task.id ≠ id)
    (h : Persists id P m) : Persists id P n := by
  obtain ⟨new, hnew, hadded⟩ := (hb.extends hm hn).tasks
  have hnot : ∀ task, n.running = some task → task.id ≠ id := fun task hrun ↦ hother task (hsame ▸ hrun)
  refine ⟨?_, fun t ht hid x hx ↦ ?_, fun task hrun hid ↦ absurd hid (hnot task hrun),
    fun task hrun hid ↦ absurd hid (hnot task hrun), fun task hrun hid ↦ absurd hid (hnot task hrun)⟩
  · rcases h.holds with ⟨t, ht, hid, x, hx, hP⟩ | ⟨task, hrun, hid, -⟩
    · exact .inl ⟨t, hnew ▸ List.mem_append_left _ ht, hid, x, hx, hP⟩
    · exact absurd hid (hother task hrun)
  · rcases List.mem_append.mp (hnew ▸ ht) with ht | ht
    · exact h.tasks t ht hid x hx
    · rw [(hadded t ht).pauses] at hx
      cases hx

/-- A look of the task itself. -/
theorem Persists.look {task : Task} {pause : Pause} {jobs : List Job} (hP : Lasting P)
    (hs : Sound ⟨p, some task, .look pause :: jobs⟩) (hc : Cast ⟨p, some task, .look pause :: jobs⟩)
    (hon : p.session.autoPlay = true) (hid : task.id = id)
    (h : Persists id P ⟨p, some task, .look pause :: jobs⟩) :
    Persists id P ⟨p.revisit pause, some task, jobs⟩ ∨
      Ends id P ⟨p, some task, .look pause :: jobs⟩ ⟨p.revisit pause, some task, jobs⟩ := by
  have hb : Beat ⟨p, some task, .look pause :: jobs⟩ ⟨p.revisit pause, some task, jobs⟩ := .look
  have hgoes : p.turn.failed = false := h.goes task rfl hid
  have hsturdy : ∀ x ∈ p.turn.pauses, x.Sturdy := h.turn task rfl hid
  have hpause : pause ∈ p.turn.pauses := by
    have hawaits : p.Awaits (pause :: looks jobs) := (hc.running (by simp)).awaits
    obtain ⟨done, hdone⟩ := hawaits.resolve_left (by simp [hgoes])
    exact hdone ▸ List.mem_cons_self
  have hrevisit := revisit_sturdy hon hgoes (hs.looks pause List.mem_cons_self) (hsturdy pause hpause) hsturdy
  obtain ⟨x, hx, hPx⟩ : ∃ x ∈ p.turn.pauses, P x := by
    rcases h.holds with ⟨t, ht, hid', x, hx, -⟩ | ⟨other, hrun, -, x, hx, hPx⟩
    · rw [(hs.orderly.empty t ht (congrArg some (hid'.trans hid.symm))).1] at hx
      cases hx
    · exact ⟨x, hx, hPx⟩
  rcases hb.holds hP (by simp) (by simp) (hc.running (by simp)).awaits rfl hx hPx with
    ⟨y, hy, hPy⟩ | hends
  · obtain ⟨new, hnew, hadded⟩ := (hb.extends (by simp) (by simp)).tasks
    refine .inl ⟨.inr ⟨task, rfl, hid, y, hy, hPy⟩, fun t ht hid' z hz ↦ ?_, fun _ _ _ ↦ hrevisit.1,
      fun _ _ _ job hjob ↦ h.looking task rfl hid job (List.mem_cons_of_mem _ hjob), fun _ _ _ ↦ hrevisit.2⟩
    rcases List.mem_append.mp (hnew ▸ ht) with ht | ht
    · exact h.tasks t ht hid' z hz
    · rw [(hadded t ht).pauses] at hz
      cases hz
  · exact .inr (hid ▸ hends)

theorem Persists.finish {task : Task} (hs : Sound ⟨p, some task, []⟩)
    (h : Persists id P ⟨p, some task, []⟩) : Persists id P (Machine.resting (p.endTurn task)) := by
  refine .of_tasks ?_ fun t ht hid x hx ↦ ?_
  · rcases h.holds with ⟨t, ht, hid, x, hx, hP⟩ | ⟨other, hrun, hid, x, hx, hP⟩
    · by_cases he : t.id = task.id
      · rw [(hs.orderly.empty t ht (congrArg some he)).1] at hx
        cases hx
      · exact .inl ⟨t, endTurn_others ht he, hid, x, hx, hP⟩
    · obtain rfl := Option.some.inj hrun
      have hmem := hs.orderly.running_mem _ rfl
      rcases endTurn_keeps hmem (List.ne_nil_of_mem hx) with ⟨hf, -⟩ | ⟨t, ht, hid', -, hpauses⟩
      · cases hf.symm.trans (h.goes task rfl hid)
      · exact .inl ⟨t, ht, hid'.trans hid, x, hpauses ▸ hx, hP⟩
  · rcases mem_endTurn ht with ⟨hold, -⟩ | ⟨hid', -, hpauses, -⟩
    · exact h.tasks t hold hid x hx
    · exact h.turn task rfl (hid'.symm.trans hid) x (hpauses ▸ hx)

/-- While playing by itself is on, a pause that stands does so until a look finds its
wait at an end. -/
theorem Beat.persists (hP : Lasting P) (hs : Sound m) (hc : Cast m)
    (hwhole : ∀ t ∈ m.playback.tasks, t.aborted = false) (hon : m.playback.session.autoPlay = true)
    (hb : Beat m n) (h : Persists id P m) : Persists id P n ∨ Ends id P m n := by
  have hb' := hb
  have hother : ∀ {p : Playback} {task : Task} {job : Job} {jobs : List Job},
      Persists id P ⟨p, some task, job :: jobs⟩ → job.isLook = false → task.id ≠ id := by
    intro p task job jobs h hjob hid
    cases hjob.symm.trans (h.looking task rfl hid job List.mem_cons_self)
  have hfree : ∀ {p : Playback} {task : Task}, Sound ⟨p, some task, []⟩ → Persists id P ⟨p, some task, []⟩ →
      p.turn.isFree = true → task.id ≠ id := by
    intro p task hs h hfree hid
    have hnone : p.turn.pauses = [] := by simp_all [Turn.isFree]
    rcases h.holds with ⟨t, ht, hid', x, hx, -⟩ | ⟨other, -, -, x, hx, -⟩
    · rw [(hs.orderly.empty t ht (congrArg some (hid'.trans hid.symm))).1] at hx
      cases hx
    · rw [show (⟨p, some task, []⟩ : Machine).playback.turn.pauses = [] from hnone] at hx
      cases hx
  have haside : ∀ {p q : Playback} {task : Task} {jobs jobs' : List Job},
      Beat ⟨p, some task, jobs⟩ ⟨q, some task, jobs'⟩ → task.id ≠ id →
        Persists id P ⟨p, some task, jobs⟩ → Persists id P ⟨q, some task, jobs'⟩ := by
    intro p q task jobs jobs' hb hid h
    exact h.aside hb (by simp) (by simp) rfl fun other hrun ↦ Option.some.inj hrun ▸ hid
  cases hb with
  | take hq htask => exact .inl (h.take hs (Orderly.task?_eq htask).1)
  | @drop p other rest hq hgone =>
      rw [runTask_gone (p := p) hwhole hgone]
      exact .inl (Persists.resting (p := p) (List.append_nil _).symm nofun h)
  | @look p task pause jobs =>
      by_cases hid : task.id = id
      · exact h.look hP hs hc hon hid
      · exact .inl (haside hb' hid h)
  | walk hf => exact .inl (haside hb' (hfree hs h hf) h)
  | begin hf => exact .inl (haside hb' (hfree hs h hf) h)
  | finish => exact .inl (h.finish hs)
  | _ => exact .inl (haside hb' (hother h rfl) h)

end Machine

end Storyline
