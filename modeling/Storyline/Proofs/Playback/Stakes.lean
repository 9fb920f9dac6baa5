import Storyline.Proofs.Playback.Custody

/-!
# Stakes

Whatever is under way has a stake in scopes: it needs some, to work in or for its ticket,
and keeps some in use.  What it needs it keeps in use, and from one moment of a run to the
next nothing comes into use but what was in use before and what has just been opened.
-/

namespace Storyline

/-- The scopes that something works in or holds a ticket of, and those that it keeps in use. -/
structure Stake where
  needs : List Nat
  keeps : List Nat

/-- Nothing that is needed can go out of use. -/
def Stake.Covered (k : Stake) : Prop := k.needs ⊆ k.keeps

def Pause.stake (x : Pause) : Stake :=
  ⟨x.wait.room?.toList ++ x.ending.ticket?.toList.map Ticket.scope, x.scopes⟩

def Errand.stake (e : Errand) : Stake :=
  ⟨e.room?.toList ++ e.ending.ticket?.toList.map Ticket.scope, e.scopes⟩

def Job.stake : Job → Stake
  | look pause => pause.stake
  | perform _ scope scopes _ | close scope scopes => ⟨[scope], scopes⟩

/-- A task needs the scope that it works in as long as it lives. -/
def Task.base (t : Task) : Stake := ⟨t.scope.toList, t.scope.toList⟩

def Task.stakes (t : Task) : List Stake :=
  t.base :: (t.agenda.map Errand.stake ++ t.pauses.map Pause.stake)

theorem Task.mem_stakes {t : Task} {k : Stake} : k ∈ t.stakes ↔
    k = t.base ∨ (∃ e ∈ t.agenda, e.stake = k) ∨ ∃ x ∈ t.pauses, x.stake = k := by
  simp only [stakes, List.mem_cons, List.mem_append, List.mem_map]

/-- A task keeps in use what all its stakes do. -/
theorem Task.stakes_keeps (t : Task) : t.stakes.flatMap Stake.keeps = t.scopes := by
  simp [stakes, scopes, base, List.flatMap_map, Errand.stake, Pause.stake]

theorem Pause.Becomes.stake {q x : Pause} (h : q.Becomes x) : x.stake = q.stake := by
  simp only [Pause.stake, h.wait.room, h.ending, h.scopes]

theorem lasting_stake (P : Stake → Prop) : Lasting fun x ↦ P x.stake := by
  intro q x hx h
  rwa [hx.stake]

/-- A pause in a room that keeps the room in use. -/
theorem Pause.covered {wait : Wait} {ending : Ending} {scopes : List Nat} {scope : Nat}
    (hscope : scope ∈ scopes) (hwait : wait.room? = none ∨ wait.room? = some scope)
    (hending : ∀ t, ending.ticket? = some t → t.scope = scope) :
    (Pause.stake ⟨wait, ending, scopes⟩).Covered := by
  intro i hi
  rcases List.mem_append.mp hi with hi | hi
  · rcases hwait with hnone | hsome
    · simp [hnone] at hi
    · obtain rfl : i = scope := by simpa [hsome, eq_comm] using hi
      exact hscope
  · obtain ⟨t, ht, rfl⟩ := List.mem_map.mp hi
    rwa [hending t (by simpa using ht)]

/-- The pause that a covered errand leaves behind. -/
theorem Errand.Covered.pause {e : Errand} {wait : Wait} (h : e.stake.Covered)
    (hwait : wait.room? = none ∨ wait.room? = e.room?) :
    (Pause.stake ⟨wait, e.ending, e.scopes⟩).Covered := by
  intro i hi
  rcases List.mem_append.mp hi with hi | hi
  · rcases hwait with hnone | hsame
    · simp [hnone] at hi
    · exact h (List.mem_append_left _ (hsame ▸ hi))
  · exact h (List.mem_append_right _ hi)

/-- An errand that has quarters needs nothing but for its ticket. -/
theorem Playback.Quarters.covered {room : Option Nat} {e : Errand} (h : Quarters room e) :
    e.stake.Covered := by
  intro i hi
  rcases List.mem_append.mp hi with hi | hi
  · simp [h.apart] at hi
  · obtain ⟨t, ht, rfl⟩ := List.mem_map.mp hi
    exact h.ticket t (by simpa using ht)

namespace Machine

open Playback

/-- All that is under way. -/
def stakes (m : Machine) : List Stake :=
  m.playback.tasks.flatMap Task.stakes ++ m.playback.turn.agenda.map Errand.stake ++
    m.playback.turn.pauses.map Pause.stake ++ m.jobs.map Job.stake

/-- The scopes that are kept in use. -/
def uses (m : Machine) : List Nat := m.stakes.flatMap Stake.keeps

/-- A covered stake that keeps in use only what was in use, and scopes that have been opened. -/
structure Backs (m : Machine) (opened : List Nat) (k : Stake) : Prop where
  covered : k.Covered
  keeps : ∀ i ∈ k.keeps, i ∈ opened ∨ i ∈ m.uses

/-- What is under way next is backed, but for a scope that is opened meanwhile. -/
def Secures (m n : Machine) : Prop :=
  ∃ opened, (∀ k ∈ n.stakes, m.Backs opened k) ∧ ∀ i ∈ opened,
    i = m.playback.session.serial ∧ i ∈ n.playback.session.scopes.map Scope.id

variable {m n : Machine} {p q : Playback} {task : Task} {opened : List Nat} {k : Stake} {job : Job}
  {e : Errand} {x : Pause}

theorem mem_stakes : k ∈ m.stakes ↔ (∃ t ∈ m.playback.tasks, k ∈ t.stakes) ∨
    (∃ e ∈ m.playback.turn.agenda, e.stake = k) ∨ (∃ x ∈ m.playback.turn.pauses, x.stake = k) ∨
      ∃ job ∈ m.jobs, job.stake = k := by
  simp only [stakes, List.mem_append, List.mem_flatMap, List.mem_map, or_assoc]

theorem stake_task {t : Task} (ht : t ∈ m.playback.tasks) (hk : k ∈ t.stakes) : k ∈ m.stakes :=
  mem_stakes.mpr (.inl ⟨t, ht, hk⟩)

theorem stake_errand (he : e ∈ m.playback.turn.agenda) : e.stake ∈ m.stakes :=
  mem_stakes.mpr (.inr (.inl ⟨e, he, rfl⟩))

theorem stake_pause (hx : x ∈ m.playback.turn.pauses) : x.stake ∈ m.stakes :=
  mem_stakes.mpr (.inr (.inr (.inl ⟨x, hx, rfl⟩)))

theorem stake_job (job : Job) (hjob : job ∈ m.jobs) : job.stake ∈ m.stakes :=
  mem_stakes.mpr (.inr (.inr (.inr ⟨job, hjob, rfl⟩)))

theorem mem_uses (hk : k ∈ m.stakes) {i : Nat} (hi : i ∈ k.keeps) : i ∈ m.uses :=
  List.mem_flatMap.mpr ⟨k, hk, hi⟩

theorem backs_of_mem (hm : ∀ k ∈ m.stakes, k.Covered) (hk : k ∈ m.stakes) : m.Backs opened k :=
  ⟨hm k hk, fun _ hi ↦ .inr (mem_uses hk hi)⟩

theorem secures_of_subset (hm : ∀ k ∈ m.stakes, k.Covered) (h : n.stakes ⊆ m.stakes) : m.Secures n :=
  ⟨[], fun _ hk ↦ backs_of_mem hm (h hk), nofun⟩

theorem backs_jobs {jobs : List Job} (hm : ∀ k ∈ m.stakes, k.Covered) (h : jobs ⊆ m.jobs) :
    ∀ job ∈ jobs, m.Backs opened job.stake :=
  fun job hjob ↦ backs_of_mem hm (stake_job job (h hjob))

/-- Who holds a ticket needs its scope. -/
theorem exists_stake {t : Ticket} (ht : t ∈ m.playback.tickets) : ∃ k ∈ m.stakes, t.scope ∈ k.needs := by
  have herrand {e : Errand} (he : t ∈ e.tickets) : t.scope ∈ e.stake.needs := by
    cases e <;> simp_all [Errand.tickets, Errand.stake, Errand.ending]
  have hpause {x : Pause} (hx : t ∈ x.tickets) : t.scope ∈ x.stake.needs :=
    List.mem_append_right _ (List.mem_map_of_mem hx)
  simp only [tickets, Task.tickets, List.mem_append, List.mem_flatMap] at ht
  rcases ht with (⟨x, hx, htx⟩ | ⟨e, he, hte⟩) | ⟨task, htask, ⟨x, hx, htx⟩ | ⟨e, he, hte⟩⟩
  · exact ⟨_, stake_pause hx, hpause htx⟩
  · exact ⟨_, stake_errand he, herrand hte⟩
  · exact ⟨_, stake_task htask (Task.mem_stakes.mpr (.inr (.inr ⟨x, hx, rfl⟩))), hpause htx⟩
  · exact ⟨_, stake_task htask (Task.mem_stakes.mpr (.inr (.inl ⟨e, he, rfl⟩))), herrand hte⟩

/-- A task that is added has a stake in its scope and those of its errands. -/
theorem mem_stakes_addTask {running : Option Task} {jobs : List Job} {owned asks : Bool}
    {scope : Option Nat} {agenda : List Errand}
    (hk : k ∈ stakes ⟨q.addTask owned asks scope agenda, running, jobs⟩) :
    k ∈ stakes ⟨q, running, jobs⟩ ∨ k = ⟨scope.toList, scope.toList⟩ ∨ ∃ e ∈ agenda, e.stake = k := by
  rcases mem_stakes.mp hk with ⟨t, ht, hk⟩ | hk
  · rcases List.mem_append.mp ht with ht | ht
    · exact .inl (stake_task ht hk)
    · rw [List.mem_singleton.mp ht, Task.mem_stakes] at hk
      exact .inr (hk.imp_right fun hk ↦ hk.resolve_right (by simp))
  · exact .inl (mem_stakes.mpr (.inr hk))

theorem mem_stakes_spawn {running : Option Task} {jobs : List Job} {scope : Option Nat}
    {agenda : List Errand} (hk : k ∈ stakes ⟨q.spawn scope agenda, running, jobs⟩) :
    k ∈ stakes ⟨q, running, jobs⟩ ∨ k = ⟨scope.toList, scope.toList⟩ ∨ ∃ e ∈ agenda, e.stake = k := by
  rw [spawn] at hk
  split at hk
  · exact .inl hk
  · exact mem_stakes_addTask hk

/-- What part of a turn leaves is backed if what it may leave is. -/
theorem backs_works (room : Option Nat) (hm : ∀ k ∈ m.stakes, k.Covered)
    (hw : Works room (fun x ↦ m.Backs opened x.stake) m.playback n.playback)
    (hroom : ∀ i, room = some i → i ∈ m.uses)
    (hagenda : n.playback.turn.agenda ⊆ m.playback.turn.agenda)
    (hjobs : ∀ job ∈ n.jobs, m.Backs opened job.stake) : ∀ k ∈ n.stakes, m.Backs opened k := by
  intro k hk
  obtain ⟨new, hnew, hadded⟩ := hw.tasks
  rcases mem_stakes.mp hk with ⟨t, ht, hk⟩ | ⟨e, he, rfl⟩ | ⟨x, hx, rfl⟩ | ⟨job, hjob, rfl⟩
  · rcases List.mem_append.mp (hnew ▸ ht) with ht | ht
    · exact backs_of_mem hm (stake_task ht hk)
    · obtain ⟨hscope, hpauses, hquarters⟩ := hadded t ht
      rw [Task.stakes, Task.base, hscope, hpauses, List.map_nil, List.append_nil] at hk
      rcases List.mem_cons.mp hk with rfl | hk
      · exact ⟨List.Subset.refl _, nofun⟩
      · obtain ⟨e, he, rfl⟩ := List.mem_map.mp hk
        have hq := hquarters e he
        exact ⟨hq.covered, fun i hi ↦ .inr (hroom i (hq.scopes i hi))⟩
  · exact backs_of_mem hm (stake_errand (hagenda he))
  · exact (hw.pauses x hx).elim (fun hx ↦ backs_of_mem hm (stake_pause hx)) fun hbacks ↦ hbacks
  · exact hjobs job hjob

/-- Part of a turn that opens no scope. -/
theorem secures_works (room : Option Nat) (hm : ∀ k ∈ m.stakes, k.Covered)
    (hw : Works room (fun x ↦ m.Backs [] x.stake) m.playback n.playback)
    (hroom : ∀ i, room = some i → i ∈ m.uses)
    (hagenda : n.playback.turn.agenda ⊆ m.playback.turn.agenda)
    (hjobs : ∀ job ∈ n.jobs, m.Backs [] job.stake) : m.Secures n :=
  ⟨[], backs_works room hm hw hroom hagenda hjobs, nofun⟩

/-- What a job in a scope leaves behind. -/
theorem backs_pause {wait : Wait} {ending : Ending} {scopes : List Nat} {scope : Nat}
    (hm : ∀ k ∈ m.stakes, k.Covered) (hk : ⟨[scope], scopes⟩ ∈ m.stakes)
    (hwait : wait.room? = none ∨ wait.room? = some scope)
    (hending : ∀ t, ending.ticket? = some t → t.scope = scope) :
    m.Backs opened (Pause.stake ⟨wait, ending, scopes⟩) :=
  ⟨Pause.covered (hm _ hk (List.mem_singleton.mpr rfl)) hwait hending, fun _ hi ↦ .inr (mem_uses hk hi)⟩

theorem uses_of_stake {scope : Nat} {scopes : List Nat} (hm : ∀ k ∈ m.stakes, k.Covered)
    (hk : ⟨[scope], scopes⟩ ∈ m.stakes) (i : Nat) (hi : some scope = some i) : i ∈ m.uses :=
  Option.some.inj hi ▸ mem_uses hk (hm _ hk (List.mem_singleton.mpr rfl))

/-! ## The beats -/

variable {scope : Nat} {scopes : List Nat} {step : Option Nat} {parts : List Action} {jobs : List Job}
  {rest : List Errand}

/-- Between turns nothing is under way but the tasks. -/
theorem mem_stakes_resting (hp : (resting p).Sound) (hk : k ∈ (resting p).stakes) :
    ∃ t ∈ p.tasks, k ∈ t.stakes := by
  have hnone : (resting p).playback.turn = .none := hp.orderly.idle rfl
  rw [mem_stakes, hnone] at hk
  simpa [Turn.none, resting] using hk

/-- The turn of a task begins with what the task has. -/
theorem secures_take {queue : List Nat} (hm : ∀ k ∈ stakes (resting p), k.Covered) (hmem : task ∈ p.tasks) :
    Secures (resting p)
      ⟨({ p with queue } : Playback).begun task, some task, task.pauses.map .look⟩ := by
  refine secures_of_subset hm fun k hk ↦ ?_
  have htask {k : Stake} (hk : k ∈ task.stakes) : k ∈ (resting p).stakes := stake_task hmem hk
  rcases mem_stakes.mp hk with ⟨t, ht, hk⟩ | ⟨e, he, rfl⟩ | ⟨x, hx, rfl⟩ | ⟨job, hjob, rfl⟩
  · rcases mem_modifyTask ht with ⟨old, hold, -, rfl⟩ | ⟨hold, -⟩
    · -- for the time of its turn only the scope is left to it
      obtain rfl : k = old.base := by simpa [Task.stakes, Task.base] using hk
      exact stake_task hold List.mem_cons_self
    · exact stake_task hold hk
  · exact htask (Task.mem_stakes.mpr (.inr (.inl ⟨e, he, rfl⟩)))
  · exact htask (Task.mem_stakes.mpr (.inr (.inr ⟨x, hx, rfl⟩)))
  · obtain ⟨x, hx, rfl⟩ := List.mem_map.mp hjob
    exact htask (Task.mem_stakes.mpr (.inr (.inr ⟨x, hx, rfl⟩)))

/-- A task that has been aborted is dropped with all its stakes. -/
theorem secures_drop {id : Nat} (hm : ∀ k ∈ stakes (resting p), k.Covered)
    (hsub : q.tasks ⊆ p.tasks) (hq : (resting (runTask id q)).Sound)
    (hgone : ∀ task, q.task? id = some task → task.aborted = true) :
    Secures (resting p) (resting (runTask id q)) := by
  refine secures_of_subset hm fun k hk ↦ ?_
  obtain ⟨t, ht, hk⟩ := mem_stakes_resting hq hk
  refine stake_task (hsub ?_) hk
  rw [runTask] at ht
  split at ht
  · exact ht
  next task htask =>
    rw [if_pos (hgone task htask)] at ht
    exact List.mem_of_mem_filter ht

/-- What is left of a turn at its end goes back to the task. -/
theorem secures_finish (hm : ∀ k ∈ stakes ⟨p, some task, []⟩, k.Covered)
    (hq : (resting (p.endTurn task)).Sound) : Secures ⟨p, some task, []⟩ (resting (p.endTurn task)) := by
  refine secures_of_subset hm fun k hk ↦ ?_
  obtain ⟨t, ht, hk⟩ := mem_stakes_resting hq hk
  rcases mem_endTurn ht with ⟨hold, -⟩ | ⟨-, hagenda, hpauses, -, -⟩
  · exact stake_task hold hk
  · obtain ⟨old, hold, -, -, -, hscope⟩ := endTurn_same ht
    rw [Task.mem_stakes, hagenda, hpauses] at hk
    rcases hk with rfl | ⟨e, he, rfl⟩ | ⟨x, hx, rfl⟩
    · have hbase : t.base = old.base := by rw [Task.base, hscope, Task.base]
      exact stake_task hold (hbase ▸ List.mem_cons_self)
    · exact stake_errand he
    · exact stake_pause hx

/-- The job of an action that opens a scope of its own, up to what the action does in it. -/
theorem backs_open {action : Action} {following : List Job}
    (hm : ∀ k ∈ stakes ⟨p, some task, .perform action scope scopes step :: jobs⟩, k.Covered)
    (hfollowing : ∀ job ∈ following,
      Backs ⟨p, some task, .perform action scope scopes step :: jobs⟩ [p.session.serial] job.stake) :
    (∀ k ∈ stakes ⟨(p.note action scope step).openWithin scope step, some task, following⟩,
      Backs ⟨p, some task, .perform action scope scopes step :: jobs⟩ [p.session.serial] k) ∧
    ∀ i ∈ [p.session.serial], i = p.session.serial ∧
      i ∈ ((p.note action scope step).openWithin scope step).session.scopes.map Scope.id := by
  have hmem : (Job.perform action scope scopes step).stake ∈
      stakes ⟨p, some task, .perform action scope scopes step :: jobs⟩ := stake_job _ List.mem_cons_self
  have hinner := serial_mem_openWithin (p := p.note action scope step) scope step
  rw [note_session] at hinner
  refine ⟨backs_works (some scope) hm (works_open action scope step) (uses_of_stake hm hmem) ?_ hfollowing,
    fun i hi ↦ ?_⟩
  · exact openWithin_agenda (p := p) action scope step ▸ List.Subset.refl _
  · obtain rfl := List.mem_singleton.mp hi
    exact ⟨rfl, hinner⟩

/-- The parts of a block are performed in the scope of the block, which lives within the scopes
around it. -/
theorem secures_block
    (hm : ∀ k ∈ stakes ⟨p, some task, .perform (.block parts) scope scopes step :: jobs⟩, k.Covered) :
    Secures ⟨p, some task, .perform (.block parts) scope scopes step :: jobs⟩
      ⟨(p.note (.block parts) scope step).openWithin scope step, some task,
        blockJobs parts p.session.serial (p.session.serial :: scopes) ++ jobs⟩ := by
  refine ⟨[p.session.serial], backs_open hm fun job hjob ↦ ?_⟩
  rcases List.mem_append.mp hjob with hjob | hjob
  · have hstake : job.stake = ⟨[p.session.serial], p.session.serial :: scopes⟩ := by
      rcases List.mem_append.mp hjob with hjob | hjob
      · obtain ⟨part, -, rfl⟩ := List.mem_map.mp hjob
        rfl
      · rw [List.mem_singleton.mp hjob]
        rfl
    rw [hstake]
    refine ⟨by simp [Stake.Covered], fun i hi ↦ ?_⟩
    rcases List.mem_cons.mp hi with rfl | hi
    · exact .inl (List.mem_singleton.mpr rfl)
    · exact .inr (mem_uses (stake_job (.perform (.block parts) scope scopes step) List.mem_cons_self) hi)
  · exact backs_jobs hm (List.subset_cons_self _ _) job hjob

/-- The task of a fork works in a scope of its own and nowhere else. -/
theorem secures_fork
    (hm : ∀ k ∈ stakes ⟨p, some task, .perform (.fork parts) scope scopes step :: jobs⟩, k.Covered) :
    Secures ⟨p, some task, .perform (.fork parts) scope scopes step :: jobs⟩
      ⟨((p.note (.fork parts) scope step).openWithin scope step).spawn (some p.session.serial)
        (Playback.walk p.session.serial false parts), some task, jobs⟩ := by
  obtain ⟨hbacks, hopened⟩ := backs_open hm (backs_jobs hm (List.subset_cons_self _ _))
  have hfresh {k : Stake} (hk : k = ⟨[p.session.serial], [p.session.serial]⟩) :
      Backs ⟨p, some task, .perform (.fork parts) scope scopes step :: jobs⟩ [p.session.serial] k :=
    hk ▸ ⟨List.Subset.refl _, fun _ hi ↦ .inl hi⟩
  refine ⟨[p.session.serial], fun k hk ↦ ?_, by rwa [spawn_session]⟩
  rcases mem_stakes_spawn hk with hk | rfl | ⟨e, he, rfl⟩
  · exact hbacks k hk
  · exact hfresh rfl
  · obtain ⟨a, -, rfl⟩ := List.mem_map.mp he
    exact hfresh rfl

/-- **From one beat to the next** everything is covered, and what comes into use has just been
opened. -/
theorem Beat.secures (hs : Sound m) (hm : ∀ k ∈ m.stakes, k.Covered) (hb : Beat m n) : m.Secures n := by
  have hb' := hb
  cases hb with
  | take hq htask hwhole => exact secures_take hm (Orderly.task?_eq htask).1
  | drop hq hgone => exact secures_drop hm (List.Subset.refl _) (hb'.sound hs) hgone
  | @look p task pause jobs =>
    refine secures_works none hm ?_ nofun (hb'.agenda (by simp) (by simp))
      (backs_jobs hm (List.subset_cons_self _ _))
    exact works_revisit (lasting_stake _) (backs_of_mem hm (stake_job (.look pause) List.mem_cons_self))
  | @walk p task action scope step rest hfree hagenda =>
    refine secures_works none hm (works_setAgenda rest) nofun (hb'.agenda (by simp) (by simp))
      fun job hjob ↦ ?_
    rw [List.mem_singleton.mp hjob]
    exact backs_of_mem hm (stake_errand (e := .perform action scope step) (by simp [hagenda]))
  | @begin p task errand rest hfree hagenda hother =>
    have hmem : errand.stake ∈ stakes ⟨p, some task, []⟩ := stake_errand (by simp [hagenda])
    refine secures_works none hm ?_ nofun (hb'.agenda (by simp) (by simp)) nofun
    exact works_errand (lasting_stake _) rest hother fun wait hwait ↦
      ⟨Errand.Covered.pause (hm _ hmem) hwait, fun _ hi ↦ .inr (mem_uses hmem hi)⟩
  | skip =>
    exact secures_works none hm (.refl _) nofun (List.Subset.refl _)
      (backs_jobs hm (List.subset_cons_self _ _))
  | @cue p task cue scope scopes step jobs hover =>
    have hmem : (Job.perform (.cue cue) scope scopes step).stake ∈
        stakes ⟨p, some task, .perform (.cue cue) scope scopes step :: jobs⟩ :=
      stake_job _ List.mem_cons_self
    refine secures_works (some scope) hm ?_ (uses_of_stake hm hmem) (hb'.agenda (by simp) (by simp))
      (backs_jobs hm (List.subset_cons_self _ _))
    exact works_cue (lasting_stake _) cue step fun wait ending ↦ backs_pause hm hmem
  | @close p task scope scopes jobs =>
    have hmem : (Job.close scope scopes).stake ∈ stakes ⟨p, some task, .close scope scopes :: jobs⟩ :=
      stake_job _ List.mem_cons_self
    refine secures_works (some scope) hm ?_ (uses_of_stake hm hmem) (hb'.agenda (by simp) (by simp))
      (backs_jobs hm (List.subset_cons_self _ _))
    exact works_performCue (lasting_stake _) .waitForAll none fun wait ending ↦ backs_pause hm hmem
  | block => exact secures_block hm
  | fork => exact secures_fork hm
  | finish hheld => exact secures_finish hm (hb'.sound hs)

end Machine

end Storyline
