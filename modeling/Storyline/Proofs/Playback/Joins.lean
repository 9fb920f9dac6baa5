import Storyline.Proofs.Playback.Sites
import Storyline.Proofs.Playback.Waiting

/-!
# Joins

After the parts of a block its task waits for the scope of the block.  From then on
nothing is entered in this scope any more, so its counts only fall; and the wait
stands until the count of its actions is zero, or until the task fails because the
clock cannot show when a voice is to be looked at.
-/

namespace Storyline

/-- The pause that waits for the actions of a block. -/
def Pause.Closes (s : Nat) (x : Pause) : Prop := x.wait = .drained s .actions true ∧ s ∈ x.scopes

theorem Wait.Becomes.drained {scope : Nat} {tally : Tally} {guarded : Bool} {w : Wait}
    (h : (Wait.drained scope tally guarded).Becomes w) : w = .drained scope tally guarded := by
  cases h
  rfl

theorem lasting_closes (s : Nat) : Lasting (Pause.Closes s) := by
  rintro q x ⟨hwait, -, hscopes⟩ ⟨hq, hs⟩
  exact ⟨(hq ▸ hwait).drained, hscopes ▸ hs⟩

namespace Machine

open Playback

/-- Nothing is to be performed in a scope other than by looks at pauses. -/
structure Shut (s : Nat) (p : Playback) (jobs : List Job) : Prop where
  past : s < p.session.serial
  tasks : ∀ t ∈ p.tasks, ∀ e ∈ t.agenda, e.room? ≠ some s
  agenda : ∀ e ∈ p.turn.agenda, e.room? ≠ some s
  jobs : ∀ job ∈ jobs, job.isLook = false → job.room? ≠ some s

/-- A task has the wait for the actions of a block before it, or it waits; or the
count of these actions is zero. -/
inductive Joining (s id : Nat) (m : Machine) : Prop
  | opens {task : Task} {before after : List Job} {scopes : List Nat} (hrun : m.running = some task)
    (hid : task.id = id) (hjobs : m.jobs = before ++ .close s scopes :: after) (hs : s ∈ scopes)
    (hshut : Shut s m.playback after)
  | joins (hshut : Shut s m.playback m.jobs)
    (hwaits : Keeps id (Pause.Closes s) m ∨ m.playback.session.pending s .actions = 0)
  | outOfTime (h : m.playback.session.OutOfTime)

section

variable {m n : Machine} {p q : Playback} {task : Task} {jobs jobs' : List Job} {s id : Nat}
  {room : Option Nat} {P : Pause → Prop}

namespace Shut

theorem works (h : Shut s p jobs) (hworks : Works room P p q)
    (hagenda : q.turn.agenda ⊆ p.turn.agenda) (hjobs : jobs' ⊆ jobs) : Shut s q jobs' where
  past := Nat.lt_of_lt_of_le h.past hworks.serial
  tasks := by
    obtain ⟨new, hnew, hadded⟩ := hworks.tasks
    intro t ht e he
    rcases List.mem_append.mp (hnew ▸ ht) with ht | ht
    · exact h.tasks t ht e he
    · simp [((hadded t ht).2.2 e he).apart]
  agenda := fun e he ↦ h.agenda e (hagenda he)
  jobs := fun job hjob ↦ h.jobs job (hjobs hjob)

theorem fork (h : Shut s p jobs) {scope : Nat} (hne : scope ≠ s) (parts : List Action) :
    Shut s (p.spawn (some scope) (walk scope false parts)) jobs where
  past := by
    rw [spawn_session]
    exact h.past
  tasks := by
    intro t ht
    unfold spawn at ht
    split at ht
    · exact h.tasks t ht
    · rcases List.mem_append.mp ht with ht | ht
      · exact h.tasks t ht
      · rw [List.mem_singleton.mp ht]
        intro e he
        obtain ⟨a, -, rfl⟩ := List.mem_map.mp he
        exact fun hroom ↦ hne (Option.some.inj hroom)
  agenda := by
    rw [spawn_turn]
    exact h.agenda
  jobs := h.jobs

end Shut

/-- A job is done, perhaps with others in its place, and nothing is entered in a scope
that is not its room. -/
theorem Beat.shut_job {job : Job} (hb : Beat ⟨p, some task, job :: jobs⟩ n) {after : List Job}
    (h : Shut s p after) :
    ∃ q new, n = ⟨q, some task, new ++ jobs⟩ ∧ Shut s q after ∧
      (∀ x ∈ new, x.room? ≠ some s) ∧
      (job.isLook = true ∨ job.room? ≠ some s →
        ∀ tally, q.session.pending s tally ≤ p.session.pending s tally) := by
  have hagenda := hb.agenda (by simp)
  have hsub := List.Subset.refl after
  cases hb with
  | @look p task pause jobs =>
      have hworks : Works none (fun _ ↦ True) p (p.revisit pause) :=
        works_revisit lasting_true trivial
      exact ⟨_, [], rfl, h.works hworks (hagenda (by simp)) hsub, by simp,
        fun _ ↦ hworks.ebbs.pending s (by simp)⟩
  | skip => exact ⟨_, [], rfl, h, by simp, fun _ tally ↦ Nat.le_refl _⟩
  | @cue p task cue scope scopes step jobs hover =>
      have hworks : Works (some scope) (fun _ ↦ True) p
          ((p.note (.cue cue) scope step).performCue cue scope scopes step) :=
        works_cue lasting_true cue step fun _ _ _ _ ↦ trivial
      exact ⟨_, [], rfl, h.works hworks (hagenda (by simp)) hsub, by simp,
        fun hroom ↦ hworks.ebbs.pending s (hroom.resolve_left (by simp [Job.isLook]))⟩
  | @close p task scope scopes jobs =>
      have hworks : Works (some scope) (fun _ ↦ True) p (p.performCue .waitForAll scope scopes none) :=
        works_performCue lasting_true .waitForAll none fun _ _ _ _ ↦ trivial
      exact ⟨_, [], rfl, h.works hworks (hagenda (by simp)) hsub, by simp,
        fun hroom ↦ hworks.ebbs.pending s (hroom.resolve_left (by simp [Job.isLook]))⟩
  | @block p task parts scope scopes step jobs hover =>
      have hworks : Works (some scope) (fun _ ↦ True) p
          ((p.note (.block parts) scope step).openWithin scope step) :=
        works_open _ scope step
      refine ⟨_, _, rfl, h.works hworks (hagenda (by simp)) hsub, fun x hx ↦ ?_,
        fun hroom ↦ hworks.ebbs.pending s (hroom.resolve_left (by simp [Job.isLook]))⟩
      rw [show x.room? = some p.session.serial from congrArg Site.room (site_blockJobs hx)]
      exact fun he ↦ Nat.ne_of_gt h.past (Option.some.inj he)
  | @fork p task parts scope scopes step jobs hover =>
      have hworks : Works (some scope) (fun _ ↦ True) p
          ((p.note (.fork parts) scope step).openWithin scope step) :=
        works_open _ scope step
      have hopened := h.works hworks (openWithin_agenda (p := p) _ _ _ ▸ List.Subset.refl _) hsub
      refine ⟨_, [], rfl, hopened.fork (Nat.ne_of_gt h.past) parts, by simp, fun hroom ↦ ?_⟩
      rw [spawn_session]
      exact hworks.ebbs.pending s (hroom.resolve_left (by simp [Job.isLook]))

theorem Beat.shut_cons {job : Job} (hb : Beat ⟨p, some task, job :: jobs⟩ n)
    (h : Shut s p (job :: jobs)) :
    Shut s n.playback n.jobs ∧
      ∀ tally, n.playback.session.pending s tally ≤ p.session.pending s tally := by
  have hrest : Shut s p jobs := { h with jobs := fun x hx ↦ h.jobs x (List.mem_cons_of_mem _ hx) }
  obtain ⟨q, new, rfl, hshut, hnew, hpending⟩ := hb.shut_job hrest
  refine ⟨{ hshut with jobs := fun x hx hlook ↦ ?_ }, hpending ?_⟩
  · exact (List.mem_append.mp hx).elim (hnew x) fun hx ↦ hshut.jobs x hx hlook
  · cases hlook : job.isLook with
    | true => exact .inl rfl
    | false => exact .inr (h.jobs job List.mem_cons_self hlook)

/-- What is shut stays shut, and its counts do not grow. -/
theorem Beat.shut (hs : Sound m) (hwhole : ∀ t ∈ m.playback.tasks, t.aborted = false) (hb : Beat m n)
    (h : Shut s m.playback m.jobs) :
    Shut s n.playback n.jobs ∧
      ∀ tally, n.playback.session.pending s tally ≤ m.playback.session.pending s tally := by
  have hb' := hb
  cases hb with
  | @take p _ rest task hq htask =>
      refine ⟨⟨h.past, fun t ht ↦ ?_, h.tasks task (Orderly.task?_eq htask).1, ?_⟩,
        fun _ ↦ Nat.le_refl _⟩
      · rcases mem_modifyTask ht with ⟨old, -, -, rfl⟩ | ⟨hold, -⟩
        · simp
        · exact h.tasks t hold
      · intro job hjob hlook
        obtain ⟨x, -, rfl⟩ := List.mem_map.mp hjob
        cases hlook
  | @drop p _ rest hq hgone =>
      rw [runTask_gone (p := p) hwhole hgone]
      exact ⟨⟨h.past, h.tasks, h.agenda, h.jobs⟩, fun _ ↦ Nat.le_refl _⟩
  | @finish p task hheld =>
      obtain ⟨taps, hend⟩ := (endTurn_session (p := p) task).1
      have hpending : ∀ tally, (p.endTurn task).session.pending s tally = p.session.pending s tally := by
        intro tally
        rw [hend]
        rfl
      refine ⟨⟨?_, fun t ht ↦ ?_, ?_, by simp [resting]⟩, fun tally ↦ Nat.le_of_eq (hpending tally)⟩
      · exact (congrArg Session.serial hend).symm ▸ h.past
      · rcases mem_endTurn ht with ⟨hold, -⟩ | ⟨-, hagenda, -⟩
        · exact h.tasks t hold
        · exact hagenda ▸ h.agenda
      · have hturn : (p.endTurn task).turn = .none := (hb'.sound hs).orderly.idle rfl
        simp [resting, hturn, Turn.none]
  | @walk p task action scope step rest hfree hagenda =>
      have hfirst := h.agenda (.perform action scope step) (hagenda ▸ List.mem_cons_self)
      refine ⟨{ h with agenda := ?_, jobs := ?_ }, fun _ ↦ Nat.le_refl _⟩
      · exact fun e he ↦ h.agenda e (hb'.agenda (by simp) (by simp) he)
      · intro job hjob _
        rwa [List.mem_singleton.mp hjob]
  | @begin p task errand rest hfree hagenda hother =>
      have hworks : Works none (fun _ ↦ True) p
          ((p.updateTurn fun t ↦ { t with agenda := rest }).begin errand) :=
        works_errand lasting_true rest hother fun _ _ ↦ trivial
      exact ⟨h.works hworks (hb'.agenda (by simp) (by simp)) (List.Subset.refl _),
        hworks.ebbs.pending s (by simp)⟩
  | _ => exact hb'.shut_cons h

/-! ## The wait for the parts -/

/-- At the end of a block its task waits for the actions of the scope, if there are any. -/
theorem close_waits (hgoes : p.session.cancelled = false) (hf : p.turn.failed = false) (scopes : List Nat) :
    ⟨.drained s .actions true, .nothing, scopes⟩ ∈
        (p.performCue .waitForAll s scopes none).turn.pauses ∨
      (p.performCue .waitForAll s scopes none).session.pending s .actions = 0 := by
  obtain ⟨q, hq⟩ : ∃ q, q = (p.enter s false).release (p.session.ticket s false) := ⟨_, rfl⟩
  have hcancelled : q.session.cancelled = false :=
    (Session.cancelled_eq (hq ▸ (settings_release _).trans (settings_enter _ _))).trans hgoes
  have hperform : p.performCue .waitForAll s scopes none =
      q.suspend (.drained s .actions true) .nothing scopes := by
    unfold performCue
    rw [if_neg (by simp [isOver, hgoes, hf]), hq]
    rfl
  rw [hperform, suspend_drained hcancelled]
  split
  next hzero => exact .inr hzero
  next => exact .inl (List.mem_append_right _ (List.mem_singleton.mpr rfl))

/-- The count for whose end a block waits is zero when a look finds the wait at its end. -/
theorem Ends.pending_eq_zero (hgoes : m.playback.session.cancelled = false)
    (h : Ends id (Pause.Closes s) m n) : m.playback.session.pending s .actions = 0 := by
  obtain @⟨p, q, task, pause, jobs, ran, -, ⟨hwait, -⟩, -, hlook⟩ := h
  rw [hwait] at hlook
  simp only [look, lookAtCount] at hlook
  rw [if_neg (by simpa [aside, updateTurn] using hgoes)] at hlook
  split at hlook
  next hzero => exact hzero
  next => cases (Prod.mk.inj hlook).2

/-- A task that has the end of a block before it comes to it. -/
theorem Beat.joining_opens (hc : Cast m) (hgoes : m.playback.session.cancelled = false) (hb : Beat m n)
    {before after : List Job} {scopes : List Nat} (hrun : m.running = some task)
    (hjobs : m.jobs = before ++ .close s scopes :: after) (hs : s ∈ scopes)
    (hshut : Shut s m.playback after) : Joining s task.id n := by
  obtain ⟨p, running, jobs⟩ := m
  obtain rfl : running = some task := hrun
  obtain rfl : jobs = before ++ .close s scopes :: after := hjobs
  cases before with
  | cons job rest =>
      obtain ⟨q, new, rfl, hshut, -⟩ := hb.shut_job hshut
      exact .opens rfl rfl (List.append_assoc new rest _).symm hs hshut
  | nil =>
      have hcasting := hc.running (by simp)
      have hplays := (hcasting.plays rfl).1
      have hb' := hb
      cases hb with
      | close =>
          by_cases hf : p.turn.failed = true
          · exact .outOfTime (hb'.outOfTime (hplays.failed hf))
          have hworks : Works (some s) (fun _ ↦ True) p (p.performCue .waitForAll s scopes none) :=
            works_performCue lasting_true .waitForAll none fun _ _ _ _ ↦ trivial
          refine .joins (hshut.works hworks (hb'.agenda (by simp) (by simp)) (List.Subset.refl _)) ?_
          refine (close_waits hgoes (by simpa using hf) scopes).imp_left fun hx ↦ ?_
          exact .turns rfl rfl (hb'.plays (by simp) (by simp) hcasting.awaits hplays) hx ⟨rfl, hs⟩

theorem Beat.joining (hs : Sound m) (hc : Cast m) (hwhole : ∀ t ∈ m.playback.tasks, t.aborted = false)
    (hgoes : m.playback.session.cancelled = false) (hb : Beat m n) (h : Joining s id m) :
    Joining s id n := by
  cases h with
  | opens hrun hid hjobs hmem hshut => exact hid ▸ hb.joining_opens hc hgoes hrun hjobs hmem hshut
  | outOfTime h => exact .outOfTime (hb.outOfTime h)
  | joins hshut hwaits =>
      obtain ⟨hshut', hpending⟩ := hb.shut hs hwhole hshut
      have hzero : m.playback.session.pending s .actions = 0 →
          n.playback.session.pending s .actions = 0 := fun h ↦ Nat.le_zero.mp (h ▸ hpending .actions)
      refine .joins hshut' ?_
      rcases hwaits with hkeeps | hnone
      · exact (hb.keeps (lasting_closes s) hs hc hwhole hkeeps).imp_right fun hends ↦
          hzero (hends.pending_eq_zero hgoes)
      · exact .inr (hzero hnone)

/-! ## Between turns -/

/-- Between turns the scopes stay as they are, and tasks may be added that perform actions
in the root only. -/
structure Adjoins (p q : Playback) : Prop where
  rooms : q.session.rooms = p.session.rooms
  serial : p.session.serial ≤ q.session.serial
  now : p.session.now ≤ q.session.now
  agenda : q.turn.agenda = p.turn.agenda
  tasks : ∃ new, q.tasks = p.tasks ++ new ∧ ∀ t ∈ new, ∀ e ∈ t.agenda,
    e.room? = none ∨ e.room? = some Player.root
  outcomes : p.outcomes ⊆ q.outcomes
  outOfTime : p.session.OutOfTime → q.session.OutOfTime

theorem Adjoins.of_stirs (h : p.Stirs q) (hrooms : q.session.rooms = p.session.rooms) : Adjoins p q where
  rooms := hrooms
  serial := h.serial
  now := Nat.le_of_eq h.now.symm
  agenda := h.agenda
  tasks := ⟨[], by rw [h.tasks, List.append_nil], by simp⟩
  outcomes := h.outcomes ▸ List.Subset.refl _
  outOfTime := by
    unfold Session.OutOfTime
    rw [h.config, h.now]
    exact fun h ↦ h

/-- The clock is moved between turns. -/
theorem Adjoins.of_later {time : Nat} (hle : p.session.now ≤ time)
    (hsession : q.session = { p.session with now := time }) (htasks : q.tasks = p.tasks)
    (hturn : q.turn = p.turn) (houtcomes : q.outcomes = p.outcomes) : Adjoins p q where
  rooms := (congrArg Session.rooms hsession).trans rfl
  serial := Nat.le_of_eq ((congrArg Session.serial hsession).trans rfl).symm
  now := Nat.le_trans hle (Nat.le_of_eq ((congrArg Session.now hsession).trans rfl).symm)
  agenda := congrArg Turn.agenda hturn
  tasks := ⟨[], by rw [htasks, List.append_nil], by simp⟩
  outcomes := houtcomes ▸ List.Subset.refl _
  outOfTime := fun h ↦ by
    rw [hsession]
    exact outOfTime_later h hle

theorem Adjoins.pending (h : Adjoins p q) (tally : Tally) :
    q.session.pending s tally = p.session.pending s tally := by
  simp only [Session.pending, Session.scope?, (Prod.mk.inj h.rooms).1]

theorem Shut.resting (hinner : Player.root < s) (h : Shut s p []) (ha : Adjoins p q) : Shut s q [] where
  past := Nat.lt_of_lt_of_le h.past ha.serial
  tasks := by
    obtain ⟨new, hnew, hadded⟩ := ha.tasks
    intro t ht e he
    rcases List.mem_append.mp (hnew ▸ ht) with ht | ht
    · exact h.tasks t ht e he
    · rcases hadded t ht e he with hroom | hroom <;> rw [hroom]
      · simp
      · exact fun he ↦ Nat.ne_of_lt hinner (Option.some.inj he)
  agenda := ha.agenda ▸ h.agenda
  jobs := by simp

theorem Joining.resting (hinner : Player.root < s) (h : Joining s id (resting p)) (ha : Adjoins p q) :
    Joining s id (resting q) := by
  cases h with
  | opens hrun => cases hrun
  | outOfTime h => exact .outOfTime (ha.outOfTime h)
  | joins hshut hwaits =>
      obtain ⟨new, hnew, -⟩ := ha.tasks
      refine .joins (hshut.resting hinner ha) (hwaits.imp (fun hkeeps ↦ ?_) fun hzero ↦ ?_)
      · exact hkeeps.resting (hnew ▸ List.subset_append_left _ _) ha.outcomes ha.outOfTime
      · exact (ha.pending .actions).trans hzero

/-! ## Blocks -/

/-- A beat in which a task takes up a block within some scopes.  The scope of the block
takes the next number. -/
structure Blocks (l n : Machine) (task : Task) (outer : List Nat) : Prop where
  beat : Beat l n
  running : l.running = some task
  goes : l.playback.isOver = false
  job : ∃ parts scope step, l.jobs.head? = some (.perform (.block parts) scope outer step)

/-- A task is still performing a block: it has a job or a pause that keeps the scope of
the block in use. -/
def Performs (id s : Nat) (m : Machine) : Prop :=
  Holds id (fun x ↦ s ∈ x.scopes) m ∨
    ∃ task, m.running = some task ∧ task.id = id ∧ ∃ job ∈ m.jobs, s ∈ job.scopes

/-- When a block is not performed any more, its scope is shut and no action in it counts. -/
theorem Joining.spent (h : Joining s id m) (htime : ¬m.playback.session.OutOfTime)
    (hnot : ¬Performs id s m) :
    Shut s m.playback m.jobs ∧ m.playback.session.pending s .actions = 0 := by
  cases h with
  | outOfTime h => exact absurd h htime
  | @opens task before after scopes hrun hid hjobs hs =>
      have hclose : .close s scopes ∈ m.jobs := hjobs ▸ List.mem_append_right _ List.mem_cons_self
      exact absurd (.inr ⟨task, hrun, hid, _, hclose, hs⟩) hnot
  | joins hshut hwaits =>
      refine ⟨hshut, hwaits.resolve_left fun hkeeps ↦ ?_⟩
      rcases hkeeps.cases with hholds | hfallen
      · refine hnot (.inl (hholds.imp ?_ ?_))
        · exact fun ⟨t, ht, hid, x, hx, hcloses⟩ ↦ ⟨t, ht, hid, x, hx, hcloses.2⟩
        · exact fun ⟨task, hrun, hid, x, hx, hcloses⟩ ↦ ⟨task, hrun, hid, x, hx, hcloses.2⟩
      · exact htime hfallen.2

variable {l : Machine} {outer : List Nat}

theorem Blocks.cases (h : Blocks l n task outer) :
    ∃ p parts scope step jobs, p.isOver = false ∧
      l = ⟨p, some task, .perform (.block parts) scope outer step :: jobs⟩ ∧
      n = ⟨(p.note (.block parts) scope step).openWithin scope step, some task,
        blockJobs parts p.session.serial (p.session.serial :: outer) ++ jobs⟩ := by
  obtain ⟨hb, hrun, hgoes, parts, scope, step, hjob⟩ := h
  obtain ⟨p, running, jobs⟩ := l
  obtain rfl : running = some task := hrun
  obtain ⟨jobs, rfl⟩ := List.head?_eq_some_iff.mp hjob
  cases hb with
  | skip hover => cases hgoes.symm.trans hover
  | block => exact ⟨p, parts, scope, step, jobs, hgoes, rfl, rfl⟩

/-- The scopes around a block have been numbered before. -/
theorem Blocks.outer_lt (h : Blocks l n task outer) (hl : Housed l) :
    ∀ j ∈ outer, j < l.playback.session.serial := by
  obtain ⟨p, parts, scope, step, jobs, -, rfl, -⟩ := h.cases
  have hhere : Occupies task.id task.scope ⟨some scope, outer⟩ _ :=
    .turns (m := ⟨p, some task, .perform (.block parts) scope outer step :: jobs⟩) rfl rfl rfl
      (mem_sites_job (.perform (.block parts) scope outer step) (by simp))
  have hhome : task.scope ≠ none := by
    intro hnone
    rw [hnone] at hhere
    cases hl.idle _ _ hhere
  exact fun j hj ↦ hl.below task.id j ⟨task.scope, _, hhome, hhere, hj⟩

/-- The task of a block has the wait for its parts before it. -/
theorem Blocks.joining (h : Blocks l n task outer) (hl : Housed l) :
    Joining l.playback.session.serial task.id n := by
  obtain ⟨p, parts, scope, step, jobs, -, rfl, rfl⟩ := h.cases
  have hworks : Works (some scope) (fun _ ↦ True) p
      ((p.note (.block parts) scope step).openWithin scope step) := works_open _ scope step
  have hturn : ∀ site ∈ sites ⟨p, some task, .perform (.block parts) scope outer step :: jobs⟩,
      site.room ≠ some p.session.serial := by
    intro site hsite hroom
    exact Nat.lt_irrefl _ (hl.room_lt (.turns rfl rfl rfl hsite) hroom)
  have hjobs : blockJobs parts p.session.serial (p.session.serial :: outer) ++ jobs =
      (parts.map fun part ↦ .perform part p.session.serial (p.session.serial :: outer) none) ++
        .close p.session.serial (p.session.serial :: outer) :: jobs := by
    simp only [blockJobs, List.append_assoc, List.singleton_append]
  refine .opens rfl rfl hjobs List.mem_cons_self ⟨?_, ?_, ?_, ?_⟩
  · have hserial := serial_openWithin (p := p.note (.block parts) scope step) scope step
    rwa [note_session] at hserial
  · obtain ⟨new, hnew, hadded⟩ := hworks.tasks
    intro t ht e he hroom
    rcases List.mem_append.mp (hnew ▸ ht) with ht | ht
    · have hsite : e.site ∈ t.sites := List.mem_append_left _ (List.mem_map_of_mem he)
      exact Nat.lt_irrefl _ (hl.room_lt (.waits ht rfl rfl hsite) hroom)
    · simp [((hadded t ht).2.2 e he).apart] at hroom
  · intro e he
    rw [openWithin_agenda] at he
    exact hturn _ (mem_sites_errand he)
  · exact fun job hjob _ ↦ hturn _ (mem_sites_job job (List.mem_cons_of_mem _ hjob))

theorem scope_openWithin (scope : Nat) (step : Option Nat) :
    Scope.fresh p.session.serial (some scope) ∈ (p.openWithin scope step).session.scopes := by
  obtain ⟨q, hq⟩ : ∃ q, q = ((p.announce step).enter scope false).release
      ((p.announce step).session.ticket scope false) := ⟨_, rfl⟩
  have hserial : q.session.serial = p.session.serial := by
    have hreleased := congrArg Account.serial (mute_release ((p.announce step).enter scope false)
      ((p.announce step).session.ticket scope false)).same.account
    rw [hq, ← serial_announce (p := p) step, ← serial_enter (p := p.announce step) scope false]
    exact hreleased
  have hopened : (p.openWithin scope step).session.scopes =
      q.session.scopes ++ [Scope.fresh q.session.serial (some scope)] := by
    rw [hq]
    rfl
  rw [hopened, hserial]
  exact List.mem_append_right _ List.mem_cons_self

/-- The scope of a block has not been reset when it is opened. -/
theorem Blocks.epoch (h : Blocks l n task outer) (hs : Sound l) :
    n.playback.session.epoch? l.playback.session.serial = some 0 := by
  have hnumbered := (h.beat.sound hs).orderly.numbered
  obtain ⟨p, parts, scope, step, jobs, -, rfl, rfl⟩ := h.cases
  have hscope := scope_openWithin (p := p.note (.block parts) scope step) scope step
  rw [note_session] at hscope
  have hfound := Session.scope?_eq hnumbered hscope
  exact congrArg (Option.map fun sc : Scope ↦ sc.actions.epoch) hfound

end

end Machine

end Storyline
