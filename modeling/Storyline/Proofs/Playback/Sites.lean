import Storyline.Proofs.Playback.Billing
import Storyline.Proofs.Playback.Rooms

/-!
# Sites

What a task performs and waits for takes place on a site: in a room, with the scopes
around it that the task has opened.  A room is inmost among the scopes of its site,
and no two tasks that perform actions share a scope.
-/

namespace Storyline

/-- The scope in which something is performed or whose count is waited for, if there
is one, and the scopes that it keeps in use. -/
structure Site where
  room : Option Nat
  scopes : List Nat

namespace Site

/-- A site with the same scopes, in the same room or in none. -/
structure Within (a b : Site) : Prop where
  room : a.room = none ∨ a.room = b.room
  scopes : a.scopes = b.scopes

variable {a b c : Site}

theorem Within.refl (a : Site) : a.Within a := ⟨.inr rfl, rfl⟩

end Site

def Pause.site (x : Pause) : Site := ⟨x.wait.room?, x.scopes⟩

def Errand.site (e : Errand) : Site := ⟨e.room?, e.scopes⟩

def Job.site (job : Job) : Site := ⟨job.room?, job.scopes⟩

def Task.sites (t : Task) : List Site := t.agenda.map Errand.site ++ t.pauses.map Pause.site

theorem lasting_within (site : Site) : Lasting fun x ↦ x.site.Within site := by
  intro q x hx h
  have hsame : x.site = q.site := by simp only [Pause.site, hx.wait.room, hx.scopes]
  rwa [hsame]

namespace Machine

open Playback

/-- The sites of the turn. -/
def sites (m : Machine) : List Site :=
  m.playback.turn.agenda.map Errand.site ++ m.playback.turn.pauses.map Pause.site ++
    m.jobs.map Job.site

/-- A task that works in a scope, its home, has something on a site. -/
inductive Occupies (id : Nat) (home : Option Nat) (site : Site) (m : Machine) : Prop
  | waits {t : Task} (ht : t ∈ m.playback.tasks) (hid : t.id = id) (hhome : t.scope = home)
    (h : site ∈ t.sites)
  | turns {task : Task} (hrun : m.running = some task) (hid : task.id = id)
    (hhome : task.scope = home) (h : site ∈ m.sites)

/-- A task that performs actions has a scope in use. -/
def Uses (id i : Nat) (m : Machine) : Prop :=
  ∃ home site, home ≠ none ∧ Occupies id home site m ∧ i ∈ site.scopes

/-- Tasks without a home are in no room, rooms are inmost, and the scopes in use have
been numbered and are each in use by one task. -/
structure Housed (m : Machine) : Prop where
  entry : ∀ task, m.running = some task → ∀ t ∈ m.playback.tasks, t.id = task.id → t.scope = task.scope
  idle : ∀ id site, Occupies id none site m → site.room = none
  inmost : ∀ id home site i, Occupies id (some home) site m → site.room = some i →
    i ∈ site.scopes ∧ ∀ j ∈ site.scopes, j ≤ i
  below : ∀ id i, Uses id i m → i < m.playback.session.serial
  apart : ∀ id id' i, Uses id i m → Uses id' i m → id = id'

variable {m n : Machine} {p q : Playback} {task : Task} {id s : Nat} {home : Option Nat} {site : Site}

/-- What is on a site of another machine is on such a site here, or it is in no room
and without a home. -/
def Stays (m : Machine) (id : Nat) (home : Option Nat) (site : Site) : Prop :=
  (home = none ∧ site.room = none) ∨ ∃ old, Occupies id home old m ∧ site.Within old

namespace Housed

theorem uses (hocc : Stays m id home site) (hhome : home ≠ none) {i : Nat} (hi : i ∈ site.scopes) :
    Uses id i m := by
  obtain ⟨old, hold, hwithin⟩ := hocc.resolve_left fun h ↦ hhome h.1
  exact ⟨home, old, hhome, hold, hwithin.scopes ▸ hi⟩

theorem room_lt (h : Housed m) (hocc : Occupies id home site m) {i : Nat} (hi : site.room = some i) :
    i < m.playback.session.serial := by
  cases home with
  | none =>
      rw [h.idle id site hocc] at hi
      cases hi
  | some home =>
      exact h.below id i ⟨some home, site, by simp, hocc, (h.inmost id home site i hocc hi).1⟩

/-- Nothing is opened. -/
theorem carry (h : Housed m)
    (hentry : ∀ task, n.running = some task → ∀ t ∈ n.playback.tasks, t.id = task.id → t.scope = task.scope)
    (hserial : m.playback.session.serial ≤ n.playback.session.serial)
    (hocc : ∀ id home site, Occupies id home site n → Stays m id home site) : Housed n := by
  have huses : ∀ id i, Uses id i n → Uses id i m :=
    fun id i ⟨home, site, hhome, hn, hi⟩ ↦ uses (hocc id home site hn) hhome hi
  constructor
  case entry => exact hentry
  case idle =>
    intro id site hn
    rcases hocc id none site hn with ⟨-, hroom⟩ | ⟨old, hold, hwithin⟩
    · exact hroom
    · exact hwithin.room.elim (fun he ↦ he) fun he ↦ he.trans (h.idle id old hold)
  case inmost =>
    intro id home site i hn hi
    obtain ⟨old, hold, hwithin⟩ := (hocc id (some home) site hn).resolve_left (by simp)
    rw [hwithin.scopes]
    exact h.inmost id home old i hold ((hwithin.room.resolve_left (by simp [hi])).symm.trans hi)
  case below => exact fun id i hn ↦ Nat.lt_of_lt_of_le (h.below id i (huses id i hn)) hserial
  case apart => exact fun id id' i hn hn' ↦ h.apart id id' i (huses id i hn) (huses id' i hn')

/-- A scope is opened by one task, within the scopes of one of its sites or within none. -/
theorem opens (h : Housed m)
    (hentry : ∀ task, n.running = some task → ∀ t ∈ n.playback.tasks, t.id = task.id → t.scope = task.scope)
    (hserial : m.playback.session.serial < n.playback.session.serial)
    (opener : Nat) (base : Option Nat) (outer : List Nat) (hbase : base ≠ none)
    (houter : ∀ j ∈ outer, Uses opener j m)
    (hocc : ∀ id home site, Occupies id home site n → Stays m id home site ∨
      id = opener ∧ home = base ∧
        site = ⟨some m.playback.session.serial, m.playback.session.serial :: outer⟩) : Housed n := by
  have huses : ∀ id i, Uses id i n → Uses id i m ∨ id = opener ∧ i = m.playback.session.serial := by
    rintro id i ⟨home, site, hhome, hn, hi⟩
    rcases hocc id home site hn with hold | ⟨rfl, -, rfl⟩
    · exact .inl (uses hold hhome hi)
    · exact (List.mem_cons.mp hi).symm.imp (houter i) fun he ↦ ⟨rfl, he⟩
  constructor
  case entry => exact hentry
  case idle =>
    intro id site hn
    rcases hocc id none site hn with (⟨-, hroom⟩ | ⟨old, hold, hwithin⟩) | ⟨-, he, -⟩
    · exact hroom
    · exact hwithin.room.elim (fun he ↦ he) fun he ↦ he.trans (h.idle id old hold)
    · exact absurd he.symm hbase
  case inmost =>
    intro id home site i hn hi
    rcases hocc id (some home) site hn with hstays | ⟨rfl, -, rfl⟩
    · obtain ⟨old, hold, hwithin⟩ := hstays.resolve_left (by simp)
      rw [hwithin.scopes]
      exact h.inmost id home old i hold ((hwithin.room.resolve_left (by simp [hi])).symm.trans hi)
    · obtain rfl := Option.some.inj hi
      refine ⟨List.mem_cons_self, fun j hj ↦ ?_⟩
      rcases List.mem_cons.mp hj with rfl | hj
      · exact Nat.le_refl _
      · exact Nat.le_of_lt (h.below _ j (houter j hj))
  case below =>
    intro id i hn
    rcases huses id i hn with hold | ⟨-, rfl⟩
    · exact Nat.lt_trans (h.below id i hold) hserial
    · exact hserial
  case apart =>
    intro id id' i hn hn'
    rcases huses id i hn with hold | ⟨rfl, rfl⟩ <;> rcases huses id' _ hn' with hold' | ⟨rfl, he⟩
    · exact h.apart id id' i hold hold'
    · exact absurd (h.below id i hold) (by omega)
    · exact absurd (h.below id' _ hold') (Nat.lt_irrefl _)
    · rfl

end Housed

/-! ## From one beat to the next -/

theorem stays_task {room : Option Nat} (h : m.playback.Lodges room q) {t : Task} (ht : t ∈ q.tasks) (hsite : site ∈ t.sites) :
    Stays m t.id t.scope site := by
  obtain ⟨new, hnew, hadded⟩ := h
  rcases List.mem_append.mp (hnew ▸ ht) with ht | ht
  · exact .inr ⟨site, .waits ht rfl rfl hsite, .refl site⟩
  · obtain ⟨hscope, hpauses, hagenda⟩ := hadded t ht
    rw [Task.sites, hpauses, List.map_nil, List.append_nil] at hsite
    obtain ⟨e, he, rfl⟩ := List.mem_map.mp hsite
    exact .inl ⟨hscope, (hagenda e he).apart⟩

theorem stays_turn {room : Option Nat} (htasks : m.playback.Lodges room n.playback) (hrun : n.running = m.running)
    (hsites : ∀ site ∈ n.sites, ∃ old ∈ m.sites, site.Within old) (hn : Occupies id home site n) :
    Stays m id home site := by
  cases hn with
  | waits ht hid hhome hsite => exact hid ▸ hhome ▸ stays_task htasks ht hsite
  | turns hrun' hid hhome hsite =>
      obtain ⟨old, hold, hwithin⟩ := hsites site hsite
      exact .inr ⟨old, .turns (hrun ▸ hrun') hid hhome hold, hwithin⟩

/-- The sites of a turn in which nothing is opened. -/
theorem sites_within (hagenda : n.playback.turn.agenda ⊆ m.playback.turn.agenda)
    (hpauses : ∀ x ∈ n.playback.turn.pauses,
      x ∈ m.playback.turn.pauses ∨ ∃ base ∈ m.sites, x.site.Within base)
    (hjobs : ∀ job ∈ n.jobs, job.site ∈ m.sites) : ∀ site ∈ n.sites, ∃ old ∈ m.sites, site.Within old := by
  intro site hsite
  have hold : ∀ {site}, site ∈ m.sites → ∃ old ∈ m.sites, site.Within old :=
    fun h ↦ ⟨_, h, .refl _⟩
  rcases List.mem_append.mp hsite with hsite | hsite
  · rcases List.mem_append.mp hsite with hsite | hsite
    · obtain ⟨e, he, rfl⟩ := List.mem_map.mp hsite
      exact hold (List.mem_append_left _ (List.mem_append_left _ (List.mem_map_of_mem (hagenda he))))
    · obtain ⟨x, hx, rfl⟩ := List.mem_map.mp hsite
      rcases hpauses x hx with hx | ⟨base, hbase, hwithin⟩
      · exact hold (List.mem_append_left _ (List.mem_append_right _ (List.mem_map_of_mem hx)))
      · exact ⟨base, hbase, hwithin⟩
  · obtain ⟨job, hjob, rfl⟩ := List.mem_map.mp hsite
    exact hold (hjobs job hjob)

theorem mem_sites_job (job : Job) (h : job ∈ m.jobs) : job.site ∈ m.sites :=
  List.mem_append_right _ (List.mem_map_of_mem h)

theorem mem_sites_errand {e : Errand} (h : e ∈ m.playback.turn.agenda) : e.site ∈ m.sites :=
  List.mem_append_left _ (List.mem_append_left _ (List.mem_map_of_mem h))

theorem Occupies.take {rest : List Nat} (htask : task ∈ p.tasks)
    (h : Occupies id home site
      ⟨({ p with queue := rest } : Playback).begun task, some task, task.pauses.map .look⟩) :
    Occupies id home site (resting p) := by
  cases h with
  | @waits t ht hid hhome hsite =>
      rcases mem_modifyTask ht with ⟨old, -, -, rfl⟩ | ⟨hold, -⟩
      · cases hsite
      · exact .waits hold hid hhome hsite
  | @turns other hrun hid hhome hsite =>
      obtain rfl := Option.some.inj hrun
      refine .waits htask hid hhome ?_
      rcases List.mem_append.mp hsite with hsite | hsite
      · exact hsite
      · obtain ⟨job, hjob, rfl⟩ := List.mem_map.mp hsite
        obtain ⟨x, hx, rfl⟩ := List.mem_map.mp hjob
        exact List.mem_append_right _ (List.mem_map_of_mem (f := Pause.site) hx)

theorem Occupies.finish
    (hentry : ∀ t ∈ p.tasks, t.id = task.id → t.scope = task.scope)
    (h : Occupies id home site (resting (p.endTurn task))) :
    Occupies id home site ⟨p, some task, []⟩ := by
  cases h with
  | @waits t ht hid hhome hsite =>
      rcases mem_endTurn ht with ⟨hold, -⟩ | ⟨hid', hagenda, hpauses, -, -⟩
      · exact .waits hold hid hhome hsite
      · obtain ⟨old, hold, hsame, -, -, hscope⟩ := endTurn_same ht
        have hhome' : task.scope = home :=
          (hentry old hold (hsame.symm.trans hid')).symm.trans (hscope.symm.trans hhome)
        refine .turns rfl (hid'.symm.trans hid) hhome' (List.mem_append_left _ ?_)
        rwa [Task.sites, hagenda, hpauses] at hsite
  | turns hrun => cases hrun

/-- The entry of the running task in the table keeps its home. -/
theorem Beat.entry (hs : Sound m) (hb : Beat m n)
    (h : ∀ task, m.running = some task → ∀ t ∈ m.playback.tasks, t.id = task.id → t.scope = task.scope) :
    ∀ task, n.running = some task → ∀ t ∈ n.playback.tasks, t.id = task.id → t.scope = task.scope := by
  have hb' := hb
  cases hb with
  | @take p _ rest task hq htask =>
      intro other hrun t ht hid
      obtain rfl := Option.some.inj hrun
      obtain ⟨old, hold, hid', -, -, hscope⟩ := modifyTask_same ht
      rw [hscope, List.inj_on_of_nodup_map hs.orderly.nodup_ids hold (Orderly.task?_eq htask).1
        (hid'.symm.trans hid)]
  | drop | finish => exact fun _ hrun ↦ by cases hrun
  | _ =>
      -- the entry was there before, and no other task has its number
      intro other hrun t ht hid
      obtain ⟨new, hnew, -⟩ := (hb'.extends (by simp) (by simp)).tasks
      obtain ⟨old, hold, hid'⟩ := List.mem_map.mp (hs.orderly.running_mem _ (congrArg _ hrun))
      obtain rfl := List.inj_on_of_nodup_map (hb'.sound hs).orderly.nodup_ids ht
        (hnew ▸ List.mem_append_left _ hold) (hid.trans hid'.symm)
      exact h other hrun t hold hid

/-- The parts of a block are in a new room, within the scopes of the block. -/
theorem site_blockJobs {parts : List Action} {scope : Nat} {scopes : List Nat} {job : Job}
    (h : job ∈ blockJobs parts scope scopes) : job.site = ⟨some scope, scopes⟩ := by
  rcases List.mem_append.mp h with h | h
  · obtain ⟨part, -, rfl⟩ := List.mem_map.mp h
    rfl
  · rw [List.mem_singleton.mp h]
    rfl

/-- Work on a site opens nothing. -/
theorem Housed.works {room : Option Nat} {base : Site} (h : Housed m)
    (hentry : ∀ task, n.running = some task → ∀ t ∈ n.playback.tasks, t.id = task.id → t.scope = task.scope)
    (hrun : n.running = m.running) (hagenda : n.playback.turn.agenda ⊆ m.playback.turn.agenda)
    (hworks : Works room (fun x ↦ x.site.Within base) m.playback n.playback) (hbase : base ∈ m.sites)
    (hjobs : ∀ job ∈ n.jobs, job.site ∈ m.sites) : Housed n := by
  refine h.carry hentry hworks.serial fun id home site ↦ stays_turn hworks.tasks hrun ?_
  exact sites_within hagenda (fun x hx ↦ (hworks.pauses x hx).imp_right fun hwithin ↦
    ⟨base, hbase, hwithin⟩) hjobs

theorem Housed.block {parts : List Action} {scope : Nat} {scopes : List Nat} {step : Option Nat}
    {jobs : List Job} (h : Housed ⟨p, some task, .perform (.block parts) scope scopes step :: jobs⟩)
    (hentry : ∀ t ∈ ((p.note (.block parts) scope step).openWithin scope step).tasks,
      t.id = task.id → t.scope = task.scope) :
    Housed ⟨(p.note (.block parts) scope step).openWithin scope step, some task,
      blockJobs parts p.session.serial (p.session.serial :: scopes) ++ jobs⟩ := by
  have hsame := note_session (p := p) (.block parts) scope step
  have hworks : Works (some scope) (fun _ ↦ False) p
      ((p.note (.block parts) scope step).openWithin scope step) :=
    works_open (.block parts) scope step
  let m : Machine := ⟨p, some task, .perform (.block parts) scope scopes step :: jobs⟩
  have hhere : Occupies task.id task.scope ⟨some scope, scopes⟩ m :=
    .turns rfl rfl rfl (mem_sites_job (.perform (.block parts) scope scopes step) (by simp [m]))
  have hhome : task.scope ≠ none := by
    intro hnone
    rw [hnone] at hhere
    cases h.idle _ _ hhere
  refine h.opens (fun _ hrun ↦ Option.some.inj hrun ▸ hentry) (hsame ▸ serial_openWithin scope step)
    task.id task.scope scopes hhome
    (fun j hj ↦ ⟨task.scope, _, hhome, hhere, hj⟩) fun id home site hn ↦ ?_
  have hwithin : ∀ job ∈ jobs, job.site ∈ m.sites :=
    fun job hjob ↦ mem_sites_job job (List.mem_cons_of_mem _ hjob)
  cases hn with
  | waits ht hid hhome hsite => exact .inl (hid ▸ hhome ▸ stays_task hworks.tasks ht hsite)
  | @turns other hrun hid hhome hsite =>
      obtain rfl := Option.some.inj hrun
      rcases List.mem_append.mp hsite with hsite | hsite
      · left
        have hturn := sites_within (m := m) (n := ⟨(p.note (.block parts) scope step).openWithin scope step,
            some task, []⟩) (openWithin_agenda (p := p) _ _ _ ▸ List.Subset.refl _)
          (fun x hx ↦ (hworks.pauses x hx).imp_right False.elim) (by simp)
        obtain ⟨old, hold, hwithin⟩ := hturn site (List.mem_append_left _ hsite)
        exact .inr ⟨old, .turns rfl hid hhome hold, hwithin⟩
      · obtain ⟨job, hjob, rfl⟩ := List.mem_map.mp hsite
        rcases List.mem_append.mp hjob with hjob | hjob
        · exact .inr ⟨hid.symm, hhome.symm, site_blockJobs hjob⟩
        · exact .inl (.inr ⟨_, .turns rfl hid hhome (hwithin job hjob), .refl _⟩)

theorem Housed.fork {parts : List Action} {scope : Nat} {scopes : List Nat} {step : Option Nat}
    {jobs : List Job} (h : Housed ⟨p, some task, .perform (.fork parts) scope scopes step :: jobs⟩)
    (hentry : ∀ t ∈ (((p.note (.fork parts) scope step).openWithin scope step).spawn
      (some p.session.serial) (walk p.session.serial false parts)).tasks,
      t.id = task.id → t.scope = task.scope) :
    Housed ⟨((p.note (.fork parts) scope step).openWithin scope step).spawn (some p.session.serial)
      (walk p.session.serial false parts), some task, jobs⟩ := by
  obtain ⟨q, hq⟩ : ∃ q, q = (p.note (.fork parts) scope step).openWithin scope step := ⟨_, rfl⟩
  have hworks : Works (some scope) (fun _ ↦ False) p q :=
    hq ▸ works_open (.fork parts) scope step
  have hserial : p.session.serial < q.session.serial :=
    hq ▸ note_session (p := p) (.fork parts) scope step ▸ serial_openWithin scope step
  have hagenda : q.turn.agenda = p.turn.agenda := hq ▸ openWithin_agenda _ _ _
  rw [← hq] at hentry ⊢
  refine h.opens (fun _ hrun ↦ Option.some.inj hrun ▸ hentry) (by rw [spawn_session]; exact hserial)
    q.spawned (some p.session.serial) [] (by simp) (by simp) fun id home site hn ↦ ?_
  cases hn with
  | @waits t ht hid hhome hsite =>
      have hspawn : t ∈ q.tasks ∨ t.id = q.spawned ∧ t.scope = some p.session.serial ∧
          t.pauses = [] ∧ t.agenda = walk p.session.serial false parts := by
        unfold spawn at ht
        split at ht
        · exact .inl ht
        · refine (List.mem_append.mp ht).imp_right fun ht ↦ ?_
          rw [List.mem_singleton.mp ht]
          exact ⟨rfl, rfl, rfl, rfl⟩
      rcases hspawn with ht | ⟨hnew, hscope, hpauses, hwalk⟩
      · exact .inl (hid ▸ hhome ▸ stays_task hworks.tasks ht hsite)
      · refine .inr ⟨hid ▸ hnew, hhome ▸ hscope, ?_⟩
        rw [Task.sites, hpauses, hwalk, List.map_nil, List.append_nil] at hsite
        obtain ⟨e, he, rfl⟩ := List.mem_map.mp hsite
        obtain ⟨a, -, rfl⟩ := List.mem_map.mp he
        rfl
  | @turns other hrun hid hhome hsite =>
      left
      refine stays_turn (n := ⟨q, some task, jobs⟩) hworks.tasks rfl ?_ (.turns hrun hid hhome ?_)
      · refine sites_within (m := ⟨p, _, _⟩) (hagenda ▸ List.Subset.refl _)
          (fun x hx ↦ (hworks.pauses x hx).imp_right False.elim) fun job hjob ↦ ?_
        exact mem_sites_job job (List.mem_cons_of_mem _ hjob)
      · simpa only [sites, spawn_turn] using hsite

/-- From one beat to the next the scopes are reset as often as sleeps are skipped. -/
theorem Beat.resets (hb : Beat m n) : m.playback.session.Resets n.playback.session := by
  have hopen : ∀ (p : Playback) (action : Action) (scope : Nat) (step : Option Nat),
      p.session.Resets ((p.note action scope step).openWithin scope step).session :=
    fun p action scope step ↦ (works_open (P := fun _ ↦ True) action scope step).ebbs.resets
  cases hb with
  | take | walk | skip => exact .of_rooms rfl
  | drop hq hgone => exact .of_rooms (congrArg Session.rooms (session_drop hgone))
  | @finish p task =>
      obtain ⟨taps, hend⟩ := (endTurn_session (p := p) task).1
      apply Session.Resets.of_rooms
      change (p.endTurn task).session.rooms = p.session.rooms
      rw [hend]
      rfl
  | look => exact (show Works none _ _ _ from works_revisit lasting_true trivial).ebbs.resets
  | begin _ _ hother =>
      exact (show Works none _ _ _ from works_errand lasting_true _ hother fun _ _ ↦ trivial).ebbs.resets
  | cue => exact (works_cue lasting_true _ _ fun _ _ _ _ ↦ trivial).ebbs.resets
  | @close p task scope scopes =>
      have hworks : Works (some scope) (fun _ ↦ True) p (p.performCue .waitForAll scope scopes none) :=
        works_performCue lasting_true .waitForAll none fun _ _ _ _ ↦ trivial
      exact hworks.ebbs.resets
  | block => exact hopen _ _ _ _
  | fork =>
      rw [spawn_session]
      exact hopen _ _ _ _

theorem Beat.housed (hs : Sound m) (hwhole : ∀ t ∈ m.playback.tasks, t.aborted = false) (h : Housed m)
    (hb : Beat m n) : Housed n := by
  have hentry := hb.entry hs h.entry
  have hb' := hb
  cases hb with
  | @take p _ rest task hq htask =>
      exact h.carry hentry (Nat.le_refl _) fun id home site hn ↦
        .inr ⟨site, hn.take (Orderly.task?_eq htask).1, .refl site⟩
  | @drop p _ rest hq hgone =>
      rw [runTask_gone (p := p) hwhole hgone]
      refine h.carry (fun _ hrun ↦ by cases hrun) (Nat.le_refl _) fun id home site hn ↦ ?_
      cases hn with
      | waits ht hid hhome hsite => exact .inr ⟨site, .waits ht hid hhome hsite, .refl site⟩
      | turns hrun => cases hrun
  | @finish p task hheld =>
      obtain ⟨taps, hend⟩ := (endTurn_session (p := p) task).1
      refine h.carry hentry (Nat.le_of_eq (congrArg Session.serial hend).symm) fun id home site hn ↦ ?_
      exact .inr ⟨site, hn.finish (h.entry task rfl), .refl site⟩
  | @look p task pause jobs =>
      refine h.works hentry rfl (hb'.agenda (by simp) (by simp))
        (show Works none _ _ _ from works_revisit (lasting_within _) (.refl _))
        (mem_sites_job (.look pause) (by simp)) fun job hjob ↦ ?_
      exact mem_sites_job job (List.mem_cons_of_mem _ hjob)
  | @walk p task action scope step rest hfree hagenda =>
      have hhere := mem_sites_errand (m := ⟨p, some task, []⟩) (e := .perform action scope step)
        (hagenda ▸ List.mem_cons_self)
      refine h.works hentry rfl (hb'.agenda (by simp) (by simp)) (show Works none _ _ _ from works_setAgenda rest)
        hhere fun job hjob ↦ ?_
      rwa [List.mem_singleton.mp hjob]
  | @begin p task errand rest hfree hagenda hother =>
      exact h.works hentry rfl (hb'.agenda (by simp) (by simp))
        (show Works none _ _ _ from works_errand (lasting_within errand.site) rest hother
          fun wait hroom ↦ ⟨hroom, rfl⟩)
        (mem_sites_errand (hagenda ▸ List.mem_cons_self)) (by simp)
  | @skip p task action scope scopes step =>
      refine h.works hentry rfl (List.Subset.refl _) (show Works none _ _ _ from .refl p)
        (mem_sites_job (.perform action scope scopes step) (by simp)) fun job hjob ↦ ?_
      exact mem_sites_job job (List.mem_cons_of_mem _ hjob)
  | @cue p task cue scope scopes step jobs hover =>
      refine h.works hentry rfl (hb'.agenda (by simp) (by simp))
        (works_cue (lasting_within ⟨some scope, scopes⟩) cue step
          fun wait ending hroom _ ↦ ⟨hroom, rfl⟩)
        (mem_sites_job (.perform (.cue cue) scope scopes step) (by simp)) fun job hjob ↦ ?_
      exact mem_sites_job job (List.mem_cons_of_mem _ hjob)
  | @close p task scope scopes jobs =>
      refine h.works hentry rfl (hb'.agenda (by simp) (by simp))
        (works_performCue (lasting_within ⟨some scope, scopes⟩) .waitForAll none
          fun wait ending hroom _ ↦ ⟨hroom, rfl⟩)
        (mem_sites_job (.close scope scopes) (by simp)) fun job hjob ↦ ?_
      exact mem_sites_job job (List.mem_cons_of_mem _ hjob)
  | block => exact h.block (hentry _ rfl)
  | fork => exact h.fork (hentry _ rfl)

end Machine

end Storyline
