import Storyline.Proofs.Playback.Conclusion
import Storyline.Proofs.Playback.Rounds
import Storyline.Proofs.Playback.Settlings
import Storyline.Proofs.Player.Tickets
import Storyline.Proofs.Player.Titles

/-!
# Lodging

Throughout a run that goes on, the tasks that perform actions keep to scopes of their
own, and between turns the ledger is kept.  What beats preserve, and steps from rest
to rest, holds at every moment of such a run.
-/

namespace Storyline

namespace Machine

open Playback

variable {m n : Machine} {p q : Playback}

/-- Without a task there is no beat. -/
theorem Beat.tasks_ne_nil (hs : Sound m) (hb : Beat m n) : m.playback.tasks ≠ [] := by
  have hrunning : ∀ {task : Task}, m.running = some task → m.playback.tasks ≠ [] := by
    intro task hrun hnil
    have hmem := hs.orderly.running_mem _ (congrArg (Option.map Task.id) hrun)
    simp [hnil] at hmem
  have hqueued : ∀ {id : Nat} {rest : List Nat}, m.playback.queue = id :: rest →
      m.playback.tasks ≠ [] := by
    intro id rest hq hnil
    have hmem := (hs.orderly.queued id (by simp [hq])).1
    simp [hnil] at hmem
  cases hb with
  | take hq | drop hq => exact hqueued hq
  | _ => exact hrunning rfl

/-- A run that goes on, with its scopes apart. -/
structure Lodged (m : Machine) : Prop where
  cast : Cast m
  whole : ∀ t ∈ m.playback.tasks, t.aborted = false
  running : m.playback.session.cancelled = false
  housed : Housed m
  rooted : Player.root < m.playback.session.serial
  unstarted : m.playback.status = .notStarted → m.playback.tasks = []

theorem Beat.lodged (hs : Sound m) (hb : Beat m n) (h : Lodged m) : Lodged n where
  cast := hb.cast h.cast
  whole := hb.whole h.whole
  running := (Session.cancelled_eq hb.settings).trans h.running
  housed := hb.housed hs h.whole h.housed
  rooted := Nat.lt_of_lt_of_le h.rooted (hb.reparks hs h.cast h.whole).serial
  unstarted := by
    intro hstatus
    rcases hb.status with he | he
    · exact absurd (h.unstarted (he.symm.trans hstatus)) (hb.tasks_ne_nil hs)
    · cases he.symm.trans hstatus

/-- Between turns the scopes stay apart while the tasks stay the same. -/
theorem Lodged.resting (h : Lodged (resting p)) (ha : Adjoins p q) (htasks : q.tasks = p.tasks)
    (hstatus : q.status = p.status) (hgoes : q.session.cancelled = false) : Lodged (Machine.resting q) where
  cast := ⟨htasks ▸ h.cast.tasks, fun hrun ↦ absurd rfl hrun⟩
  whole := htasks ▸ h.whole
  running := hgoes
  housed := by
    refine h.housed.carry (fun _ hrun ↦ by cases hrun) ha.serial fun id home site hn ↦ ?_
    cases hn with
    | waits ht hid hhome hsite => exact .inr ⟨site, .waits (htasks ▸ ht) hid hhome hsite, .refl site⟩
    | turns hrun => cases hrun
  rooted := Nat.lt_of_lt_of_le h.rooted ha.serial
  unstarted := fun hs ↦ htasks.trans (h.unstarted (hstatus.symm.trans hs))

end Machine

namespace Player

open Playback Machine

variable {actions : List Action} {config : Config} {host : Host} {voices : VoiceCache}
  {p q : Playback} {m n : Machine}

theorem launch_tasks (actions : List Action) (hgoes : p.session.cancelled = false) :
    (launch actions p).tasks = p.tasks ++
      [⟨p.spawned, true, false, none, false, [.fastForward], []⟩,
        ⟨p.spawned + 1, true, false, some root, false, timeline actions, []⟩] := by
  simp [launch, spawn, hgoes, addTask]

/-- The main timeline performs its actions in the root, and waits for it. -/
theorem timeline_site {e : Errand} (he : e ∈ timeline actions) : e.site = ⟨some root, [root]⟩ := by
  rcases List.mem_append.mp he with he | he
  · obtain ⟨a, -, rfl⟩ := List.mem_map.mp he
    rfl
  · rw [List.mem_singleton.mp he]
    rfl

theorem adjoins_launch (actions : List Action) (hgoes : p.session.cancelled = false) :
    Adjoins p (launch actions p) where
  rooms := congrArg Session.rooms (launch_session actions p)
  serial := Nat.le_of_eq (congrArg Session.serial (launch_session actions p)).symm
  now := Nat.le_of_eq (congrArg Session.now (launch_session actions p)).symm
  agenda := congrArg Turn.agenda ((spawn_turn _ _).trans (spawn_turn _ _))
  tasks := by
    refine ⟨_, launch_tasks actions hgoes, fun t ht e he ↦ ?_⟩
    rcases List.mem_cons.mp ht with rfl | ht
    · rw [List.mem_singleton.mp he]
      exact .inl rfl
    · rw [List.mem_singleton.mp ht] at he
      exact .inr (congrArg Site.room (timeline_site he))
  outcomes := (untold_launch actions p).outcomes
  outOfTime := (untold_launch actions p).outOfTime

/-- What is asked of a player is its start, or leaves the tasks and the scopes alone. -/
theorem Ongoing.cases (h : Ongoing actions p q) :
    (q = launch actions p ∧ p.status = .notStarted) ∨
      (p.Stirs q ∧ q.session.rooms = p.session.rooms ∧ q.status = p.status) := by
  obtain ⟨hacts, hgoes⟩ := h
  cases hacts with
  | start hs => exact .inl ⟨rfl, hs⟩
  | next =>
      refine .inr ⟨p.stirs_tap, ?_, ?_⟩ <;> rw [tap_eq_touch]
      · rw [touch_session]
        rfl
      · exact touch_status
  | autoPlay on =>
      refine .inr ⟨p.stirs_setAutoPlay on, ?_, ?_⟩ <;> rw [setAutoPlay_eq_touch]
      · rw [touch_session, Session.setAutoPlay]
        split <;> rfl
      · exact touch_status
  | fastForward on =>
      refine .inr ⟨p.stirs_setFastForward on, ?_, ?_⟩ <;> rw [setFastForward_eq_touch]
      · rw [touch_session, Session.setFastForward]
        split <;> rfl
      · exact touch_status
  | cacheVoice => exact .inr ⟨.of_update (Session.carries_voices _), rfl, rfl⟩
  | stop =>
      rw [cancelled_stopped] at hgoes
      cases hgoes

theorem Ongoing.adjoins (h : Ongoing actions p q) : Adjoins p q ∧ q.session.now = p.session.now := by
  rcases h.cases with ⟨rfl, -⟩ | ⟨hst, hrooms, -⟩
  · have hsession := launch_session actions p
    exact ⟨adjoins_launch actions (hsession ▸ h.2), congrArg Session.now hsession⟩
  · exact ⟨.of_stirs hst hrooms, hst.now⟩

/-- At the start the main timeline is the only task with a home. -/
theorem lodged_launch (hgoes : p.session.cancelled = false) (h : Lodged (resting p))
    (hcast : Cast (resting (launch actions p))) (hnone : p.tasks = []) :
    Lodged (resting (launch actions p)) := by
  have hsession := launch_session actions p
  have htasks := launch_tasks actions hgoes
  rw [hnone, List.nil_append] at htasks
  have hsites : ∀ id home site, Occupies id home site (resting (launch actions p)) →
      (home = none ∧ site.room = none) ∨
        id = p.spawned + 1 ∧ home = some root ∧ site = ⟨some root, [root]⟩ := by
    intro id home site hocc
    cases hocc with
    | turns hrun => cases hrun
    | waits ht hid hhome hsite =>
        rw [show (resting (launch actions p)).playback.tasks = _ from htasks] at ht
        rcases List.mem_cons.mp ht with rfl | ht
        · rw [List.mem_singleton.mp hsite]
          exact .inl ⟨hhome.symm, rfl⟩
        · obtain rfl := List.mem_singleton.mp ht
          rw [Task.sites, List.map_nil, List.append_nil] at hsite
          obtain ⟨e, he, rfl⟩ := List.mem_map.mp hsite
          exact .inr ⟨hid.symm, hhome.symm, timeline_site he⟩
  have huses : ∀ id i, Uses id i (resting (launch actions p)) → id = p.spawned + 1 ∧ i = root := by
    rintro id i ⟨home, site, hhome, hocc, hi⟩
    obtain ⟨rfl, -, rfl⟩ := (hsites id home site hocc).resolve_left fun he ↦ hhome he.1
    exact ⟨rfl, List.mem_singleton.mp hi⟩
  have hrooted : root < (launch actions p).session.serial := hsession ▸ h.rooted
  constructor
  case cast => exact hcast
  case whole =>
    rw [show (resting (launch actions p)).playback.tasks = _ from htasks]
    simp
  case running => exact hsession ▸ hgoes
  case rooted => exact hrooted
  case unstarted =>
    have hplaying : (launch actions p).status = .playing := (spawn_status _ _).trans (spawn_status _ _)
    exact fun hs ↦ by cases hplaying.symm.trans hs
  case housed =>
    constructor
    case entry => exact fun _ hrun ↦ by cases hrun
    case idle =>
      intro id site hocc
      exact ((hsites id none site hocc).resolve_right fun he ↦ by cases he.2.1).2
    case inmost =>
      intro id home site i hocc hi
      obtain ⟨-, -, rfl⟩ := (hsites id (some home) site hocc).resolve_left fun he ↦ by cases he.1
      obtain rfl := Option.some.inj hi
      simp
    case below => exact fun id i hocc ↦ (huses id i hocc).2 ▸ hrooted
    case apart => exact fun id id' i h h' ↦ (huses id i h).1.trans (huses id' i h').1.symm

theorem Ongoing.lodged (ha : Ongoing actions p q) (h : Lodged (resting p)) : Lodged (resting q) := by
  rcases ha.cases with ⟨rfl, hs⟩ | ⟨hst, hrooms, hstatus⟩
  · exact lodged_launch h.running h (ha.1.cast h.cast) (h.unstarted hs)
  · exact h.resting (.of_stirs hst hrooms) hst.tasks hstatus ha.2

/-- A step is a beat, or goes from rest to rest. -/
theorem step_cases (hs : Machine.Step (Ongoing actions) m n) :
    Beat m n ∨ ∃ p q, m = resting p ∧ n = resting q ∧ Adjoins p q ∧
      (p.queue = [] ∨ q.session.now = p.session.now) ∧
      (Ongoing actions p q ∨ q.tasks = p.tasks ∧ q.status = p.status ∧
        q.session.cancelled = p.session.cancelled) := by
  cases hs with
  | beat hb => exact .inl hb
  | @act p q ha =>
      exact .inr ⟨p, q, rfl, rfl, ha.adjoins.1, .inr ha.adjoins.2, .inl ha⟩
  | @move p time hq hnext =>
      obtain ⟨queue, hmoved⟩ := moveTo_eq time p
      refine .inr ⟨p, p.moveTo time, rfl, rfl, ?_, .inl hq, .inr ?_⟩ <;> rw [hmoved]
      · exact .of_later (Nat.le_of_lt (lt_nextDue hnext)) rfl rfl rfl rfl
      · exact ⟨rfl, rfl, rfl⟩
  | @rest p time hq hle =>
      exact .inr ⟨p, _, rfl, rfl, .of_later hle rfl rfl rfl rfl, .inl hq, .inr ⟨rfl, rfl, rfl⟩⟩

theorem lodged_step (hs : Machine.Sound m) (h : Lodged m) (hstep : Machine.Step (Ongoing actions) m n) :
    Lodged n := by
  rcases step_cases hstep with hb | ⟨p, q, rfl, rfl, ha, -, hacts | ⟨htasks, hstatus, hgoes⟩⟩
  · exact hb.lodged hs h
  · exact hacts.lodged h
  · exact h.resting ha htasks hstatus (hgoes.trans h.running)

/-- What every step preserves in a run that goes on, beats as well as steps from rest to rest. -/
theorem lodged_induct {I : Machine → Prop} (h : Lodged m) (hs : Machine.Sound m) (h0 : I m)
    (hr : Runs (Ongoing actions) m n) (hbeat : ∀ k l, Machine.Sound k → Lodged k → I k → Beat k l → I l)
    (hrest : ∀ p q, AtRest p → I (resting p) → Adjoins p q →
      (p.queue = [] ∨ q.session.now = p.session.now) → I (resting q)) :
    I n ∧ Lodged n ∧ Machine.Sound n := by
  have hboth := hr.induct (I := fun k ↦ I k ∧ Lodged k) (fun _ _ ha hp ↦ ha.1.atRest hp) hs ⟨h0, h⟩
    fun k l hk ⟨hI, hlodged⟩ hstep ↦ ⟨?_, lodged_step hk hlodged hstep⟩
  · exact ⟨hboth.1.1, hboth.1.2, hboth.2⟩
  · rcases step_cases hstep with hb | ⟨p, q, rfl, rfl, ha, hnow, -⟩
    · exact hbeat k l hk hlodged hI hb
    · exact hrest p q hk.orderly hI ha hnow

theorem lodged_new (actions : List Action) (config : Config) (host : Host) (voices : VoiceCache) :
    Lodged (resting (new actions config host voices).playback) := by
  have hnone : ∀ id home site,
      ¬Occupies id home site (resting (new actions config host voices).playback) := by
    intro id home site hocc
    cases hocc with
    | waits ht => cases ht
    | turns hrun => cases hrun
  constructor
  case cast => exact (followed_new actions config host voices).cast
  case whole => exact fun t ht ↦ by cases ht
  case running => rfl
  case rooted => exact Nat.one_pos
  case unstarted => exact fun _ ↦ rfl
  case housed =>
    constructor
    case entry => exact fun _ hrun ↦ by cases hrun
    case idle => exact fun id site hocc ↦ absurd hocc (hnone _ _ _)
    case inmost => exact fun id home site i hocc ↦ absurd hocc (hnone _ _ _)
    case below => exact fun id i ⟨home, site, _, hocc, _⟩ ↦ absurd hocc (hnone _ _ _)
    case apart => exact fun id id' i ⟨home, site, _, hocc, _⟩ ↦ absurd hocc (hnone _ _ _)

/-! ## The ledger between turns -/

theorem Ongoing.kept {time : Nat} (hpoll : (config.voicePoll.period.tickFrom time 1).isSome = true)
    (ha : Ongoing actions p q) (hrest : AtRest p) (h : Kept config time p) : Kept config time q := by
  have hstep : Step actions (fun c ↦ c.continues = true) p q → Kept config time q :=
    fun hs ↦ hs.kept hpoll hrest h
  obtain ⟨hacts, hgoes⟩ := ha
  cases hacts with
  | start =>
      have hsession := launch_session actions p
      exact ⟨hsession ▸ h.config, fun hnow ↦ ledger_launch actions (h.ledger (hsession ▸ hnow))⟩
  | next => exact hstep (.next rfl)
  | autoPlay on => exact hstep (.autoPlay on rfl)
  | fastForward on => exact hstep (.fastForward on rfl)
  | cacheVoice path content => exact hstep (.cacheVoice path content rfl)
  | stop =>
      rw [cancelled_stopped] at hgoes
      cases hgoes

theorem kept_runs {time : Nat} (hpoll : (config.voicePoll.period.tickFrom time 1).isSome = true)
    (hr : Runs (Ongoing actions) (resting (new actions config host voices).playback) m) :
    Kept config time m.turnEnd :=
  (hr.rounds (I := Kept config time) (fun _ _ ha hp ↦ ha.1.atRest hp)
    (new_atRest actions config host voices) (kept_new actions host voices)
    (fun _ _ _ ho h hq ↦ Step.kept hpoll (show Step actions _ _ _ from .turn hq) ho h)
    (fun _ _ ho h ha ↦ ha.kept hpoll ho h)
    fun _ _ _ ho h hle hsession htasks hturn ↦ h.later (ho.idle rfl) hle hsession htasks hturn).1

end Player

end Storyline
