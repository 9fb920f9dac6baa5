import Storyline.Proofs.Playback.Passing
import Storyline.Proofs.Player.Outcome
import Storyline.Proofs.Player.Tickets

/-!
# A story that plays by itself

If a story plays by itself, no voice of it can be played and nobody interferes,
its actions are taken up at the times of its timetable, and it is completed when
the timetable says so.
-/

namespace Storyline

open Timetable

namespace Player

open Playback

/-- The commands that may come before the start. -/
def Command.prepares : Command → Bool
  | .autoPlay _ | .advance _ => true
  | _ => false

def Command.passes : Command → Bool
  | .advance _ => true
  | _ => false

section

variable {actions : List Action} {c : Config} {voices : VoiceCache} {plan : List (Nat × Action)}
  {finish : Option Nat} {p q : Playback}

/-- As long as time only passes, the plan is kept to. -/
theorem Step.planned (hs : Step actions (fun c ↦ c.passes = true) p q) (ho : AtRest p)
    (h : Planned c voices plan finish root p) : Planned c voices plan finish root q := by
  cases hs with
  | turn hq => exact h.runTask ho hq
  | @move time hq hnext =>
      refine h.later ho hq (Nat.le_of_lt (lt_nextDue hnext)) ?_ ?_ ?_ ?_ ?_ ?_
      · intro t ht x hx timer htimer due hdue
        obtain ⟨next, he, hle⟩ := nextDue_le ho hq ht hx htimer hdue
        rw [hnext] at he
        exact Option.some.inj he ▸ hle
      all_goals
        unfold moveTo
        dsimp only
        rw [wakeAll_eq]
        rfl
  | rest hq hle hnext =>
      refine h.later ho hq hle (fun t ht x hx timer htimer due hdue ↦ ?_) rfl rfl rfl rfl rfl
      obtain ⟨next, he, hle⟩ := nextDue_le ho hq ht hx htimer hdue
      exact Nat.le_trans (Nat.le_of_lt (hnext next he)) hle
  | start hc | next hc | autoPlay on hc | fastForward on hc | cacheVoice path content hc => cases hc
  | stop hc => rcases hc with hc | hc <;> cases hc

/-- A player that has not been started. -/
structure Ready (c : Config) (host : Host) (voices : VoiceCache) (p : Playback) : Prop where
  ledger : p.Ledger .timeline [root] [] []
  config : p.session.config = c
  host : p.session.host = host
  pace : p.session.pace = ⟨p.session.autoPlay, false, 0, false, voices⟩
  status : p.status = .notStarted
  tasks : p.tasks = []
  dispatches : p.dispatches = []

variable {host : Host}

theorem ready_new (actions : List Action) : Ready c host voices (new actions c host voices).playback :=
  ⟨(kept_new actions host voices).ledger (Nat.le_refl _), rfl, rfl, rfl, rfl, rfl, rfl⟩

/-- Before the start only time passes, and playing by itself is switched on or off. -/
theorem Step.ready (hs : Step actions (fun c ↦ c.prepares = true) p q) (ho : AtRest p)
    (h : Ready c host voices p) : Ready c host voices q := by
  have hqueue : p.queue = [] := List.eq_nil_iff_forall_not_mem.mpr fun id hid ↦ by
    have hmem := (ho.queued id hid).1
    rw [h.tasks] at hmem
    cases hmem
  cases hs with
  | turn hq =>
      rw [hqueue] at hq
      cases hq
  | move hq hnext => simp [nextDue, timers, h.tasks] at hnext
  | rest hq hle hnext =>
      exact ⟨h.ledger.later (ho.idle rfl) rfl rfl rfl, h.config, h.host, h.pace, h.status, h.tasks,
        h.dispatches⟩
  | autoPlay on hc =>
      have hrunning := h.ledger.books.running
      have hset : (p.setAutoPlay on).session = { p.session with autoPlay := on } := by
        rw [setAutoPlay_eq_touch, touch_session, Session.setAutoPlay, if_neg (by simp [hrunning])]
      have hst := p.stirs_setAutoPlay on
      refine ⟨h.ledger.stirs hst ?_, ?_, ?_, ?_, ?_, hst.tasks.trans h.tasks,
        hst.dispatches.trans h.dispatches⟩
      · rw [hset]
        exact h.ledger.books.carry rfl rfl rfl (Nat.le_refl _) (List.Sublist.refl _)
      · rw [hset]
        exact h.config
      · rw [hset]
        exact h.host
      · rw [hset]
        have hpace := h.pace
        simp only [Session.pace, Pace.mk.injEq, true_and] at hpace ⊢
        exact hpace
      · rw [setAutoPlay_eq_touch, touch_status]
        exact h.status
  | start hc | next hc | fastForward on hc | cacheVoice path content hc => cases hc
  | stop hc => rcases hc with hc | hc <;> cases hc

theorem mem_timeline {e : Errand} (he : e ∈ timeline actions) :
    (∃ action ∈ actions, ∃ step, e = .perform action root step) ∨ e = closing root :=
  (List.mem_append.mp he).imp errand_mem_walk List.mem_singleton.mp

theorem actionsOf_timeline (actions : List Action) : actionsOf (timeline actions) = actions := by
  have happend : actionsOf (timeline actions) =
      actionsOf (walk root true actions) ++ actionsOf [closing root] := List.filterMap_append
  rw [happend, actionsOf_walk]
  exact List.append_nil actions

/-- The plan begins with the start. -/
theorem planned_launch (h : Ready c host voices p) (hauto : p.session.autoPlay = true)
    (hvoices : ∀ action ∈ actions, action.Unvoiced voices) :
    Planned c voices (walkEvents c actions p.session.now (some p.session.now))
      (walkEnd c actions p.session.now (some p.session.now)) root (launch actions p) := by
  obtain ⟨ticker, hticker⟩ : ∃ ticker : Task,
    ticker = ⟨p.spawned, true, false, none, false, [.fastForward], []⟩ := ⟨_, rfl⟩
  obtain ⟨main, hmain⟩ : ∃ main : Task,
    main = ⟨p.spawned + 1, true, false, some root, false, timeline actions, []⟩ := ⟨_, rfl⟩
  have htasks : (launch actions p).tasks = [ticker, main] := by
    simp [launch, spawn, addTask, h.ledger.books.running, h.tasks, hticker, hmain]
  have hdispatches : (launch actions p).dispatches = [] := by
    simp [launch, spawn, addTask, h.ledger.books.running, h.dispatches]
  have hstatus : (launch actions p).status = .playing := by
    simp [launch, spawn, addTask, h.ledger.books.running]
  -- nothing is owed yet
  have hdebts : [ticker, main].flatMap (Task.debts p.session.now) = [] := by
    have howes : (timeline actions).flatMap (Errand.debts p.session.now) = [] := by
      refine List.flatMap_eq_nil_iff.mpr fun e he ↦ ?_
      rcases mem_timeline he with ⟨action, -, step, rfl⟩ | rfl <;> rfl
    simp [hticker, hmain, Task.debts, Errand.debts, howes]
  have hclear : outlook p.session.now [ticker, main] root .actions = some p.session.now := by
    unfold outlook
    rw [hdebts]
    rfl
  have hahead : main.prospect c (outlook p.session.now [ticker, main]) p.session.now =
      (walkEvents c actions p.session.now (some p.session.now),
        walkEnd c actions p.session.now (some p.session.now)) := by
    have hhome : main.home = root := by
      rw [hmain]
      rfl
    have hend : waitEnd (outlook p.session.now [ticker, main]) p.session.now main.pauses =
        some p.session.now := by
      rw [hmain]
      rfl
    have hactions : actionsOf main.agenda = actions := by
      rw [hmain]
      exact actionsOf_timeline actions
    unfold Task.prospect Storyline.prospect
    rw [hend, hhome, hclear, hactions]
  have hfollows : ticker.Follows := by
    rw [hticker]
    exact ⟨by simp [Errand.isDrain], by simp⟩
  have hleads : main.Leads root := by
    rw [hmain]
    refine .walking (walk root true actions) rfl rfl (fun e he ↦ ?_) (by simp)
    obtain ⟨action, -, step, rfl⟩ := errand_mem_walk he
    rfl
  have hregular : ticker.Regular voices p.session ∧ main.Regular voices p.session := by
    rw [hticker, hmain]
    refine ⟨⟨by simp, by simp, by simp, ?_⟩, by simp, by simp, by simp, fun e he ↦ ?_⟩
    · intro e he
      rw [List.mem_singleton.mp he]
      exact ⟨trivial, rfl⟩
    · rcases mem_timeline he with ⟨action, haction, step, rfl⟩ | rfl
      · exact ⟨hvoices action haction, rfl⟩
      · exact ⟨trivial, rfl⟩
  have hminds : ticker.minds = [] ∧ main.minds = [root] := by
    rw [hticker, hmain]
    exact ⟨rfl, rfl⟩
  refine ⟨ledger_launch actions h.ledger, ?_⟩
  rw [launch_session, htasks, hdispatches, hstatus]
  constructor
  case config => exact h.config
  case pace => exact hauto ▸ h.pace
  case regular => simpa using hregular
  case apart => simp [hminds.1]
  case minds_lt => simpa [hminds.1, hminds.2] using h.ledger.scope_lt (List.mem_singleton.mpr rfl)
  case past => simp
  case ordered => exact .nil
  case events =>
    rw [List.flatMap_cons, List.flatMap_singleton, hahead,
      hregular.1.events_idle (by rw [hticker])]
    exact .refl _
  case roles => simp [hfollows, hleads]
  case ends =>
    intro t ht hl
    rcases List.mem_cons.mp ht with rfl | ht
    · exact absurd hl hfollows.not_leads
    · rw [List.mem_singleton.mp ht, hahead]
  case status => exact .inl ⟨rfl, main, by simp, hleads⟩

theorem follow_dropped {cs : List (Bool × Command)} {p : Player}
    (hcs : ∀ c ∈ cs, c.2.prepares = true) : (p.follow cs).dropped = p.dropped := by
  induction cs generalizing p with
  | nil => rfl
  | cons c cs ih =>
      refine (ih fun c hc ↦ hcs c (List.mem_cons_of_mem _ hc)).trans ?_
      obtain ⟨settled, c⟩ := c
      have hc : c.prepares = true := hcs (settled, c) List.mem_cons_self
      have hobey : (p.obey c).1.dropped = p.dropped := by
        unfold obey
        split
        · rfl
        · cases c <;> first | rfl | cases hc
      cases settled <;> exact hobey

/-- The start launches the timeline, and then time may pass. -/
theorem reaches_start {permits : Command → Prop} {p : Player} (settled : Bool)
    (hdropped : p.dropped = false) (hrun : p.playback.session.host.canRun = true)
    (hs : p.playback.status = .notStarted) :
    Reaches p.actions permits (launch p.actions p.playback) (p.step settled .start).1.playback := by
  have hobey : (p.obey .start).1.playback = launch p.actions p.playback := by
    unfold obey
    rw [if_neg (by simp [hdropped])]
    dsimp only
    rw [obeyStart_eq, if_pos ⟨hrun, hs⟩]
    rfl
  cases settled with
  | false =>
      have hstep : (p.step false .start).1.playback = (p.obey .start).1.playback := rfl
      rw [hstep, hobey]
      exact .refl
  | true =>
      have hstep : (p.step true .start).1.playback = (p.obey .start).1.playback.settle := rfl
      rw [hstep, hobey]
      exact reaches_settle

/-- A story that plays by itself keeps to its plan. -/
theorem planned_follow {before after : List (Bool × Command)} (settled : Bool)
    (hrun : host.canRun = true) (hvoices : ∀ action ∈ actions, action.Unvoiced voices)
    (hbefore : ∀ c ∈ before, c.2.prepares = true) (hafter : ∀ c ∈ after, c.2.passes = true)
    (hauto : ((new actions c host voices).follow before).playback.session.autoPlay = true) :
    let ready := (new actions c host voices).follow before
    let start := ready.playback.session.now
    let p := ((ready.step settled .start).1.follow after).playback
    Planned c voices (walkEvents c actions start (some start))
      (walkEnd c actions start (some start)) root p ∧ AtRest p := by
  intro ready start p
  obtain ⟨hready, hrest⟩ := follow_induct hbefore (ready_new actions)
    fun q r ho h hs ↦ hs.ready ho h
  have hactions : ready.actions = actions := follow_actions before _
  have hdropped : ready.dropped = false := follow_dropped hbefore
  have hstart : Reaches actions (fun c ↦ c.passes = true) (launch actions ready.playback)
      (ready.step settled .start).1.playback := by
    have hreach : Reaches ready.actions (fun c ↦ c.passes = true) _ _ :=
      reaches_start settled hdropped (by rw [hready.host]; exact hrun) hready.status
    rwa [hactions] at hreach
  have hlaunched : AtRest (launch actions ready.playback) := .of_orderly (hrest.launch actions)
  have hafter : Reaches actions (fun c ↦ c.passes = true) (ready.step settled .start).1.playback p := by
    have hreach : Reaches (ready.step settled .start).1.actions (fun c ↦ c.passes = true) _ p :=
      reaches_follow hafter (hstart.atRest hlaunched)
    rwa [step_actions, hactions] at hreach
  exact (hstart.trans hafter).induct hlaunched
    (planned_launch hready hauto hvoices) fun q r ho h hs ↦ hs.planned ho h

/-- A story that plays by itself goes by its timetable. -/
theorem plays_by_timetable {before after : List (Bool × Command)} (settled : Bool)
    (hrun : host.canRun = true) (hvoices : ∀ action ∈ actions, action.Unvoiced voices)
    (hbefore : ∀ c ∈ before, c.2.prepares = true) (hafter : ∀ c ∈ after, c.2.passes = true)
    (hauto : ((new actions c host voices).follow before).playback.session.autoPlay = true) :
    let ready := (new actions c host voices).follow before
    let start := ready.playback.session.now
    let p := ((ready.step settled .start).1.follow after).playback
    p.queue = [] →
      (p.dispatches.map (fun d ↦ (d.time, d.action))).Perm
          ((walkEvents c actions start (some start)).filter
            (fun e ↦ decide (e.1 ≤ p.session.now))) ∧
        p.dispatches.Pairwise (fun d e ↦ d.time ≤ e.time) ∧
        ((p.status = .completed ∧ Come p.session.now (walkEnd c actions start (some start))) ∨
          (p.status = .playing ∧ ¬Come p.session.now (walkEnd c actions start (some start)))) := by
  intro ready start p hq
  obtain ⟨hplanned, hend⟩ := planned_follow settled hrun hvoices hbefore hafter hauto
  exact ⟨hplanned.dispatched hend hq, hplanned.prospects.ordered, hplanned.status_eq hend hq⟩

end

/-- A title that comes up while somebody speaks, and music after both. -/
def outing : List Action :=
  [.fork [.cue (.delay (.ofNat 2)), .cue (.telop "Later")],
    .block [.cue (.model (.show 1 "ann" .center)), .cue (.talk ⟨"Hello.", [1], ["Ann"], none⟩)],
    .cue .waitForAll, .cue (.scenery .bgm "walk")]

theorem outing_goes_by_timetable :
    let ready := (new outing .standard plainHost .empty).follow
      [(true, .advance 40), (true, .autoPlay true)]
    let start := ready.playback.session.now
    let p := ((ready.step true .start).1.follow [(true, .advance 3000)]).playback
    start = 40 ∧ p.session.now = 3040 ∧ p.queue = [] ∧
      (p.dispatches.map (fun d ↦ (d.time, d.action))).Perm
        ((walkEvents .standard outing start (some start)).filter
          (fun e ↦ decide (e.1 ≤ p.session.now))) ∧
      p.dispatches.Pairwise (fun d e ↦ d.time ≤ e.time) ∧
      ((p.status = .completed ∧ Come p.session.now (walkEnd .standard outing start (some start))) ∨
        (p.status = .playing ∧ ¬Come p.session.now (walkEnd .standard outing start (some start)))) := by
  have hbefore : ∀ c ∈ [(true, Command.advance 40), (true, .autoPlay true)],
      c.2.prepares = true := by decide
  have hafter : ∀ c ∈ [(true, Command.advance 3000)], c.2.passes = true := by decide
  have hauto : ((new outing .standard plainHost .empty).follow
      [(true, .advance 40), (true, .autoPlay true)]).playback.session.autoPlay = true := by
    decide +kernel
  have hq : ((((new outing .standard plainHost .empty).follow
      [(true, .advance 40), (true, .autoPlay true)]).step true .start).1.follow
        [(true, .advance 3000)]).playback.queue = [] := by decide +kernel
  exact ⟨by decide +kernel, by decide +kernel, hq,
    plays_by_timetable true rfl (fun _ _ _ _ ↦ rfl) hbefore hafter hauto hq⟩

end Player

end Storyline
