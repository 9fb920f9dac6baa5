import Storyline.Config.Reader
import Storyline.Proofs.Forks.Passing
import Storyline.Proofs.Playback.Strain
import Storyline.Proofs.Player.Leading
import Storyline.Proofs.Player.Tending

/-!
# Players that do not fail

A task fails for three reasons only, and they lie in the settings and in the time at
which the player runs: whatever its story is and whatever it is asked, a player without
them does not fail, and for each of them there is a player that does.
-/

namespace Storyline

open Relation
open Session (Handling)

namespace Player

open Playback Machine

variable {actions : List Action} {config : Config} {host : Host} {voices : VoiceCache}
  {p q : Playback} {m n : Machine}

/-! ## Settings that can be borne -/

/-- No task has failed, and the one that is running has not. -/
structure Unfailing (m : Machine) : Prop where
  turn : m.playback.turn.failed = false
  outcomes : ∀ id, (id, .failed) ∉ m.playback.outcomes

theorem Acts.moment (ha : Acts actions p q) (hp : AtRest p) : q.session.moment = p.session.moment := by
  cases ha with
  | start => exact congrArg Session.moment (launch_session actions p)
  | next => exact p.stirs_tap.moment
  | autoPlay on => exact (p.stirs_setAutoPlay on).moment
  | fastForward on => exact (p.stirs_setFastForward on).moment
  | cacheVoice => rfl
  | stop =>
    have hshut : p.shutdown.session.moment = p.session.moment := hp.shutdown.moment
    rw [stopped]
    split <;> exact hshut

theorem Acts.outcomes (ha : Acts actions p q) : q.outcomes = p.outcomes := by
  cases ha with
  | start =>
    have hspawn (r : Playback) (scope : Option Nat) (agenda : List Errand) :
        (r.spawn scope agenda).outcomes = r.outcomes := by
      rw [spawn]
      split <;> rfl
    exact (hspawn _ _ _).trans (hspawn _ _ _)
  | next => exact p.stirs_tap.outcomes
  | autoPlay on => exact (p.stirs_setAutoPlay on).outcomes
  | fastForward on => exact (p.stirs_setFastForward on).outcomes
  | cacheVoice => rfl
  | stop =>
    rw [stopped]
    split <;> exact shutdown_outcomes p

/-- The settings stay, and the clock never goes back. -/
theorem step_moment (hs : Machine.Sound m) (hstep : Machine.Step (Acts actions) m n) :
    n.playback.session.config = m.playback.session.config ∧
      m.playback.session.now ≤ n.playback.session.now := by
  have hsame (h : n.playback.session.moment = m.playback.session.moment) :
      n.playback.session.config = m.playback.session.config ∧
        m.playback.session.now ≤ n.playback.session.now :=
    ⟨congrArg Moment.config h, Nat.le_of_eq (congrArg Moment.now h).symm⟩
  cases hstep with
  | beat hb => exact hsame hb.moment
  | act ha => exact hsame (ha.moment hs.orderly)
  | @move p time hq hnext =>
    obtain ⟨queue, hmoved⟩ := moveTo_eq time p
    rw [hmoved]
    exact ⟨rfl, Nat.le_of_lt (lt_nextDue hnext)⟩
  | rest _ hle => exact ⟨rfl, hle⟩

theorem outcomes_dropped {id : Nat} (hgone : ∀ task, p.task? id = some task → task.aborted = true) :
    (runTask id p).outcomes = p.outcomes := by
  rw [runTask]
  split
  · rfl
  next task htask =>
    rw [if_pos (hgone task htask)]
    rfl

theorem Unfailing.beat (h : Unfailing m) (hs : Machine.Sound m) (hbears : m.playback.session.Bears)
    (hb : Beat m n) : Unfailing n := by
  refine ⟨hb.bears hs hbears h.turn, fun id hid ↦ ?_⟩
  have hb' := hb
  cases hb with
  | take => exact h.outcomes id hid
  | @drop p next rest hq hgone =>
    have hkept : (runTask next { p with queue := rest }).outcomes = p.outcomes :=
      outcomes_dropped hgone
    exact h.outcomes id (hkept ▸ hid)
  | @finish p task =>
    rcases mem_outcomes_endTurn hid with hid | ⟨-, hfailed⟩
    · exact h.outcomes id hid
    · exact Bool.eq_false_iff.mp h.turn (hfailed.mp rfl)
  | _ =>
    rw [(hb'.extends (by simp) (by simp)).outcomes] at hid
    exact h.outcomes id hid

theorem Unfailing.step (h : Unfailing m) (hs : Machine.Sound m) (hbears : m.playback.session.Bears)
    (hstep : Machine.Step (Acts actions) m n) : Unfailing n := by
  have hsound := hstep.sound (fun _ _ ha hp ↦ ha.atRest hp) hs
  have hidle (hn : n.running = none) : n.playback.turn.failed = false := by
    rw [hsound.orderly.idle (congrArg (Option.map Task.id) hn)]
    rfl
  cases hstep with
  | beat hb => exact h.beat hs hbears hb
  | act ha => exact ⟨hidle rfl, ha.outcomes ▸ h.outcomes⟩
  | @move p time =>
    obtain ⟨queue, hmoved⟩ := moveTo_eq time p
    rw [hmoved]
    exact ⟨h.turn, h.outcomes⟩
  | rest => exact ⟨h.turn, h.outcomes⟩

/-- With settings that can be borne up to some time, nothing fails up to this time. -/
theorem unfailing_runs {time : Nat} (hbears : config.Bearable time)
    (hr : Runs (Acts actions) (resting (new actions config host voices).playback) m)
    (hnow : m.playback.session.now ≤ time) : Unfailing m := by
  have hnew : Unfailing (resting (new actions config host voices).playback) :=
    ⟨rfl, by simp [resting, new, Playback.new]⟩
  have hsound := sound_resting (new_atRest actions config host voices)
  refine ((hr.induct (I := fun m ↦ m.playback.session.config = config ∧
    (m.playback.session.now ≤ time → Unfailing m)) (fun _ _ ha hp ↦ ha.atRest hp) hsound
    ⟨rfl, fun _ ↦ hnew⟩ fun k l hs h hstep ↦ ?_).1).2 hnow
  obtain ⟨hconfig, hle⟩ := step_moment hs hstep
  refine ⟨hconfig.trans h.1, fun hl ↦ ?_⟩
  have hk := hle.trans hl
  refine (h.2 hk).step hs ?_ hstep
  rw [Session.Bears, h.1]
  exact hbears.earlier hk

/-! ## A task that fails -/

theorem Beat.outcomes (hb : Beat m n) : m.playback.outcomes ⊆ n.playback.outcomes := by
  have hb' := hb
  cases hb with
  | take => exact List.Subset.refl _
  | @drop p id rest hq hgone =>
    have hkept : (runTask id { p with queue := rest }).outcomes = p.outcomes :=
      outcomes_dropped hgone
    exact List.Perm.subset (.of_eq hkept.symm)
  | finish => exact endTurn_outcomes
  | _ => exact (hb'.extends (by simp) (by simp)).outcomes ▸ List.Subset.refl _

/-- How a task has ended stays noted while other tasks have their turns. -/
theorem outcomes_runReady (k : Nat) (p : Playback) : p.outcomes ⊆ (runReady k p).outcomes := by
  have hsub (m n : Machine) (hr : Runs (fun _ _ ↦ False) m n) :
      m.playback.outcomes ⊆ n.playback.outcomes := by
    induction hr with
    | refl => exact List.Subset.refl _
    | step _ hs ih =>
      refine List.Subset.trans ih ?_
      cases hs with
      | beat hb => exact Beat.outcomes hb
      | act h => exact h.elim
      | @move p time =>
        obtain ⟨queue, hmoved⟩ := moveTo_eq time p
        rw [hmoved]
        exact List.Subset.refl _
      | rest => exact List.Subset.refl _
  have hpasses : p.Passes (runReady k p) := reaches_runReady k
  exact hsub _ _ (runs_passes hpasses)

/-- What has come about after some turns is noted when no task is ready any more. -/
theorem outcomes_settle (h : AtRest p) (k : Nat) : (runReady k p).outcomes ⊆ p.settle.outcomes := by
  have hq : (runReady p.turnBound p).queue = [] := settle_queue h
  rcases Nat.le_total k p.turnBound with hle | hle
  · obtain ⟨r, hr⟩ := Nat.exists_eq_add_of_le hle
    rw [settle, hr, runReady_add]
    exact outcomes_runReady r _
  · obtain ⟨r, rfl⟩ := Nat.exists_eq_add_of_le hle
    rw [runReady_add, runReady_idle hq]
    exact List.Subset.refl _

/-- How a task that has failed ends. -/
theorem failed_endTurn {task : Task} (h : p.turn.failed = true) :
    (task.id, .failed) ∈ (p.endTurn task).outcomes := by
  rw [endTurn]
  dsimp only
  rw [if_pos h, (abandonAll_stirs _).outcomes]
  simp [endTask]

/-- A task that fails with its first errand. -/
theorem failed_runTask {id : Nat} {task : Task} {errand : Errand} {rest : List Errand}
    (htask : p.task? id = some task) (hwhole : task.aborted = false) (hpauses : task.pauses = [])
    (hagenda : task.agenda = errand :: rest)
    (hfails : (((p.begun task).updateTurn (fun t ↦ { t with agenda := rest })).begin
      errand).turn.failed = true) :
    (id, .failed) ∈ (runTask id p).outcomes := by
  have hstays (agenda : List Errand) (q : Playback) (hq : q.turn.failed = true) :
      proceed agenda q = q := by
    cases agenda with
    | nil => rfl
    | cons e es => rw [proceed, if_neg (by simp [Turn.isFree, hq])]
  have hfree : (p.begun task).turn.isFree = true := by
    simp [begun, updateTurn, Turn.ofTask, Turn.isFree, hpauses]
  obtain ⟨-, rfl⟩ := Orderly.task?_eq htask
  rw [runTask, htask]
  dsimp only
  rw [if_neg (by simp [hwhole]), takeTurn_eq, worked, hpauses, hagenda, List.foldl_nil, proceed,
    if_pos hfree, hstays _ _ hfails]
  exact failed_endTurn hfails

theorem begin_forward_fails (hon : p.session.fastForward = true)
    (hnone : p.session.config.fastForwardInterval.period.tickFrom p.session.now 1 = none) :
    (p.begin .fastForward).turn.failed = true := by
  have hlook : p.look (.forward none) = (p, .fails) := by
    simp [look, lookAtForward, hon, hnone]
  rw [begin, suspend, hlook]
  rfl

theorem begin_animate_fails {shake : Shake} {stamp : Nat} {d : Duration} (hd : 0 < d.nanos)
    (hsway : canSway p.session.config.shakeMagnitude.abs = true)
    (hspans : spans p.session.config.shakeMagnitude.abs = false) :
    (p.begin (.animate shake stamp d)).turn.failed = true := by
  have hlook : p.arm.look (.frame shake stamp d p.session.now 0 (p.timer (some p.session.now))) =
      (p.arm, .fails) := by
    have hsway' : canSway p.arm.session.config.shakeMagnitude.abs = true := hsway
    have hspans' : spans p.arm.session.config.shakeMagnitude.abs = false := hspans
    have hnow : p.arm.session.now = p.session.now := rfl
    simp [look, lookAtFrame, hsway', hspans', hnow, Timer.isDue, timer, Duration.ofMillis, hd.ne']
  rw [begin, suspend, hlook]
  rfl

/-- A line whose voice cannot be watched fails while playing by itself. -/
theorem performCue_talk_fails {line : Line} {scope : Nat} {scopes : List Nat} {step : Option Nat}
    (hover : p.isOver = false) (hvoiced : p.isVoiced line = true) (hauto : p.session.autoPlay = true)
    (hpoll : p.session.config.voicePoll.period.tickFrom p.session.now 1 = none) :
    (p.performCue (.talk line) scope scopes step).turn.failed = true := by
  have hc : p.session.cancelled = false := by
    cases hc : p.session.cancelled <;> simp_all [isOver]
  have hentered : p.Smooth ((p.announce step).enter scope (Cue.talk line).isTapBlocking) :=
    (p.smooth_announce step).trans (smooth_enter _ scope _)
  have htold := hentered.trans ((smooth_tell _ line).trans (smooth_speak _ line))
  have hpace := htold.level.pace
  have hvoiced' :
      ((p.announce step).enter scope (Cue.talk line).isTapBlocking).isVoiced line = true := by
    have hvoices := congrArg Pace.voices hentered.level.pace
    dsimp only [Session.pace] at hvoices
    rw [isVoiced] at hvoiced ⊢
    rwa [hvoices]
  rw [performCue, if_neg (by simp [hover])]
  dsimp only
  rw [talk, if_pos hvoiced', park_fails]
  · rfl
  · exact (congrArg Pace.cancelled hpace).trans hc
  · exact (congrArg Pace.autoPlay hpace).trans hauto
  · rwa [htold.stirs.config, htold.stirs.now]

theorem begin_talk_fails {line : Line} {scope : Nat} {step : Option Nat} (hover : p.isOver = false)
    (hvoiced : p.isVoiced line = true) (hauto : p.session.autoPlay = true)
    (hpoll : p.session.config.voicePoll.period.tickFrom p.session.now 1 = none) :
    (p.begin (.perform (.cue (.talk line)) scope step)).turn.failed = true := by
  have hnote : p.note (.cue (.talk line)) scope step =
      { p with dispatches := p.dispatches ++ [⟨p.session.now, scope, step, .cue (.talk line)⟩] } := by
    rw [note, if_neg (by simp [hover])]
  rw [begin, perform, hnote]
  exact performCue_talk_fails hover hvoiced hauto hpoll

/-! ## Players that fail -/

/-- A player whose switches have been set, at the time at which it is started. -/
def ready (actions : List Action) (config : Config) (voices : VoiceCache) (auto fast : Bool)
    (time : Nat) : Playback :=
  (((new actions config quietHost voices).playback.setAutoPlay auto).setFastForward fast).update
    fun s ↦ { s with now := time }

/-- The commands that lead there and start it. -/
def setOut (auto fast : Bool) (time : Nat) : List (Bool × Command) :=
  [(false, .autoPlay auto), (false, .fastForward fast), (false, .advance time), (true, .start)]

variable {auto fast : Bool} {time : Nat}

theorem setOut_eq :
    ((new actions config quietHost voices).follow (setOut auto fast time)).playback =
      (launch actions (ready actions config voices auto fast time)).settle := by
  obtain ⟨b, hb⟩ : ∃ b, b =
    ((new actions config quietHost voices).playback.setAutoPlay auto).setFastForward fast := ⟨_, rfl⟩
  have hstart : ((new actions config quietHost voices).follow (setOut auto fast time)).playback =
      (Player.step true .start ⟨actions, b.advance time, false⟩).1.playback := by
    rw [hb]
    rfl
  have hidle : b.advance time = ready actions config voices auto fast time := by
    rw [advance_idle (by rw [hb]; rfl) (by rw [hb]; rfl), hb]
    exact congrArg (fun now ↦ update (fun s ↦ { s with now := now }) _) (Nat.zero_add time)
  rw [hstart, hidle, step_start actions rfl rfl]

theorem launch_ready_atRest : AtRest (launch actions (ready actions config voices auto fast time)) := by
  have hnew := new_atRest actions config quietHost voices
  have hset := (hnew.stirs (stirs_setAutoPlay _ auto)).stirs (stirs_setFastForward _ fast)
  have hready : AtRest (ready actions config voices auto fast time) :=
    .of_orderly (Orderly.rest hset rfl fun next hnext ↦ by cases hnext)
  exact .of_orderly (Orderly.launch hready actions)

theorem setOut_now :
    ((new actions config quietHost voices).follow (setOut auto fast time)).playback.session.now =
      time := by
  have hrest : AtRest (launch actions (ready actions config voices auto fast time)) :=
    launch_ready_atRest
  have hnow := congrArg Moment.now (settle_orderly hrest).moment
  rw [setOut_eq]
  refine hnow.trans ?_
  rw [launch_session]
  rfl

/-- The ticker of fast-forward fails. -/
theorem ticker_fails (hnone : config.fastForwardInterval.period.tickFrom time 1 = none) :
    (0, .failed) ∈
      ((new [] config quietHost .empty).follow (setOut false true time)).playback.outcomes := by
  rw [setOut_eq]
  apply outcomes_settle launch_ready_atRest 1
  have hrun : runReady 1 (launch [] (ready [] config .empty false true time)) =
      runTask 0 { launch [] (ready [] config .empty false true time) with queue := [1] } := rfl
  rw [hrun]
  exact failed_runTask rfl rfl rfl rfl (begin_forward_fails rfl hnone)

/-- The ticker of fast-forward has had its turn, and the main timeline is to have its own. -/
def underway (actions : List Action) (config : Config) (voices : VoiceCache) (auto : Bool)
    (time : Nat) : Playback where
  session := { (Session.new config quietHost voices) with
    now := time, serial := 1, scopes := [.fresh root none], autoPlay := auto }
  status := .playing
  tasks := [⟨0, true, false, none, false, [], [⟨.forward none, .nothing, []⟩]⟩,
    ⟨1, true, false, some root, false, timeline actions, []⟩]
  spawned := 2
  queue := [1]
  outcomes := []
  dispatches := []
  turn := .none

theorem runReady_launch_ready :
    runReady 1 (launch actions (ready actions config voices auto false time)) =
      underway actions config voices auto time := rfl

/-- A line with a voice fails. -/
theorem voice_fails (hnone : config.voicePoll.period.tickFrom time 1 = none) :
    (1, .failed) ∈ ((new watched config quietHost watchedVoices).follow
      (setOut true false time)).playback.outcomes := by
  obtain ⟨p, hp⟩ : ∃ p, p = { underway watched config watchedVoices true time with queue := [] } :=
    ⟨_, rfl⟩
  have htask : p.task? 1 = some ⟨1, true, false, some root, false, timeline watched, []⟩ := by
    rw [hp]
    rfl
  have hfails : (((p.begun ⟨1, true, false, some root, false, timeline watched, []⟩).updateTurn
      fun t ↦ { t with agenda := [.drain root .actions true .completed] }).begin
        (.perform (.cue (.talk watchedLine)) root (some 0))).turn.failed = true := by
    apply begin_talk_fails <;> rw [hp]
    · rfl
    · rfl
    · rfl
    · exact hnone
  rw [setOut_eq]
  apply outcomes_settle launch_ready_atRest 2
  rw [show 2 = 1 + 1 from rfl, runReady_add, runReady_launch_ready]
  have hrun : runReady 1 (underway watched config watchedVoices true time) = runTask 1 p := by
    rw [hp]
    rfl
  rw [hrun]
  exact failed_runTask htask rfl rfl rfl hfails

/-- A shake. -/
def trembling : List Action := [.cue (.shake .screen (.ofNat 1))]

/-- A sleep that has only begun leaves its pause behind. -/
theorem sleep_leaves {d : Duration} {ending : Ending} {scopes : List Nat} {n t : Nat}
    (hgoes : p.session.cancelled = false) (hnow : p.session.now = n) (hend : d.endFrom n = some t)
    (hlater : n < t) :
    p.sleep d ending scopes =
      p.arm.leave ⟨.sleep ⟨some t, p.session.armed⟩ p.session.skips, ending, scopes⟩ := by
  have hlook : p.arm.look (.sleep ⟨some t, p.session.armed⟩ p.session.skips) =
      (p.arm, .waits (.sleep ⟨some t, p.session.armed⟩ p.session.skips)) := by
    simp [look, lookAtSleep, arm, update, hgoes, Timer.isDue, hnow, hlater]
  rw [sleep, hnow, hend, suspend, show p.timer (some t) = ⟨some t, p.session.armed⟩ from rfl, hlook]

/-- The main timeline has begun to shake the screen. -/
theorem exists_shaking (config : Config) : ∃ p : Playback,
    runReady 1 (underway trembling config .empty false 0) = p ∧ p.queue = [2] ∧
      p.session.config = config ∧
      p.task? 2 = some ⟨2, true, false, none, false, [.animate .screen 1 ⟨1000000000⟩], []⟩ := by
  have hseconds : Duration.ofSeconds (.ofNat 1) = ⟨1000000000⟩ := by decide +kernel
  obtain ⟨p, hp⟩ : ∃ p, p = { underway trembling config .empty false 0 with queue := [] } := ⟨_, rfl⟩
  have hrun : runReady 1 (underway trembling config .empty false 0) =
      takeTurn ⟨1, true, false, some root, false, timeline trembling, []⟩ p := by
    rw [hp]
    rfl
  have hworked : p.worked ⟨1, true, false, some root, false, timeline trembling, []⟩ =
      proceed [.drain root .actions true .completed]
        (((p.begun ⟨1, true, false, some root, false, timeline trembling, []⟩).updateTurn
          fun t ↦ { t with agenda := [.drain root .actions true .completed] }).begin
            (.perform (.cue (.shake .screen (.ofNat 1))) root (some 0))) := rfl
  refine ⟨_, hrun, ?_⟩
  rw [takeTurn_eq, hworked, begin, perform, performCue, if_neg (by rw [hp]; exact Bool.false_ne_true)]
  dsimp only
  rw [shakeTarget, hseconds, sleep_leaves (n := 0) (t := 1000) _ _ rfl (by decide), hp]
  · exact ⟨rfl, rfl, rfl⟩
  all_goals
    rw [hp]
    rfl

theorem shake_fails (hsway : canSway config.shakeMagnitude.abs = true)
    (hspans : spans config.shakeMagnitude.abs = false) :
    (2, .failed) ∈
      ((new trembling config quietHost .empty).follow (setOut false false 0)).playback.outcomes := by
  obtain ⟨p, hp, hq, hconfig, htask⟩ := exists_shaking config
  have hfails : (((({ p with queue := [] } : Playback).begun
      ⟨2, true, false, none, false, [.animate .screen 1 ⟨1000000000⟩], []⟩).updateTurn
        fun t ↦ { t with agenda := [] }).begin (.animate .screen 1 ⟨1000000000⟩)).turn.failed =
          true := by
    apply begin_animate_fails (by decide)
    · rw [← hconfig] at hsway
      exact hsway
    · rw [← hconfig] at hspans
      exact hspans
  rw [setOut_eq]
  apply outcomes_settle launch_ready_atRest 3
  have hrun : runReady 1 p = runTask 2 { p with queue := [] } := by
    simp only [runReady, hq]
  rw [show 3 = 1 + 1 + 1 from rfl, runReady_add, runReady_add, runReady_launch_ready, hp, hrun]
  exact failed_runTask htask rfl rfl rfl hfails

/-! ## When nothing fails -/

theorem runs_follow (actions : List Action) (config : Config) (host : Host) (voices : VoiceCache)
    (cs : List (Bool × Command)) :
    Runs (Acts actions) (resting (new actions config host voices).playback)
      (resting ((new actions config host voices).follow cs).playback) := by
  have hreach : Reaches actions (fun _ ↦ True) (new actions config host voices).playback
      ((new actions config host voices).follow cs).playback :=
    reaches_follow (fun _ _ ↦ trivial) (new_atRest actions config host voices)
  exact runs_reaches hreach

/-- Settings with which no player fails up to some time can be borne. -/
theorem bearable_of_follow
    (h : ∀ (actions : List Action) (host : Host) (voices : VoiceCache) (cs : List (Bool × Command)),
      let p := ((new actions config host voices).follow cs).playback
      p.session.now ≤ time → ∀ id, (id, .failed) ∉ p.outcomes) : config.Bearable time where
  voice := Option.isSome_iff_ne_none.mpr fun hnone ↦
    h watched quietHost watchedVoices (setOut true false time) (Nat.le_of_eq setOut_now) 1
      (voice_fails hnone)
  ticker := Option.isSome_iff_ne_none.mpr fun hnone ↦
    h [] quietHost .empty (setOut false true time) (Nat.le_of_eq setOut_now) 0 (ticker_fails hnone)
  shake := fun hsway ↦ by
    by_contra hspans
    exact h trembling quietHost .empty (setOut false false 0)
      ((Nat.le_of_eq setOut_now).trans (Nat.zero_le time)) 2
      (shake_fails hsway (Bool.eq_false_iff.mpr hspans))

/-- Settings can be borne at a time if and only if no task fails up to this time, whatever
the story is and whatever the player is asked, between turns as well as within them.
Whatever the settings are, at every moment tickets are handled by single operations, and
are lost only where a task has failed or been aborted; and after any operations, whichever
tickets are lost, each ticket that is out is still counted in its epoch. -/
theorem unfailing_iff (config : Config) (time : Nat) :
    (config.Bearable time ↔
      ∀ (actions : List Action) (host : Host) (voices : VoiceCache) (cs : List (Bool × Command)),
        let p := ((new actions config host voices).follow cs).playback
        p.session.now ≤ time → ∀ id, (id, .failed) ∉ p.outcomes) ∧
    (config.Bearable time ↔
      ∀ (actions : List Action) (host : Host) (voices : VoiceCache) (m : Machine),
        Runs (Acts actions) (resting (new actions config host voices).playback) m →
          m.playback.session.now ≤ time → Unfailing m) ∧
    ∀ (actions : List Action) (host : Host) (voices : VoiceCache) (m : Machine),
      Runs (Acts actions) (resting (new actions config host voices).playback) m →
        (∀ n, Machine.Step (Acts actions) m n → Handles m.Loses [] [] m.playback n.playback) ∧
        ∀ s ts, ReflTransGen (Handling True) (m.playback.session, m.playback.tickets) (s, ts) →
          ∀ t ∈ ts, s.Covers t := by
  refine ⟨⟨fun hbears actions host voices cs hnow ↦ ?_, bearable_of_follow⟩,
    ⟨fun hbears _ _ _ _ hr ↦ unfailing_runs hbears hr, fun h ↦ ?_⟩,
    fun actions host voices m hr ↦ ?_⟩
  · exact (unfailing_runs hbears (runs_follow actions config host voices cs) hnow).outcomes
  · refine bearable_of_follow fun actions host voices cs hnow ↦ ?_
    exact (h actions host voices _ (runs_follow actions config host voices cs) hnow).outcomes
  · obtain ⟨htended, hsound⟩ := tended_runs hr
    exact ⟨fun n hstep ↦ htended.handles hsound hstep,
      fun s ts hops t ht ↦ (Session.solvent_of_handling hops htended.solvent).covers ht⟩

/-- A settings file with which a voice is looked at after ten billion billion seconds. -/
def patientSettings : Bytes := "\x7b\"voicePoll\":1e19\x7d".toUTF8.toList

/-- Not every settings file that can be read keeps tasks from failing. -/
theorem patientSettings_fails :
    ¬∀ (document : Bytes) (config : Config), Config.read document = .ok config →
      ∀ (actions : List Action) (host : Host) (voices : VoiceCache) (cs : List (Bool × Command))
        (id : Nat), (id, .failed) ∉ ((new actions config host voices).follow cs).playback.outcomes := by
  intro h
  have hread : (Config.read patientSettings).toOption.map
      (fun c ↦ c.voicePoll.period.tickFrom 0 1) = some none := by decide +kernel
  obtain ⟨config, hconfig, hnone⟩ := Option.map_eq_some_iff.mp hread
  have hok : Config.read patientSettings = .ok config := by
    cases hr : Config.read patientSettings with
    | error e =>
      rw [hr] at hconfig
      cases hconfig
    | ok c =>
      rw [hr] at hconfig
      exact congrArg Except.ok (Option.some.inj hconfig)
  exact h patientSettings config hok watched quietHost watchedVoices (setOut true false 0) 1
    (voice_fails hnone)

end Player

end Storyline
