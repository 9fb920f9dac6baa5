import Storyline.Proofs.Playback.Teardown
import Storyline.Proofs.Player.Outcome

/-!
# Stopping for good

A stopped player stays as it was when it was stopped, whatever it is asked to do
and however much time passes.  All tasks of a player are owned by its session,
so a stop aborts them, even those that had been woken and not yet run.
-/

namespace Storyline

namespace Player

open Playback

/-- Nothing runs any more, and nothing can be started. -/
structure Ended (p : Playback) : Prop where
  closed : p.session.Closed
  aborted : ∀ t ∈ p.tasks, t.aborted = true
  final : p.status.isFinal = true

/-- What can be seen and heard of a playback that has ended. -/
structure SameEnd (p q : Playback) : Prop where
  stage : q.session.stage = p.session.stage
  revision : q.session.revision = p.session.revision
  backlog : q.session.backlog = p.session.backlog
  autoPlay : q.session.autoPlay = p.session.autoPlay
  fastForward : q.session.fastForward = p.session.fastForward
  calls : q.session.calls = p.session.calls
  status : q.status = p.status

section

variable {actions : List Action} {permits : Command → Prop} {p q r : Playback}

theorem SameEnd.refl (p : Playback) : SameEnd p p := ⟨rfl, rfl, rfl, rfl, rfl, rfl, rfl⟩

theorem SameEnd.trans (h : SameEnd p q) (h' : SameEnd q r) : SameEnd p r where
  stage := h'.stage.trans h.stage
  revision := h'.revision.trans h.revision
  backlog := h'.backlog.trans h.backlog
  autoPlay := h'.autoPlay.trans h.autoPlay
  fastForward := h'.fastForward.trans h.fastForward
  calls := h'.calls.trans h.calls
  status := h'.status.trans h.status

/-- The turn of an aborted task takes it out, and does nothing else. -/
theorem Ended.runTask (h : Ended p) (id : Nat) :
    (runTask id p).session = p.session ∧ (runTask id p).status = p.status ∧
      (runTask id p).tasks ⊆ p.tasks := by
  unfold Playback.runTask
  split
  · exact ⟨rfl, rfl, List.Subset.refl _⟩
  next task hsome =>
    rw [if_pos (h.aborted task (Orderly.task?_eq hsome).1)]
    exact ⟨rfl, rfl, fun t ht ↦ (List.mem_filter.mp ht).1⟩

/-- Every step after the end leads to the same end. -/
theorem Ended.step (h : Ended p) (hs : Step actions permits p q) : Ended q ∧ SameEnd p q := by
  have hstatus : p.status ≠ .notStarted := by
    intro he
    have := h.final
    simp [he, Status.isFinal] at this
  cases hs with
  | @turn id rest hq =>
      obtain ⟨hsession, hst, htasks⟩ := Ended.runTask (p := { p with queue := rest })
        ⟨h.closed, h.aborted, h.final⟩ id
      refine ⟨⟨by rw [hsession]; exact h.closed, fun t ht ↦ h.aborted t (htasks ht),
        by rw [hst]; exact h.final⟩, ?_⟩
      constructor <;> first | rw [hsession] | rw [hst]
  | move hq hnext =>
      unfold Playback.moveTo
      dsimp only
      rw [wakeAll_eq]
      exact ⟨⟨⟨h.closed.cancelled, h.closed.taps, h.closed.counts⟩, h.aborted, h.final⟩,
        ⟨rfl, rfl, rfl, rfl, rfl, rfl, rfl⟩⟩
  | rest =>
      exact ⟨⟨⟨h.closed.cancelled, h.closed.taps, h.closed.counts⟩, h.aborted, h.final⟩,
        ⟨rfl, rfl, rfl, rfl, rfl, rfl, rfl⟩⟩
  | start hc hrun hs => exact absurd hs hstatus
  | next hc =>
      rw [tap_closed h.closed]
      exact ⟨h, .refl p⟩
  | autoPlay on hc =>
      unfold Playback.setAutoPlay
      rw [if_pos h.closed.cancelled]
      exact ⟨h, .refl p⟩
  | fastForward on hc =>
      unfold Playback.setFastForward
      rw [if_pos h.closed.cancelled]
      exact ⟨h, .refl p⟩
  | cacheVoice path content hc =>
      exact ⟨⟨⟨h.closed.cancelled, h.closed.taps, h.closed.counts⟩, h.aborted, h.final⟩,
        ⟨rfl, rfl, rfl, rfl, rfl, rfl, rfl⟩⟩
  | stop hc =>
      unfold stopped
      rw [shutdown_closed h.closed]
      dsimp only
      rw [if_pos h.final]
      exact ⟨h, .refl p⟩

theorem Ended.reaches (h : Ended p) (hr : Reaches actions permits p q) : Ended q ∧ SameEnd p q := by
  induction hr with
  | refl => exact ⟨h, .refl p⟩
  | step _ hs ih =>
      obtain ⟨hended, hsame⟩ := ih.1.step hs
      exact ⟨hended, ih.2.trans hsame⟩

/-! ## Before the end -/

/-- Until it ends, all tasks of a playback are owned by its session. -/
structure Owning (p : Playback) : Prop where
  owned : ∀ t ∈ p.tasks, t.owned = true
  ended : p.session.cancelled = true → Ended p

theorem Owning.stopped (h : Owning p) : Ended (stopped p) := by
  cases hc : p.session.cancelled with
  | true =>
      obtain ⟨hclosed, haborted, hfinal⟩ := h.ended hc
      unfold Player.stopped
      rw [shutdown_closed hclosed]
      dsimp only
      rw [if_pos hfinal]
      exact ⟨hclosed, haborted, hfinal⟩
  | false =>
      have hclosed : p.shutdown.session.Closed := shutdown_session hc ▸ p.session.closed_cancel
      have haborted : ∀ t ∈ p.shutdown.tasks, t.aborted = true := by
        intro t ht
        rw [shutdown_tasks hc] at ht
        obtain ⟨old, hold, rfl⟩ := List.mem_map.mp ht
        simp [h.owned old hold]
      unfold Player.stopped
      dsimp only
      split
      next hfinal => exact ⟨hclosed, haborted, hfinal⟩
      next => exact ⟨hclosed, haborted, rfl⟩

/-- Only a stop ends a session. -/
theorem Step.cancelled_or_stopped (hs : Step actions permits p q) :
    q.session.cancelled = p.session.cancelled ∨ q = stopped p := by
  cases hs with
  | turn hq => exact .inl (Session.cancelled_eq (settings_runTask (p := { p with queue := _ }) _))
  | move hq hnext =>
      unfold Playback.moveTo
      dsimp only
      rw [wakeAll_eq]
      exact .inl rfl
  | rest => exact .inl rfl
  | start => exact .inl (congrArg Session.cancelled (launch_session actions p))
  | next => exact .inl (by rw [tap_eq_touch, touch_session]; rfl)
  | autoPlay on =>
      rw [setAutoPlay_eq_touch, touch_session, Session.setAutoPlay]
      split <;> exact .inl rfl
  | fastForward on =>
      rw [setFastForward_eq_touch, touch_session, Session.setFastForward]
      split <;> exact .inl rfl
  | cacheVoice => exact .inl rfl
  | stop => exact .inr rfl

theorem launch_owned (h : ∀ t ∈ p.tasks, t.owned = true) :
    ∀ t ∈ (launch actions p).tasks, t.owned = true := by
  intro t ht
  have hext : Extends true p (launch actions p) := extends_launch actions p
  obtain ⟨new, hnew, hadded⟩ := hext.tasks
  rw [hnew] at ht
  exact (List.mem_append.mp ht).elim (h t) fun ht ↦ (hadded t ht).owned

theorem stopped_owned (h : ∀ t ∈ p.tasks, t.owned = true) :
    ∀ t ∈ (stopped p).tasks, t.owned = true := by
  have hshut : ∀ t ∈ p.shutdown.tasks, t.owned = true := by
    cases hc : p.session.cancelled with
    | true =>
        unfold Playback.shutdown
        rwa [if_pos hc]
    | false =>
        intro t ht
        rw [shutdown_tasks hc] at ht
        obtain ⟨old, hold, rfl⟩ := List.mem_map.mp ht
        exact h old hold
  unfold stopped
  dsimp only
  split <;> exact hshut

theorem Owning.step (ho : AtRest p) (h : Owning p) (hs : Step actions permits p q) : Owning q where
  owned := by
    cases hs with
    | @turn id rest hq => exact runTask_owned (p := { p with queue := rest }) ho.nodup_ids h.owned
    | move hq hnext =>
        unfold Playback.moveTo
        dsimp only
        rw [wakeAll_eq]
        exact h.owned
    | rest => exact h.owned
    | start hc hrun hs => exact launch_owned h.owned
    | next hc =>
        rw [p.stirs_tap.tasks]
        exact h.owned
    | autoPlay on hc =>
        rw [(p.stirs_setAutoPlay on).tasks]
        exact h.owned
    | fastForward on hc =>
        rw [(p.stirs_setFastForward on).tasks]
        exact h.owned
    | cacheVoice path content hc => exact h.owned
    | stop hc => exact stopped_owned h.owned
  ended := by
    intro hq
    cases hc : p.session.cancelled with
    | true => exact ((h.ended hc).step hs).1
    | false =>
        rcases hs.cancelled_or_stopped with he | rfl
        · rw [he, hc] at hq
          cases hq
        · exact h.stopped

theorem Owning.reaches (ho : AtRest p) (h : Owning p) (hr : Reaches actions permits p q) : Owning q :=
  (hr.induct ho h fun _ _ ho h hs ↦ h.step ho hs).1

theorem owning_new (actions : List Action) (config : Config) (host : Host) (voices : VoiceCache) :
    Owning (new actions config host voices).playback :=
  ⟨by simp [new, Playback.new], by simp [new, Playback.new, Session.openScope, Session.new]⟩

end

/-! ## From the stop on -/

/-- What a player shows once it has been stopped, as a state before the stop
tells. -/
structure Final (p q : Playback) : Prop where
  stage : q.session.stage = p.session.stage
  revision : q.session.revision = p.session.revision
  backlog : q.session.backlog = p.session.backlog
  autoPlay : q.session.autoPlay = p.session.autoPlay
  fastForward : q.session.fastForward = p.session.fastForward
  /-- The first stop, and no other, stops the sound on every channel. -/
  calls : q.session.calls =
    p.session.calls ++ if p.session.cancelled then [] else p.session.farewell
  taps : q.session.taps = []
  untapped : q.tapped = false
  counts : ∀ sc ∈ q.session.scopes, sc.outstanding = 0 ∧ sc.outstandingTaps = 0
  status : q.status = if p.status = .completed then .completed else .stopped

section

variable {actions : List Action} {permits : Command → Prop} {p q : Playback}

theorem stopped_session (hc : p.session.cancelled = false) :
    (stopped p).session = p.session.cancel := by
  unfold stopped
  dsimp only
  split <;> exact shutdown_session hc

theorem stopped_status (p : Playback) :
    (stopped p).status = if p.status.isFinal then p.status else .stopped := by
  unfold stopped
  dsimp only
  rw [shutdown_status]
  split
  · exact shutdown_status p
  · rfl

/-- A stop leaves everything in its place but what it puts an end to. -/
theorem Owning.final (h : Owning p) : Final p (Player.stopped p) := by
  have hended := h.stopped
  have hstatus : (Player.stopped p).status = if p.status = .completed then .completed else .stopped := by
    rw [stopped_status]
    cases p.status <;> rfl
  have hcounts : ∀ sc ∈ (Player.stopped p).session.scopes, sc.outstanding = 0 ∧ sc.outstandingTaps = 0 :=
    fun sc hsc ↦ ⟨hended.closed.counts sc hsc .actions, hended.closed.counts sc hsc .taps⟩
  have huntapped : (Player.stopped p).tapped = false := by
    simp [tapped, hended.closed.nextTap]
  cases hc : p.session.cancelled with
  | true =>
      have hsession : (Player.stopped p).session = p.session := by
        obtain ⟨hclosed, -, hfinal⟩ := h.ended hc
        unfold Player.stopped
        rw [shutdown_closed hclosed]
        dsimp only
        rw [if_pos hfinal]
      exact ⟨by rw [hsession], by rw [hsession], by rw [hsession], by rw [hsession],
        by rw [hsession], by simp [hsession, hc], hended.closed.taps, huntapped, hcounts, hstatus⟩
  | false =>
      have hsession := (stopped_session hc).trans Session.cancel_eq_farewell
      exact ⟨by rw [hsession]; rfl, by rw [hsession]; rfl, by rw [hsession]; rfl,
        by rw [hsession]; rfl, by rw [hsession]; rfl, by simp [hsession, hc],
        hended.closed.taps, huntapped, hcounts, hstatus⟩

theorem Final.reaches (h : Final p (stopped p)) (hended : Ended (stopped p))
    (hr : Reaches actions permits (stopped p) q) : Final p q := by
  obtain ⟨hq, hsame⟩ := hended.reaches hr
  exact ⟨hsame.stage.trans h.stage, hsame.revision.trans h.revision, hsame.backlog.trans h.backlog,
    hsame.autoPlay.trans h.autoPlay, hsame.fastForward.trans h.fastForward,
    hsame.calls.trans h.calls, hq.closed.taps, by simp [tapped, hq.closed.nextTap],
    fun sc hsc ↦ ⟨hq.closed.counts sc hsc .actions, hq.closed.counts sc hsc .taps⟩,
    hsame.status.trans h.status⟩

end

theorem obey_stop {p : Player} (hd : p.dropped = false) {c : Command} (hc : c = .stop ∨ c = .drop) :
    (p.obey c).1.playback = stopped p.playback := by
  rcases hc with rfl | rfl <;> simp [obey, hd] <;> rfl

theorem obey_next (p : Player) :
    (p.obey .next).2 = if p.dropped then .dropped else .flag p.playback.tapped := by
  cases hd : p.dropped <;> simp [obey, hd, Command.isForPlayer]

/-- Once a player is stopped or dropped, it is final what it shows, whatever
happens after, and no tap resumes anything. -/
theorem stop_is_final {config : Config} {host : Host} {voices : VoiceCache} {p : Player}
    (hp : Reaches p.actions (fun _ ↦ True) (new p.actions config host voices).playback p.playback)
    (hd : p.dropped = false) {c : Command} (hc : c = .stop ∨ c = .drop) :
    (∀ q, Reaches p.actions (fun _ ↦ True) (p.obey c).1.playback q → Final p.playback q) ∧
      ∀ cs : List (Bool × Command),
        let q := (p.obey c).1.follow cs
        Final p.playback q.playback ∧
          (q.obey .next).2 = if q.dropped then .dropped else .flag false := by
  have hnew := new_atRest p.actions config host voices
  have howning := (owning_new p.actions config host voices).reaches hnew hp
  have hstop := obey_stop hd hc
  have hlater : ∀ q, Reaches p.actions (fun _ ↦ True) (p.obey c).1.playback q →
      Final p.playback q := by
    intro q hq
    rw [hstop] at hq
    exact howning.final.reaches howning.stopped hq
  refine ⟨hlater, fun cs ↦ ?_⟩
  have hrest : AtRest (p.obey c).1.playback := by
    rw [hstop]
    have hstep : Step p.actions (fun _ ↦ True) p.playback (stopped p.playback) :=
      .stop (.inl trivial)
    exact hstep.atRest (hp.atRest hnew)
  have hfollow : Reaches (p.obey c).1.actions (fun _ ↦ True) (p.obey c).1.playback
      ((p.obey c).1.follow cs).playback := reaches_follow (fun _ _ ↦ trivial) hrest
  rw [obey_actions] at hfollow
  have hfinal := hlater _ hfollow
  exact ⟨hfinal, by rw [obey_next, hfinal.untapped]⟩

/-- A line that had been tapped, and whose task had not yet run, is not taken up
again after a stop. -/
theorem tapped_line_is_final :
    let p := (new evening .standard plainHost .empty).follow [(true, .start), (false, .next)]
    p.playback.queue = [mainTask] ∧ p.dropped = false ∧
      Final p.playback ((p.obey .stop).1.follow [(true, .advance 6000), (true, .next)]).playback :=
  ⟨by decide +kernel, by decide +kernel,
    ((stop_is_final
      (by
        rw [follow_actions]
        exact reaches_follow (fun _ _ ↦ trivial) (new_atRest evening .standard plainHost .empty))
      (by decide +kernel) (.inl rfl)).2 _).1⟩

end Player

end Storyline
