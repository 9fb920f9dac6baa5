import Storyline.Proofs.Playback.Losses
import Storyline.Proofs.Player.Joins
import Storyline.Proofs.Player.Leading

/-!
# The status of a player

A story is started once, and it is completed when its walk is over and nothing of it
counts in the root any more, or it is stopped before.  A walk that is cut short is
never completed, and nothing of it is taken up later.
-/

namespace Storyline

/-- What a status may be followed by. -/
inductive Status.Next : Status → Status → Prop
  | start : Next .notStarted .playing
  | complete : Next .playing .completed
  | cancel : Next .notStarted .stopped
  | stop : Next .playing .stopped

namespace Player

open Playback Machine

/-- The walk is over: all actions have been taken up in their order, and the task of the
main timeline has not failed and waits for nothing but the end of the story. -/
structure Walked (actions : List Action) (p : Playback) : Prop where
  taken : p.dispatches.filterMap Dispatch.step = List.range actions.length
  whole : (mainTask, .failed) ∉ p.outcomes
  rest : ∀ t ∈ p.tasks, t.id = mainTask → ∀ x ∈ t.pauses, x = lastPause

variable {actions : List Action} {permits : Command → Prop} {config : Config} {host : Host}
  {voices : VoiceCache} {p q : Playback} {m : Machine} {c : Chart}

/-! ## The ledger of all runs -/

/-- What is asked of a player that is not stopped keeps the books. -/
theorem Ongoing.books {ts : List Ticket} {parks : List Nat} (h : Ongoing actions p q)
    (hb : p.session.Books ts parks) : q.session.Books ts parks := by
  obtain ⟨hacts, hgoes⟩ := h
  cases hacts with
  | start =>
      rw [launch_session]
      exact hb
  | next =>
      rw [tap_eq_touch, touch_session]
      exact hb.takeTap
  | autoPlay on =>
      rw [setAutoPlay_eq_touch, touch_session, Session.setAutoPlay, if_neg (by simp [hb.running])]
      exact hb.carry rfl rfl rfl (Nat.le_refl _) (List.Sublist.refl _)
  | fastForward on =>
      rw [setFastForward_eq_touch, touch_session, Session.setFastForward, if_neg (by simp [hb.running])]
      exact hb.carry rfl rfl rfl (Nat.le_refl _) (List.Sublist.refl _)
  | cacheVoice => exact hb.carry rfl rfl rfl (Nat.le_refl _) (List.Sublist.refl _)
  | stop =>
      rw [cancelled_stopped] at hgoes
      cases hgoes

/-- Between turns the ledger is kept for the tickets that are lost with failed tasks. -/
theorem lost_runs (hr : Runs (Ongoing actions) (resting (new actions config host voices).playback) m) :
    ∃ hand parking, m.turnEnd.Ledger .timeline [root] hand parking := by
  have hnew : (new actions config host voices).playback.Ledger .timeline [root] [] [] :=
    (kept_new actions host voices : Kept config 0 _).ledger (Nat.le_refl _)
  refine (hr.rounds (I := fun p ↦ ∃ hand parking, p.Ledger .timeline [root] hand parking)
    (fun _ _ ha hp ↦ ha.1.atRest hp) (new_atRest actions config host voices) ⟨[], [], hnew⟩
    (fun _ _ _ ho ⟨_, _, h⟩ hq ↦ h.runTask_lost ho hq) (fun r r' _ ⟨hand, parking, h⟩ ha ↦ ?_)
    fun r r' _ ho ⟨hand, parking, h⟩ _ hsession htasks hturn ↦
      ⟨hand, parking, h.later (ho.idle rfl) hsession htasks hturn⟩).1
  refine ⟨hand, parking, ?_⟩
  rcases ha.cases with ⟨rfl, -⟩ | ⟨hst, -, -⟩
  · exact ledger_launch actions h
  · exact h.stirs hst (ha.books h.books)

/-! ## Runs with a stop -/

/-- A run of a player goes on, or it went on until a stop. -/
theorem reaches_cases (h : Reaches actions permits (new actions config host voices).playback p) :
    Runs (Ongoing actions) (resting (new actions config host voices).playback) (resting p) ∨
      ∃ b, Reaches actions permits (new actions config host voices).playback b ∧
        Runs (Ongoing actions) (resting (new actions config host voices).playback) (resting b) ∧
        Reaches actions permits (stopped b) p := by
  induction h with
  | refl => exact .inl .refl
  | @step q r h hs ih =>
      rcases ih with hr | ⟨b, hreach, hr, hb⟩
      · rcases hs.cancelled_or_stopped with hsame | rfl
        · have hgoes : r.session.cancelled = false := hsame.trans (lodged_runs hr).1.running
          left
          refine hr.trans ?_
          cases hs with
          | turn hq => exact runs_runTask hq
          | move hq hnext => exact .single (.move hq hnext)
          | rest hq hle hnext => exact .single (.rest hq hle hnext)
          | start _ _ hs => exact .single (.act ⟨.start hs, hgoes⟩)
          | next => exact .single (.act ⟨.next, hgoes⟩)
          | autoPlay on => exact .single (.act ⟨.autoPlay on, hgoes⟩)
          | fastForward on => exact .single (.act ⟨.fastForward on, hgoes⟩)
          | cacheVoice path content => exact .single (.act ⟨.cacheVoice path content, hgoes⟩)
          | stop => exact .single (.act ⟨.stop, hgoes⟩)
        · exact .inr ⟨q, h, hr, .refl⟩
      · exact .inr ⟨b, hreach, hr, hb.step hs⟩

/-- What has been recorded of the tasks, and what they wait for. -/
structure SameRecords (p q : Playback) : Prop where
  dispatches : q.dispatches = p.dispatches
  outcomes : q.outcomes = p.outcomes
  tasks : ∀ t ∈ q.tasks, ∃ old ∈ p.tasks, t.id = old.id ∧ t.pauses = old.pauses

theorem SameRecords.trans {r : Playback} (h : SameRecords p q) (h' : SameRecords q r) : SameRecords p r where
  dispatches := h'.dispatches.trans h.dispatches
  outcomes := h'.outcomes.trans h.outcomes
  tasks := by
    intro t ht
    obtain ⟨old, hold, hid, hpauses⟩ := h'.tasks t ht
    obtain ⟨older, holder, hid', hpauses'⟩ := h.tasks old hold
    exact ⟨older, holder, hid.trans hid', hpauses.trans hpauses'⟩

theorem SameRecords.of_eq (hdispatches : q.dispatches = p.dispatches) (houtcomes : q.outcomes = p.outcomes)
    (htasks : q.tasks ⊆ p.tasks) : SameRecords p q :=
  ⟨hdispatches, houtcomes, fun t ht ↦ ⟨t, htasks ht, rfl, rfl⟩⟩

theorem SameRecords.of_stirs (h : p.Stirs q) : SameRecords p q :=
  .of_eq h.dispatches h.outcomes (h.tasks ▸ List.Subset.refl _)

theorem records_stopped (p : Playback) : SameRecords p (stopped p) where
  dispatches := (leaves_stopped p).dispatches
  outcomes := by
    have hshutdown : p.shutdown.outcomes = p.outcomes := by
      cases hc : p.session.cancelled with
      | true =>
          unfold shutdown
          rw [if_pos hc]
      | false =>
          rw [shutdown_eq hc, abortOwned, wakeAll_eq]
          exact (Stirs.of_touch Session.carries_cancel).outcomes
    unfold stopped
    dsimp only
    split <;> exact hshutdown
  tasks := fun t ht ↦ by
    obtain ⟨old, hold, hid, -, hpauses⟩ := (leaves_stopped p).tasks t ht
    exact ⟨old, hold, hid.symm, hpauses.symm⟩

theorem Ended.records (h : Ended p) (hs : Step actions permits p q) : SameRecords p q := by
  cases hs with
  | turn hq =>
      unfold Playback.runTask
      split
      · exact .of_eq rfl rfl (List.Subset.refl _)
      next task hsome =>
        rw [if_pos (h.aborted task (Orderly.task?_eq hsome).1)]
        exact .of_eq rfl rfl (List.filter_subset_self _)
  | @move time hq hnext =>
      obtain ⟨queue, hmoved⟩ := moveTo_eq time p
      rw [hmoved]
      exact .of_eq rfl rfl (List.Subset.refl _)
  | rest => exact .of_eq rfl rfl (List.Subset.refl _)
  | start _ _ hs =>
      have hfinal := h.final
      rw [hs] at hfinal
      cases hfinal
  | next => exact .of_stirs p.stirs_tap
  | autoPlay on => exact .of_stirs (p.stirs_setAutoPlay on)
  | fastForward on => exact .of_stirs (p.stirs_setFastForward on)
  | cacheVoice => exact .of_eq rfl rfl (List.Subset.refl _)
  | stop => exact records_stopped p

/-- From a stop on nothing is taken up and no task comes to its end. -/
theorem records_reaches (h : Ended (stopped p)) (hr : Reaches actions permits (stopped p) q) :
    SameRecords p q := by
  induction hr with
  | refl => exact records_stopped p
  | step hr hs ih => exact ih.trans ((h.reaches hr).1.records hs)

theorem Walked.records (h : Walked actions p) (hq : SameRecords p q) : Walked actions q where
  taken := hq.dispatches ▸ h.taken
  whole := hq.outcomes ▸ h.whole
  rest := fun t ht hid x hx ↦ by
    obtain ⟨old, hold, hid', hpauses⟩ := hq.tasks t ht
    exact h.rest old hold (hid'.symm.trans hid) x (hpauses ▸ hx)

/-! ## The end of the walk -/

/-- A story that is completed has been walked through, and nothing of it counts in the root. -/
theorem walked_of_completed (hr : Runs (Ongoing actions) (resting (new actions config host voices).playback)
      (resting p)) (hs : p.status = .completed) :
    Walked actions p ∧ ∀ tally, p.session.pending root tally = 0 := by
  have hled := led_runs hr
  obtain ⟨⟨-, -, c, hc⟩, -⟩ := followed_runs (fun _ _ h ↦ h.1) hr
    (sound_resting (new_atRest actions config host voices)) (followed_new actions config host voices)
  obtain ⟨hand, parking, hledger⟩ := lost_runs hr
  have hledger : p.Ledger .timeline [root] hand parking := hledger
  have hover : (∀ t ∈ p.tasks, t.id ≠ mainTask) ∧ RootSpent (resting p) := by
    cases hled.leading with
    | unstarted hs' | rests _ _ _ hs' | lost hs' => cases hs.symm.trans hs'
    | turns hrun | ends hrun => cases hrun
    | closed _ hgone hspent => exact ⟨hgone, hspent⟩
  have hzero : p.session.pending root .actions = 0 := hover.2.zero
  refine ⟨⟨?_, fun hfailed ↦ ?_, fun t ht hid ↦ absurd hid (hover.1 t ht)⟩, fun tally ↦ ?_⟩
  · have hcount := (hc.completed hs).count
    exact hcount ▸ hc.records.steps
  · cases hs.symm.trans (hled.whole hfailed).1
  · cases tally with
    | actions => exact hzero
    | taps => exact Nat.le_zero.mp (hzero ▸ hledger.taps_le)

/-- When nothing is ready, a story that has been walked through and counts nothing in the
root is completed. -/
theorem completed_of_walked (hr : Runs (Ongoing actions) (resting (new actions config host voices).playback)
      (resting p)) (hq : p.queue = []) (hs : p.status ≠ .notStarted) (hwalked : Walked actions p)
    (hzero : p.session.pending root .actions = 0) : p.status = .completed := by
  have hrest : AtRest p := (lodged_runs hr).2.orderly
  cases (led_runs hr).leading with
  | unstarted hs' => exact absurd hs' hs
  | turns hrun | ends hrun => cases hrun
  | closed hs => exact hs
  | lost _ _ hfailed => exact absurd hfailed hwalked.whole
  | @rests t ht hid _ _ hleads =>
      obtain ⟨hne, hsettled⟩ := hrest.resting t ht (by simp) (by simp [hq])
      obtain ⟨x, hx⟩ := List.exists_mem_of_ne_nil _ hne
      obtain rfl := hwalked.rest t ht hid x hx
      exact absurd hzero (hsettled lastPause hx).2

/-- Before a stop a status is followed by the next one. -/
theorem Step.status_next (hrest : AtRest p) (hunstarted : p.status = .notStarted → p.tasks = [])
    (hgoes : p.status ≠ .stopped) (hs : Step actions permits p q) :
    q.status = p.status ∨ p.status.Next q.status := by
  cases hs with
  | @turn id rest hq =>
      have hnext : p.status = .completed ∨ p.status.Next .completed := by
        cases hstatus : p.status with
        | notStarted =>
            have hmem := (hrest.queued id (by simp [hq])).1
            simp [hunstarted hstatus] at hmem
        | playing => exact .inr .complete
        | completed => exact .inl rfl
        | stopped => exact absurd hstatus hgoes
      rcases status_runTask hrest hq with he | he
      · exact .inl he
      · exact he ▸ hnext.imp_left Eq.symm
  | @move time hq hnext =>
      obtain ⟨queue, hmoved⟩ := moveTo_eq time p
      rw [hmoved]
      exact .inl rfl
  | rest => exact .inl rfl
  | start _ _ hs =>
      have hplaying : (launch actions p).status = .playing := (spawn_status _ _).trans (spawn_status _ _)
      exact .inr (hplaying ▸ hs ▸ .start)
  | next =>
      rw [tap_eq_touch]
      exact .inl touch_status
  | autoPlay on =>
      rw [setAutoPlay_eq_touch]
      exact .inl touch_status
  | fastForward on =>
      rw [setFastForward_eq_touch]
      exact .inl touch_status
  | cacheVoice => exact .inl rfl
  | stop =>
      rw [stopped_status]
      cases hstatus : p.status with
      | notStarted => exact .inr .cancel
      | playing => exact .inr .stop
      | completed | stopped => exact .inl rfl

theorem status_step (hp : Reaches actions permits (new actions config host voices).playback p)
    (hs : Step actions permits p q) : q.status = p.status ∨ p.status.Next q.status := by
  have hnew := new_atRest actions config host voices
  rcases reaches_cases hp with hr | ⟨b, hb, -, hstopped⟩
  · refine hs.status_next (hp.atRest hnew) (lodged_runs hr).1.unstarted fun he ↦ ?_
    cases (led_runs hr).leading with
    | unstarted hs' | rests _ _ _ hs' | closed hs' | lost hs' => cases he.symm.trans hs'
    | turns hrun | ends hrun => cases hrun
  · have hended := ((owning_new actions config host voices).reaches hnew hb).stopped
    exact .inl ((hended.reaches hstopped).1.step hs).2.status

theorem status_completed (hp : Reaches actions permits (new actions config host voices).playback p)
    (hs : p.status = .completed) (hq : Reaches actions permits p q) : q.status = .completed := by
  induction hq with
  | refl => exact hs
  | step hq hstep ih =>
      rcases status_step (hp.trans hq) hstep with he | hnext
      · exact he.trans ih
      · rw [ih] at hnext
        cases hnext

/-- Whether it is stopped later or not, a completed story has been walked through. -/
theorem spent_of_completed (hp : Reaches actions permits (new actions config host voices).playback p)
    (hs : p.status = .completed) : Walked actions p ∧ ∀ tally, p.session.pending root tally = 0 := by
  rcases reaches_cases hp with hr | ⟨b, hb, hr, hstopped⟩
  · exact walked_of_completed hr hs
  have howning := (owning_new actions config host voices).reaches (new_atRest _ _ _ _) hb
  have hfinal := howning.final.reaches howning.stopped hstopped
  have hcompleted : b.status = .completed := by
    by_contra hne
    have hstatus := hfinal.status
    rw [hs, if_neg hne] at hstatus
    cases hstatus
  refine ⟨(walked_of_completed hr hcompleted).1.records (records_reaches howning.stopped hstopped),
    fun tally ↦ ?_⟩
  unfold Session.pending
  split
  next sc hsc =>
    obtain ⟨hactions, htaps⟩ := hfinal.counts sc (List.mem_of_find?_eq_some hsc)
    cases tally with
    | actions => exact hactions
    | taps => exact htaps
  next => rfl

/-- The status of a player moves on from not started to playing and from playing to
completed, or to stopped.  Every action is taken up at most once, and another start
changes nothing.  From a stop on nothing more is taken up, and a story that was not
completed is stopped for good.  When nothing is ready, a story that has been started and
not been stopped is completed if and only if its walk is over and nothing counts in the
root; then both counts of the root stay zero.  The player has finished when it is
completed or stopped. -/
theorem completed_iff_walked {config : Config} {host : Host} {voices : VoiceCache} {p : Player}
    (hp : Reaches p.actions (fun _ ↦ True) (new p.actions config host voices).playback p.playback) :
    (∀ q, Step p.actions (fun _ ↦ True) p.playback q → q.status = p.status ∨ p.status.Next q.status) ∧
    (∃ c : Chart, c.Records p.actions p.playback.dispatches ∧ c.places.Nodup ∧
      p.playback.dispatches.filterMap Dispatch.step = List.range (c.count []) ∧
      c.count [] ≤ p.actions.length ∧ (p.status = .completed → c.Complete p.actions)) ∧
    (p.status ≠ .notStarted → (p.obey .start).1 = p) ∧
    (∀ q, Reaches p.actions (fun _ ↦ True) (stopped p.playback) q →
      q.dispatches = p.playback.dispatches ∧ (p.status = .notStarted → q.dispatches = []) ∧
        (p.status ≠ .completed → q.status = .stopped)) ∧
    (p.playback.queue = [] → p.status ≠ .notStarted → p.status ≠ .stopped →
      (p.status = .completed ↔
        Walked p.actions p.playback ∧ p.playback.session.pending root .actions = 0)) ∧
    (p.status = .completed → ∀ q, Reaches p.actions (fun _ ↦ True) p.playback q →
      q.status = .completed ∧ ∀ tally, q.session.pending root tally = 0) ∧
    ∀ s, p.finished = some s ↔ s = p.status ∧ (s = .completed ∨ s = .stopped) := by
  have hnew := new_atRest p.actions config host voices
  have howning := (owning_new p.actions config host voices).reaches hnew hp
  obtain ⟨⟨-, -, c, hc⟩, -⟩ := followed_runs (fun _ _ h ↦ h) (runs_reaches hp)
    (sound_resting hnew) (followed_new p.actions config host voices)
  have hnone : p.status = .notStarted → p.playback.dispatches = [] := by
    intro hs
    have hpassages : c.passages = [] := by
      refine List.eq_nil_iff_forall_not_mem.mpr fun x hx ↦ ?_
      have hx := hc.records.strand x hx
      rw [hc.unstarted hs] at hx
      cases hx
    have htold := hc.records.told
    rwa [hpassages] at htold
  refine ⟨fun q hs ↦ status_step hp hs, ⟨c, hc.records, hc.records.nodup_places, hc.records.steps,
    count_le hc.records [], hc.completed⟩, fun hs ↦ ?_, fun q hq ↦ ?_, fun hq hstarted hgoes ↦ ?_,
    fun hs q hq ↦ ?_, fun s ↦ ?_⟩
  · unfold obey
    split
    · rfl
    · dsimp only
      rw [obeyStart_eq, if_neg fun h ↦ hs h.2]
  · have hsame := (records_reaches howning.stopped hq).dispatches
    refine ⟨hsame, fun hs ↦ hsame.trans (hnone hs), fun hs ↦ ?_⟩
    exact (howning.final.reaches howning.stopped hq).status.trans (if_neg hs)
  · refine ⟨fun hs ↦ ?_, fun ⟨hwalked, hzero⟩ ↦ ?_⟩
    · obtain ⟨hwalked, hzero⟩ := spent_of_completed hp hs
      exact ⟨hwalked, hzero .actions⟩
    · rcases reaches_cases hp with hr | ⟨b, hb, -, hstopped⟩
      · exact completed_of_walked hr hq hstarted hwalked hzero
      · have hended := ((owning_new p.actions config host voices).reaches hnew hb).stopped
        have hfinal := (hended.reaches hstopped).1.final
        cases hs : p.playback.status with
        | notStarted | playing =>
            rw [hs] at hfinal
            cases hfinal
        | completed => exact hs
        | stopped => exact absurd hs hgoes
  · have hcompleted := status_completed hp hs hq
    exact ⟨hcompleted, (spent_of_completed (hp.trans hq) hcompleted).2⟩
  · unfold finished
    cases hs : p.status <;> cases s <;> simp [Status.isFinal]

/-- After two taps the title and the line are over, and with them the walk. -/
theorem evening_is_walked :
    let p := (new evening .standard plainHost .empty).follow [(true, .start), (true, .next), (true, .next)]
    p.playback.queue = [] ∧ p.status = .completed ∧ Walked evening p.playback ∧
      ∀ q, Reaches evening (fun _ ↦ True) p.playback q →
        q.status = .completed ∧ ∀ tally, q.session.pending root tally = 0 := by
  intro p
  have hactions : p.actions = evening := follow_actions _ _
  have hreach : Reaches p.actions (fun _ ↦ True) (new p.actions .standard plainHost .empty).playback
      p.playback := by
    rw [hactions]
    exact reaches_follow (fun _ _ ↦ trivial) (new_atRest evening .standard plainHost .empty)
  have hqueue : p.playback.queue = [] := by decide +kernel
  have hstatus : p.status = .completed := by decide +kernel
  obtain ⟨-, -, -, -, hiff, hlater, -⟩ := completed_iff_walked hreach
  rw [hactions] at hiff hlater
  have hended := hiff hqueue (by simp [hstatus]) (by simp [hstatus])
  exact ⟨hqueue, hstatus, (hended.mp hstatus).1, hlater hstatus⟩

end Player

end Storyline
