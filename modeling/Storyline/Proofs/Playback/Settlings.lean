import Storyline.Proofs.Playback.Joins

/-!
# Settlings

A change of a model settles in a task of its own, which releases the ticket of the
change after a while.  It does so when the time is over, and not before, unless a
tick of fast-forward has skipped the sleep.
-/

namespace Storyline

/-- A settling: its task, the ticket that it releases, how long it takes and since when,
and how often sleeps had been skipped then. -/
structure Settling where
  task : Nat
  ticket : Ticket
  time : Duration
  since : Nat
  skips : Nat

namespace Settling

def errand (w : Settling) : Errand := .sleep w.time (.release w.ticket) [w.ticket.scope]

/-- Whether the time of a settling is over. -/
def IsOver (w : Settling) (now : Nat) : Prop :=
  ∃ due, w.time.endFrom w.since = some due ∧ due ≤ now

end Settling

/-- The pause of a settling. -/
def Pause.Settles (w : Settling) (x : Pause) : Prop :=
  ∃ timer, x.wait = .sleep timer w.skips ∧ timer.due = w.time.endFrom w.since ∧
    x.ending = .release w.ticket

theorem Wait.Becomes.sleep {timer : Timer} {skips : Nat} {w : Wait}
    (h : (Wait.sleep timer skips).Becomes w) : w = .sleep timer skips := by
  cases h
  rfl

theorem lasting_settles (w : Settling) : Lasting (Pause.Settles w) := by
  rintro q x ⟨hwait, hending, -⟩ ⟨timer, hq, hdue, hrelease⟩
  exact ⟨timer, (hq ▸ hwait).sleep, hdue, hending.trans hrelease⟩

namespace Machine

open Playback

/-- A settling is over or has been skipped, or it is to begin at once, or it waits. -/
inductive Settles (w : Settling) (m : Machine) : Prop
  | ended (h : w.IsOver m.playback.session.now)
  | skipped (h : w.skips < m.playback.session.skips)
  | added {t : Task} (ht : t ∈ m.playback.tasks) (hid : t.id = w.task)
    (hidle : ∀ task, m.running = some task → task.id ≠ w.task) (hagenda : t.agenda = [w.errand])
    (hpauses : t.pauses = []) (hnow : m.playback.session.now = w.since)
  | begins {task : Task} (hrun : m.running = some task) (hid : task.id = w.task) (hjobs : m.jobs = [])
    (hagenda : m.playback.turn.agenda = [w.errand]) (hpauses : m.playback.turn.pauses = [])
    (hfailed : m.playback.turn.failed = false) (hnow : m.playback.session.now = w.since)
  | waits (h : Keeps w.task (Pause.Settles w) m)

section

variable {m n : Machine} {p q : Playback} {w : Settling}

/-- A sleep ends when it is due or has been skipped. -/
theorem look_sleep_ends {timer : Timer} {skips : Nat} {ran : Bool} (hgoes : p.session.cancelled = false)
    (h : p.look (.sleep timer skips) = (q, .ends ran)) :
    timer.isDue p.session.now = true ∨ p.session.skips ≠ skips := by
  simp only [look, lookAtSleep] at h
  rw [if_neg (by simp [hgoes])] at h
  split at h
  next hends => simpa using hends
  next => cases (Prod.mk.inj h).2

/-- A settling whose sleep has ended is over or has been skipped. -/
theorem Settles.of_ends {timer : Timer} {ran : Bool} (hgoes : p.session.cancelled = false)
    (hskips : w.skips ≤ p.session.skips) (hnow : n.playback.session.now = p.session.now)
    (hle : p.session.skips ≤ n.playback.session.skips) (hdue : timer.due = w.time.endFrom w.since)
    (h : p.look (.sleep timer w.skips) = (q, .ends ran)) : Settles w n := by
  rcases look_sleep_ends hgoes h with htime | hskipped
  · cases htimer : timer.due with
    | none => simp [Timer.isDue, htimer] at htime
    | some due =>
        refine .ended ⟨due, hdue.symm.trans htimer, hnow ▸ ?_⟩
        simpa [Timer.isDue, htimer] using htime
  · exact .skipped (by omega)

/-- The sleep of a settling begins. -/
theorem Beat.settling_begins (hc : Cast m) (hgoes : m.playback.session.cancelled = false)
    (hskips : w.skips ≤ m.playback.session.skips) (hb : Beat m n) {task : Task}
    (hrun : m.running = some task) (hid : task.id = w.task) (hjobs : m.jobs = [])
    (hagenda : m.playback.turn.agenda = [w.errand]) (hpauses : m.playback.turn.pauses = [])
    (hfailed : m.playback.turn.failed = false) (hnow : m.playback.session.now = w.since) :
    Settles w n := by
  have hb' := hb
  cases hb with
  | take | drop => cases hrun
  | look | skip | cue | block | fork | close => cases hjobs
  | finish hheld =>
      rcases hheld with hheld | hnone
      · rw [Turn.isFree, hpauses, hfailed] at hheld
        cases hheld
      · cases hnone.symm.trans hagenda
  | walk _ hfirst => cases hfirst.symm.trans hagenda
  | @begin p task errand rest hfree hfirst hother =>
      obtain rfl := Option.some.inj hrun
      obtain ⟨rfl, rfl⟩ := List.cons.inj (hfirst.symm.trans hagenda)
      have hsleeps : Plays p :=
        ⟨by simp [show p.turn.pauses = [] from hpauses],
          by simp [show p.turn.agenda = [w.errand] from hagenda, Settling.errand, Errand.Yields],
          fun hf ↦ by cases hf.symm.trans hfailed⟩
      have hplays := hb'.plays (by simp) (by simp) (hc.running (by simp)).awaits hsleeps
      by_cases hsame : p.session.skips = w.skips
      · let taken := (p.updateTurn fun t ↦ { t with agenda := [] }).arm
        let timer := p.timer (w.time.endFrom p.session.now)
        have hdue : timer.due = w.time.endFrom w.since := congrArg w.time.endFrom hnow
        have hstands : (∃ x ∈ (taken.suspend (.sleep timer p.session.skips) (.release w.ticket)
            [w.ticket.scope]).turn.pauses, x.Settles w) ∨ _ :=
          suspend_keeps (lasting_settles w) ⟨timer, congrArg _ hsame, hdue, rfl⟩
        rcases hstands with ⟨x, hx, hsettles⟩ | ⟨q, ran, hlook, -⟩
        · exact .waits (.turns rfl hid hplays hx hsettles)
        · have htime := congrArg Moment.now hb'.moment
          exact .of_ends (p := taken) hgoes hskips htime hb'.resets.le hdue (hsame ▸ hlook)
      · have hle : p.session.skips ≤ _ := hb'.resets.le
        have hskips : w.skips ≤ p.session.skips := hskips
        exact .skipped (by omega)

/-- Between beats a settling waits until it is over or has been skipped. -/
theorem Beat.settles (hs : Sound m) (hc : Cast m) (hwhole : ∀ t ∈ m.playback.tasks, t.aborted = false)
    (hgoes : m.playback.session.cancelled = false) (hskips : w.skips ≤ m.playback.session.skips)
    (hb : Beat m n) (h : Settles w m) : Settles w n := by
  have hnow : n.playback.session.now = m.playback.session.now := congrArg Moment.now hb.moment
  cases h with
  | ended h => exact .ended (hnow ▸ h)
  | skipped h => exact .skipped (Nat.lt_of_lt_of_le h hb.resets.le)
  | begins hrun hid hjobs hagenda hpauses hfailed hsince =>
      exact hb.settling_begins hc hgoes hskips hrun hid hjobs hagenda hpauses hfailed hsince
  | waits h =>
      rcases hb.keeps (lasting_settles w) hs hc hwhole h with h | hends
      · exact .waits h
      · obtain @⟨p, q, task, pause, jobs, ran, -, ⟨timer, hwait, hdue, -⟩, -, hlook⟩ := hends
        exact .of_ends (p := p.aside) hgoes hskips hnow hb.resets.le hdue (hwait ▸ hlook)
  | @added t ht hid hidle hagenda hpauses hsince =>
      have hb' := hb
      cases hb with
      | @take p _ rest task hq htask =>
          by_cases he : t.id = task.id
          · obtain rfl := List.inj_on_of_nodup_map hs.orderly.nodup_ids ht (Orderly.task?_eq htask).1 he
            exact .begins rfl hid (by rw [hpauses]; rfl) hagenda hpauses rfl (hnow.trans hsince)
          · refine .added (List.mem_map.mpr ⟨t, ht, by simp [he]⟩) hid ?_ hagenda hpauses (hnow.trans hsince)
            intro other hrun
            obtain rfl := Option.some.inj hrun
            exact fun h ↦ he (hid.trans h.symm)
      | @drop p _ rest hq hgone =>
          rw [runTask_gone (p := p) hwhole hgone]
          exact .added ht hid (by simp [resting]) hagenda hpauses hsince
      | @finish p task =>
          have hne : t.id ≠ task.id := fun he ↦ hidle task rfl (he.symm.trans hid)
          exact .added (endTurn_others ht hne) hid (by simp [resting]) hagenda hpauses (hnow.trans hsince)
      | _ =>
          obtain ⟨new, hnew, -⟩ := (hb'.extends (by simp) (by simp)).tasks
          exact .added (hnew ▸ List.mem_append_left _ ht) hid hidle hagenda hpauses (hnow.trans hsince)

/-! ## Between turns -/

/-- Between turns a settling stands.  While nothing is ready, none is about to begin. -/
theorem Settles.resting (ho : Player.AtRest p) (h : Settles w (resting p)) (ha : Adjoins p q)
    (hnow : p.queue = [] ∨ q.session.now = p.session.now) : Settles w (resting q) := by
  obtain ⟨new, hnew, -⟩ := ha.tasks
  have hsub : p.tasks ⊆ q.tasks := hnew ▸ List.subset_append_left _ _
  cases h with
  | ended h => exact .ended (h.imp fun _ hdue ↦ ⟨hdue.1, Nat.le_trans hdue.2 ha.now⟩)
  | skipped h => exact .skipped (Nat.lt_of_lt_of_le h (Session.Resets.of_rooms ha.rooms).le)
  | begins hrun => cases hrun
  | waits h => exact .waits (h.resting hsub ha.outcomes ha.outOfTime)
  | added ht hid hidle hagenda hpauses hsince =>
      rcases hnow with hq | hsame
      · exact absurd hpauses (ho.resting _ ht (by simp) (by simp [hq])).1
      · exact .added (hsub ht) hid (by simp [Machine.resting]) hagenda hpauses (hsame.trans hsince)

end

end Machine

end Storyline
