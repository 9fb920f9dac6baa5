import Storyline.Proofs.Forks.Strays
import Storyline.Proofs.Player.Reach

/-!
# Time passes with and without strays

The tasks of the main timeline have their turns in the same order and at the same
times in the story and in its solo.  In between the story may take turns of its
strays, and stop the clock for them.
-/

namespace Storyline

namespace Playback

open Player (AtRest)

variable {N M : Naming} {p v : Playback}

/-! ## The queue -/

theorem runReady_add (m n : Nat) (p : Playback) : runReady (m + n) p = runReady n (runReady m p) := by
  induction m generalizing p with
  | zero => rw [Nat.zero_add, runReady]
  | succ m ih =>
      rw [Nat.succ_add]
      cases hq : p.queue with
      | nil => rw [runReady_idle hq, runReady_idle hq, runReady_idle hq]
      | cons id rest =>
          simp only [runReady, hq]
          exact ih _

/-- Turns until nothing is ready lead to one playback, however many are allowed. -/
theorem runReady_unique {m n : Nat} (hm : (runReady m p).queue = []) (hn : (runReady n p).queue = []) :
    runReady m p = runReady n p := by
  rw [← runReady_idle hm n, ← runReady_add, Nat.add_comm, runReady_add, runReady_idle hn]

/-- Turns in a row: those of the main timeline are taken in both playbacks. -/
theorem Mirrors.runReady (h : p.Mirrors N v) (n : Nat) :
    ∃ M k, N ≤ M ∧ (runReady n p).Mirrors M (runReady k v) := by
  induction n generalizing N p v with
  | zero => exact ⟨N, 0, le_rfl, h⟩
  | succ n ih =>
      cases hq : p.queue with
      | nil =>
          rw [runReady_idle hq]
          exact ⟨N, 0, le_rfl, h⟩
      | cons id rest =>
          have hqueue := h.queue
          rw [hq] at hqueue
          have hstep : Playback.runReady (n + 1) p =
              Playback.runReady n (Playback.runTask id { p with queue := rest }) := by
            simp only [Playback.runReady, hq]
          rw [hstep]
          generalize hw : v.queue = queue at hqueue
          cases hqueue with
          | @pair _ id' _ rest' hid hrest =>
              have htaken : ({ p with queue := rest }).Mirrors N { v with queue := rest' } :=
                { h with queue := hrest }
              obtain ⟨L, hle, hrun⟩ := htaken.runTask hid
              obtain ⟨M, k, hle', hmore⟩ := ih hrun
              refine ⟨M, k + 1, hle.trans hle', ?_⟩
              simp only [Playback.runReady, hw]
              exact hmore
          | stray hid hrest =>
              have htaken : ({ p with queue := rest }).Mirrors N v :=
                { h with queue := hw ▸ hrest }
              obtain ⟨L, hle, hrun⟩ := htaken.runStray hid
              obtain ⟨M, k, hle', hmore⟩ := ih hrun
              exact ⟨M, k, hle.trans hle', hmore⟩

theorem Mirrors.queue_nil (h : p.Mirrors N v) (hq : p.queue = []) : v.queue = [] := by
  have hqueue := h.queue
  rw [hq] at hqueue
  generalize v.queue = queue at hqueue
  cases hqueue
  rfl

theorem Mirrors.settle (h : p.Mirrors N v) (hp : p.settle.queue = []) (hv : v.settle.queue = []) :
    ∃ M, N ≤ M ∧ p.settle.Mirrors M v.settle := by
  obtain ⟨M, k, hle, hrun⟩ := h.runReady p.turnBound
  have hsettled : Playback.runReady k v = v.settle := runReady_unique (hrun.queue_nil hp) hv
  exact ⟨M, hle, hsettled ▸ hrun⟩

/-- While nothing of the main timeline is ready, only strays have their turns. -/
theorem Mirrors.settleStrays (h : p.Mirrors N v) (hv : v.queue = []) :
    ∃ M, N ≤ M ∧ p.settle.Mirrors M v := by
  obtain ⟨M, k, hle, hrun⟩ := h.runReady p.turnBound
  rw [runReady_idle hv] at hrun
  exact ⟨M, hle, hrun⟩

/-! ## The clock -/

/-- Sets the clock, and wakes nobody. -/
def setNow (time : Nat) (p : Playback) : Playback := p.update fun s ↦ { s with now := time }

theorem Mirrors.setNow (h : p.Mirrors N v) (time : Nat) : (p.setNow time).Mirrors N (v.setNow time) :=
  h.withSession (h.session.setNow time)

theorem Mirrors.timers (h : p.Mirrors N v) :
    Weave (fun x y ↦ N.SameTimer x.1 y.1 ∧ (x.2, y.2) ∈ N.tasks) (fun x ↦ x.2 ∈ N.strayTasks)
      p.timers v.timers := by
  refine h.tasks.flatMap (fun ht ↦ .of_forall₂ (List.rel_filterMap (fun x x' hx ↦ ?_) ht.pauses))
    fun {t} ht c hc ↦ ?_
  · obtain ⟨wait, ending, scopes⟩ := x
    obtain ⟨wait', ending', scopes'⟩ := x'
    cases hx.wait with
    | tap _ _ hauto =>
        cases hauto with
        | off => exact .none
        | listening _ _ hs => exact .some ⟨hs, ht.id⟩
        | dwelling hs => exact .some ⟨hs, ht.id⟩
    | sleep hs => exact .some ⟨hs, ht.id⟩
    | drained => exact .none
    | unlit => exact .none
    | ticks _ _ hs => exact .some ⟨hs, ht.id⟩
  · obtain ⟨x, -, hx⟩ := List.mem_filterMap.mp hc
    obtain ⟨timer, -, rfl⟩ := Option.map_eq_some_iff.mp hx
    exact ht.id

/-- Timers of the main timeline are due in the same order in both playbacks. -/
theorem Mirrors.moveTo (h : p.Mirrors N v) (time : Nat) :
    (p.moveTo time).Mirrors N (v.moveTo time) := by
  have hdue := h.timers.filter (p := fun t ↦ t.1.due == some time) (q := fun t ↦ t.1.due == some time)
    fun ht ↦ by rw [ht.1.due]
  have hsorted : Weave _ _ (sortBy (fun t : Timer × Nat ↦ t.1.order) _)
      (sortBy (fun t : Timer × Nat ↦ t.1.order) _) :=
    hdue.sortBy fun _ _ _ _ hab hcd ↦ h.session.timers.lt_iff hab.1.order hcd.1.order
  have hids := hsorted.map (f := Prod.snd) (g := Prod.snd) (S := fun a b ↦ (a, b) ∈ N.tasks)
    (P := (· ∈ N.strayTasks)) (fun ht ↦ ht.2) fun ht ↦ ht
  unfold Playback.moveTo
  dsimp only
  rw [wakeAll_eq, wakeAll_eq]
  exact { h.setNow time with queue := h.enqueue hids }

theorem exists_timer_of_nextDue {next : Nat} (h : v.nextDue = some next) :
    ∃ timer id, (timer, id) ∈ v.timers ∧ timer.due = some next := by
  obtain ⟨⟨timer, id⟩, hmem, hdue⟩ := List.mem_filterMap.mp (List.min?_eq_some_iff.mp h).1
  exact ⟨timer, id, hmem, (Option.filter_eq_some_iff.mp hdue).1⟩

/-- What the clock of the solo stops for, the clock of the story stops for. -/
theorem Mirrors.nextDue_le {time due : Nat} (h : p.Mirrors N (v.setNow time)) (hp : AtRest p)
    (hq : p.queue = []) (hdue : v.nextDue = some due) :
    ∃ next, p.nextDue = some next ∧ next ≤ due := by
  obtain ⟨timer, id, htimer, hdue⟩ := exists_timer_of_nextDue hdue
  obtain ⟨⟨timer', id'⟩, hmem, hsame, -⟩ := h.timers.exists_of_mem_right htimer
  obtain ⟨t, ht, -, x, hx, hx'⟩ := mem_timers.mp hmem
  exact Playback.nextDue_le hp hq ht hx hx' (hsame.due.trans hdue)

theorem moveTo_idle {time : Nat} (h : ∀ t ∈ v.timers, t.1.due ≠ some time) :
    v.moveTo time = v.setNow time := by
  have hnone : v.timers.filter (fun t ↦ t.1.due == some time) = [] :=
    List.filter_eq_nil_iff.mpr fun t ht ↦ by simpa using h t ht
  unfold moveTo
  rw [hnone]
  rfl

theorem passTime_idle {target : Nat} (h : ∀ next, v.nextDue = some next → target < next)
    (n : Nat) : passTime target n v = v.setNow target := by
  cases n with
  | zero => rfl
  | succ n =>
      unfold passTime
      split
      next next hnext => rw [if_neg (Nat.not_le_of_lt (h next hnext))]; rfl
      next => rfl

theorem Mirrors.passTime_idle {target n m : Nat} (h : p.Mirrors N (v.setNow p.session.now))
    (hp : AtRest p) (hq : p.queue = []) (hnext : ∀ next, p.nextDue = some next → target < next) :
    (passTime target n p).Mirrors N (passTime target m v) := by
  have hnext' : ∀ due, v.nextDue = some due → target < due := by
    intro due hdue
    obtain ⟨next, hstop, hle⟩ := h.nextDue_le hp hq hdue
    exact Nat.lt_of_lt_of_le (hnext next hstop) hle
  rw [Playback.passTime_idle hnext, Playback.passTime_idle hnext']
  exact h.setNow target

/-- Time passes in both playbacks.  The clock of the solo lags behind while the
story stops for strays. -/
theorem Mirrors.passTime {target n m : Nat} (h : p.Mirrors N (v.setNow p.session.now))
    (hp : AtRest p) (hv : AtRest v) (hpq : p.queue = []) (hvq : v.queue = [])
    (hlag : v.session.now ≤ p.session.now) (htarget : p.session.now ≤ target)
    (hn : target ≤ p.session.now + n) (hm : target ≤ v.session.now + m) :
    ∃ M, N ≤ M ∧ (passTime target n p).Mirrors M (passTime target m v) := by
  induction n generalizing N p v m with
  | zero =>
      refine ⟨N, le_rfl, h.passTime_idle hp hpq fun next hnext ↦ ?_⟩
      have := lt_nextDue hnext
      omega
  | succ n ih =>
      by_cases hstop : ∃ due, p.nextDue = some due ∧ due ≤ target
      · obtain ⟨due, hdue, hle⟩ := hstop
        have hlt := lt_nextDue hdue
        have hmoved := hp.moveTo hpq hdue
        have hsettled := settle_orderly hmoved
        have hnow : (p.moveTo due).settle.session.now = due := congrArg Moment.now hsettled.moment
        have hpass : Playback.passTime target (n + 1) p =
            Playback.passTime target n (p.moveTo due).settle := by
          simp only [Playback.passTime, hdue, hle, if_true]
        rw [hpass]
        have hboth : (p.moveTo due).Mirrors N (v.moveTo due) := h.moveTo due
        by_cases hmain : v.nextDue = some due
        · have hmoved' := hv.moveTo hvq hmain
          have hsettled' := settle_orderly hmoved'
          have hnow' : (v.moveTo due).settle.session.now = due :=
            congrArg Moment.now hsettled'.moment
          obtain ⟨k, rfl⟩ : ∃ k, m = k + 1 := ⟨m - 1, by omega⟩
          have hpass' : Playback.passTime target (k + 1) v =
              Playback.passTime target k (v.moveTo due).settle := by
            simp only [Playback.passTime, hmain, hle, if_true]
          rw [hpass']
          obtain ⟨L, hle₁, hL⟩ := hboth.settle (settle_queue hmoved) (settle_queue hmoved')
          have hclock : (v.moveTo due).settle.setNow (p.moveTo due).settle.session.now =
              (v.moveTo due).settle := by
            rw [hnow]
            nth_rewrite 1 [← hnow']
            rfl
          obtain ⟨M, hle₂, hM⟩ := ih (m := k) (by rw [hclock]; exact hL) (.of_orderly hsettled)
            (.of_orderly hsettled') (settle_queue hmoved) (settle_queue hmoved')
            (by omega) (by omega) (by omega) (by omega)
          exact ⟨M, hle₁.trans hle₂, hM⟩
        · -- only strays are due: the solo stays where it is
          have hidle : v.moveTo due = v.setNow due := by
            refine moveTo_idle fun t ht hdue' ↦ hmain ?_
            obtain ⟨x, hx, hxid, y, hy, hy'⟩ := mem_timers.mp ht
            obtain ⟨next, hnext, hle'⟩ := Playback.nextDue_le hv hvq hx hy hy' hdue'
            obtain ⟨next', hnext', hle''⟩ := h.nextDue_le hp hpq hnext
            have hsame : due = next' := Option.some.inj (hdue.symm.trans hnext')
            rw [hnext, Nat.le_antisymm hle' (hsame ▸ hle'')]
          rw [hidle] at hboth
          obtain ⟨L, hle₁, hL⟩ := hboth.settleStrays hvq
          obtain ⟨M, hle₂, hM⟩ := ih (m := m) (by rw [hnow]; exact hL) (.of_orderly hsettled) hv
            (settle_queue hmoved) hvq (by omega) (by omega) (by omega) hm
          exact ⟨M, hle₁.trans hle₂, hM⟩
      · refine ⟨N, le_rfl, h.passTime_idle hp hpq fun next hnext ↦ ?_⟩
        exact Nat.lt_of_not_le fun hle ↦ hstop ⟨next, hnext, hle⟩

theorem Mirrors.advance (h : p.Mirrors N v) (hp : AtRest p) (hv : AtRest v) (ms : Nat) :
    ∃ M, N ≤ M ∧ (p.advance ms).Mirrors M (v.advance ms) := by
  have hsettled := settle_orderly hp
  have hsettled' := settle_orderly hv
  obtain ⟨L, hle, hL⟩ := h.settle (settle_queue hp) (settle_queue hv)
  have hclock : v.settle.setNow p.settle.session.now = v.settle := by
    rw [hL.session.now]
    rfl
  have hpassed : ∃ M, L ≤ M ∧
      (Playback.passTime (p.settle.session.now + ms) ms p.settle).Mirrors M
        (Playback.passTime (p.settle.session.now + ms) ms v.settle) :=
    Mirrors.passTime (by rw [hclock]; exact hL) (.of_orderly hsettled) (.of_orderly hsettled')
      (settle_queue hp) (settle_queue hv) (Nat.le_of_eq hL.session.now.symm)
      (Nat.le_add_right _ _) (Nat.le_refl _) (Nat.le_of_eq (by rw [hL.session.now]))
  obtain ⟨M, hle', hM⟩ := hpassed
  unfold Playback.advance
  dsimp only
  rw [← hL.session.now]
  exact ⟨M, hle.trans hle', hM⟩

end Playback

end Storyline
