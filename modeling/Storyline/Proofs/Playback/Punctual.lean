import Storyline.Proofs.Playback.Stirring

/-!
# Punctual waits

A wait is punctual if its timer has not been missed.  A look at a punctual wait
ends it, or leaves it settled and punctual.
-/

namespace Storyline

/-! ## Timers -/

def Timer.NotPast (now : Nat) (t : Timer) : Prop := ∀ due, t.due = some due → now ≤ due

def Timer.Before (t : Timer) (next : Option Nat) : Prop :=
  ∀ due, t.due = some due → ∀ tick, next = some tick → due < tick

/-- No timer of a wait has been missed, and a ticker's timer comes before the
tick that follows. -/
def Wait.Punctual (m : Moment) : Wait → Prop
  | .tap _ _ (.listening start ticks timer) =>
    timer.NotPast m.now ∧ timer.Before (m.config.voicePoll.period.tickFrom start (ticks + 1))
  | .tap _ _ (.dwelling timer) => timer.NotPast m.now
  | .sleep timer _ => timer.NotPast m.now
  | .frame _ _ _ start ticks timer =>
    timer.NotPast m.now ∧ timer.Before (m.config.shakeFrame.period.tickFrom start (ticks + 1))
  | .forward (some (start, ticks, timer)) =>
    timer.NotPast m.now ∧
      timer.Before (m.config.fastForwardInterval.period.tickFrom start (ticks + 1))
  | _ => True

theorem Timer.isDue_eq_false_iff {now : Nat} {t : Timer} :
    t.isDue now = false ↔ ∀ due, t.due = some due → now < due := by
  unfold isDue
  cases t.due with
  | none => simp
  | some due => simp

/-- A ticker that has ticked sets its timer to the next tick. -/
theorem Timer.next_tick {d : Duration} {now start ticks : Nat} {t : Timer} (order : Nat)
    (hdue : t.isDue now = true) (hpast : t.NotPast now)
    (hnext : t.Before (d.period.tickFrom start (ticks + 1))) :
    let next : Timer := ⟨d.period.tickFrom start (ticks + 1), order⟩
    next.isDue now = false ∧ next.NotPast now ∧
      next.Before (d.period.tickFrom start (ticks + 1 + 1)) := by
  have hlt : ∀ tick, d.period.tickFrom start (ticks + 1) = some tick → now < tick := by
    intro tick htick
    unfold isDue at hdue
    cases hd : t.due with
    | none => simp [hd] at hdue
    | some due => exact Nat.lt_of_le_of_lt (hpast due hd) (hnext due hd tick htick)
  refine ⟨isDue_eq_false_iff.mpr hlt, fun tick h ↦ Nat.le_of_lt (hlt tick h), ?_⟩
  exact fun tick h later h' ↦ Duration.tickFrom_lt_succ h h'

theorem Timer.first_tick (d : Duration) (now order : Nat) :
    let first : Timer := ⟨d.period.tickFrom now 1, order⟩
    first.isDue now = false ∧ first.NotPast now ∧ first.Before (d.period.tickFrom now (1 + 1)) :=
  ⟨isDue_eq_false_iff.mpr fun _ h ↦ Duration.start_lt_tickFrom h,
    fun _ h ↦ Nat.le_of_lt (Duration.start_lt_tickFrom h),
    fun _ h _ h' ↦ Duration.tickFrom_lt_succ h h'⟩

theorem Timer.notPast_endFrom (d : Duration) (now order : Nat) :
    Timer.NotPast now ⟨d.endFrom now, order⟩ := fun _ h ↦ Duration.le_endFrom h

namespace Playback

/-! ## Settled by a look -/

section look

variable {p q : Playback} {w : Wait}

theorem dwell_waits {park : Nat} {kind : Dwell} {d : Duration} (hc : p.session.cancelled = false)
    (hp : p.session.isParked park = true) (ha : p.session.autoPlay = true)
    (h : p.dwell park kind d = (q, .waits w)) : w.Settled q.session ∧ w.Punctual q.session.moment := by
  unfold dwell at h
  dsimp only at h
  split at h
  · simp [moveOn] at h
  next hdue =>
    obtain ⟨rfl, hw⟩ := Prod.mk.inj h
    obtain rfl := Verdict.waits.inj hw
    exact ⟨⟨hc, hp, ha, Bool.not_eq_true _ ▸ hdue⟩, Timer.notPast_endFrom d _ _⟩

theorem lookAtTap_waits {park : Nat} {kind : Dwell} {auto : Lingering}
    (hw : (Wait.tap park kind auto).Punctual p.session.moment)
    (h : p.lookAtTap park kind auto = (q, .waits w)) :
    w.Settled q.session ∧ w.Punctual q.session.moment := by
  unfold lookAtTap at h
  split at h
  · simp at h
  next hc =>
  split at h
  · simp at h
  next hp =>
  simp only [Bool.not_eq_true, Bool.not_eq_false, Bool.not_eq_eq_eq_not, Bool.not_true] at hc hp
  split at h
  next ha =>
    obtain ⟨rfl, hw⟩ := Prod.mk.inj h
    obtain rfl := Verdict.waits.inj hw
    exact ⟨⟨hc, by simpa using hp, by simpa using ha⟩, trivial⟩
  next ha =>
  have ha : p.session.autoPlay = true := by simpa using ha
  have hp : p.session.isParked park = true := by simpa using hp
  cases auto with
  | off =>
      cases kind with
      | fixed d => exact dwell_waits hc hp ha h
      | voice =>
          simp only [beginLingering] at h
          split at h
          · obtain ⟨rfl, hw⟩ := Prod.mk.inj h
            obtain rfl := Verdict.waits.inj hw
            obtain ⟨hdue, hpast, hnext⟩ :=
              Timer.first_tick p.session.config.voicePoll p.session.now p.session.armed
            exact ⟨⟨hc, hp, ha, hdue⟩, hpast, hnext⟩
          · simp at h
  | listening start ticks timer =>
      dsimp only at h
      split at h
      next hdue =>
        obtain ⟨rfl, hw'⟩ := Prod.mk.inj h
        obtain rfl := Verdict.waits.inj hw'
        exact ⟨⟨hc, hp, ha, by simpa using hdue⟩, hw⟩
      next hdue =>
        have hdue : timer.isDue p.session.now = true := by simpa using hdue
        split at h
        · obtain ⟨rfl, hw'⟩ := Prod.mk.inj h
          obtain rfl := Verdict.waits.inj hw'
          obtain ⟨hdue', hpast, hnext⟩ := Timer.next_tick p.session.armed hdue hw.1 hw.2
          exact ⟨⟨hc, hp, ha, hdue'⟩, hpast, hnext⟩
        · exact dwell_waits hc hp ha h
  | dwelling timer =>
      dsimp only at h
      split at h
      · simp [moveOn] at h
      next hdue =>
        obtain ⟨rfl, hw'⟩ := Prod.mk.inj h
        obtain rfl := Verdict.waits.inj hw'
        exact ⟨⟨hc, hp, ha, by simpa using hdue⟩, hw⟩

theorem lookAtFrame_waits {shake : Shake} {stamp start ticks : Nat} {d : Duration} {timer : Timer}
    (hw : (Wait.frame shake stamp d start ticks timer).Punctual p.session.moment)
    (h : p.lookAtFrame shake stamp d start ticks timer = (q, .waits w)) :
    w.Settled q.session ∧ w.Punctual q.session.moment := by
  rcases p.lookAtFrame_cases shake stamp d start ticks timer with
    ⟨hdue, h'⟩ | ⟨hdue, h' | ⟨n, finished, offset, h' | h'⟩⟩ <;> rw [h'] at h
  · obtain ⟨rfl, hw'⟩ := Prod.mk.inj h
    obtain rfl := Verdict.waits.inj hw'
    exact ⟨hdue, hw⟩
  · simp at h
  · simp at h
  · obtain ⟨hq, hw'⟩ := Prod.mk.inj h
    obtain rfl := Verdict.waits.inj hw'
    have hst := (p.stirs_sway n (Stage.sway shake stamp finished offset)).trans (stirs_arm _)
    rw [hq] at hst
    have hconfig := ((p.stirs_sway n (Stage.sway shake stamp finished offset))).config
    obtain ⟨hdue', hpast, hnext⟩ := Timer.next_tick
      (p.update (fun s ↦ Session.presentIf (Stage.sway shake stamp finished offset)
        { s with draws := n })).session.armed hdue hw.1 hw.2
    simp only [Wait.Settled, Wait.Punctual, hst.moment, hst.now, Playback.timer, hconfig]
    exact ⟨hdue', hpast, hnext⟩

theorem lookAtForward_waits {ticker : Option (Nat × Nat × Timer)}
    (hw : (Wait.forward ticker).Punctual p.session.moment) (h : p.lookAtForward ticker = (q, .waits w)) :
    w.Settled q.session ∧ w.Punctual q.session.moment := by
  unfold lookAtForward at h
  split at h
  next hf =>
    obtain ⟨rfl, hw'⟩ := Prod.mk.inj h
    obtain rfl := Verdict.waits.inj hw'
    exact ⟨by simpa [Wait.Settled] using hf, trivial⟩
  next hf =>
    have hf : p.session.fastForward = true := by simpa using hf
    rcases ticker with _ | ⟨start, ticks, timer⟩
    · dsimp only at h
      split at h
      · obtain ⟨rfl, hw'⟩ := Prod.mk.inj h
        obtain rfl := Verdict.waits.inj hw'
        obtain ⟨hdue, hpast, hnext⟩ :=
          Timer.first_tick p.session.config.fastForwardInterval p.session.now p.session.armed
        exact ⟨⟨hf, hdue⟩, hpast, hnext⟩
      · simp at h
    · dsimp only at h
      split at h
      next hdue =>
        obtain ⟨hq, hw'⟩ := Prod.mk.inj h
        obtain rfl := Verdict.waits.inj hw'
        have hst := p.stirs_fastForwardTick.trans (stirs_arm _)
        rw [hq] at hst
        obtain ⟨hdue', hpast, hnext⟩ := Timer.next_tick p.fastForwardTick.session.armed hdue hw.1 hw.2
        have hff : q.session.fastForward = true := by
          rw [← hq, ← hf]
          simp only [arm, update, fastForwardTick_session]
          rfl
        simp only [Wait.Settled, Wait.Punctual, hst.moment, hst.now, Playback.timer,
          p.stirs_fastForwardTick.config]
        exact ⟨⟨hff, hdue'⟩, hpast, hnext⟩
      next hdue =>
        obtain ⟨rfl, hw'⟩ := Prod.mk.inj h
        obtain rfl := Verdict.waits.inj hw'
        exact ⟨⟨hf, by simpa using hdue⟩, hw⟩

/-- A wait that goes on after a look is settled. -/
theorem look_waits {wait : Wait} (hw : wait.Punctual p.session.moment)
    (h : p.look wait = (q, .waits w)) : w.Settled q.session ∧ w.Punctual q.session.moment := by
  cases wait with
  | tap park kind auto => exact lookAtTap_waits hw h
  | sleep timer skips =>
      simp only [look, lookAtSleep] at h
      split at h
      · simp at h
      next hc =>
        split at h
        · simp at h
        next hdue =>
          obtain ⟨rfl, hw'⟩ := Prod.mk.inj h
          obtain rfl := Verdict.waits.inj hw'
          simp only [Bool.or_eq_true, not_or, Bool.not_eq_true, bne_eq_false_iff_eq] at hdue hc
          exact ⟨⟨hc, hdue⟩, hw⟩
  | drained scope tally guarded =>
      simp only [look, lookAtCount] at h
      split at h
      · simp at h
      next hc =>
        split at h
        · simp at h
        next hp =>
          obtain ⟨rfl, hw'⟩ := Prod.mk.inj h
          obtain rfl := Verdict.waits.inj hw'
          refine ⟨⟨fun hg ↦ ?_, hp⟩, trivial⟩
          simpa [hg] using hc
  | cancelled =>
      simp only [look] at h
      split at h
      · simp at h
      next hc =>
        obtain ⟨rfl, hw'⟩ := Prod.mk.inj h
        obtain rfl := Verdict.waits.inj hw'
        exact ⟨by simpa [Wait.Settled] using hc, trivial⟩
  | frame shake stamp d start ticks timer => exact lookAtFrame_waits hw h
  | forward ticker => exact lookAtForward_waits hw h

end look

end Playback

end Storyline
