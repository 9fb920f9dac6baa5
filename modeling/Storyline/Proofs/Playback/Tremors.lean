import Storyline.Proofs.Playback.Shakes

/-!
# Shakes in the course of a run

Every target that is not at rest has one driver with its stamp.  The frames of a
driver come at regular times, and the shake has not lasted long enough at any of
them but the last.  A driver that has been overtaken changes nothing any more.
-/

namespace Storyline

/-- When a frame of a shake comes that has started at the given time. -/
def Config.frameAt (c : Config) (start : Nat) : Nat → Option Nat
  | 0 => some start
  | ticks => c.shakeFrame.period.tickFrom start ticks

namespace Machine

open Playback

/-- A target is not at rest. -/
def Moves (m : Machine) (k : Shake) : Prop :=
  (m.target k).duration ≠ .zero ∨ (m.target k).offset ≠ Stage.still

/-- The frame that a driver waits for is the first one but those at which its shake
had not lasted long enough. -/
def Timed (c : Config) (now : Nat) (x : Driver) : Prop :=
  ∀ start ticks timer, x.frame = some (start, ticks, timer) →
    0 < ticks ∧ timer.due = c.frameAt start ticks ∧
      ∀ tick < ticks, ∃ time, c.frameAt start tick = some time ∧ time ≤ now ∧
        (Duration.ofMillis (time - start)).nanos < x.duration.nanos

/-- The order that drivers and targets keep by their stamps. -/
structure Driven (m : Machine) : Prop where
  nodup : (m.drivers.map Driver.stamp).Nodup
  issued : ∀ x ∈ m.drivers, x.stamp < m.playback.session.serial
  latest : ∀ x ∈ m.drivers, x.stamp ≤ (m.target x.shake).stamp
  driven : ∀ k, m.Moves k → ∃ x ∈ m.drivers, x.shake = k ∧ x.stamp = (m.target k).stamp
  lasting : ∀ x ∈ m.drivers, x.stamp = (m.target x.shake).stamp → x.duration = (m.target x.shake).duration
  within : ∀ k, Within m.playback.session.config.shakeMagnitude.abs (m.target k).offset
  timed : ∀ x ∈ m.drivers, Timed m.playback.session.config m.playback.session.now x

/-- Neither the clock nor the counter of a session goes back. -/
structure Ages (m n : Machine) : Prop where
  config : n.playback.session.config = m.playback.session.config
  serial : m.playback.session.serial ≤ n.playback.session.serial
  now : m.playback.session.now ≤ n.playback.session.now

section

variable {m n : Machine} {x : Driver}

theorem Timed.later {c : Config} {now later : Nat} (hle : now ≤ later) (h : Timed c now x) :
    Timed c later x := by
  intro start ticks timer hframe
  obtain ⟨hpos, hdue, hbefore⟩ := h start ticks timer hframe
  refine ⟨hpos, hdue, fun tick htick ↦ ?_⟩
  obtain ⟨time, htime, hpast, hlasts⟩ := hbefore tick htick
  exact ⟨time, htime, Nat.le_trans hpast hle, hlasts⟩

theorem Timed.frameAt {c : Config} {now start ticks : Nat} (h : Timed c now x)
    (hframe : x.Reaches now start ticks) : c.frameAt start ticks = some now := by
  rcases hframe with ⟨-, rfl, rfl⟩ | ⟨timer, hframe, hdue⟩
  · rfl
  · exact (h start ticks timer hframe).2.1.symm.trans hdue

/-- The next frame of a shake that has not lasted long enough yet. -/
theorem Timed.sways {c : Config} {now start ticks : Nat} {timer : Timer} (h : Timed c now x)
    (hframe : x.Reaches now start ticks)
    (hdue : timer.due = c.shakeFrame.period.tickFrom start (ticks + 1))
    (hlasts : (Duration.ofMillis (now - start)).nanos < x.duration.nanos) :
    Timed c now { x with frame := some (start, ticks + 1, timer) } := by
  intro start' ticks' timer' hnext
  obtain ⟨rfl, rfl, rfl⟩ : start = start' ∧ ticks + 1 = ticks' ∧ timer = timer' := by
    simpa using hnext
  refine ⟨Nat.succ_pos _, hdue, fun tick htick ↦ ?_⟩
  rcases Nat.lt_succ_iff_lt_or_eq.mp htick with htick | rfl
  · rcases hframe with ⟨-, -, rfl⟩ | ⟨timer', hframe, -⟩
    · omega
    · exact (h start ticks timer' hframe).2.2 tick htick
  · exact ⟨now, h.frameAt hframe, Nat.le_refl _, hlasts⟩

/-! ## What a step keeps -/

section

variable (hon : Ages m n) (hm : Driven m)

include hon hm

theorem Driven.issued_after {y : Driver} (hy : y ∈ m.drivers) : y.stamp < n.playback.session.serial :=
  Nat.lt_of_lt_of_le (hm.issued y hy) hon.serial

theorem Driven.timed_after {y : Driver} (hy : y ∈ m.drivers) :
    Timed n.playback.session.config n.playback.session.now y :=
  hon.config ▸ (hm.timed y hy).later hon.now

theorem Driven.within_after {k : Shake} (h : (n.target k).offset = (m.target k).offset) :
    Within n.playback.session.config.shakeMagnitude.abs (n.target k).offset := by
  rw [h, hon.config]
  exact hm.within k

theorem Driven.calm (hdrivers : n.drivers.Perm m.drivers) (htargets : n.target = m.target) : Driven n where
  nodup := (hdrivers.map _).nodup_iff.mpr hm.nodup
  issued := fun _ hy ↦ hm.issued_after hon (hdrivers.mem_iff.mp hy)
  latest := fun y hy ↦ htargets ▸ hm.latest y (hdrivers.mem_iff.mp hy)
  driven := by
    intro k hk
    unfold Moves at hk
    rw [htargets] at hk ⊢
    obtain ⟨y, hy, h⟩ := hm.driven k hk
    exact ⟨y, hdrivers.mem_iff.mpr hy, h⟩
  lasting := fun y hy ↦ htargets ▸ hm.lasting y (hdrivers.mem_iff.mp hy)
  within := fun k ↦ hm.within_after hon (by rw [htargets])
  timed := fun _ hy ↦ hm.timed_after hon (hdrivers.mem_iff.mp hy)

theorem Driven.rouse (hbegins : x.frame = none) (hstamp : x.stamp = m.playback.session.serial)
    (hserial : m.playback.session.serial < n.playback.session.serial)
    (hdrivers : n.drivers.Perm (x :: m.drivers))
    (htarget : n.target x.shake = ⟨x.duration, (m.target x.shake).offset, x.stamp⟩)
    (hothers : ∀ k, k ≠ x.shake → n.target k = m.target k) : Driven n := by
  have hnew : ∀ {y}, y ∈ n.drivers → y = x ∨ y ∈ m.drivers ∧ y.stamp < x.stamp :=
    fun hy ↦ (List.mem_cons.mp (hdrivers.mem_iff.mp hy)).imp_right
      fun hy ↦ ⟨hy, hstamp ▸ hm.issued _ hy⟩
  refine ⟨?_, fun y hy ↦ ?_, fun y hy ↦ ?_, fun k hk ↦ ?_, fun y hy hcurrent ↦ ?_,
    fun k ↦ hm.within_after hon ?_, fun y hy ↦ ?_⟩
  · refine (hdrivers.map _).nodup_iff.mpr (List.nodup_cons.mpr ⟨fun hmem ↦ ?_, hm.nodup⟩)
    obtain ⟨y, hy, he⟩ := List.mem_map.mp hmem
    have := hm.issued y hy
    omega
  · rcases hnew hy with rfl | ⟨hy, -⟩
    · omega
    · exact hm.issued_after hon hy
  · rcases hnew hy with rfl | ⟨hy, hlt⟩
    · exact Nat.le_of_eq (by rw [htarget])
    · by_cases hshake : y.shake = x.shake
      · rw [hshake, htarget]
        exact Nat.le_of_lt hlt
      · rw [hothers _ hshake]
        exact hm.latest y hy
  · by_cases hshake : k = x.shake
    · subst hshake
      exact ⟨x, hdrivers.mem_iff.mpr List.mem_cons_self, rfl, by rw [htarget]⟩
    · unfold Moves at hk
      rw [hothers k hshake] at hk ⊢
      obtain ⟨y, hy, h⟩ := hm.driven k hk
      exact ⟨y, hdrivers.mem_iff.mpr (List.mem_cons_of_mem _ hy), h⟩
  · rcases hnew hy with rfl | ⟨hy, hlt⟩
    · rw [htarget]
    · by_cases hshake : y.shake = x.shake
      · rw [hshake, htarget] at hcurrent
        exact absurd hcurrent (Nat.ne_of_lt hlt)
      · rw [hothers _ hshake] at hcurrent ⊢
        exact hm.lasting y hy hcurrent
  · by_cases hshake : k = x.shake
    · rw [hshake, htarget]
    · rw [hothers k hshake]
  · rcases hnew hy with rfl | ⟨hy, -⟩
    · intro start ticks timer hframe
      cases hbegins.symm.trans hframe
    · exact hm.timed_after hon hy

/-- A driver ends that has been overtaken. -/
theorem Driven.stale (hdrivers : m.drivers.Perm (x :: n.drivers)) (hstamp : (m.target x.shake).stamp ≠ x.stamp)
    (htargets : n.target = m.target) : Driven n := by
  have hold : ∀ {y}, y ∈ n.drivers → y ∈ m.drivers :=
    fun hy ↦ hdrivers.mem_iff.mpr (List.mem_cons_of_mem _ hy)
  refine ⟨(List.nodup_cons.mp ((hdrivers.map _).nodup_iff.mp hm.nodup)).2,
    fun y hy ↦ hm.issued_after hon (hold hy), fun y hy ↦ htargets ▸ hm.latest y (hold hy), fun k hk ↦ ?_,
    fun y hy ↦ htargets ▸ hm.lasting y (hold hy), fun k ↦ hm.within_after hon (by rw [htargets]),
    fun y hy ↦ hm.timed_after hon (hold hy)⟩
  unfold Moves at hk
  rw [htargets] at hk ⊢
  obtain ⟨y, hy, rfl, hcurrent⟩ := hm.driven k hk
  rcases List.mem_cons.mp (hdrivers.mem_iff.mp hy) with rfl | hy
  · exact absurd hcurrent.symm hstamp
  · exact ⟨y, hy, rfl, hcurrent⟩

/-- A driver ends and leaves its target at rest. -/
theorem Driven.rests (hdrivers : m.drivers.Perm (x :: n.drivers)) (hstamp : (m.target x.shake).stamp = x.stamp)
    (htarget : n.target x.shake = ⟨.zero, Stage.still, x.stamp⟩)
    (hothers : ∀ k, k ≠ x.shake → n.target k = m.target k) : Driven n := by
  obtain ⟨hlast, hnodup⟩ := List.nodup_cons.mp ((hdrivers.map _).nodup_iff.mp hm.nodup)
  have hold : ∀ {y}, y ∈ n.drivers → y ∈ m.drivers :=
    fun hy ↦ hdrivers.mem_iff.mpr (List.mem_cons_of_mem _ hy)
  refine ⟨hnodup, fun y hy ↦ hm.issued_after hon (hold hy), fun y hy ↦ ?_, fun k hk ↦ ?_,
    fun y hy hcurrent ↦ ?_, fun k ↦ ?_, fun y hy ↦ hm.timed_after hon (hold hy)⟩
  · have hlatest := hm.latest y (hold hy)
    by_cases hshake : y.shake = x.shake
    · rw [hshake, htarget]
      rwa [hshake, hstamp] at hlatest
    · rwa [hothers _ hshake]
  · by_cases hshake : k = x.shake
    · rw [Moves, hshake, htarget] at hk
      exact (hk.elim (fun h ↦ h rfl) fun h ↦ h rfl).elim
    · unfold Moves at hk
      rw [hothers k hshake] at hk ⊢
      obtain ⟨y, hy, rfl, h⟩ := hm.driven k hk
      rcases List.mem_cons.mp (hdrivers.mem_iff.mp hy) with rfl | hy
      · exact absurd rfl hshake
      · exact ⟨y, hy, rfl, h⟩
  · by_cases hshake : y.shake = x.shake
    · rw [hshake, htarget] at hcurrent
      exact absurd (List.mem_map.mpr ⟨y, hy, hcurrent⟩) hlast
    · rw [hothers _ hshake] at hcurrent ⊢
      exact hm.lasting y (hold hy) hcurrent
  · by_cases hshake : k = x.shake
    · rw [hshake, htarget]
      exact .inl rfl
    · exact hm.within_after hon (by rw [hothers k hshake])

theorem Driven.sways {start ticks : Nat} {timer : Timer} {offset : Binary32 × Binary32} {rest : List Driver}
    (hframe : x.Reaches m.playback.session.now start ticks) (hbefore : m.drivers.Perm (x :: rest))
    (hafter : n.drivers.Perm ({ x with frame := some (start, ticks + 1, timer) } :: rest))
    (hdue : timer.due = m.playback.session.config.shakeFrame.period.tickFrom start (ticks + 1))
    (hstamp : (m.target x.shake).stamp = x.stamp)
    (hlasts : (Duration.ofMillis (m.playback.session.now - start)).nanos < x.duration.nanos)
    (hoffset : Within m.playback.session.config.shakeMagnitude.abs offset)
    (htarget : n.target x.shake = { m.target x.shake with offset := offset })
    (hothers : ∀ k, k ≠ x.shake → n.target k = m.target k) : Driven n := by
  have hx : x ∈ m.drivers := hbefore.mem_iff.mpr List.mem_cons_self
  have hnew : ∀ {y}, y ∈ n.drivers → y = { x with frame := some (start, ticks + 1, timer) } ∨ y ∈ m.drivers :=
    fun hy ↦ (List.mem_cons.mp (hafter.mem_iff.mp hy)).imp_right
      fun hy ↦ hbefore.mem_iff.mpr (List.mem_cons_of_mem _ hy)
  have hsame : ∀ k, (n.target k).stamp = (m.target k).stamp ∧ (n.target k).duration = (m.target k).duration := by
    intro k
    by_cases hshake : k = x.shake
    · rw [hshake, htarget]
      exact ⟨rfl, rfl⟩
    · rw [hothers k hshake]
      exact ⟨rfl, rfl⟩
  refine ⟨?_, fun y hy ↦ ?_, fun y hy ↦ ?_, fun k hk ↦ ?_, fun y hy hcurrent ↦ ?_, fun k ↦ ?_, fun y hy ↦ ?_⟩
  · exact (hafter.map _).nodup_iff.mpr ((hbefore.map Driver.stamp).nodup_iff.mp hm.nodup)
  · rcases hnew hy with rfl | hy
    · exact Nat.lt_of_lt_of_le (hm.issued x hx) hon.serial
    · exact hm.issued_after hon hy
  · rw [(hsame y.shake).1]
    rcases hnew hy with rfl | hy
    · exact hm.latest x hx
    · exact hm.latest y hy
  · by_cases hshake : k = x.shake
    · exact ⟨_, hafter.mem_iff.mpr List.mem_cons_self, hshake.symm, by rw [(hsame k).1, hshake, hstamp]⟩
    · unfold Moves at hk
      rw [hothers k hshake] at hk ⊢
      obtain ⟨y, hy, rfl, h⟩ := hm.driven k hk
      rcases List.mem_cons.mp (hbefore.mem_iff.mp hy) with rfl | hy
      · exact absurd rfl hshake
      · exact ⟨y, hafter.mem_iff.mpr (List.mem_cons_of_mem _ hy), rfl, h⟩
  · rw [(hsame y.shake).1] at hcurrent
    rw [(hsame y.shake).2]
    rcases hnew hy with rfl | hy
    · exact hm.lasting x hx hcurrent
    · exact hm.lasting y hy hcurrent
  · by_cases hshake : k = x.shake
    · rw [hshake, htarget, hon.config]
      exact hoffset
    · exact hm.within_after hon (by rw [hothers k hshake])
  · rcases hnew hy with rfl | hy
    · exact hon.config ▸ ((hm.timed x hx).sways hframe hdue hlasts).later hon.now
    · exact hm.timed_after hon hy

theorem Tremor.driven (h : Tremor m n) : Driven n := by
  cases h with
  | calm hdrivers htargets => exact hm.calm hon hdrivers htargets
  | rouse x hbegins hstamp hserial hdrivers htarget hothers =>
      exact hm.rouse hon hbegins hstamp hserial hdrivers htarget hothers
  | stale x start ticks draws armed hframe hdrivers hstamp hsession =>
      exact hm.stale hon hdrivers hstamp (by rw [target, hsession]; rfl)
  | rests x start ticks hframe hdrivers hstamp hover htarget hothers =>
      exact hm.rests hon hdrivers hstamp htarget hothers
  | sways x start ticks timer offset rest hframe hbefore hafter hdue hstamp hlasts hoffset htarget hothers =>
      exact hm.sways hon hframe hbefore hafter hdue hstamp hlasts hoffset htarget hothers

end

/-! ## Runs -/

section

variable {acts : Playback → Playback → Prop}

theorem Step.ages (hacts : ∀ p q, acts p q → Player.AtRest p → Meek p q) (hs : Sound m)
    (hstep : Step acts m n) : Ages m n := by
  have hserial : m.playback.session.serial ≤ n.playback.session.serial := (hstep.veils hacts hs).serial
  cases hstep with
  | beat hb =>
      exact ⟨congrArg Moment.config hb.moment, hserial, Nat.le_of_eq (congrArg Moment.now hb.moment).symm⟩
  | act ha =>
      have hmoment := (hacts _ _ ha hs.orderly).moment
      exact ⟨congrArg Moment.config hmoment, hserial, Nat.le_of_eq (congrArg Moment.now hmoment).symm⟩
  | @move p time hq hnext =>
      obtain ⟨queue, hmoved⟩ := moveTo_eq time p
      rw [hmoved] at hserial ⊢
      exact ⟨rfl, hserial, Nat.le_of_lt (lt_nextDue hnext)⟩
  | rest hq hle => exact ⟨rfl, hserial, hle⟩

theorem Step.host (hacts : ∀ p q, acts p q → Player.AtRest p → Meek p q) (hs : Sound m)
    (hstep : Step acts m n) : n.playback.session.host = m.playback.session.host := by
  cases hstep with
  | beat hb => exact congrArg Moment.host hb.moment
  | act ha => exact congrArg Moment.host (hacts _ _ ha hs.orderly).moment
  | @move p time hq hnext =>
      obtain ⟨queue, hmoved⟩ := moveTo_eq time p
      rw [hmoved]
      rfl
  | rest => rfl

variable (hacts : ∀ p q, acts p q → Player.AtRest p → Meek p q ∧ Unshaken p q)

include hacts

/-- What a step does, and that the order of the stamps goes on. -/
theorem Step.driven (hs : Sound m) (hm : Manned m) (hd : Driven m) (hstep : Step acts m n) :
    Tremor m n ∧ Manned n ∧ Driven n := by
  have hmeek : ∀ p q, acts p q → Player.AtRest p → Meek p q := fun p q ha hp ↦ (hacts p q ha hp).1
  have hon := hstep.ages hmeek hs
  obtain ⟨htremor, hposted⟩ := hstep.tremor hacts hs hm
  refine ⟨htremor, ⟨hstep.cast hmeek hs hm.cast, hstep.running hmeek hs hm.goes,
    hstep.whole hmeek hs hm.whole, ?_, hposted⟩, htremor.driven hon hd⟩
  rw [hstep.host hmeek hs, hon.config]
  exact hm.draws

theorem Runs.driven (hr : Runs acts m n) (hs : Sound m) (hm : Manned m) (hd : Driven m) :
    (Manned n ∧ Driven n) ∧ Sound n :=
  hr.induct (fun p q ha hp ↦ (hacts p q ha hp).1.rest) hs ⟨hm, hd⟩
    fun _ _ hk hI hstep ↦ (hstep.driven hacts hk hI.1 hI.2).2

theorem Runs.ages (hr : Runs acts m n) (hs : Sound m) : Ages m n :=
  (hr.induct (I := fun k ↦ Ages m k) (fun p q ha hp ↦ (hacts p q ha hp).1.rest) hs
    ⟨rfl, Nat.le_refl _, Nat.le_refl _⟩ fun _ _ hk hI hstep ↦ by
      have hon := hstep.ages (fun p q ha hp ↦ (hacts p q ha hp).1) hk
      exact ⟨hon.config.trans hI.config, Nat.le_trans hI.serial hon.serial, Nat.le_trans hI.now hon.now⟩).1

/-! ## Drivers that have been overtaken -/

omit hacts in
theorem Driven.eq_of_stamp (hd : Driven m) {y : Driver} (hx : x ∈ m.drivers) (hy : y ∈ m.drivers)
    (h : x.stamp = y.stamp) : x = y := List.inj_on_of_nodup_map hd.nodup hx hy h

/-- A driver that has been overtaken waits as it is or has ended, and nothing else
gets its stamp. -/
def Outlived (x : Driver) (m : Machine) : Prop :=
  (x ∈ m.drivers ∧ (m.target x.shake).stamp ≠ x.stamp) ∨
    (∀ y ∈ m.drivers, y.stamp ≠ x.stamp) ∧ x.stamp < m.playback.session.serial

omit hacts in
theorem Tremor.outlived (h : Tremor m n) (hon : Ages m n) (hd : Driven m) (hx : Outlived x m) :
    Outlived x n := by
  have hserial : x.stamp < m.playback.session.serial := hx.elim (fun h ↦ hd.issued x h.1) And.right
  have hissued : x.stamp < n.playback.session.serial := Nat.lt_of_lt_of_le hserial hon.serial
  -- a step that adds no driver but one with a new stamp, and takes no target back
  have hkeeps : (∀ y ∈ n.drivers, y ∈ m.drivers ∨ m.playback.session.serial ≤ y.stamp) →
      (x ∈ m.drivers → x ∈ n.drivers) → ((m.target x.shake).stamp ≠ x.stamp →
        (n.target x.shake).stamp ≠ x.stamp) → Outlived x n := by
    intro hold hkept htarget
    refine hx.imp (fun h ↦ ⟨hkept h.1, htarget h.2⟩) fun h ↦ ⟨fun y hy he ↦ ?_, hissued⟩
    rcases hold y hy with hy | hy
    · exact h.1 y hy he
    · omega
  have hleaves : ∀ {y : Driver}, m.drivers.Perm (y :: n.drivers) →
      ((n.target x.shake).stamp = (m.target x.shake).stamp) → Outlived x n := by
    intro y hdrivers htarget
    have hnodup := (List.nodup_cons.mp ((hdrivers.map Driver.stamp).nodup_iff.mp hd.nodup)).1
    rcases hx with ⟨hmem, hstamp⟩ | ⟨hgone, -⟩
    · rcases List.mem_cons.mp (hdrivers.mem_iff.mp hmem) with rfl | hmem
      · exact .inr ⟨fun z hz he ↦ hnodup (List.mem_map.mpr ⟨z, hz, he⟩), hissued⟩
      · exact .inl ⟨hmem, htarget ▸ hstamp⟩
    · exact .inr ⟨fun z hz ↦ hgone z (hdrivers.mem_iff.mpr (List.mem_cons_of_mem _ hz)), hissued⟩
  cases h with
  | calm hdrivers htargets =>
      exact hkeeps (fun y hy ↦ .inl (hdrivers.mem_iff.mp hy)) hdrivers.mem_iff.mpr (by rw [htargets]; exact id)
  | rouse y hbegins hstamp hlt hdrivers htarget hothers =>
      refine hkeeps (fun z hz ↦ ?_) (fun h ↦ hdrivers.mem_iff.mpr (List.mem_cons_of_mem _ h)) fun h ↦ ?_
      · rcases List.mem_cons.mp (hdrivers.mem_iff.mp hz) with rfl | hz
        · exact .inr (Nat.le_of_eq hstamp.symm)
        · exact .inl hz
      · by_cases hshake : x.shake = y.shake
        · rw [hshake, htarget]
          change y.stamp ≠ x.stamp
          omega
        · rwa [hothers _ hshake]
  | stale y start ticks draws armed hframe hdrivers hstamp hsession =>
      exact hleaves hdrivers (by rw [target, hsession]; rfl)
  | rests y start ticks hframe hdrivers hstamp hover htarget hothers =>
      refine hleaves hdrivers ?_
      by_cases hshake : x.shake = y.shake
      · rw [hshake, htarget, hstamp]
      · rw [hothers _ hshake]
  | sways y start ticks timer offset rest hframe hbefore hafter hdue hstamp hlasts hoffset htarget hothers =>
      have hsame : (n.target x.shake).stamp = (m.target x.shake).stamp := by
        by_cases hshake : x.shake = y.shake
        · rw [hshake, htarget]
        · rw [hothers _ hshake]
      rcases hx with ⟨hmem, hover⟩ | ⟨hgone, -⟩
      · rcases List.mem_cons.mp (hbefore.mem_iff.mp hmem) with rfl | hmem
        · exact absurd hstamp hover
        · exact .inl ⟨hafter.mem_iff.mpr (List.mem_cons_of_mem _ hmem), hsame ▸ hover⟩
      · refine .inr ⟨fun z hz ↦ ?_, hissued⟩
        rcases List.mem_cons.mp (hafter.mem_iff.mp hz) with rfl | hz
        · exact hgone y (hbefore.mem_iff.mpr List.mem_cons_self)
        · exact hgone z (hbefore.mem_iff.mpr (List.mem_cons_of_mem _ hz))

theorem Runs.outlived (hr : Runs acts m n) (hs : Sound m) (hm : Manned m) (hd : Driven m)
    (hx : Outlived x m) : Outlived x n :=
  (hr.induct (I := fun k ↦ (Manned k ∧ Driven k) ∧ Outlived x k)
    (fun p q ha hp ↦ (hacts p q ha hp).1.rest) hs ⟨⟨hm, hd⟩, hx⟩ fun _ _ hk hI hstep ↦ by
      obtain ⟨htremor, hmanned, hdriven⟩ := hstep.driven hacts hk hI.1.1 hI.1.2
      exact ⟨⟨hmanned, hdriven⟩, htremor.outlived
        (hstep.ages (fun p q ha hp ↦ (hacts p q ha hp).1) hk) hI.1.2 hI.2⟩).1.2

end

/-! ## The turns of a driver -/

theorem task_of_mem {t : Task} (h : x ∈ t.drivers) : x.task = t.id := by
  rcases List.mem_append.mp h with h | h
  · obtain ⟨e, -, he⟩ := List.mem_filterMap.mp h
    cases e with
    | animate => exact (Option.some.inj he) ▸ rfl
    | _ => cases he
  · obtain ⟨⟨wait, ending, scopes⟩, -, hq⟩ := List.mem_filterMap.mp h
    cases wait with
    | frame => exact (Option.some.inj hq) ▸ rfl
    | _ => cases hq

/-- The turn of a driver has nothing to do but to drive. -/
theorem Posted.turn_eq {task : Task} (hs : Sound m) (hm : Posted m) (hrun : m.running = some task)
    (hx : x ∈ m.drivers) (hid : x.task = task.id) :
    m.playback.turn.agenda = x.agenda ∧ m.playback.turn.pauses = x.pauses ∧
      m.playback.turn.failed = false := by
  have hturn : x ∈ Storyline.drivers task.id m.playback.turn.agenda m.playback.turn.pauses := by
    rw [drivers, hrun, Option.toList_some, List.flatMap_singleton] at hx
    refine (List.mem_append.mp hx).resolve_left fun hwaits ↦ ?_
    obtain ⟨t, ht, hx⟩ := List.mem_flatMap.mp hwaits
    have hentry : some t.id = m.running.map Task.id := by
      rw [hrun, ← task_of_mem hx, hid, Option.map_some]
    obtain ⟨hpauses, hagenda⟩ := hs.orderly.empty t ht hentry
    rw [Task.drivers, hagenda, hpauses, drivers_nil] at hx
    cases hx
  obtain ⟨hlone, hfailed⟩ := hm.turn task hrun
  have hgoes : m.playback.turn.failed = false := by
    cases hf : m.playback.turn.failed with
    | false => rfl
    | true =>
        rw [hfailed hf] at hturn
        cases hturn
  rcases hlone with hidle | ⟨y, hyid, hagenda, hpauses⟩
  · rw [hidle] at hturn
    cases hturn
  · rw [hagenda, hpauses, ← hyid, y.drivers_eq] at hturn
    obtain rfl := List.mem_singleton.mp hturn
    exact ⟨hagenda, hpauses, hgoes⟩

theorem session_suspend_nothing {p : Playback} (wait : Wait) (scopes : List Nat) :
    (p.suspend wait .nothing scopes).session = (p.look wait).1.session := by
  unfold suspend
  split
  next q w hlook => rw [hlook]; rfl
  next q ran hlook => rw [hlook]; split <;> rfl
  next q hlook => rw [hlook]; rfl

/-- The frame of a shake whose target has been taken over changes nothing. -/
theorem session_overtaken {p : Playback} {shake : Shake} {stamp : Nat} (d : Duration) (start ticks : Nat)
    (timer : Timer) (h : (p.session.stage.shake shake).stamp ≠ stamp) :
    ∃ draws armed, (p.suspend (.frame shake stamp d start ticks timer) .nothing []).session =
      { p.session with draws := draws, armed := armed } := by
  have hpresent : ∀ (n : Nat) (finished : Bool) (offset : Binary32 × Binary32),
      Session.presentIf (Stage.sway shake stamp finished offset) { p.session with draws := n } =
        { p.session with draws := n } := by
    intro n finished offset
    have hnone : Stage.sway shake stamp finished offset p.session.stage = none := if_neg h
    unfold Session.presentIf
    split
    · rfl
    · rw [hnone]
  rw [session_suspend_nothing, look]
  rcases p.lookAtFrame_cases shake stamp d start ticks timer with
    ⟨-, hlook⟩ | ⟨-, hlook | ⟨n, finished, offset, hlook | hlook⟩⟩ <;> rw [hlook]
  · exact ⟨p.session.draws, p.session.armed, rfl⟩
  · exact ⟨p.session.draws, p.session.armed, rfl⟩
  · exact ⟨n, p.session.armed, hpresent n finished offset⟩
  · refine ⟨n, p.session.armed + 1, ?_⟩
    simp only [waitForFrame, arm, update, hpresent]

/-- A driver that has been overtaken changes nothing in its turn but what has been drawn
and how many timers have been set. -/
theorem Beat.overtaken {task : Task} (hs : Sound m) (hm : Manned m) (hb : Beat m n)
    (hrun : m.running = some task) (hx : x ∈ m.drivers) (hid : x.task = task.id)
    (hstamp : (m.target x.shake).stamp ≠ x.stamp) :
    ∃ draws armed, n.playback.session = { m.playback.session with draws := draws, armed := armed } := by
  obtain ⟨hagenda, hpauses, hgoes⟩ := hm.posted.turn_eq hs hrun hx hid
  have hdrives : Storyline.drivers x.task m.playback.turn.agenda m.playback.turn.pauses = [x] := by
    rw [hagenda, hpauses, x.drivers_eq]
  have hjob : ∀ {p : Playback} {t : Task} {job : Job} {jobs : List Job}, m = ⟨p, some t, job :: jobs⟩ →
      job.isLook = true := by
    rintro p t job jobs rfl
    cases hlook : job.isLook with
    | true => rfl
    | false => cases (idle_of_job hm hlook _).symm.trans hdrives
  obtain ⟨id, shake, stamp, d, frame⟩ := x
  cases hb with
  | take | drop => cases hrun
  | @look p task pause jobs =>
      have hawaits : p.Awaits (pause :: looks jobs) := (hm.cast.running (by simp)).awaits
      obtain ⟨done, hdone⟩ := hawaits.resolve_left (by rw [hgoes]; simp)
      change ∃ draws armed, (p.revisit pause).session = _
      rw [revisit_eq hgoes]
      cases frame with
      | none => cases hdone.symm.trans hpauses
      | some frame =>
          obtain ⟨rfl, -⟩ := List.cons.inj (hdone.symm.trans hpauses)
          exact session_overtaken (p := p.aside) d _ _ _ hstamp
  | @begin p task errand rest hfree hfirst hother =>
      cases frame with
      | some frame => cases hfirst.symm.trans hagenda
      | none =>
          obtain ⟨rfl, rfl⟩ := List.cons.inj (hfirst.symm.trans hagenda)
          obtain ⟨draws, armed, h⟩ := session_overtaken
            (p := (p.updateTurn fun t ↦ { t with agenda := [] }).arm) d p.session.now 0
            (p.timer (some p.session.now)) hstamp
          exact ⟨draws, armed, h⟩
  | @finish p task hheld =>
      refine ⟨p.session.draws, p.session.armed, ?_⟩
      change (p.endTurn task).session = p.session
      unfold endTurn
      dsimp only
      rw [if_neg (by rw [hgoes]; simp)]
      split
      · rfl
      split
      · unfold wake
        split <;> rfl
      · rfl
  | walk hfree hfirst => cases frame <;> cases hfirst.symm.trans hagenda
  | skip | cue | block | fork | close => cases hjob rfl


/-! ## Quiet -/

/-- No task is running or ready. -/
def Quiet (m : Machine) : Prop := m.running = none ∧ m.playback.queue = []

/-- When nothing is ready, a driver is a task that waits for a frame and for nothing
else, and this frame is not due. -/
theorem Manned.waits (hs : Sound m) (hm : Manned m) (hq : m.Quiet) (hx : x ∈ m.drivers) :
    ∃ t ∈ m.playback.tasks, t.id = x.task ∧ t.aborted = false ∧ t.drivers = [x] ∧
      ∃ start ticks timer, x.frame = some (start, ticks, timer) ∧
        timer.isDue m.playback.session.now = false := by
  obtain ⟨hrun, hqueue⟩ := hq
  rw [drivers, hrun, Option.toList_none, List.flatMap_nil, List.append_nil] at hx
  obtain ⟨t, ht, hx⟩ := List.mem_flatMap.mp hx
  rcases hm.posted.tasks t ht with hidle | ⟨y, hid, hagenda, hpauses⟩
  · rw [Task.drivers, hidle] at hx
    cases hx
  have hone : t.drivers = [y] := by rw [Task.drivers, ← hid, hagenda, hpauses, y.drivers_eq]
  obtain rfl := List.mem_singleton.mp (hone ▸ hx)
  refine ⟨t, ht, hid.symm, hm.whole t ht, hone, ?_⟩
  obtain ⟨hwaits, hsettled⟩ := hs.orderly.resting t ht (by rw [hrun]; simp) (by rw [hqueue]; simp)
  obtain ⟨task, shake, stamp, d, _ | ⟨start, ticks, timer⟩⟩ := x
  · exact absurd hpauses hwaits
  · have hwait : (⟨.frame shake stamp d start ticks timer, .nothing, []⟩ : Pause) ∈ t.pauses := by
      rw [hpauses]
      exact List.mem_singleton.mpr rfl
    exact ⟨start, ticks, timer, rfl, hsettled _ hwait⟩

/-- A driver that is not overtaken ends at a frame at which its shake has lasted long
enough. -/
theorem Tremor.ends (h : Tremor m n) (hx : x ∈ m.drivers) (hstamp : (m.target x.shake).stamp = x.stamp)
    (hended : ∀ y ∈ n.drivers, y.stamp ≠ x.stamp) :
    ∃ start ticks, x.Reaches m.playback.session.now start ticks ∧
      x.duration.nanos ≤ (Duration.ofMillis (m.playback.session.now - start)).nanos ∧
      n.target x.shake = ⟨.zero, Stage.still, x.stamp⟩ := by
  cases h with
  | calm hdrivers => exact absurd rfl (hended x (hdrivers.mem_iff.mpr hx))
  | rouse y _ _ _ hdrivers =>
      exact absurd rfl (hended x (hdrivers.mem_iff.mpr (List.mem_cons_of_mem _ hx)))
  | stale y start ticks draws armed hframe hdrivers hover =>
      rcases List.mem_cons.mp (hdrivers.mem_iff.mp hx) with rfl | hx
      · exact absurd hstamp hover
      · exact absurd rfl (hended x hx)
  | rests y start ticks hframe hdrivers _ hover htarget =>
      rcases List.mem_cons.mp (hdrivers.mem_iff.mp hx) with rfl | hx
      · exact ⟨start, ticks, hframe, hover, htarget⟩
      · exact absurd rfl (hended x hx)
  | sways y start ticks timer offset rest hframe hbefore hafter =>
      rcases List.mem_cons.mp (hbefore.mem_iff.mp hx) with rfl | hx
      · exact absurd rfl (hended { x with frame := some (start, ticks + 1, timer) }
          (hafter.mem_iff.mpr List.mem_cons_self))
      · exact absurd rfl (hended x (hafter.mem_iff.mpr (List.mem_cons_of_mem _ hx)))

/-- At no frame that has come by now has the shake lasted long enough. -/
theorem Timed.lasts {c : Config} {now start ticks tick time : Nat} {timer : Timer} (h : Timed c now x)
    (hframe : x.frame = some (start, ticks, timer)) (hdue : timer.isDue now = false)
    (htick : c.frameAt start tick = some time) (hpast : time ≤ now) :
    (Duration.ofMillis (time - start)).nanos < x.duration.nanos := by
  obtain ⟨hpos, hnext, hbefore⟩ := h start ticks timer hframe
  rcases Nat.lt_or_ge tick ticks with hlt | hge
  · obtain ⟨time', htime', -, hlasts⟩ := hbefore tick hlt
    obtain rfl := Option.some.inj (htick.symm.trans htime')
    exact hlasts
  · have hticks : ∀ {k}, 0 < k → c.frameAt start k = c.shakeFrame.period.tickFrom start k := by
      intro k hk
      cases k with
      | zero => omega
      | succ k => rfl
    rw [hticks (by omega)] at htick
    rw [hticks hpos] at hnext
    obtain ⟨due, hat, hle⟩ := Duration.tickFrom_mono hge htick
    have := Timer.isDue_eq_false_iff.mp hdue due (hnext.trans hat)
    omega

end

end Machine

end Storyline
