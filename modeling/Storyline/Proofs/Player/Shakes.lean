import Storyline.Proofs.Playback.Tremors
import Storyline.Proofs.Player.Titles

/-!
# The shakes of a player

Until a player is stopped, a target of shakes that is not at rest has one driver,
the shake that was taken up last, and comes to rest with the first frame at which
this shake has lasted long enough.  Shakes that it has overtaken change nothing.
-/

namespace Storyline

namespace Player

open Playback Machine

variable {actions : List Action} {config : Config} {host : Host} {voices : VoiceCache}
  {p q : Playback} {m : Machine}

theorem timeline_driver? (actions : List Action) :
    ∀ e ∈ timeline actions, ∀ id, e.driver? id = none := by
  intro e he id
  rcases List.mem_append.mp he with he | he
  · exact walk_driver? root true actions e he id
  · rw [List.mem_singleton.mp he]
    rfl

theorem unshaken_launch (actions : List Action) (p : Playback) : Unshaken p (launch actions p) := by
  have hplaying : Unshaken p { p with status := .playing } :=
    ⟨rfl, fun _ ↦ rfl, [], (List.append_nil _).symm, by simp⟩
  exact (hplaying.trans (unshaken_spawn none (by simp [Errand.driver?]))).trans
    (unshaken_spawn (some root) (timeline_driver? actions))

/-- What is asked of a player that is not stopped has nothing to do with its shakes. -/
theorem Ongoing.unshaken (h : Ongoing actions p q) : Unshaken p q := by
  obtain ⟨hacts, hgoes⟩ := h
  cases hacts with
  | start => exact unshaken_launch actions p
  | next =>
      refine .of_stirs p.stirs_tap ?_
      rw [tap_eq_touch]
      simp [Session.takeTap]
  | autoPlay on =>
      refine .of_stirs (p.stirs_setAutoPlay on) ?_
      rw [setAutoPlay_eq_touch]
      simp only [touch_session, Session.setAutoPlay]
      split <;> rfl
  | fastForward on =>
      refine .of_stirs (p.stirs_setFastForward on) ?_
      rw [setFastForward_eq_touch]
      simp only [touch_session, Session.setFastForward]
      split <;> rfl
  | cacheVoice path content => exact .of_stirs (.of_update (Session.carries_voices _)) rfl
  | stop =>
      rw [cancelled_stopped] at hgoes
      cases hgoes

theorem manned_new (actions : List Action) (voices : VoiceCache)
    (hdraws : host.Draws config.shakeMagnitude.abs) :
    Manned (resting (new actions config host voices).playback) where
  cast := ⟨by simp [resting, new, Playback.new], by simp [resting]⟩
  goes := rfl
  whole := by simp [resting, new, Playback.new]
  draws := hdraws
  posted := ⟨by simp [resting, new, Playback.new], by simp [resting]⟩

theorem driven_new (actions : List Action) (config : Config) (host : Host) (voices : VoiceCache) :
    Driven (resting (new actions config host voices).playback) where
  nodup := List.nodup_nil
  issued := fun _ h ↦ by cases h
  latest := fun _ h ↦ by cases h
  driven := fun k h ↦ by cases k <;> exact (h.elim (fun h ↦ h rfl) fun h ↦ h rfl).elim
  lasting := fun _ h ↦ by cases h
  within := fun k ↦ by cases k <;> exact .inl rfl
  timed := fun _ h ↦ by cases h

/-- The one task that drives a target: it is alone in carrying the stamp of the target. -/
structure Drives (x : Driver) (k : Shake) (m : Machine) : Prop where
  task : ∃ t ∈ m.playback.tasks, t.id = x.task ∧ t.aborted = false ∧ t.drivers = [x]
  shake : x.shake = k
  stamp : x.stamp = (m.target k).stamp
  duration : x.duration = (m.target k).duration
  alone : ∀ t ∈ m.playback.tasks, ∀ y ∈ t.drivers, y.stamp = (m.target k).stamp → y = x

/-- A driver has ended: no task carries its stamp. -/
def HasEnded (x : Driver) (m : Machine) : Prop := ∀ y ∈ m.drivers, y.stamp ≠ x.stamp

/-- At a frame of a shake, the given span has been over. -/
def Lasted (c : Config) (d : Duration) (start tick : Nat) : Prop :=
  ∃ time, c.frameAt start tick = some time ∧ d.nanos ≤ (Duration.ofMillis (time - start)).nanos

theorem within_cases {magnitude : Binary32} {offset : Binary32 × Binary32}
    (h : Within magnitude.abs offset) :
    (magnitude.isNaN = true → offset = Stage.still) ∧
      (magnitude.isNaN = false →
        offset.1.absLe magnitude = true ∧ offset.2.absLe magnitude = true) := by
  refine ⟨fun hnan ↦ h.resolve_right fun hle ↦ ?_, fun hnumber ↦ h.zero_le hnumber⟩
  have hnan : magnitude.abs.isNaN = true := hnan
  simp [Binary.absLe, hnan] at hle

/-- The driver of a target that is not at rest, when nothing is ready. -/
theorem drives_of_moves {k : Shake} (hs : Machine.Sound m) (hm : Manned m) (hd : Driven m) (hq : m.Quiet)
    (hk : m.Moves k) : ∃ x, Drives x k m := by
  obtain ⟨x, hx, rfl, hstamp⟩ := hd.driven k hk
  obtain ⟨t, ht, hid, hwhole, hone, -⟩ := hm.waits hs hq hx
  refine ⟨x, ⟨t, ht, hid, hwhole, hone⟩, rfl, hstamp, hd.lasting x hx hstamp, fun u hu y hy he ↦ ?_⟩
  exact hd.eq_of_stamp (List.mem_append_left _ (List.mem_flatMap.mpr ⟨u, hu, hy⟩)) hx (he.trans hstamp.symm)

/-- Before the frame that a driver has now, its shake had not lasted long enough. -/
theorem not_lasted_before {x : Driver} {now start ticks tick : Nat} (htimed : Timed config now x)
    (hframe : x.Reaches now start ticks) (htick : tick < ticks) : ¬Lasted config x.duration start tick := by
  rintro ⟨time, htime, hover⟩
  rcases hframe with ⟨-, -, rfl⟩ | ⟨timer, hframe, -⟩
  · omega
  · obtain ⟨-, -, hbefore⟩ := htimed start ticks timer hframe
    obtain ⟨time', htime', -, hlasts⟩ := hbefore tick htick
    obtain rfl := Option.some.inj (htime.symm.trans htime')
    omega

/-- If a host draws from the range that it is asked for, then until a player is
stopped its shakes come to rest and never fight.  The offsets stay within the
magnitude.  When nothing is ready, a target that is not at rest has exactly one
driver.  A driver that another shake has overtaken changes nothing in its turns, and
has ended once the frame that it waits for has come.  A driver that has not been
overtaken ends with the first frame at which its shake has lasted long enough, and
leaves its target at rest; when nothing is ready, no such frame has come yet. -/
theorem shakes_come_to_rest (hdraws : host.Draws config.shakeMagnitude.abs)
    (hr : Runs (Ongoing actions) (resting (new actions config host voices).playback) m) :
    (∀ k, (config.shakeMagnitude.isNaN = true → (m.target k).offset = Stage.still) ∧
      (config.shakeMagnitude.isNaN = false →
        (m.target k).offset.1.absLe config.shakeMagnitude = true ∧
          (m.target k).offset.2.absLe config.shakeMagnitude = true)) ∧
    (m.Quiet → ∀ k, m.Moves k → ∃ x, Drives x k m) ∧
    (∀ x ∈ m.drivers, (m.target x.shake).stamp ≠ x.stamp →
      x.stamp < (m.target x.shake).stamp ∧
      (∀ n task, Beat m n → m.running = some task → task.id = x.task → ∃ draws armed,
        n.playback.session = { m.playback.session with draws := draws, armed := armed }) ∧
      ∀ n, Runs (Ongoing actions) m n → n.Quiet →
        (∀ start tick timer, x.frame = some (start, tick, timer) →
          timer.isDue n.playback.session.now = true) → HasEnded x n) ∧
    ∀ x ∈ m.drivers, (m.target x.shake).stamp = x.stamp →
      (∀ n, Machine.Step (Ongoing actions) m n → HasEnded x n →
        n.target x.shake = ⟨.zero, Stage.still, x.stamp⟩ ∧
          ∃ start tick, config.frameAt start tick = some m.playback.session.now ∧
            Lasted config x.duration start tick ∧ ∀ earlier < tick, ¬Lasted config x.duration start earlier) ∧
      (m.Quiet → ∃ start tick timer, x.frame = some (start, tick, timer) ∧
        ∀ other time, config.frameAt start other = some time → time ≤ m.playback.session.now →
          ¬Lasted config x.duration start other) := by
  have hacts : ∀ p q, Ongoing actions p q → AtRest p → Meek p q ∧ Unshaken p q :=
    fun _ _ h hp ↦ ⟨(h.meek hp).1, h.unshaken⟩
  have hs := sound_resting (new_atRest actions config host voices)
  obtain ⟨⟨hm, hd⟩, hsound⟩ := hr.driven hacts hs (manned_new actions voices hdraws)
    (driven_new actions config host voices)
  have hconfig : m.playback.session.config = config := (hr.ages hacts hs).config
  refine ⟨fun k ↦ ?_, fun hq k hk ↦ ?_, fun x hx hstamp ↦ ⟨?_, fun n task hb hrun hid ↦ ?_,
    fun n hn hq hdue ↦ ?_⟩, fun x hx hstamp ↦ ⟨fun n hn hended ↦ ?_, fun hq ↦ ?_⟩⟩
  · exact within_cases (hconfig ▸ hd.within k)
  · exact drives_of_moves hsound hm hd hq hk
  · exact Nat.lt_of_le_of_ne (hd.latest x hx) (Ne.symm hstamp)
  · exact hb.overtaken hsound hm hrun hx hid.symm hstamp
  · rcases hn.outlived hacts hsound hm hd (.inl ⟨hx, hstamp⟩) with ⟨hx, -⟩ | ⟨hended, -⟩
    · obtain ⟨⟨hm', hd'⟩, hsound'⟩ := hn.driven hacts hsound hm hd
      obtain ⟨t, -, -, -, -, start, tick, timer, hframe, hnot⟩ := hm'.waits hsound' hq hx
      cases hnot.symm.trans (hdue start tick timer hframe)
    · exact hended
  · obtain ⟨start, ticks, hframe, hover, htarget⟩ := (hn.tremor hacts hsound hm).1.ends hx hstamp hended
    have htimed := hconfig ▸ hd.timed x hx
    refine ⟨htarget, start, ticks, htimed.frameAt hframe, ⟨_, htimed.frameAt hframe, hover⟩, fun tick htick ↦ ?_⟩
    exact not_lasted_before htimed hframe htick
  · obtain ⟨t, -, -, -, -, start, tick, timer, hframe, hdue⟩ := hm.waits hsound hq hx
    refine ⟨start, tick, timer, hframe, fun other time hother hpast ⟨time', htime', hover⟩ ↦ ?_⟩
    have hlasts := (hconfig ▸ hd.timed x hx).lasts hframe hdue hother hpast
    obtain rfl := Option.some.inj (hother.symm.trans htime')
    omega

theorem plainHost_draws : plainHost.Draws Config.standard.shakeMagnitude.abs where
  spans := fun _ ↦ by decide +kernel
  within := fun _ _ ↦ by
    change Binary.absLe .zero _ = true
    decide +kernel

/-- Two shakes of the screen, one over the other. -/
def rattle : List Action :=
  [.fork [.cue (.shake .screen (.ofRatio false 1 2))], .cue (.delay (.ofRatio false 3 20)),
    .cue (.shake .screen (.ofRatio false 1 2))]

/-- Shortly after the second shake, it drives the screen, while the first one still
waits for its next frame and has been overtaken. -/
theorem rattle_comes_to_rest :
    let m := resting ((new rattle .standard plainHost .empty).follow
      [(true, .start), (true, .advance 160)]).playback
    m.Quiet ∧ m.Moves .screen ∧ (∃ x, Drives x .screen m) ∧
      ∃ x ∈ m.drivers, x.stamp < (m.target x.shake).stamp := by
  intro m
  have hrest := new_atRest rattle .standard plainHost .empty
  have hruns : Runs (Ongoing rattle) (resting (new rattle .standard plainHost .empty).playback) m :=
    runs_ongoing hrest rfl (reaches_follow (by decide) hrest)
  have hfacts : m.playback.queue = [] ∧ (m.target .screen).duration ≠ .zero ∧
      m.drivers.any (fun x ↦ (m.target x.shake).stamp != x.stamp) = true := by decide +kernel
  obtain ⟨hqueue, hduration, hstale⟩ := hfacts
  obtain ⟨x, hx, hstamp⟩ := List.any_eq_true.mp hstale
  obtain ⟨-, hdriver, hovertaken, -⟩ := shakes_come_to_rest plainHost_draws hruns
  exact ⟨⟨rfl, hqueue⟩, .inl hduration, hdriver ⟨rfl, hqueue⟩ .screen (.inl hduration),
    x, hx, (hovertaken x hx (by simpa using hstamp)).1⟩

end Player

end Storyline
