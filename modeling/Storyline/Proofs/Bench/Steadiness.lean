import Storyline.Proofs.Bench.Dwelling
import Storyline.Proofs.Bench.Taps
import Storyline.Proofs.Playback.Standing

/-!
# Steps of a session that goes on

Whatever is done in a session that goes on, the parked actions are distinct, what has
left the stack stays off it, and a pause stands until a look finds its wait at an end.
-/

namespace Storyline

namespace Bench

open Playback Machine

/-- What is done to a session from outside that neither ends it nor lets time pass: what a
bench or a player is asked for, and any change of the stage. -/
inductive Doing : Playback → Playback → Prop
  | act {p q : Playback} (h : Acts p q) : Doing p q
  | present {p : Playback} (f : Stage → Stage) : Doing p (p.update (.present f))
  | amend {p : Playback} (f : Stage → Stage) : Doing p (p.update (.amend f))

/-- What holds at every moment of a session that goes on. -/
structure Steady (m : Machine) : Prop where
  sound : Machine.Sound m
  cast : Cast m
  running : m.playback.session.cancelled = false
  whole : ∀ t ∈ m.playback.tasks, t.aborted = false
  distinct : Distinct m

variable {p q : Playback} {m n : Machine} {id : Nat} {P : Pause → Prop}

theorem steady_new (config : Config) (host : Host) (voices : VoiceCache) :
    Steady (resting (new config host voices).playback) where
  sound := sound_resting (running_new config host voices).rest
  cast := (underway_new config host voices).cast
  running := rfl
  whole := (underway_new config host voices).whole
  distinct := by simp [Distinct, Playback.parks, resting, new, Playback.new, Turn.none]

/-! ## Between turns -/

/-- Whatever a bench is asked for counts among these, but for the end and for time. -/
theorem doing_request {b b' : Bench} {r : Request} {response : Response} (hends : r ≠ .shutdown)
    (htime : ∀ ms, r ≠ .advance ms) (h : b.handle r = .ok (b', response)) :
    Doing b.playback b'.playback := by
  by_cases hr : r.isMeek = true
  · exact .act (.request hr h)
  cases r with
  | shutdown => exact absurd rfl hends
  | advance ms => exact absurd rfl (htime ms)
  | present command =>
      rw [← (Prod.mk.inj (Except.ok.inj h)).1]
      exact .present command.apply
  | presentIf command =>
      have hb : b' = (b.handlePresentIf command).1 := by rw [Except.ok.inj h]
      rw [hb, handlePresentIf]
      dsimp only [mapPlayback]
      split
      · exact .present command.apply
      · exact .amend command.apply
  | _ => exact absurd rfl hr

theorem adds_of_stirs (h : p.Stirs q) (hp : Player.AtRest p) : Adds p q :=
  ⟨.of_orderly (Orderly.stirs hp h), h.moment, [], by rw [h.tasks, List.append_nil], nofun⟩

theorem Doing.adds (h : Doing p q) (hp : Player.AtRest p) : Adds p q := by
  cases h with
  | act h => exact h.adds hp
  | present f => exact adds_of_stirs (p.stirs_present f) hp
  | amend f => exact adds_of_stirs (.of_update (carries_amend f)) hp

/-- Nothing is parked with a pause between turns. -/
theorem parks_adds (h : Adds p q) (hp : Player.AtRest p) : q.parks = p.parks := by
  have hq : q.turn = .none := h.rest.idle rfl
  have hturn : p.turn = .none := hp.idle rfl
  obtain ⟨new, hnew, hadded⟩ := h.tasks
  have hnone : new.flatMap Task.parks = [] := List.flatMap_eq_nil_iff.mpr fun t ht ↦ by
    simp [Task.parks, hadded t ht]
  simp only [Playback.parks, hq, hturn, hnew, List.flatMap_append, hnone, List.append_nil]

/-- Between turns a session goes on. -/
structure Mild (p q : Playback) : Prop where
  running : p.session.cancelled = false → q.session.cancelled = false
  outcomes : q.outcomes = p.outcomes
  tasks : ∃ new, q.tasks = p.tasks ++ new ∧ ∀ t ∈ new, t.Cast ∧ t.aborted = false
  onward : p.session.Onward q.session

theorem Acts.onward (h : Acts p q) (hs : Machine.Sound (resting p)) (hc : Cast (resting p)) :
    p.session.Onward q.session := by
  cases h with
  | request hr hh => exact (keeps_handle hs hc hh).onward
  | launch actions =>
      have hsession : (Player.launch actions p).session = p.session :=
        (spawn_session _ _).trans (spawn_session _ _)
      exact .of_ids (Nat.le_of_eq (by rw [hsession])) (by rw [hsession])
  | cacheVoice | reorder => exact .of_ids (Nat.le_refl _) rfl

theorem mild_of_sinks (h : Sinks p q) : Mild p q where
  running := h.cancelled.trans
  outcomes := h.stirs.outcomes
  tasks := ⟨[], by rw [h.stirs.tasks, List.append_nil], nofun⟩
  onward := (Session.Stacks.of_sublist h.stirs.serial h.taps).onward

theorem Doing.mild (h : Doing p q) (hs : Machine.Sound (resting p)) (hc : Cast (resting p)) : Mild p q := by
  cases h with
  | act h =>
      have hmeek := h.meek hs.orderly
      exact ⟨hmeek.running, hmeek.outcomes, hmeek.tasks, h.onward hs hc⟩
  | present f => exact mild_of_sinks (p.smooth_present f).sinks
  | amend f =>
      refine mild_of_sinks ⟨.of_update (carries_amend f), ?_, ?_⟩ <;> dsimp only [update] <;>
        unfold Session.amend <;> split <;> rfl

/-! ## Every step -/

theorem Steady.mild (h : Steady (resting p)) (hd : Doing p q) : Mild p q := hd.mild h.sound h.cast

theorem Steady.onward (h : Steady m) (hstep : Machine.Step Doing m n) :
    m.playback.session.Onward n.playback.session := by
  cases hstep with
  | beat hb => exact hb.onward h.sound h.cast
  | act hd => exact (h.mild hd).onward
  | move => exact (piles_moveTo _).onto.onward
  | rest => exact (piles_rest _).onto.onward

theorem Steady.reparks (h : Steady m) (hstep : Machine.Step Doing m n) :
    Reparks m.playback n.playback := by
  have hserial := (h.onward hstep).serial
  cases hstep with
  | beat hb => exact hb.reparks h.sound h.cast h.whole
  | act hd => exact .of_parks hserial (parks_adds (hd.adds h.sound.orderly) h.sound.orderly)
  | @move p time =>
      obtain ⟨queue, hmoved⟩ := moveTo_eq time p
      rw [hmoved]
      exact .of_parks (Nat.le_refl _) rfl
  | rest => exact .of_parks (Nat.le_refl _) rfl

/-- While time passes the tasks stay as they are. -/
theorem Steady.later (h : Steady (resting p)) (hs : Machine.Sound (resting q)) (htasks : q.tasks = p.tasks)
    (hgoes : q.session.cancelled = p.session.cancelled) (hd : Distinct (resting q)) : Steady (resting q) where
  sound := hs
  cast := ⟨fun t ht ↦ h.cast.tasks t (htasks ▸ ht), by simp [resting]⟩
  running := hgoes.trans h.running
  whole := fun t ht ↦ h.whole t (htasks ▸ ht)
  distinct := hd

theorem Steady.step (h : Steady m) (hstep : Machine.Step Doing m n) : Steady n := by
  have hsound := hstep.sound (fun _ _ hd hp ↦ (hd.adds hp).rest) h.sound
  have hd := h.distinct.of_reparks (h.reparks hstep)
  cases hstep with
  | beat hb =>
      exact
        { sound := hsound
          cast := hb.cast h.cast
          running := (Session.cancelled_eq hb.settings).trans h.running
          whole := hb.whole h.whole
          distinct := hd }
  | act hact =>
      have hmild := h.mild hact
      obtain ⟨new, hnew, hadded⟩ := hmild.tasks
      refine ⟨hsound, ⟨fun t ht ↦ ?_, by simp [resting]⟩, hmild.running h.running,
        fun t ht ↦ ?_, hd⟩ <;> rcases List.mem_append.mp (hnew ▸ ht) with ht | ht
      · exact h.cast.tasks t ht
      · exact (hadded t ht).1
      · exact h.whole t ht
      · exact (hadded t ht).2
  | @move p time =>
      obtain ⟨queue, hmoved⟩ := moveTo_eq time p
      exact h.later hsound (by rw [hmoved]) (by rw [hmoved]) hd
  | rest => exact h.later hsound rfl rfl hd

theorem Steady.runs (h : Steady m) (hr : Runs Doing m n) : Steady n := by
  induction hr with
  | refl => exact h
  | step _ hs ih => exact ih.step hs

/-- A step takes no time, or time passes while nothing is ready. -/
theorem Steady.passes (h : Steady m) (hstep : Machine.Step Doing m n) :
    n.playback.session.moment = m.playback.session.moment ∨
      ∃ p q, m = resting p ∧ n = resting q ∧ p.queue = [] ∧ q.tasks = p.tasks ∧
        q.session.config = p.session.config ∧ p.session.now ≤ q.session.now := by
  cases hstep with
  | beat hb => exact .inl hb.moment
  | act hd => exact .inl (hd.adds h.sound.orderly).moment
  | @move p time hq hnext =>
      obtain ⟨queue, hmoved⟩ := moveTo_eq time p
      exact .inr ⟨p, _, rfl, rfl, hq, by rw [hmoved], by rw [hmoved],
        by rw [hmoved]; exact Nat.le_of_lt (lt_nextDue hnext)⟩
  | @rest p time hq hle => exact .inr ⟨p, _, rfl, rfl, hq, rfl, rfl, hle⟩

theorem Steady.config (h : Steady m) (hstep : Machine.Step Doing m n) :
    n.playback.session.config = m.playback.session.config := by
  rcases h.passes hstep with hmoment | ⟨p, q, rfl, rfl, -, -, hconfig, -⟩
  · exact congrArg Moment.config hmoment
  · exact hconfig

theorem Steady.now (h : Steady m) (hstep : Machine.Step Doing m n) :
    m.playback.session.now ≤ n.playback.session.now := by
  rcases h.passes hstep with hmoment | ⟨p, q, rfl, rfl, -, -, -, hle⟩
  · exact Nat.le_of_eq (congrArg Moment.now hmoment).symm
  · exact hle

/-- What has left the stack stays off it. -/
theorem Steady.unparked (h : Steady m) (hstep : Machine.Step Doing m n) {park : Nat}
    (hpast : park < m.playback.session.serial) (hgone : m.playback.session.isParked park = false) :
    n.playback.session.isParked park = false :=
  (h.onward hstep).spent park hpast hgone

theorem Steady.awaits {P : Wait → Prop} (h : Steady m) (hP : Abides P m.playback.session)
    (hstep : Machine.Step Doing m n) (hawaits : m.Awaits P) : n.Awaits P :=
  hstep.awaits (fun _ _ hd hp ↦ hd.adds hp) hP h.sound hawaits

theorem outOfTime_of_moment {s u : Session} (hmoment : u.moment = s.moment) (h : s.OutOfTime) :
    u.OutOfTime := by
  have hconfig : u.config = s.config := congrArg Moment.config hmoment
  have hnow : u.now = s.now := congrArg Moment.now hmoment
  simpa only [Session.OutOfTime, hconfig, hnow] using h

/-- A pause stands until a look finds its wait at an end. -/
theorem Steady.keeps (h : Steady m) (hP : Lasting P) (hstep : Machine.Step Doing m n)
    (hk : Machine.Keeps id P m) : Machine.Keeps id P n ∨ Ends id P m n := by
  cases hstep with
  | beat hb => exact hb.keeps hP h.sound h.cast h.whole hk
  | act hd =>
      have hmild := h.mild hd
      obtain ⟨new, hnew, -⟩ := hmild.tasks
      exact .inl (hk.resting (hnew ▸ List.subset_append_left _ _) (hmild.outcomes ▸ List.Subset.refl _)
        (outOfTime_of_moment (hd.adds h.sound.orderly).moment))
  | @move p time hq hnext =>
      obtain ⟨queue, hmoved⟩ := moveTo_eq time p
      rw [hmoved]
      exact .inl (Machine.Keeps.resting (p := p) (List.Subset.refl _) (List.Subset.refl _)
        (fun htime ↦ outOfTime_later htime (Nat.le_of_lt (lt_nextDue hnext))) hk)
  | @rest p time _ hle =>
      exact .inl (Machine.Keeps.resting (p := p) (List.Subset.refl _) (List.Subset.refl _)
        (fun htime ↦ outOfTime_later htime hle) hk)

/-- So does one that playing by itself has found, while it is on. -/
theorem Steady.persists (h : Steady m) (hon : m.playback.session.autoPlay = true) (hP : Lasting P)
    (hstep : Machine.Step Doing m n) (hst : Persists id P m) : Persists id P n ∨ Ends id P m n := by
  cases hstep with
  | beat hb => exact hb.persists hP h.sound h.cast h.whole hon hst
  | act hd =>
      obtain ⟨new, hnew, hadded⟩ := (hd.adds h.sound.orderly).tasks
      exact .inl (hst.resting hnew hadded)
  | @move p time =>
      obtain ⟨queue, hmoved⟩ := moveTo_eq time p
      rw [hmoved]
      exact .inl (Persists.resting (p := p) (List.append_nil _).symm nofun hst)
  | @rest p => exact .inl (Persists.resting (p := p) (List.append_nil _).symm nofun hst)

/-- Runs of benches and players are among these runs. -/
theorem runs_doing (hr : Runs Acts m n) : Runs Doing m n := by
  induction hr with
  | refl => exact .refl
  | step _ hs ih =>
      refine ih.step ?_
      cases hs with
      | beat hb => exact .beat hb
      | act ha => exact .act (.act ha)
      | move hq hnext => exact .move hq hnext
      | rest hq hle hnext => exact .rest hq hle hnext

end Bench

end Storyline
