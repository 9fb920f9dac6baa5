import Storyline.Proofs.Playback.Following

/-!
# The two covers

A cover that has come up takes the other one away, unless that one has been
shown later.  So every cover that is seen belongs to a showing, and this showing
is suspended, or has left nothing of an older cover, or has failed with its task
because the clock could not show when a voice was to be looked at.
-/

namespace Storyline

theorem Cover.other_ne (c : Cover) : c.other ≠ c := by cases c <;> simp [other]

/-- The cover that a job shows. -/
def Job.shows : Job → Option Cover
  | .perform (.cue cue) _ _ _ => Playback.shownBy cue
  | _ => none

/-- The showing of a cover: the task that performs it, and its number. -/
structure Showing where
  task : Nat
  cover : Cover
  stamp : Nat

namespace Machine

open Playback
open Session (Veils)

/-- The cover that the next beat shows. -/
def upcoming (m : Machine) : Option Cover :=
  if m.playback.isOver then none else m.jobs.head?.bind Job.shows

/-- The showing is suspended. -/
def Suspends (w : Showing) (m : Machine) : Prop :=
  (∃ t ∈ m.playback.tasks, t.id = w.task ∧ ∃ q ∈ t.pauses, q.Raises w.cover w.stamp) ∨
    ∃ task, m.running = some task ∧ task.id = w.task ∧
      ∃ q ∈ m.playback.turn.pauses, q.Raises w.cover w.stamp

/-- The showing has been lost with its task, which could not look at a voice. -/
def Lost (w : Showing) (m : Machine) : Prop :=
  (w.task, .failed) ∈ m.playback.outcomes ∧ m.playback.session.OutOfTime

/-- What has become of a showing. -/
inductive Fate (w : Showing) (m : Machine) : Prop
  | waits {t : Task} {q : Pause} (ht : t ∈ m.playback.tasks) (hid : t.id = w.task)
    (hp : ∀ q ∈ t.pauses, q.Yields) (ha : ∀ e ∈ t.agenda, e.Yields) (hq : q ∈ t.pauses)
    (hraises : q.Raises w.cover w.stamp)
  | turns {task : Task} {q : Pause} (hrun : m.running = some task) (hid : task.id = w.task)
    (hplays : Plays m.playback) (hq : q ∈ m.playback.turn.pauses)
    (hraises : q.Raises w.cover w.stamp)
  | fails (hfailed : (w.task, .failed) ∈ m.playback.outcomes) (htime : m.playback.session.OutOfTime)
  | clears (h : m.playback.session.stage.Clear w.cover w.stamp)

/-- A showing that has begun. -/
structure Follows (w : Showing) (m : Machine) : Prop where
  past : w.stamp < m.playback.session.serial
  apart : m.playback.session.stage.Apart w.cover w.stamp
  fate : Fate w m

/-- The session goes on, and every cover that is seen belongs to a showing. -/
structure Underway (m : Machine) : Prop where
  cast : Cast m
  running : m.playback.session.cancelled = false
  whole : ∀ t ∈ m.playback.tasks, t.aborted = false
  accounted : ∀ c, (m.playback.session.stage.cover c).visible = true →
    ∃ id, Follows ⟨id, c, (m.playback.session.stage.cover c).stamp⟩ m

section

variable {p q : Playback} {m n : Machine} {w : Showing} {c : Cover}

theorem Fate.cases (h : Fate w m) :
    Suspends w m ∨ Lost w m ∨ m.playback.session.stage.Clear w.cover w.stamp := by
  cases h with
  | waits ht hid _ _ hq hraises => exact .inl (.inl ⟨_, ht, hid, _, hq, hraises⟩)
  | turns hrun hid _ hq hraises => exact .inl (.inr ⟨_, hrun, hid, _, hq, hraises⟩)
  | fails hfailed htime => exact .inr (.inl ⟨hfailed, htime⟩)
  | clears h => exact .inr (.inr h)

/-! ## What a beat does to the covers -/

theorem upcoming_eq_none (h : ∀ job, m.jobs.head? = some job → job.shows = none) :
    m.upcoming = none := by
  unfold upcoming
  split
  · rfl
  · cases hjob : m.jobs.head? with
    | none => rfl
    | some job => exact h job hjob

theorem upcoming_resting : (resting p).upcoming = none := upcoming_eq_none (by simp [resting])

theorem veils_begin {errand : Errand} (h : ∀ action scope step, errand ≠ .perform action scope step) :
    Veils none p.session (p.begin errand).session := by
  cases errand with
  | perform action scope step => exact absurd rfl (h action scope step)
  | sleep d ending scopes => exact veils_sleep d ending scopes
  | animate => exact (p.stirs_arm.veils rfl).trans (veils_suspend _ _ _)
  | _ => exact veils_suspend _ _ _

theorem veils_note_open (action : Action) (scope : Nat) (step : Option Nat) :
    Veils none p.session ((p.note action scope step).openWithin scope step).session :=
  note_session (p := p) action scope step ▸ veils_openWithin scope step

theorem Beat.veils (hb : Beat m n) : Veils m.upcoming m.playback.session n.playback.session := by
  have hnone : ∀ {s s' : Session}, (∀ job, m.jobs.head? = some job → job.shows = none) →
      Veils none s s' → Veils m.upcoming s s' := fun h hv ↦ upcoming_eq_none h ▸ hv
  cases hb with
  | take | walk => exact hnone (by simp [resting]) (.refl _)
  | @drop p id rest hq hgone =>
      refine hnone (by simp [resting]) ?_
      have hsession : (resting (runTask id { p with queue := rest })).playback.session = p.session :=
        session_drop hgone
      rw [hsession]
      exact .refl _
  | @look p task pause jobs =>
      refine hnone (by simp [Job.shows]) ?_
      change Veils none p.session (p.revisit pause).session
      unfold revisit
      split
      · exact .refl _
      · exact veils_suspend (p := p.updateTurn _) _ _ _
  | @begin p task errand rest hfree hagenda hother =>
      exact hnone (by simp) (veils_begin (p := p.updateTurn (fun t ↦ { t with agenda := rest })) hother)
  | @skip p task action scope scopes step jobs hover =>
      have hup : upcoming ⟨p, some task, .perform action scope scopes step :: jobs⟩ = none :=
        if_pos hover
      rw [hup]
      exact .refl _
  | @cue p task cue scope scopes step jobs hover =>
      have hup : upcoming ⟨p, some task, .perform (.cue cue) scope scopes step :: jobs⟩ = shownBy cue :=
        if_neg (by simp [hover])
      have hveils := veils_performCue cue scope scopes step
        ((note_isOver (p := p) (.cue cue) scope step).trans hover)
      rw [note_session] at hveils
      rw [hup]
      exact hveils
  | block => exact hnone (by simp [Job.shows]) (veils_note_open _ _ _)
  | fork => exact hnone (by simp [Job.shows]) ((veils_note_open _ _ _).trans (veils_spawn _ _))
  | @close p task scope scopes jobs =>
      refine hnone (by simp [Job.shows]) ?_
      change Veils none p.session (p.performCue .waitForAll scope scopes none).session
      by_cases hover : p.isOver = true
      · rw [performCue_over hover]
        exact .refl _
      · exact veils_performCue .waitForAll scope scopes none (isOver_eq_false hover)
  | @finish p task =>
      refine hnone (by simp) ?_
      obtain ⟨taps, hend⟩ := (endTurn_session (p := p) task).1
      change Veils none p.session (p.endTurn task).session
      rw [hend]
      exact .of_covers (Nat.le_refl _) fun _ ↦ rfl

/-! ## What becomes of a showing -/

/-- A showing stands like its pause, or has come to its end. -/
theorem fate_iff : Fate w m ↔
    Keeps w.task (Pause.Raises w.cover w.stamp) m ∨
      m.playback.session.stage.Clear w.cover w.stamp := by
  constructor
  · intro h
    cases h with
    | waits ht hid hp ha hq hraises => exact .inl (.waits ht hid hp ha hq hraises)
    | turns hrun hid hplays hq hraises => exact .inl (.turns hrun hid hplays hq hraises)
    | fails hfailed htime => exact .inl (.falls ⟨hfailed, htime⟩)
    | clears h => exact .inr h
  · rintro (h | h)
    · cases h with
      | waits ht hid hp ha hq hraises => exact .waits ht hid hp ha hq hraises
      | turns hrun hid hplays hq hraises => exact .turns hrun hid hplays hq hraises
      | falls h => exact .fails h.1 h.2
    · exact .clears h

/-- From one beat to the next a showing stays what it is, or takes the other cover
away. -/
theorem Beat.fate (hs : Sound m) (hu : Underway m) (hb : Beat m n) (h : Follows w m) : Fate w n := by
  rw [fate_iff]
  rcases fate_iff.mp h.fate with hkeeps | hclear
  · refine (hb.keeps (lasting_raises _ _) hs hu.cast hu.whole hkeeps).imp_right fun hends ↦ ?_
    cases hends with
    | @intro p q task pause jobs ran hid hraises hgoes hlook =>
        obtain ⟨ticket, hending⟩ := hraises
        have hcleared := clear_of_ends (p := p.aside) ticket hu.running h.apart hlook
        rwa [← hending] at hcleared
  · exact .inr (hb.veils.clear h.past hclear)

theorem Beat.follows (hs : Sound m) (hu : Underway m) (hb : Beat m n) (h : Follows w m) :
    Follows w n where
  past := Nat.lt_of_lt_of_le h.past hb.veils.serial
  apart := hb.veils.apart h.past h.apart
  fate := hb.fate hs hu h

/-! ## A showing begins -/

/-- A cover that is shown comes up, later than all that have been shown. -/
theorem coverScreen_raises {d : Duration} {ticket : Ticket} {scopes : List Nat}
    (hc : p.session.cancelled = false)
    (hpast : ∀ k, (p.session.stage.cover k).visible = true →
      (p.session.stage.cover k).stamp < p.session.serial) :
    p.session.serial < (p.coverScreen c true d ticket scopes).session.serial ∧
      (p.coverScreen c true d ticket scopes).session.stage.Apart c p.session.serial ∧
      ((∃ x ∈ (p.coverScreen c true d ticket scopes).turn.pauses, x.Raises c p.session.serial) ∨
        (p.coverScreen c true d ticket scopes).session.stage.Clear c p.session.serial) := by
  let q := p.update fun s ↦ s.nextSerial.2.present (Stage.startCover c true d p.session.serial)
  have hstart : Veils (some c) p.session q.session := Session.veils_startCover c true d p.session
  have hserial : q.session.serial = p.session.serial + 1 := Session.serial_present _ _
  have hrunning : q.session.cancelled = false :=
    (Session.cancelled_eq (Session.settings_present p.session.nextSerial.2 _)).trans hc
  have hlt : p.session.serial < q.session.serial := hserial ▸ Nat.lt_succ_self _
  have hapart : q.session.stage.Apart c p.session.serial := by
    intro hvisible
    rcases hstart.covers _ hvisible with ⟨hold, hstamp⟩ | ⟨hnew, -⟩
    · exact hstamp ▸ Nat.ne_of_lt (hpast _ hold)
    · exact absurd (Option.some.inj hnew).symm c.other_ne
  have hsleep := veils_sleep (p := q) d (.coverShown c p.session.serial ticket) scopes
  exact ⟨Nat.lt_of_lt_of_le hlt hsleep.serial, hsleep.apart hlt hapart,
    suspend_raises (p := q.arm) hrunning hapart⟩

theorem performCue_raises (seconds : Binary64) (scope : Nat) (scopes : List Nat)
    (step : Option Nat) (hover : p.isOver = false)
    (hpast : ∀ k, (p.session.stage.cover k).visible = true →
      (p.session.stage.cover k).stamp < p.session.serial) :
    p.session.serial < (p.performCue (.cover c true seconds) scope scopes step).session.serial ∧
      (p.performCue (.cover c true seconds) scope scopes step).session.stage.Apart c
        p.session.serial ∧
      ((∃ x ∈ (p.performCue (.cover c true seconds) scope scopes step).turn.pauses,
          x.Raises c p.session.serial) ∨
        (p.performCue (.cover c true seconds) scope scopes step).session.stage.Clear c
          p.session.serial) := by
  have hentered : Veils none p.session ((p.announce step).enter scope false).session :=
    (veils_announce step).trans ((stirs_enter _ _ _).veils (shown_enter _ _))
  have hserial : ((p.announce step).enter scope false).session.serial = p.session.serial := by
    rw [serial_enter, serial_announce]
  have hc : ((p.announce step).enter scope false).session.cancelled = false := by
    rw [Session.cancelled_eq ((settings_enter _ _).trans (settings_announce step))]
    simp only [isOver, Bool.or_eq_false_iff] at hover
    exact hover.1
  have hpast' : ∀ k, (((p.announce step).enter scope false).session.stage.cover k).visible = true →
      (((p.announce step).enter scope false).session.stage.cover k).stamp <
        ((p.announce step).enter scope false).session.serial := by
    intro k hk
    obtain ⟨hold, hstamp⟩ := (hentered.covers k hk).resolve_right (by simp)
    rw [hstamp, hserial]
    exact hpast k hold
  unfold performCue
  rw [if_neg (by simp [hover]), ← hserial]
  exact coverScreen_raises hc hpast'

/-- What a beat shows is followed from then on. -/
theorem Beat.begins (hu : Underway m) (hb : Beat m n) (hup : m.upcoming = some c) :
    ∃ task, m.running = some task ∧ Follows ⟨task.id, c, m.playback.session.serial⟩ n := by
  have hb' := hb
  unfold upcoming at hup
  split at hup
  · cases hup
  next hgoes =>
  cases hb with
  | @cue p task cue scope scopes step jobs hover =>
      have hcasting := hu.cast.running (by simp)
      have hplays := hb'.plays (by simp) (by simp) hcasting.awaits (hcasting.plays rfl).1
      obtain ⟨seconds, rfl⟩ := exists_of_shownBy hup
      have hbefore : ∀ k, (p.session.stage.cover k).visible = true →
          (p.session.stage.cover k).stamp < p.session.serial := by
        intro k hk
        obtain ⟨id, hfollows⟩ := hu.accounted k hk
        exact hfollows.past
      rw [← note_session (p := p) (.cue (.cover c true seconds)) scope step] at hbefore
      have hraises := performCue_raises (c := c) seconds scope scopes step
        ((note_isOver (p := p) _ _ _).trans hover) hbefore
      rw [note_session] at hraises
      obtain ⟨hpast, hapart, hfate⟩ := hraises
      refine ⟨task, rfl, hpast, hapart, ?_⟩
      rcases hfate with ⟨x, hx, hraises⟩ | hclear
      · exact .turns rfl rfl hplays hx hraises
      · exact .clears hclear
  | skip hover => exact absurd hover hgoes
  | _ => simp [Job.shows, resting] at hup

/-! ## Whole runs -/

/-- What happens outside of turns adds tasks, shows no cover and leaves the
session running. -/
structure Meek (p q : Playback) : Prop where
  rest : Player.AtRest q
  veils : Veils none p.session q.session
  running : p.session.cancelled = false → q.session.cancelled = false
  moment : q.session.moment = p.session.moment
  outcomes : q.outcomes = p.outcomes
  tasks : ∃ new, q.tasks = p.tasks ++ new ∧ ∀ t ∈ new, t.Cast ∧ t.aborted = false

theorem Meek.of_stirs (h : p.Stirs q) (hp : Player.AtRest p)
    (hc : q.session.cancelled = p.session.cancelled)
    (hcovers : ∀ c, q.session.stage.cover c = p.session.stage.cover c) : Meek p q where
  rest := .of_orderly (Orderly.stirs hp h)
  veils := .of_covers h.serial hcovers
  running := hc.trans
  moment := h.moment
  outcomes := h.outcomes
  tasks := ⟨[], by rw [h.tasks, List.append_nil], by simp⟩

theorem Meek.trans {r : Playback} (h : Meek p q) (h' : Meek q r) : Meek p r where
  rest := h'.rest
  veils := h.veils.trans h'.veils
  running := h'.running ∘ h.running
  moment := h'.moment.trans h.moment
  outcomes := h'.outcomes.trans h.outcomes
  tasks := by
    obtain ⟨new, hnew, hadded⟩ := h.tasks
    obtain ⟨new', hnew', hadded'⟩ := h'.tasks
    refine ⟨new ++ new', by rw [hnew', hnew, List.append_assoc], fun t ht ↦ ?_⟩
    exact (List.mem_append.mp ht).elim (hadded t) (hadded' t)

theorem meek_spawn (scope : Option Nat) {agenda : List Errand} (hp : Player.AtRest p)
    (ha : Castable agenda) : Meek p (p.spawn scope agenda) := by
  have hext : Extends true p (p.spawn scope agenda) := extends_spawn scope ha
  obtain ⟨new, hnew, hadded⟩ := hext.tasks
  exact
    { rest := .of_orderly (Orderly.spawn scope agenda hp)
      veils := veils_spawn scope agenda
      running := fun hc ↦ spawn_session (p := p) scope agenda ▸ hc
      moment := hext.moment
      outcomes := hext.outcomes
      tasks := ⟨new, hnew, fun t ht ↦ ⟨(hadded t ht).cast, (hadded t ht).whole⟩⟩ }

/-- Between turns a showing is followed whatever is added, and while time goes by. -/
theorem Follows.resting (htasks : p.tasks ⊆ q.tasks) (houtcomes : p.outcomes ⊆ q.outcomes)
    (htime : p.session.OutOfTime → q.session.OutOfTime) (hveils : Veils none p.session q.session)
    (h : Follows w (resting p)) : Follows w (resting q) where
  past := Nat.lt_of_lt_of_le h.past hveils.serial
  apart := hveils.apart h.past h.apart
  fate := by
    cases h.fate with
    | waits ht hid hp ha hq hraises => exact .waits (htasks ht) hid hp ha hq hraises
    | turns hrun => cases hrun
    | fails hfailed hout => exact .fails (houtcomes hfailed) (htime hout)
    | clears hclear => exact .clears (hveils.clear h.past hclear)

theorem Meek.follows (h : Meek p q) (hw : Follows w (resting p)) : Follows w (resting q) := by
  obtain ⟨new, hnew, -⟩ := h.tasks
  refine hw.resting (hnew ▸ List.subset_append_left _ _) (h.outcomes ▸ List.Subset.refl _) ?_ h.veils
  intro htime
  have hconfig : q.session.config = p.session.config := congrArg Moment.config h.moment
  have hnow : q.session.now = p.session.now := congrArg Moment.now h.moment
  unfold Session.OutOfTime
  rwa [hconfig, hnow]

theorem Follows.later {time : Nat} {queue : List Nat} (hle : p.session.now ≤ time)
    (h : Follows w (Machine.resting p)) :
    Follows w (Machine.resting
      { p with session := { p.session with now := time }, queue := queue }) := by
  have hveils : Veils none p.session { p.session with now := time } :=
    .of_covers (Nat.le_refl _) fun _ ↦ rfl
  refine h.resting ?_ ?_ (fun htime ↦ outOfTime_later htime hle) hveils
  · exact List.Subset.refl p.tasks
  · exact List.Subset.refl p.outcomes

section

variable {acts : Playback → Playback → Prop}

theorem Step.follows (hacts : ∀ p q, acts p q → Player.AtRest p → Meek p q) (hs : Sound m) (hu : Underway m)
    (hstep : Step acts m n) (h : Follows w m) : Follows w n := by
  cases hstep with
  | beat hb => exact hb.follows hs hu h
  | act ha => exact (hacts _ _ ha hs.orderly).follows h
  | @move p time hq hnext =>
      obtain ⟨queue, hmoved⟩ := moveTo_eq time p
      exact hmoved ▸ h.later (Nat.le_of_lt (lt_nextDue hnext))
  | @rest p time hq hle hnext => exact h.later hle

theorem Step.veils (hacts : ∀ p q, acts p q → Player.AtRest p → Meek p q) (hs : Sound m)
    (hstep : Step acts m n) :
    Veils m.upcoming m.playback.session n.playback.session := by
  cases hstep with
  | beat hb => exact hb.veils
  | act ha => exact upcoming_resting.symm ▸ (hacts _ _ ha hs.orderly).veils
  | @move p time =>
      obtain ⟨queue, hmoved⟩ := moveTo_eq time p
      rw [upcoming_resting, hmoved]
      exact .of_covers (Nat.le_refl _) fun _ ↦ rfl
  | rest =>
      rw [upcoming_resting]
      exact .of_covers (Nat.le_refl _) fun _ ↦ rfl

/-- The covers that are seen after a step were seen before, or the step has shown them. -/
theorem Step.accounted (hacts : ∀ p q, acts p q → Player.AtRest p → Meek p q) (hs : Sound m) (hu : Underway m)
    (hstep : Step acts m n) (c : Cover) (hc : (n.playback.session.stage.cover c).visible = true) :
    ∃ id, Follows ⟨id, c, (n.playback.session.stage.cover c).stamp⟩ n := by
  rcases (hstep.veils hacts hs).covers c hc with ⟨hold, hstamp⟩ | ⟨hup, hstamp, -⟩
  · obtain ⟨id, hfollows⟩ := hu.accounted c hold
    exact ⟨id, hstamp ▸ hstep.follows hacts hs hu hfollows⟩
  · cases hstep with
    | beat hb =>
        obtain ⟨task, -, hfollows⟩ := hb.begins hu hup
        exact ⟨task.id, hstamp ▸ hfollows⟩
    | _ => cases upcoming_resting.symm.trans hup

theorem Step.cast (hacts : ∀ p q, acts p q → Player.AtRest p → Meek p q) (hs : Sound m)
    (h : Cast m) (hstep : Step acts m n) : Cast n := by
  cases hstep with
  | beat hb => exact hb.cast h
  | act ha =>
      obtain ⟨new, hnew, hadded⟩ := (hacts _ _ ha hs.orderly).tasks
      refine ⟨fun t ht ↦ ?_, by simp [resting]⟩
      rcases List.mem_append.mp (hnew ▸ ht) with ht | ht
      · exact h.tasks t ht
      · exact (hadded t ht).1
  | @move p time =>
      obtain ⟨queue, hmoved⟩ := moveTo_eq time p
      exact ⟨hmoved ▸ h.tasks, by simp [resting]⟩
  | rest => exact ⟨h.tasks, by simp [resting]⟩

theorem Step.running (hacts : ∀ p q, acts p q → Player.AtRest p → Meek p q) (hs : Sound m)
    (h : m.playback.session.cancelled = false) (hstep : Step acts m n) :
    n.playback.session.cancelled = false := by
  cases hstep with
  | beat hb => exact (Session.cancelled_eq hb.settings).trans h
  | act ha => exact (hacts _ _ ha hs.orderly).running h
  | @move p time =>
      obtain ⟨queue, hmoved⟩ := moveTo_eq time p
      rw [hmoved]
      exact h
  | rest => exact h

theorem Step.whole (hacts : ∀ p q, acts p q → Player.AtRest p → Meek p q) (hs : Sound m)
    (h : ∀ t ∈ m.playback.tasks, t.aborted = false) (hstep : Step acts m n) :
    ∀ t ∈ n.playback.tasks, t.aborted = false := by
  cases hstep with
  | beat hb => exact hb.whole h
  | act ha =>
      obtain ⟨new, hnew, hadded⟩ := (hacts _ _ ha hs.orderly).tasks
      intro t ht
      rcases List.mem_append.mp (hnew ▸ ht) with ht | ht
      · exact h t ht
      · exact (hadded t ht).2
  | @move p time =>
      obtain ⟨queue, hmoved⟩ := moveTo_eq time p
      rw [hmoved]
      exact h
  | rest => exact h

theorem Step.underway (hacts : ∀ p q, acts p q → Player.AtRest p → Meek p q) (hs : Sound m) (hu : Underway m)
    (hstep : Step acts m n) : Underway n where
  cast := hstep.cast hacts hs hu.cast
  running := hstep.running hacts hs hu.running
  whole := hstep.whole hacts hs hu.whole
  accounted := hstep.accounted hacts hs hu

/-- A session that goes on does so with its covers accounted for. -/
theorem Runs.underway (hacts : ∀ p q, acts p q → Player.AtRest p → Meek p q) (hr : Runs acts m n) (hs : Sound m)
    (hu : Underway m) : Underway n ∧ Sound n :=
  hr.induct (fun p q ha hp ↦ (hacts p q ha hp).rest) hs hu fun _ _ hk hu hstep ↦ hstep.underway hacts hk hu

theorem Runs.follows (hacts : ∀ p q, acts p q → Player.AtRest p → Meek p q) (hr : Runs acts m n) (hs : Sound m)
    (hu : Underway m) (h : Follows w m) : Follows w n := by
  have hboth := hr.induct (I := fun k ↦ Underway k ∧ Follows w k)
    (fun p q ha hp ↦ (hacts p q ha hp).rest) hs ⟨hu, h⟩ fun _ _ hk hI hstep ↦
      ⟨hstep.underway hacts hk hI.1, hstep.follows hacts hk hI.1 hI.2⟩
  exact hboth.1.2

/-- A showing that has been neither cut short nor lost leaves no older cover,
then and from then on. -/
theorem Runs.clear {k l : Machine} (hacts : ∀ p q, acts p q → Player.AtRest p → Meek p q)
    (hs : Sound m) (hu : Underway m) (hb : Beat m n) (hup : m.upcoming = some c) {task : Task}
    (htask : m.running = some task) (hk : Runs acts n k)
    (hended : ¬Suspends ⟨task.id, c, m.playback.session.serial⟩ k)
    (hlost : ¬Lost ⟨task.id, c, m.playback.session.serial⟩ k) (hl : Runs acts k l) :
    l.playback.session.stage.Clear c m.playback.session.serial := by
  have hstep : Step acts m n := .beat hb
  have hn := hstep.underway hacts hs hu
  have hns := hb.sound hs
  obtain ⟨task', htask', hfollows⟩ := hb.begins hu hup
  obtain rfl : task' = task := Option.some.inj (htask'.symm.trans htask)
  have hfollows := hk.follows hacts hns hn hfollows
  obtain ⟨hku, hks⟩ := hk.underway hacts hns hn
  have hclear := (hfollows.fate.cases.resolve_left hended).resolve_left hlost
  have hboth := hl.induct (I := fun j ↦ Underway j ∧
      m.playback.session.serial < j.playback.session.serial ∧
      j.playback.session.stage.Clear c m.playback.session.serial)
    (fun p q ha hp ↦ (hacts p q ha hp).rest) hks ⟨hku, hfollows.past, hclear⟩
    fun _ _ hj hI hstep ↦
      have hveils := hstep.veils hacts hj
      ⟨hstep.underway hacts hj hI.1, Nat.lt_of_lt_of_le hI.2.1 hveils.serial,
        hveils.clear hI.2.1 hI.2.2⟩
  exact hboth.1.2.2

/-- Of two covers that are seen, the one shown later is still coming up, or its
showing has been lost. -/
theorem Underway.later (hu : Underway m)
    (hc : (m.playback.session.stage.cover c).visible = true)
    (hother : (m.playback.session.stage.cover c.other).visible = true)
    (hlt : (m.playback.session.stage.cover c.other).stamp <
      (m.playback.session.stage.cover c).stamp) :
    ∃ id, Suspends ⟨id, c, (m.playback.session.stage.cover c).stamp⟩ m ∨
      Lost ⟨id, c, (m.playback.session.stage.cover c).stamp⟩ m := by
  obtain ⟨id, hfollows⟩ := hu.accounted c hc
  refine ⟨id, ?_⟩
  rcases hfollows.fate.cases with hsuspends | hlost | hclear
  · exact .inl hsuspends
  · exact .inr hlost
  · exact absurd (hclear hother) (Nat.lt_asymm hlt)

/-- Two covers that are seen have been shown at different times. -/
theorem Underway.stamps_ne (hu : Underway m)
    (hc : (m.playback.session.stage.cover c).visible = true)
    (hother : (m.playback.session.stage.cover c.other).visible = true) :
    (m.playback.session.stage.cover c.other).stamp ≠ (m.playback.session.stage.cover c).stamp := by
  obtain ⟨id, hfollows⟩ := hu.accounted c hc
  exact hfollows.apart hother

/-- Without a showing that is suspended or lost at most one cover is seen. -/
theorem Underway.alone (hu : Underway m) (hended : ∀ w, ¬Suspends w m) (hlost : ∀ w, ¬Lost w m) :
    ¬((m.playback.session.stage.cover c).visible = true ∧
      (m.playback.session.stage.cover c.other).visible = true) := by
  rintro ⟨hc, hother⟩
  rcases Nat.lt_or_gt_of_ne (hu.stamps_ne hc hother) with hlt | hgt
  · obtain ⟨id, hsuspends | hlost'⟩ := hu.later hc hother hlt
    · exact hended _ hsuspends
    · exact hlost _ hlost'
  · have hback : c.other.other = c := by cases c <;> rfl
    obtain ⟨id, hsuspends | hlost'⟩ := hu.later hother (hback.symm ▸ hc) (hback.symm ▸ hgt)
    · exact hended _ hsuspends
    · exact hlost _ hlost'

end

end

end Machine

end Storyline
