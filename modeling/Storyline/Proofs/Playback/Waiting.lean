import Storyline.Proofs.Playback.Following

/-!
# What all waits have in common

A wait is fresh when an action or an errand begins to wait.  Afterwards it changes
only by looks.  So what fresh waits have and looks preserve, all waits of a run have.
An action that is parked gets the next number, so what concerns an action that is
parked already does not concern fresh waits.
-/

namespace Storyline

/-- A wait as it is before the first look. -/
def Wait.Fresh : Wait → Prop
  | .tap _ _ .off | .forward none => True
  | .tap .. | .forward (some _) => False
  | _ => True

/-- A wait for the tap of an action that is numbered from the given number on, or for
something else. -/
def Wait.ParkedFrom (serial : Nat) (w : Wait) : Prop :=
  ∀ park kind auto, w = .tap park kind auto → serial ≤ park

/-- The time and the settings are those of a session, and what is numbered comes
after it. -/
structure Playback.During (s : Session) (p : Playback) : Prop where
  moment : p.session.moment = s.moment
  settings : p.session.settings = s.settings
  serial : s.serial ≤ p.session.serial

/-- A property of the waits that begin during part of a turn, before and after the
first look at them, that the look with which this part starts preserves. -/
structure Abides (P : Wait → Prop) (s : Session) : Prop where
  fresh : ∀ w, w.Fresh → w.ParkedFrom s.serial → P w
  first : ∀ (p q : Playback) (w w' : Wait), p.During s → w.Fresh → w.ParkedFrom s.serial →
    p.look w = (q, .waits w') → P w'
  look : ∀ (p q : Playback) (w w' : Wait), p.session = s → w.Punctual s.moment →
    p.look w = (q, .waits w') → P w → P w'

namespace Playback

/-- The pauses of a turn come from those before, or their waits have a property. -/
def Waits (P : Wait → Prop) (p q : Playback) : Prop :=
  ∀ x ∈ q.turn.pauses, x ∈ p.turn.pauses ∨ P x.wait

variable {P : Wait → Prop} {p q r : Playback} {s : Session}

theorem During.refl (p : Playback) : p.During p.session := ⟨rfl, rfl, Nat.le_refl _⟩

theorem During.stirs (h : p.During s) (hst : p.Stirs q)
    (hsettings : q.session.settings = p.session.settings) : q.During s :=
  ⟨hst.moment.trans h.moment, hsettings.trans h.settings, Nat.le_trans h.serial hst.serial⟩

theorem During.session (h : p.During s) (hsession : q.session = p.session) : q.During s :=
  ⟨hsession ▸ h.moment, hsession ▸ h.settings, hsession ▸ h.serial⟩

theorem Waits.of_subset (h : q.turn.pauses ⊆ p.turn.pauses) : Waits P p q := fun _ hx ↦ .inl (h hx)

theorem Waits.of_stirs (h : p.Stirs q) : Waits P p q := of_subset (h.pauses ▸ List.Subset.refl _)

theorem Waits.trans (h : Waits P p q) (h' : Waits P q r) : Waits P p r :=
  fun x hx ↦ (h' x hx).elim (h x) .inr

/-- What comes after a part that leaves the waits, the time and the settings alone. -/
theorem During.waits (h : p.During s) (hst : p.Stirs q)
    (hsettings : q.session.settings = p.session.settings) (hwaits : q.During s → Waits P q r) :
    Waits P p r :=
  (Waits.of_stirs hst).trans (hwaits (h.stirs hst hsettings))

theorem waits_leave {pause : Pause} (h : P pause.wait) : Waits P p (p.leave pause) := by
  intro x hx
  rcases List.mem_append.mp hx with hx | hx
  · exact .inl hx
  · exact .inr (List.mem_singleton.mp hx ▸ h)

theorem waits_of_look {wait : Wait} (ending : Ending) (scopes : List Nat) (h : P wait)
    (hlooked : ∀ q w, p.look wait = (q, .waits w) → P w) : Waits P p (p.suspend wait ending scopes) := by
  have hst := p.stirs_look wait
  unfold suspend
  split
  next q w hlook =>
    rw [hlook] at hst
    exact (Waits.of_stirs hst).trans (waits_leave (hlooked q w hlook))
  next q ran hlook =>
    rw [hlook] at hst
    split
    · exact .of_stirs (hst.trans (q.stirs_finish ending))
    · exact .of_stirs hst
  next q hlook =>
    rw [hlook] at hst
    have hleft : Waits P q (q.leave ⟨wait, ending, scopes⟩) := waits_leave h
    exact (Waits.of_stirs hst).trans hleft

theorem waits_suspend (hP : Abides P s) (hs : p.During s) {wait : Wait} (ending : Ending)
    (scopes : List Nat) (hfresh : wait.Fresh) (hfrom : wait.ParkedFrom s.serial) :
    Waits P p (p.suspend wait ending scopes) :=
  waits_of_look ending scopes (hP.fresh wait hfresh hfrom) fun q w ↦ hP.first p q wait w hs hfresh hfrom

theorem waits_spawn (scope : Option Nat) (agenda : List Errand) : Waits P p (p.spawn scope agenda) :=
  .of_subset (spawn_turn (p := p) scope agenda ▸ List.Subset.refl _)

theorem waits_note (action : Action) (scope : Nat) (step : Option Nat) :
    Waits P p (p.note action scope step) :=
  .of_subset (note_turn (p := p) action scope step ▸ List.Subset.refl _)

theorem waits_sleep (hP : Abides P s) (hs : p.During s) (d : Duration) (ending : Ending)
    (scopes : List Nat) : Waits P p (p.sleep d ending scopes) :=
  (Waits.of_stirs p.stirs_arm).trans
    (waits_suspend hP (hs.stirs p.stirs_arm rfl) ending scopes trivial (by simp [Wait.ParkedFrom]))

theorem waits_park (hP : Abides P s) (hs : p.During s) (kind : Dwell) (ending : Ending)
    (scopes : List Nat) : Waits P p (p.park kind ending scopes) :=
  (Waits.of_stirs p.stirs_park).trans <|
    waits_suspend hP (hs.stirs p.stirs_park rfl) ending scopes trivial <| by
      rintro park kind auto ⟨⟩
      exact hs.serial

theorem waits_shakeTarget (hP : Abides P s) (hs : p.During s) (shake : Shake)
    (d : Duration) (ticket : Ticket) (scopes : List Nat) :
    Waits P p (p.shakeTarget shake d ticket scopes) := by
  let numbered := p.update fun s ↦ s.nextSerial.2.present (Stage.startShake shake d p.session.serial)
  have hst : p.Stirs numbered := p.stirs_number _
  have hspawned : Waits P p (numbered.spawn none [.animate shake p.session.serial d]) :=
    (Waits.of_stirs hst).trans (waits_spawn _ _)
  refine hspawned.trans (waits_sleep hP ?_ d (.release ticket) scopes)
  exact (hs.stirs hst (Session.settings_present _ _)).session (spawn_session _ _)

theorem waits_performCue (hP : Abides P s) (hs : p.During s) (cue : Cue) (scope : Nat)
    (scopes : List Nat) (step : Option Nat) : Waits P p (p.performCue cue scope scopes step) := by
  unfold performCue
  split
  · exact .of_subset (List.Subset.refl _)
  have hentered := (p.stirs_announce step).trans (stirs_enter _ scope cue.isTapBlocking)
  have hs := hs.stirs hentered ((settings_enter _ _).trans (settings_announce step))
  refine (Waits.of_stirs hentered).trans ?_
  cases cue with
  | talk line =>
      exact hs.waits ((stirs_tell _ line).trans (stirs_speak _ line))
        ((settings_speak line).trans (Session.settings_present _ _)) fun hs ↦ waits_park hP hs _ _ _
  | telop text =>
      exact hs.waits (stirs_present _ _) (Session.settings_present _ _) fun hs ↦ waits_park hP hs _ _ _
  | model change => exact (Waits.of_stirs (stirs_presentIf _ _)).trans (waits_spawn _ _)
  | tremble axis character => exact .of_stirs (stirs_release _ _)
  | cover cover visible seconds =>
      exact hs.waits (stirs_number _ _) (Session.settings_present _ _) fun hs ↦ waits_sleep hP hs _ _ _
  | shake shake seconds => exact waits_shakeTarget hP hs _ _ _ _
  | scenery scenery path => exact .of_stirs (stirs_changeScenery _ _ _ _)
  | delay seconds => exact waits_sleep hP hs _ _ _
  | waitForAll | waitForTap =>
      exact hs.waits (stirs_release _ _) (settings_release _) fun hs ↦
        waits_suspend hP hs _ _ trivial (by simp [Wait.ParkedFrom])

theorem waits_begin (hP : Abides P s) (hs : p.During s) {errand : Errand}
    (h : ∀ action scope step, errand ≠ .perform action scope step) : Waits P p (p.begin errand) := by
  cases errand with
  | perform action scope step => exact absurd rfl (h action scope step)
  | sleep d ending scopes => exact waits_sleep hP hs d ending scopes
  | animate =>
      exact (Waits.of_stirs p.stirs_arm).trans
        (waits_suspend hP (hs.stirs p.stirs_arm rfl) _ _ trivial (by simp [Wait.ParkedFrom]))
  | _ => exact waits_suspend hP hs _ _ trivial (by simp [Wait.ParkedFrom])

theorem waits_revisit (hP : Abides P p.session) {pause : Pause}
    (hpunctual : pause.wait.Punctual p.session.moment) (h : P pause.wait) :
    Waits P p (p.revisit pause) := by
  by_cases hf : p.turn.failed = true
  · rw [revisit_failed hf]
    exact .of_subset (List.Subset.refl _)
  · rw [revisit_eq (by simpa using hf)]
    have haside : Waits P p p.aside := .of_subset fun _ hx ↦ List.mem_of_mem_tail hx
    refine haside.trans (waits_of_look (p := p.aside) _ _ h fun q w hlook ↦ ?_)
    exact hP.look p.aside q pause.wait w rfl hpunctual hlook h

end Playback

namespace Machine

open Playback

/-- All waits have a property. -/
structure Awaits (P : Wait → Prop) (m : Machine) : Prop where
  tasks : ∀ t ∈ m.playback.tasks, ∀ x ∈ t.pauses, P x.wait
  turn : ∀ x ∈ m.playback.turn.pauses, P x.wait
  looks : ∀ x, .look x ∈ m.jobs → P x.wait

section

variable {P : Wait → Prop} {p q : Playback} {m n : Machine}

theorem Awaits.imp {Q : Wait → Prop} (h : m.Awaits P) (himp : ∀ w, P w → Q w) : m.Awaits Q :=
  ⟨fun t ht x hx ↦ himp _ (h.tasks t ht x hx), fun x hx ↦ himp _ (h.turn x hx),
    fun x hx ↦ himp _ (h.looks x hx)⟩

theorem Awaits.resting (hp : Player.AtRest p) (h : ∀ t ∈ p.tasks, ∀ x ∈ t.pauses, P x.wait) :
    (resting p).Awaits P := by
  have hidle : p.turn = .none := hp.idle rfl
  exact ⟨h, by simp [Machine.resting, hidle, Turn.none], by simp [Machine.resting]⟩

theorem Awaits.within (hm : m.running ≠ none) (hn : n.running ≠ none) (hb : Beat m n)
    (hwaits : Waits P m.playback n.playback) (hjobs : ∀ x, .look x ∈ n.jobs → .look x ∈ m.jobs)
    (h : m.Awaits P) : n.Awaits P := by
  obtain ⟨new, hnew, hadded⟩ := (hb.extends hm hn).tasks
  refine ⟨fun t ht x hx ↦ ?_, fun x hx ↦ (hwaits x hx).elim (h.turn x) id,
    fun x hx ↦ h.looks x (hjobs x hx)⟩
  rcases List.mem_append.mp (hnew ▸ ht) with ht | ht
  · exact h.tasks t ht x hx
  · rw [(hadded t ht).pauses] at hx
    cases hx

theorem Beat.awaits (hP : Abides P m.playback.session) (hs : Sound m) (hb : Beat m n)
    (h : m.Awaits P) : n.Awaits P := by
  have hb' := hb
  have hopen : ∀ (p : Playback) (action : Action) (scope : Nat) (step : Option Nat),
      Waits P p ((p.note action scope step).openWithin scope step) :=
    fun p action scope step ↦ (waits_note action scope step).trans (.of_stirs (stirs_openWithin _ _ _))
  cases hb with
  | @take p id rest task hq htask =>
      obtain ⟨hmem, -⟩ := Orderly.task?_eq htask
      refine ⟨fun t ht ↦ ?_, h.tasks task hmem, fun x hx ↦ ?_⟩
      · rcases mem_modifyTask ht with ⟨old, -, -, rfl⟩ | ⟨hold, -⟩
        · simp
        · exact h.tasks t hold
      · obtain ⟨y, hy, he⟩ := List.mem_map.mp hx
        exact Job.look.inj he ▸ h.tasks task hmem y hy
  | @drop p id rest hq hgone =>
      have hsame : (runTask id { p with queue := rest }).tasks ⊆ p.tasks ∧
          (runTask id { p with queue := rest }).turn = p.turn := by
        unfold runTask
        split
        · exact ⟨List.Subset.refl _, rfl⟩
        next task hsome =>
          rw [if_pos (hgone task hsome)]
          exact ⟨List.filter_subset_self _, rfl⟩
      exact ⟨fun t ht ↦ h.tasks t (hsame.1 ht), fun x hx ↦ h.turn x (hsame.2 ▸ hx), by simp [resting]⟩
  | @look p task pause jobs =>
      exact h.within (by simp) (by simp) hb'
        (waits_revisit hP (hs.looks pause (by simp)) (h.looks pause (by simp)))
        fun x hx ↦ List.mem_cons_of_mem _ hx
  | walk => exact h.within (by simp) (by simp) hb' (.of_subset (List.Subset.refl _)) (by simp)
  | @begin p task errand rest hfree hagenda hother =>
      refine h.within (by simp) (by simp) hb' ?_ (by simp)
      have hset : Waits P p (p.updateTurn fun t ↦ { t with agenda := rest }) :=
        .of_subset (List.Subset.refl _)
      exact hset.trans (waits_begin (p := p.updateTurn fun t ↦ { t with agenda := rest }) hP
        ⟨rfl, rfl, Nat.le_refl _⟩ hother)
  | skip =>
      exact h.within (by simp) (by simp) hb' (.of_subset (List.Subset.refl _))
        fun x hx ↦ List.mem_cons_of_mem _ hx
  | cue =>
      refine h.within (by simp) (by simp) hb' ((waits_note _ _ _).trans (waits_performCue hP ?_ _ _ _ _))
        fun x hx ↦ List.mem_cons_of_mem _ hx
      exact (During.refl _).session (note_session _ _ _)
  | block =>
      refine h.within (by simp) (by simp) hb' (hopen _ _ _ _) fun x hx ↦ ?_
      exact List.mem_cons_of_mem _ ((List.mem_append.mp hx).resolve_left look_mem_blockJobs)
  | fork =>
      exact h.within (by simp) (by simp) hb' ((hopen _ _ _ _).trans (waits_spawn _ _))
        fun x hx ↦ List.mem_cons_of_mem _ hx
  | @close p task scope scopes =>
      exact h.within (by simp) (by simp) hb' (waits_performCue hP (.refl _) .waitForAll scope scopes none)
        fun x hx ↦ List.mem_cons_of_mem _ hx
  | @finish p task =>
      refine .resting (.of_orderly (hb'.sound hs).orderly) fun t ht ↦ ?_
      rcases mem_endTurn ht with ⟨hold, -⟩ | ⟨-, -, hpauses, -⟩
      · exact h.tasks t hold
      · exact hpauses ▸ h.turn

/-! ## Whole runs -/

/-- Between turns tasks are added that have not begun to wait. -/
structure Adds (p q : Playback) : Prop where
  rest : Player.AtRest q
  moment : q.session.moment = p.session.moment
  tasks : ∃ new, q.tasks = p.tasks ++ new ∧ ∀ t ∈ new, t.pauses = []

theorem Awaits.adds (hadds : Adds p q) (h : (Machine.resting p).Awaits P) :
    (Machine.resting q).Awaits P := by
  obtain ⟨new, hnew, hadded⟩ := hadds.tasks
  refine .resting hadds.rest fun t ht ↦ ?_
  rcases List.mem_append.mp (hnew ▸ ht) with ht | ht
  · exact h.tasks t ht
  · simp [hadded t ht]

variable {acts : Playback → Playback → Prop}

theorem Step.awaits (hacts : ∀ p q, acts p q → Player.AtRest p → Adds p q)
    (hP : Abides P m.playback.session) (hs : Sound m) (hstep : Step acts m n)
    (h : m.Awaits P) : n.Awaits P := by
  have hsound := hstep.sound (fun p q ha hp ↦ (hacts p q ha hp).rest) hs
  cases hstep with
  | beat hb => exact hb.awaits hP hs h
  | act ha => exact h.adds (hacts _ _ ha hs.orderly)
  | @move p time =>
      obtain ⟨queue, hmoved⟩ := moveTo_eq time p
      exact .resting hsound.orderly fun t ht ↦ h.tasks t (by rwa [hmoved] at ht)
  | rest => exact .resting hsound.orderly h.tasks

/-- In a turn the clock stands still. -/
theorem Beat.moment (hb : Beat m n) : n.playback.session.moment = m.playback.session.moment := by
  have hb' := hb
  cases hb with
  | take => rfl
  | drop hq hgone => exact congrArg Session.moment (session_drop hgone)
  | @finish p task =>
      obtain ⟨taps, hend⟩ := (endTurn_session (p := p) task).1
      change (p.endTurn task).session.moment = p.session.moment
      rw [hend]
      rfl
  | _ => exact (hb'.extends (by simp) (by simp)).moment

theorem Beat.outOfTime (hb : Beat m n) (h : m.playback.session.OutOfTime) :
    n.playback.session.OutOfTime := by
  have hmoment := hb.moment
  unfold Session.OutOfTime at h ⊢
  rwa [show n.playback.session.config = _ from congrArg Moment.config hmoment,
    show n.playback.session.now = _ from congrArg Moment.now hmoment]

/-- The clock never goes back. -/
theorem Step.now (hacts : ∀ p q, acts p q → Player.AtRest p → Adds p q) (hs : Sound m)
    (hstep : Step acts m n) : m.playback.session.now ≤ n.playback.session.now := by
  cases hstep with
  | beat hb => exact Nat.le_of_eq (congrArg Moment.now hb.moment).symm
  | act ha => exact Nat.le_of_eq (congrArg Moment.now (hacts _ _ ha hs.orderly).moment).symm
  | @move p time hq hnext =>
      obtain ⟨queue, hmoved⟩ := moveTo_eq time p
      rw [hmoved]
      exact Nat.le_of_lt (lt_nextDue hnext)
  | rest _ hle => exact hle

end

end Machine

end Storyline
