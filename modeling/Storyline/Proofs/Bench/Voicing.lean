import Storyline.Proofs.Bench.Steadiness
import Storyline.Proofs.Playback.Stepping
import Storyline.Proofs.Playback.Voicing

/-!
# Lines that are moved on

From the moment at which a line is taken up, playing by itself moves it on at one time
only, which the voice and the time at which the line has been found decide.
-/

namespace Storyline

namespace Bench

open Playback Machine Relation

/-- Playing by itself is on and has just found what is parked, or will do so in the next
turn of whoever waits. -/
structure Finds (park : Nat) (m : Machine) : Prop where
  on : m.playback.session.autoPlay = true
  parked : m.playback.session.isParked park = true
  waits : m.Awaits fun w ↦ ∀ kind auto, w = .tap park kind auto →
    auto.IsNew m.playback.session.moment kind

/-- A step after which playing by itself is on, that leaves the voice alone and takes what
is parked off the stack only by playing by itself. -/
structure Undisturbed (park : Nat) (m n : Machine) : Prop where
  step : Machine.Step Doing m n
  on : n.playback.session.autoPlay = true
  voice : n.playback.session.voiceEnd = m.playback.session.voiceEnd
  kept : m.playback.session.isParked park = true →
    n.playback.session.isParked park = true ∨ PlaysOn park m n

/-- Playing by itself has moved on what is parked on the way from one moment to another. -/
def MovedOn (park time : Nat) (l u : Machine) : Prop :=
  ∃ v w, ReflTransGen (Undisturbed park) l v ∧ PlaysOn park v w ∧ Undisturbed park v w ∧
    ReflTransGen (Undisturbed park) w u ∧ v.playback.session.now = time

/-! ## What is parked -/

/-- An action that has been parked stays in a given way, and somebody waits for it until
it leaves the stack. -/
structure Housed (park : Nat) (kind : Dwell) (m : Machine) : Prop where
  steady : Steady m
  past : park < m.playback.session.serial
  waits : m.Awaits (Wait.DwellsAs park kind)
  stands : m.playback.session.isParked park = false ∨
    ∃ id, Machine.Keeps id (fun x ↦ x.park? = some park) m

variable {m n l u v : Machine} {park id : Nat} {kind : Dwell} {s : Session}

/-- Whose wait has come to its end is not parked any more. -/
theorem unparked_ends (hc : m.playback.session.cancelled = false)
    (h : Ends id (fun x ↦ x.park? = some park) m n) : n.playback.session.isParked park = false := by
  cases h with
  | @intro p q task pause jobs ran hid hpark hgoes hlook =>
      exact unparked_of_ends (p := p.aside) hc hpark hlook

theorem housed_takes {line : Line} {p : Playback} (hs : Steady n) (h : Takes line p n) :
    Housed p.session.serial (p.dwellOf line) n where
  steady := hs
  past := h.serial
  waits := h.waits.imp fun _ hw ↦ hw.dwellsAs
  stands := h.stands

theorem Housed.step (h : Housed park kind m) (hstep : Machine.Step Doing m n) : Housed park kind n where
  steady := h.steady.step hstep
  past := Nat.lt_of_lt_of_le h.past (h.steady.onward hstep).serial
  waits := h.steady.awaits (abides_dwellsAs h.past) hstep h.waits
  stands := by
    rcases h.stands with hgone | ⟨id, hk⟩
    · exact .inl (h.steady.unparked hstep h.past hgone)
    · rcases h.steady.keeps (lasting_park park) hstep hk with hk | hends
      · exact .inr ⟨id, hk⟩
      · exact .inl (unparked_ends h.steady.running hends)

theorem Housed.runs (h : Housed park kind m) (hr : Runs Doing m n) : Housed park kind n := by
  induction hr with
  | refl => exact h
  | step _ hs ih => exact ih.step hs

/-! ## What counts -/

/-- What playing by itself has found goes on to count, undisturbed. -/
structure Counts (s : Session) (park : Nat) (kind : Dwell) (u : Machine) : Prop where
  steady : Steady u
  past : park < u.playback.session.serial
  on : u.playback.session.autoPlay = true
  config : u.playback.session.config = s.config
  voice : u.playback.session.voiceEnd = s.voiceEnd
  waits : u.Awaits (Wait.CountsSince s s.now park kind u.playback.session.now)
  stands : u.playback.session.isParked park = false ∨ s.OutOfTime ∨
    (u.playback.session.now = s.now ∧ ∃ id, Machine.Keeps id (fun x ↦ x.park? = some park) u) ∨
      ∃ id, Persists id (fun x ↦ x.park? = some park) u

theorem Housed.counts (h : Housed park kind l) (hfinds : Finds park l) :
    Counts l.playback.session park kind l where
  steady := h.steady
  past := h.past
  on := hfinds.on
  config := rfl
  voice := rfl
  waits := by
    have hbegins : ∀ w : Wait, w.DwellsAs park kind →
        (∀ kind' auto, w = .tap park kind' auto → auto.IsNew l.playback.session.moment kind') →
          w.CountsSince l.playback.session l.playback.session.now park kind
            l.playback.session.now := by
      refine fun w hdwells hnew ↦ Wait.BeginsAs.countsSince fun kind' auto hw ↦ ?_
      obtain ⟨rfl, -⟩ := hdwells kind' auto hw
      exact ⟨rfl, hnew kind' auto hw⟩
    exact ⟨fun t ht x hx ↦ hbegins _ (h.waits.tasks t ht x hx) (hfinds.waits.tasks t ht x hx),
      fun x hx ↦ hbegins _ (h.waits.turn x hx) (hfinds.waits.turn x hx),
      fun x hx ↦ hbegins _ (h.waits.looks x hx) (hfinds.waits.looks x hx)⟩
  stands := by
    rcases h.stands with hgone | hk
    · exact .inl hgone
    · exact .inr (.inr (.inl ⟨rfl, hk⟩))

/-- When nothing is ready, playing by itself has found all that waits. -/
theorem Counts.settled {p : Playback} (h : Counts s park kind (resting p)) (hq : p.queue = [])
    {t : Task} (ht : t ∈ p.tasks) {x : Pause} (hx : x ∈ t.pauses) :
    x.wait.Settled p.session ∧ x.wait.IsFound ∧
      ∀ kind' auto, x.wait = .tap park kind' auto → kind' = kind ∧ auto.CountsSince s s.now kind := by
  have hsettled := (h.steady.sound.orderly.resting t ht (by simp [resting]) (by simp [resting, hq])).2 x hx
  have hfound : x.wait.IsFound := hsettled.isFound h.on
  refine ⟨hsettled, hfound, fun kind' auto hw ↦ ?_⟩
  obtain ⟨hkind, hcounts⟩ := h.waits.tasks t ht x hx kind' auto hw
  refine ⟨hkind, hcounts.resolve_right fun hoff ↦ ?_⟩
  rw [hw] at hfound
  exact hfound hoff.1

/-- Before time passes all pauses of a task have been found. -/
theorem Counts.stands_settled {p : Playback} (h : Counts s park kind (resting p)) (hq : p.queue = []) :
    p.session.isParked park = false ∨ s.OutOfTime ∨
      ∃ id, Persists id (fun x ↦ x.park? = some park) (resting p) := by
  rcases h.stands with hgone | htime | ⟨hnow, id, hk⟩ | hstands
  · exact .inl hgone
  · exact .inr (.inl htime)
  · cases hk with
    | @waits t q ht hid hyields _ hmem hpark =>
        refine .inr (.inr ⟨id, .of_tasks (.inl ⟨t, ht, hid, q, hmem, hpark⟩) fun t' ht' hid' x hx ↦ ?_⟩)
        obtain rfl := List.inj_on_of_nodup_map h.steady.sound.orderly.nodup_ids ht' ht (hid'.trans hid.symm)
        exact ⟨hyields x hx, (h.settled hq ht hx).2.1⟩
    | turns hrun => cases hrun
    | falls hfallen =>
        refine .inr (.inl ?_)
        have htime := hfallen.2
        unfold Session.OutOfTime at htime ⊢
        rwa [h.config, hnow] at htime
  · exact .inr (.inr hstands)

theorem Counts.awaits (h : Counts s park kind m) (hstep : Machine.Step Doing m n) :
    n.Awaits (Wait.CountsSince s s.now park kind n.playback.session.now) := by
  have habides : Abides (Wait.CountsSince s s.now park kind m.playback.session.now) m.playback.session :=
    abides_countsSince h.steady.running h.on h.config h.voice h.past
  rcases h.steady.passes hstep with hmoment | ⟨p, q, rfl, rfl, hq, htasks, -, -⟩
  · rw [show n.playback.session.now = _ from congrArg Moment.now hmoment]
    exact h.steady.awaits habides hstep h.waits
  · refine .resting (h.steady.step hstep).sound.orderly fun t ht x hx kind' auto hw ↦ ?_
    obtain ⟨hkind, hcounts⟩ := (h.settled hq (htasks ▸ ht) hx).2.2 kind' auto hw
    exact ⟨hkind, .inl hcounts⟩

theorem Counts.stands_step (h : Counts s park kind m) (hstep : Machine.Step Doing m n) :
    n.playback.session.isParked park = false ∨ s.OutOfTime ∨
      (n.playback.session.now = s.now ∧ ∃ id, Machine.Keeps id (fun x ↦ x.park? = some park) n) ∨
        ∃ id, Persists id (fun x ↦ x.park? = some park) n := by
  have hgone := h.steady.unparked hstep h.past
  have hends : ∀ id, Ends id (fun x ↦ x.park? = some park) m n →
      n.playback.session.isParked park = false := fun id ↦ unparked_ends h.steady.running
  have hstands : ∀ id, Persists id (fun x ↦ x.park? = some park) m →
      n.playback.session.isParked park = false ∨
        ∃ id, Persists id (fun x ↦ x.park? = some park) n := fun id hst ↦
    (h.steady.persists h.on (lasting_park park) hstep hst).symm.imp (hends id) fun hst ↦ ⟨id, hst⟩
  rcases h.steady.passes hstep with hmoment | ⟨p, q, rfl, rfl, hq, -, -, -⟩
  · rcases h.stands with hun | htime | ⟨hstart, id, hk⟩ | ⟨id, hst⟩
    · exact .inl (hgone hun)
    · exact .inr (.inl htime)
    · rcases h.steady.keeps (lasting_park park) hstep hk with hk | hend
      · exact .inr (.inr (.inl ⟨(congrArg Moment.now hmoment).trans hstart, id, hk⟩))
      · exact .inl (hends id hend)
    · exact (hstands id hst).imp_right fun hst ↦ .inr (.inr hst)
  · rcases h.stands_settled hq with hun | htime | ⟨id, hst⟩
    · exact .inl (hgone hun)
    · exact .inr (.inl htime)
    · exact (hstands id hst).imp_right fun hst ↦ .inr (.inr hst)

theorem Counts.step (h : Counts s park kind m) (hstep : Undisturbed park m n) : Counts s park kind n where
  steady := h.steady.step hstep.step
  past := Nat.lt_of_lt_of_le h.past (h.steady.onward hstep.step).serial
  on := hstep.on
  config := (h.steady.config hstep.step).trans h.config
  voice := hstep.voice.trans h.voice
  waits := h.awaits hstep.step
  stands := h.stands_step hstep.step

theorem Counts.runs (h : Counts s park kind l) (hr : ReflTransGen (Undisturbed park) l u) :
    Counts s park kind u := by
  induction hr with
  | refl => exact h
  | tail _ hstep ih => exact ih.step hstep

theorem Counts.movesAt (h : Counts s park kind u) (hp : PlaysOn park u v) :
    s.MovesAt s.now kind u.playback.session.now :=
  hp.movesAt h.steady.sound h.steady.running h.config h.voice h.waits

/-- When nothing is ready, what was to be moved on by now has been. -/
theorem Counts.unparked {p : Playback} {time : Nat} (h : Counts s park kind (resting p))
    (hq : p.queue = []) (htime : ¬s.OutOfTime) (hmoves : s.MovesAt s.now kind time)
    (hle : time ≤ p.session.now) : p.session.isParked park = false := by
  rcases h.stands_settled hq with hun | hout | ⟨id, hst⟩
  · exact hun
  · exact absurd hout htime
  · rcases hst.holds with ⟨t, ht, -, x, hx, hpark⟩ | ⟨task, hrun, -⟩
    · obtain ⟨kind', auto, hwait⟩ := exists_tap_of_park hpark
      obtain ⟨hsettled, -, hcounts⟩ := h.settled hq ht hx
      obtain ⟨rfl, hcounts⟩ := hcounts kind' auto hwait
      rw [hwait] at hsettled
      exact absurd hle (Nat.not_le.mpr (hcounts.lt hsettled hmoves))
    · cases hrun

/-- What is parked leaves the stack by being moved on. -/
theorem parked_or_movedOn (hparked : l.playback.session.isParked park = true)
    (hr : ReflTransGen (Undisturbed park) l u) :
    u.playback.session.isParked park = true ∨ ∃ time, MovedOn park time l u := by
  induction hr with
  | refl => exact .inl hparked
  | @tail v w hr hstep ih =>
      rcases ih with hparked | ⟨time, x, y, hx, hplays, hy, hv, hnow⟩
      · exact (hstep.kept hparked).imp_right fun hplays ↦ ⟨_, v, w, hr, hplays, hstep, .refl, rfl⟩
      · exact .inr ⟨time, x, y, hx, hplays, hy, hv.tail hstep, hnow⟩

theorem Counts.now (h : Counts s park kind u) (hr : ReflTransGen (Undisturbed park) u v) :
    u.playback.session.now ≤ v.playback.session.now := by
  induction hr with
  | refl => exact Nat.le_refl _
  | tail hr hstep ih => exact Nat.le_trans ih ((h.runs hr).steady.now hstep.step)

theorem Counts.movedOn {time : Nat} (h : Counts s park kind l) (hm : MovedOn park time l u) :
    s.MovesAt s.now kind time ∧ time ≤ u.playback.session.now := by
  obtain ⟨v, w, hv, hplays, hstep, hw, rfl⟩ := hm
  exact ⟨(h.runs hv).movesAt hplays, (h.runs hv).now ((ReflTransGen.single hstep).trans hw)⟩

/-! ## From the moment at which a line is taken up -/

/-- How playing by itself moves on what has been parked. -/
structure Dwells (park : Nat) (kind : Dwell) (n : Machine) : Prop where
  on : ∀ u v, Runs Doing n u → PlaysOn park u v → u.playback.session.autoPlay = true
  /-- If it is on already, it has found what is parked. -/
  found : n.playback.session.autoPlay = true → n.playback.session.isParked park = true → Finds park n
  /-- Otherwise it does so when it is switched on. -/
  switched : ∀ p, Runs Doing n (resting p) → p.queue = [] → p.session.autoPlay = false →
    p.session.isParked park = true → Finds park (resting (p.setAutoPlay true))
  exact : ∀ l u v, Runs Doing n l → Finds park l → ReflTransGen (Undisturbed park) l u →
    PlaysOn park u v →
      l.playback.session.MovesAt l.playback.session.now kind u.playback.session.now
  stays : ∀ l u, Runs Doing n l → Finds park l → ReflTransGen (Undisturbed park) l u →
    u.playback.session.isParked park = true ∨ ∃ time ≤ u.playback.session.now,
      l.playback.session.MovesAt l.playback.session.now kind time ∧ MovedOn park time l u
  /-- When nothing is ready, what was to be moved on by now has been moved on in time. -/
  moves : ∀ l p time, Runs Doing n l → Finds park l →
    kind = .voice ∨ ¬l.playback.session.OutOfTime → ReflTransGen (Undisturbed park) l (resting p) →
    p.queue = [] → l.playback.session.MovesAt l.playback.session.now kind time →
      time ≤ p.session.now → MovedOn park time l (resting p)
  endless : kind = .voice → ∀ l u, Runs Doing n l → Finds park l →
    (∀ time, l.playback.session.speaksAt time = true) → ReflTransGen (Undisturbed park) l u →
      u.playback.session.isParked park = true

/-- When playing by itself is switched on, it has yet to find whoever waits. -/
theorem finds_switched {p : Playback} (h : Steady (resting p)) (hq : p.queue = [])
    (hoff : p.session.autoPlay = false) (hparked : p.session.isParked park = true) :
    Finds park (resting (p.setAutoPlay true)) := by
  have hgoes : p.session.cancelled = false := h.running
  have hdoing : Doing p (p.setAutoPlay true) :=
    doing_request (b := ⟨p, [], [], [], []⟩) (r := .autoPlay true) (by simp) (by simp) rfl
  have hsession : (p.setAutoPlay true).session = { p.session with autoPlay := true } := by
    rw [setAutoPlay_eq_touch, touch_session]
    simp [Session.setAutoPlay, hgoes]
  refine ⟨congrArg Session.autoPlay hsession, ?_, .resting (hdoing.adds h.sound.orderly).rest ?_⟩
  · change (p.setAutoPlay true).session.isParked park = true
    rw [hsession]
    exact hparked
  · intro t ht x hx kind auto hwait
    have htasks : (p.setAutoPlay true).tasks = p.tasks := (p.stirs_setAutoPlay true).tasks
    have hsettled := (h.sound.orderly.resting t (htasks ▸ ht) (by simp [resting])
      (by simp [resting, hq])).2 x hx
    have hidle := hsettled.isIdle hoff
    rw [hwait] at hidle
    obtain rfl : auto = .off := hidle
    cases kind <;> trivial

theorem Housed.dwells (h : Housed park kind n)
    (hnew : n.Awaits (Wait.BeginsAs n.playback.session.moment park kind)) : Dwells park kind n where
  on := fun u v hr hp ↦ hp.autoPlay (h.runs hr).steady.running
  found := fun hon hparked ↦ ⟨hon, hparked, hnew.imp fun w hw kind' auto he ↦ by
    obtain ⟨rfl, hnew⟩ := hw kind' auto he
    exact hnew⟩
  switched := fun p hr hq hoff hparked ↦ finds_switched (h.runs hr).steady hq hoff hparked
  exact := fun l u v hl hfinds hr hp ↦ (((h.runs hl).counts hfinds).runs hr).movesAt hp
  stays := by
    intro l u hl hfinds hr
    refine (parked_or_movedOn hfinds.parked hr).imp_right fun ⟨time, hmoved⟩ ↦ ?_
    obtain ⟨hmoves, hle⟩ := ((h.runs hl).counts hfinds).movedOn hmoved
    exact ⟨time, hle, hmoves, hmoved⟩
  moves := by
    intro l p time hl hfinds hkind hr hq hmoves hle
    have hcounts := (h.runs hl).counts hfinds
    have htime : ¬l.playback.session.OutOfTime := by
      rcases hkind with rfl | htime
      · obtain ⟨k, tick, hsilent, -⟩ := hmoves
        exact hsilent.not_outOfTime
      · exact htime
    have hgone := (hcounts.runs hr).unparked hq htime hmoves hle
    rcases parked_or_movedOn hfinds.parked hr with hparked | ⟨time', hmoved⟩
    · cases hparked.symm.trans hgone
    · obtain rfl := hmoves.unique (hcounts.movedOn hmoved).1
      exact hmoved
  endless := by
    rintro rfl l u hl hfinds hspeaks hr
    refine (parked_or_movedOn hfinds.parked hr).resolve_right fun ⟨time, hmoved⟩ ↦ ?_
    obtain ⟨k, tick, hsilent, -⟩ := (((h.runs hl).counts hfinds).movedOn hmoved).1
    cases hsilent.silent.symm.trans (hspeaks tick)

/-- What becomes of a line that is taken up. -/
structure Speaks (line : Line) (p : Playback) (n : Machine) : Prop where
  /-- A line whose voice is in the cache has it played, and stays for the voice. -/
  voiced : ∀ blob, p.session.voiceOf line = some blob →
    n.playback.session.heard = p.session.sounding blob ∧ Dwells p.session.serial .voice n
  /-- Any other line plays nothing, and stays for the fixed time of lines. -/
  unvoiced : p.session.voiceOf line = none →
    n.playback.session.heard = p.session.heard ∧
      Dwells p.session.serial (.fixed p.session.config.talkDwell) n

/-- Whatever is done in a session that goes on, a line is moved on when its voice has been
silent for a moment, or without a voice after a fixed time. -/
theorem line_moves_on {config : Config} {host : Host} {voices : VoiceCache} {p : Playback} {task : Task}
    {line : Line} {scope : Nat} {scopes : List Nat} {step : Option Nat} {jobs : List Job} {n : Machine}
    (hr : Runs Doing (resting (new config host voices).playback)
      ⟨p, some task, .perform (.cue (.talk line)) scope scopes step :: jobs⟩)
    (hgoes : p.isOver = false)
    (hb : Beat ⟨p, some task, .perform (.cue (.talk line)) scope scopes step :: jobs⟩ n) :
    Speaks line p n := by
  have hsteady := (steady_new config host voices).runs hr
  have htakes := hb.takes hsteady.cast hsteady.distinct hgoes
  have hdwells : Dwells p.session.serial (p.dwellOf line) n :=
    (housed_takes (hsteady.step (.beat hb)) htakes).dwells (htakes.moment ▸ htakes.waits)
  unfold dwellOf at hdwells
  constructor
  case voiced =>
    intro blob hvoice
    rw [hvoice] at hdwells
    exact ⟨htakes.heard.trans (speak_of_voice hvoice), hdwells⟩
  case unvoiced =>
    intro hnone
    rw [hnone] at hdwells
    exact ⟨htakes.heard.trans (by rw [speak_of_none hnone]), hdwells⟩

/-- Whether the next step moves on what is parked. -/
def playsOn (park : Nat) : Machine → Bool
  | ⟨p, some _, .look x :: _⟩ =>
    p.session.isParked park && decide (x.park? = some park) && !p.turn.failed &&
      decide ((p.aside.look x.wait).2 = .ends true)
  | _ => false

/-- Whether a step that goes on by itself is undisturbed. -/
def undisturbed (park : Nat) (m n : Machine) : Bool :=
  n.playback.session.autoPlay && decide (n.playback.session.voiceEnd = m.playback.session.voiceEnd) &&
    (!m.playback.session.isParked park || n.playback.session.isParked park || playsOn park m)

theorem playsOn_of_step? (hnext : m.step? = some n) (h : playsOn park m = true) : PlaysOn park m n := by
  obtain ⟨p, running, jobs⟩ := m
  unfold playsOn at h
  split at h
  next q task x rest heq =>
    obtain ⟨rfl, rfl, rfl⟩ := Machine.mk.inj heq
    simp only [Bool.and_eq_true, Bool.not_eq_true', decide_eq_true_eq] at h
    obtain ⟨⟨⟨hparked, hpark⟩, hgoes⟩, hends⟩ := h
    rw [← Option.some.inj hnext]
    refine ⟨hparked, task.id, ?_⟩
    have hlook : p.aside.look x.wait = ((p.aside.look x.wait).1, .ends true) := Prod.ext rfl hends
    change Ends _ _ _ ⟨p.revisit x, some task, rest⟩
    rw [revisit_eq hgoes, suspend_of_ends hlook]
    exact .intro rfl hpark hgoes hlook
  next => cases h

theorem undisturbed_of_step? (hnext : m.step? = some n) (h : undisturbed park m n = true) :
    Undisturbed park m n := by
  simp only [undisturbed, Bool.and_eq_true, Bool.or_eq_true, Bool.not_eq_true', decide_eq_true_eq] at h
  obtain ⟨⟨hon, hvoice⟩, hkept⟩ := h
  refine ⟨step_of_step? hnext, hon, hvoice, fun hparked ↦ ?_⟩
  rcases hkept with (hgone | hparked) | hplays
  · cases hparked.symm.trans hgone
  · exact .inl hparked
  · exact .inr (playsOn_of_step? hnext hplays)

/-- A line that is about to be taken up. -/
def upcomingLine : Machine → Option (Playback × Line)
  | ⟨p, some _, .perform (.cue (.talk line)) _ _ _ :: _⟩ => some (p, line)
  | _ => none

theorem eq_of_upcomingLine {p : Playback} {line : Line} (h : upcomingLine m = some (p, line)) :
    ∃ task scope scopes step jobs,
      m = ⟨p, some task, .perform (.cue (.talk line)) scope scopes step :: jobs⟩ := by
  unfold upcomingLine at h
  split at h
  next =>
    obtain ⟨rfl, rfl⟩ := Prod.mk.inj (Option.some.inj h)
    exact ⟨_, _, _, _, _, rfl⟩
  next => cases h

/-- A voice of six bytes, and a host on which a byte sounds for a tenth of a second. -/
def greeting : VoiceCache := ⟨[("hello", [0, 0, 0, 0, 0, 0])], []⟩

def speakingHost : Host := ⟨true, true, some 100, fun _ _ ↦ .zero⟩

/-- The voice ends after 600 milliseconds.  It is found silent after one second, and the
line is moved on a second later. -/
theorem greeting_moves_on :
    ∃ (p : Playback) (n u : Machine), p.session.now = 0 ∧ n.playback.session.voiceEnd = some 600 ∧
      Speaks Player.watchedLine p n ∧ Finds 1 n ∧ MovedOn 1 2000 n u := by
  let q := ((Player.new Player.watched .standard speakingHost greeting).follow
    [(false, .autoPlay true), (false, .start)]).playback
  have hfacts : ((resting q).stepsWhile (fun _ _ ↦ true) 5).bind (fun m ↦ (upcomingLine m).bind fun x ↦
      m.step?.bind fun n ↦ (n.stepsWhile (undisturbed 1) 14).map fun u ↦
        decide (x.2 = Player.watchedLine ∧ x.1.isOver = false ∧ x.1.session.now = 0 ∧
          x.1.session.serial = 1 ∧ x.1.session.voiceOf Player.watchedLine = some [0, 0, 0, 0, 0, 0] ∧
          n.playback.session.autoPlay = true ∧ n.playback.session.isParked 1 = true ∧
          n.playback.session.config = .standard ∧ n.playback.session.now = 0 ∧
          n.playback.session.voiceEnd = some 600 ∧ u.running.isNone = true ∧ u.jobs.isEmpty = true ∧
          u.playback.queue = [] ∧ u.playback.session.now = 2000)) = some true := by
    decide +kernel
  have hq : Runs Doing (resting (new .standard speakingHost greeting).playback) (resting q) :=
    runs_doing ((runs_new Player.watched _ _ _).trans (runs_player (fun _ hc ↦ hc)
      (Player.reaches_follow (by decide) (Player.new_atRest _ _ _ _))))
  clear_value q
  obtain ⟨m, hm, hfacts⟩ := Option.bind_eq_some_iff.mp hfacts
  obtain ⟨⟨p, line⟩, hline, hfacts⟩ := Option.bind_eq_some_iff.mp hfacts
  obtain ⟨n, hn, hfacts⟩ := Option.bind_eq_some_iff.mp hfacts
  obtain ⟨u, hu, hfacts⟩ := Option.map_eq_some_iff.mp hfacts
  obtain ⟨rfl, hgoes, hstart, hserial, hvoice, hon, hparked, hconfig, hnow, hend, hrest, hidle, hqueue, htime⟩ :=
    of_decide_eq_true hfacts
  obtain ⟨task, scope, scopes, step, jobs, rfl⟩ := eq_of_upcomingLine hline
  have hspeaks := line_moves_on (hq.trans (runs_stepsWhile 5 hm)) hgoes (Option.some.inj hn ▸ beat_stepTurn task _)
  have hdwells := (hspeaks.voiced _ hvoice).2
  rw [hserial] at hdwells
  have hfinds := hdwells.found hon hparked
  have hchain : ReflTransGen (Undisturbed 1) n u :=
    ReflTransGen.mono (fun _ _ h ↦ undisturbed_of_step? h.1 h.2) _ _ (steps_stepsWhile 14 hu)
  have hmoves : n.playback.session.MovesAt n.playback.session.now .voice 2000 := by
    rw [hnow]
    refine ⟨2, 1000, ⟨by decide, by rw [hconfig]; rfl, ?_, fun j tick hj hlt htick ↦ ?_⟩,
      by rw [hconfig]; rfl⟩
    · simp [Session.speaksAt, Session.isSpeaking, hend]
    · obtain rfl : j = 1 := by omega
      rw [hconfig] at htick
      obtain rfl : 500 = tick := Option.some.inj htick
      simp [Session.speaksAt, Session.isSpeaking, hend]
  obtain ⟨r, running, left⟩ := u
  obtain rfl : running = none := Option.isNone_iff_eq_none.mp hrest
  obtain rfl : left = [] := List.isEmpty_iff.mp hidle
  exact ⟨p, n, _, hstart, hend, hspeaks, hfinds,
    hdwells.moves n r 2000 .refl hfinds (.inl rfl) hchain hqueue hmoves (Nat.le_of_eq htime.symm)⟩

end Bench

end Storyline
