import Storyline.Proofs.Playback.Waiting

/-!
# Listening to a voice

Once playing by itself finds a line waiting that has a voice, it looks at the voice
channel tick by tick.  The first tick at which nothing sounds starts one more timer, and
the line is moved on when this timer is due.  Without a voice there is only one timer.
-/

namespace Storyline

namespace Session

/-- Whether a voice would be sounding at a time, if none is played or stopped until then. -/
def speaksAt (s : Session) (time : Nat) : Bool := isSpeaking { s with now := time }

/-- The first look that finds the voice silent, and the tick at which it is done, for what
has been counting since a given time. -/
structure FallsSilent (s : Session) (start k tick : Nat) : Prop where
  counted : 1 ≤ k
  shown : s.config.voicePoll.period.tickFrom start k = some tick
  silent : s.speaksAt tick = false
  spoken : ∀ j t, 1 ≤ j → j < k → s.config.voicePoll.period.tickFrom start j = some t →
    s.speaksAt t = true

/-- When playing by itself moves on what it has found waiting at a given time. -/
def MovesAt (s : Session) (start : Nat) : Dwell → Nat → Prop
  | .fixed d, time => d.endFrom start = some time
  | .voice, time => ∃ k tick, s.FallsSilent start k tick ∧ s.config.voiceTail.endFrom tick = some time

variable {s u : Session} {start k l tick tick' : Nat}

theorem isSpeaking_eq (h : u.voiceEnd = s.voiceEnd) : u.isSpeaking = s.speaksAt u.now := by
  simp only [isSpeaking, speaksAt, h]

/-- Nothing but the first silent look counts. -/
theorem FallsSilent.unique (h : s.FallsSilent start k tick) (h' : s.FallsSilent start l tick') :
    tick = tick' := by
  rcases Nat.lt_trichotomy k l with hlt | rfl | hlt
  · cases h.silent.symm.trans (h'.spoken k tick h.counted hlt h.shown)
  · exact Option.some.inj (h.shown.symm.trans h'.shown)
  · cases h'.silent.symm.trans (h.spoken l tick' h'.counted hlt h'.shown)

/-- What has been found at a given time is moved on at one time at most. -/
theorem MovesAt.unique {kind : Dwell} {time time' : Nat} (h : s.MovesAt start kind time)
    (h' : s.MovesAt start kind time') : time = time' := by
  cases kind with
  | fixed d => exact Option.some.inj (h.symm.trans h')
  | voice =>
      obtain ⟨k, tick, hsilent, hend⟩ := h
      obtain ⟨l, tick', hsilent', hend'⟩ := h'
      obtain rfl := hsilent.unique hsilent'
      exact Option.some.inj (hend.symm.trans hend')

/-- A tick that the clock can show follows the first one. -/
theorem FallsSilent.not_outOfTime (h : s.FallsSilent s.now k tick) : ¬s.OutOfTime := by
  intro hnone
  obtain ⟨t, ht, -⟩ := Duration.tickFrom_mono h.counted h.shown
  cases hnone.symm.trans ht

end Session

/-! ## Waits that count -/

/-- Whether a timer is the one for the next look at the voice, when all looks before have
found it sounding. -/
structure Timer.Polls (s : Session) (start ticks : Nat) (t : Timer) : Prop where
  counted : 1 ≤ ticks
  due : t.due = s.config.voicePoll.period.tickFrom start ticks
  spoken : ∀ j tick, 1 ≤ j → j < ticks → s.config.voicePoll.period.tickFrom start j = some tick →
    s.speaksAt tick = true

/-- How far playing by itself has got with what it has found waiting at a given time. -/
def Lingering.CountsSince (s : Session) (start : Nat) : Dwell → Lingering → Prop
  | .fixed d, .dwelling timer => timer.due = d.endFrom start
  | .voice, .listening began ticks timer => began = start ∧ timer.Polls s start ticks
  | .voice, .dwelling timer =>
    ∃ k tick, s.FallsSilent start k tick ∧ timer.due = s.config.voiceTail.endFrom tick
  | _, _ => False

/-- A wait for the tap of an action counts since a given time, or begins to count at this
time; other waits are of no concern. -/
def Wait.CountsSince (s : Session) (start park : Nat) (kind : Dwell) (now : Nat) (w : Wait) : Prop :=
  ∀ kind' auto, w = .tap park kind' auto →
    kind' = kind ∧ (auto.CountsSince s start kind ∨ auto = .off ∧ now = start)

/-- What was for no tap of an action is for none after a look. -/
theorem Wait.Becomes.exists_tap {w : Wait} {park : Nat} {kind : Dwell} {auto : Lingering}
    (h : w.Becomes (.tap park kind auto)) : ∃ kind' auto', w = .tap park kind' auto' := by
  cases h with
  | same => exact ⟨kind, auto, rfl⟩
  | tap _ kind' _ auto' => exact ⟨kind', auto', rfl⟩

/-- A timer that is due and has not been missed is due now. -/
theorem Timer.due_eq {now : Nat} {t : Timer} (hdue : t.isDue now = true) (hpast : t.NotPast now) :
    t.due = some now := by
  unfold isDue at hdue
  cases ht : t.due with
  | none => simp [ht] at hdue
  | some due =>
      have hle : due ≤ now := by simpa [ht] using hdue
      rw [Nat.le_antisymm hle (hpast due ht)]

/-- As long as its timer is not due, what counts is moved on later. -/
theorem Lingering.CountsSince.lt {s u : Session} {start park time : Nat} {kind : Dwell}
    {auto : Lingering} (h : auto.CountsSince s start kind) (hsettled : (Wait.tap park kind auto).Settled u)
    (htime : s.MovesAt start kind time) : u.now < time := by
  cases kind with
  | fixed d =>
      cases auto with
      | dwelling timer =>
          have hdue : timer.due = some time := h.trans htime
          exact Timer.isDue_eq_false_iff.mp hsettled.2.2.2 time hdue
      | _ => exact h.elim
  | voice =>
      obtain ⟨k, tick, hsilent, hend⟩ := htime
      cases auto with
      | off => exact h.elim
      | listening began ticks timer =>
          obtain ⟨rfl, hpolls⟩ := h
          have hle : ticks ≤ k := by
            by_contra hlt
            cases hsilent.silent.symm.trans
              (hpolls.spoken k tick hsilent.counted (by omega) hsilent.shown)
          obtain ⟨t, ht, hlet⟩ := Duration.tickFrom_mono hle hsilent.shown
          have hnot := Timer.isDue_eq_false_iff.mp hsettled.2.2.2 t (hpolls.due.trans ht)
          exact Nat.lt_of_lt_of_le (Nat.lt_of_lt_of_le hnot hlet) (Duration.le_endFrom hend)
      | dwelling timer =>
          obtain ⟨l, tick', hsilent', hdue⟩ := h
          obtain rfl := hsilent.unique hsilent'
          exact Timer.isDue_eq_false_iff.mp hsettled.2.2.2 time (hdue.trans hend)

namespace Playback

/-! ## What a look does -/

section

variable {p : Playback} {s u : Session} {start park : Nat} {kind : Dwell} {auto : Lingering}

theorem dwell_cases (park : Nat) (kind : Dwell) (d : Duration) (p : Playback) :
    (∃ q, p.dwell park kind d = (q, .ends true) ∧ d.endFrom p.session.now = some p.session.now) ∨
      ∃ q timer, p.dwell park kind d = (q, .waits (.tap park kind (.dwelling timer))) ∧
        timer.due = d.endFrom p.session.now := by
  unfold dwell moveOn
  dsimp only
  split
  next hdue => exact .inl ⟨_, rfl, Timer.due_eq hdue (Timer.notPast_endFrom d _ p.session.armed)⟩
  next => exact .inr ⟨_, _, rfl, rfl⟩

/-- A look at what counts finds it going on to count, or moves it on in time.  It fails
only if the clock cannot show when the voice is to be looked at. -/
theorem lookAtTap_counts (hgoes : p.session.cancelled = false) (hparked : p.session.isParked park = true)
    (hon : p.session.autoPlay = true) (hconfig : p.session.config = s.config)
    (hvoice : p.session.voiceEnd = s.voiceEnd)
    (hpunctual : (Wait.tap park kind auto).Punctual p.session.moment)
    (h : auto.CountsSince s start kind ∨ auto = .off ∧ p.session.now = start) :
    (∃ q auto', p.lookAtTap park kind auto = (q, .waits (.tap park kind auto')) ∧
        auto'.CountsSince s start kind) ∨
      (∃ q, p.lookAtTap park kind auto = (q, .ends true) ∧ s.MovesAt start kind p.session.now) ∨
      ∃ q, p.lookAtTap park kind auto = (q, .fails) := by
  have hears := Session.isSpeaking_eq hvoice
  simp only [lookAtTap, hgoes, hparked, hon, Bool.false_eq_true, if_false, Bool.not_true]
  cases auto with
  | off =>
      obtain rfl : p.session.now = start := (h.resolve_left (by cases kind <;> exact id)).2
      cases kind with
      | fixed d =>
          rcases p.dwell_cases park (.fixed d) d with ⟨q, hends, hend⟩ | ⟨q, timer, hwaits, hdue⟩
          · exact .inr (.inl ⟨q, hends, hend⟩)
          · exact .inl ⟨q, _, hwaits, hdue⟩
      | voice =>
          simp only [beginLingering]
          split
          · exact .inl ⟨_, _, rfl, rfl, Nat.le_refl 1, by rw [← hconfig]; rfl, fun j t hj hlt ↦ by omega⟩
          · exact .inr (.inr ⟨_, rfl⟩)
  | listening began ticks timer =>
      have hcounts := h.resolve_right (by simp)
      cases kind with
      | fixed d => exact hcounts.elim
      | voice =>
          obtain ⟨rfl, hpolls⟩ := hcounts
          dsimp only
          split
          · exact .inl ⟨_, _, rfl, rfl, hpolls⟩
          next hdue =>
          have hnow : timer.due = some p.session.now := Timer.due_eq (by simpa using hdue) hpunctual.1
          have htick := hpolls.due.symm.trans hnow
          split
          next hspeaks =>
            refine .inl ⟨_, _, rfl, rfl, Nat.le_add_left 1 ticks, by rw [← hconfig]; rfl, ?_⟩
            intro j t hj hlt ht
            rcases Nat.lt_succ_iff_lt_or_eq.mp hlt with hlt | rfl
            · exact hpolls.spoken j t hj hlt ht
            · rw [Option.some.inj (ht.symm.trans htick), ← hears]
              exact hspeaks
          next hsilent =>
            have hfalls : s.FallsSilent began ticks p.session.now :=
              ⟨hpolls.counted, htick, hears.symm.trans (by simpa using hsilent), hpolls.spoken⟩
            rw [hconfig]
            rcases p.dwell_cases park .voice s.config.voiceTail with
              ⟨q, hends, hend⟩ | ⟨q, timer, hwaits, hdue⟩
            · exact .inr (.inl ⟨q, hends, ticks, _, hfalls, hend⟩)
            · exact .inl ⟨q, _, hwaits, ticks, _, hfalls, hdue⟩
  | dwelling timer =>
      have hcounts := h.resolve_right (by simp)
      dsimp only
      split
      next hdue =>
        have hnow := Timer.due_eq hdue hpunctual
        refine .inr (.inl ⟨_, rfl, ?_⟩)
        cases kind with
        | fixed d => exact hcounts.symm.trans hnow
        | voice =>
            obtain ⟨k, tick, hsilent, hdue⟩ := hcounts
            exact ⟨k, tick, hsilent, hdue.symm.trans hnow⟩
      next => exact .inl ⟨_, _, rfl, hcounts⟩

/-- Without a tap only playing by itself ends a wait for one. -/
theorem autoPlay_of_ends {q : Playback} {ran : Bool} (hgoes : p.session.cancelled = false)
    (hparked : p.session.isParked park = true) (h : p.lookAtTap park kind auto = (q, .ends ran)) :
    p.session.autoPlay = true := by
  simp only [lookAtTap, hgoes, hparked, Bool.false_eq_true, if_false, Bool.not_true] at h
  split at h
  · cases (Prod.mk.inj h).2
  next hon => simpa using hon

/-- A property of the waits for an action that is parked already. -/
theorem abides_of_park {P : Wait → Prop} (hpast : park < s.serial)
    (hother : ∀ w, (∀ kind auto, w ≠ .tap park kind auto) → P w)
    (hlook : ∀ (p q : Playback) (kind kind' : Dwell) (auto auto' : Lingering), p.session = s →
      (Wait.tap park kind auto).Punctual s.moment →
      p.lookAtTap park kind auto = (q, .waits (.tap park kind' auto')) →
      P (.tap park kind auto) → P (.tap park kind' auto')) : Abides P s where
  fresh := fun w _ hfrom ↦ hother w fun kind auto hw ↦ absurd (hfrom park kind auto hw) (by omega)
  first := by
    intro p q w w' _ _ hfrom hlooked
    refine hother w' fun kind auto hw' ↦ ?_
    obtain ⟨kind₀, auto₀, hw⟩ := (hw' ▸ look_becomes hlooked).exists_tap
    exact absurd (hfrom park kind₀ auto₀ hw) (by omega)
  look := by
    intro p q w w' hp hpunctual hlooked hw
    by_cases htap : ∃ kind auto, w' = .tap park kind auto
    · obtain ⟨kind, auto, rfl⟩ := htap
      obtain ⟨kind₀, auto₀, rfl⟩ := (look_becomes hlooked).exists_tap
      exact hlook p q kind₀ kind auto₀ auto hp hpunctual hlooked hw
    · exact hother w' fun kind auto hw' ↦ htap ⟨kind, auto, hw'⟩

/-- While playing by itself is on and the voice is left alone, the waits for one tap count
since the time at which it has found them. -/
theorem abides_countsSince (hgoes : u.cancelled = false) (hon : u.autoPlay = true)
    (hconfig : u.config = s.config) (hvoice : u.voiceEnd = s.voiceEnd) (hpast : park < u.serial) :
    Abides (Wait.CountsSince s start park kind u.now) u := by
  refine abides_of_park hpast (fun w hw kind' auto he ↦ absurd he (hw kind' auto)) ?_
  rintro p q kind₀ kind' auto₀ auto rfl hpunctual hlook hcounts _ _ ⟨⟩
  obtain ⟨rfl, hcounts⟩ := hcounts kind₀ auto₀ rfl
  by_cases hparked : p.session.isParked park = true
  · rcases lookAtTap_counts hgoes hparked hon hconfig hvoice hpunctual hcounts with
      ⟨r, auto', hwaits, hcounts⟩ | ⟨r, hends, -⟩ | ⟨r, hfails⟩
    · obtain ⟨-, hw⟩ := Prod.mk.inj (hlook.symm.trans hwaits)
      obtain ⟨rfl, rfl⟩ : kind' = kind₀ ∧ auto = auto' := by
        simpa using Verdict.waits.inj hw
      exact ⟨rfl, .inl hcounts⟩
    · cases (Prod.mk.inj (hlook.symm.trans hends)).2
    · cases (Prod.mk.inj (hlook.symm.trans hfails)).2
  · simp only [lookAtTap, hgoes, Bool.not_eq_true _ ▸ hparked, Bool.false_eq_true, if_false,
      Bool.not_false, if_true] at hlook
    cases (Prod.mk.inj hlook).2

end

end Playback

namespace Machine

open Playback

/-- Playing by itself moves on what is parked. -/
def PlaysOn (park : Nat) (m n : Machine) : Prop :=
  m.playback.session.isParked park = true ∧ ∃ id, Ends id (fun x ↦ x.park? = some park) m n

variable {m n : Machine} {s : Session} {start park : Nat} {kind : Dwell}

theorem exists_tap_of_park {x : Pause} (h : x.park? = some park) :
    ∃ kind auto, x.wait = .tap park kind auto := by
  unfold Pause.park? at h
  split at h
  next id kind auto hwait => exact ⟨kind, auto, Option.some.inj h ▸ hwait⟩
  next => cases h

theorem PlaysOn.autoPlay (h : PlaysOn park m n) (hgoes : m.playback.session.cancelled = false) :
    m.playback.session.autoPlay = true := by
  obtain ⟨hparked, id, hends⟩ := h
  cases hends with
  | @intro p q task pause jobs ran hid hpark hfree hlook =>
      obtain ⟨kind, auto, hwait⟩ := exists_tap_of_park hpark
      rw [hwait] at hlook
      exact autoPlay_of_ends (p := p.aside) hgoes hparked hlook

/-- What counts is moved on in time. -/
theorem PlaysOn.movesAt (h : PlaysOn park m n) (hs : Sound m)
    (hgoes : m.playback.session.cancelled = false)
    (hconfig : m.playback.session.config = s.config)
    (hvoice : m.playback.session.voiceEnd = s.voiceEnd)
    (hawaits : m.Awaits (Wait.CountsSince s start park kind m.playback.session.now)) :
    s.MovesAt start kind m.playback.session.now := by
  have hon := h.autoPlay hgoes
  obtain ⟨hparked, id, hends⟩ := h
  cases hends with
  | @intro p q task pause jobs ran hid hpark hfree hlook =>
      obtain ⟨kind', auto, hwait⟩ := exists_tap_of_park hpark
      have hpunctual := hs.looks pause List.mem_cons_self
      obtain ⟨rfl, hcounts⟩ := hawaits.looks pause List.mem_cons_self kind' auto hwait
      rw [hwait] at hlook hpunctual
      rcases lookAtTap_counts (p := p.aside) hgoes hparked hon hconfig hvoice hpunctual hcounts with
        ⟨r, auto', hwaits, -⟩ | ⟨r, -, hmoves⟩ | ⟨r, hfails⟩
      · cases (Prod.mk.inj (hlook.symm.trans hwaits)).2
      · exact hmoves
      · cases (Prod.mk.inj (hlook.symm.trans hfails)).2

end Machine

end Storyline
