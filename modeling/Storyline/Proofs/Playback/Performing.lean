import Storyline.Proofs.Playback.Places
import Storyline.Proofs.Playback.Unfolding

/-!
# Performing goes by the timetable

What a cue leaves behind makes up for what the timetable says of it, and, by
induction on the actions, so does what a block or a fork leaves behind.
-/

namespace Storyline

open Timetable

namespace Action

theorem Unvoiced.part {voices : VoiceCache} {parts : List Action} {part : Action}
    (h : (block parts).Unvoiced voices) (hpart : part ∈ parts) : part.Unvoiced voices := by
  intro path hpath
  obtain ⟨cue, hcue, he⟩ := List.mem_filterMap.mp hpath
  exact h path (List.mem_filterMap.mpr ⟨cue, mem_cuesOfList.mpr ⟨part, hpart, hcue⟩, he⟩)

end Action

theorem actionsOf_walk (scope : Nat) (indexed : Bool) (actions : List Action) :
    actionsOf (Playback.walk scope indexed actions) = actions := by
  unfold actionsOf Playback.walk
  rw [List.filterMap_map]
  have hfst : Errand.action? ∘ (fun a : Action × Nat ↦
      Errand.perform a.1 scope (if indexed then some a.2 else none)) = fun a ↦ some a.1 := rfl
  rw [hfst]
  exact (congrFun List.filterMap_eq_map _).trans (List.zipIdx_map_fst 0 actions)

namespace Playback

variable {c : Config} {voices : VoiceCache} {s : Nat} {own own' ret ret' : Nat → Prop}
  {waits waits' : Prop} {evs evs' : List (Nat × Action)} {p q r : Playback}

theorem errand_mem_walk {scope : Nat} {indexed : Bool} {actions : List Action} {e : Errand}
    (he : e ∈ walk scope indexed actions) : ∃ action ∈ actions, ∃ step, e = .perform action scope step := by
  obtain ⟨a, ha, rfl⟩ := List.mem_map.mp he
  exact ⟨a.1, List.fst_mem_of_mem_zipIdx ha, _, rfl⟩

/-- The walk of a fork begins at once, in a scope that nobody else knows of. -/
theorem Plays.forked {now inner hi id : Nat} (parts : List Action) (hhi : inner < hi)
    (hvoice : ∀ part ∈ parts, part.Unvoiced voices) :
    Plays c voices now s inner hi (fun _ ↦ True) (fun _ ↦ True) False
      (walkEvents c parts now (some now)) []
      [⟨id, true, false, some inner, false, walk inner false parts, []⟩] [] := by
  have hdebts : owed now [] [⟨id, true, false, some inner, false, walk inner false parts, []⟩] =
      [] := by
    simp only [owed, List.flatMap_nil, List.flatMap_singleton, Task.debts, List.nil_append]
    refine List.flatMap_eq_nil_iff.mpr fun e he ↦ ?_
    obtain ⟨action, -, step, rfl⟩ := errand_mem_walk he
    rfl
  constructor
  case scopes => simp [hdebts]
  case minds => simp
  case taskMinds =>
    intro t ht x hx
    rw [List.mem_singleton.mp ht] at hx
    obtain rfl : x = inner := by simpa [Task.minds] using hx
    exact ⟨Nat.le_refl _, hhi⟩
  case apart => exact List.pairwise_singleton _ _
  case aside => simp
  case fresh =>
    intro t ht
    rw [List.mem_singleton.mp ht]
    refine ⟨rfl, fun e he ↦ ?_⟩
    obtain ⟨action, haction, step, rfl⟩ := errand_mem_walk he
    exact ⟨hvoice action haction, rfl, rfl⟩
  case own => simp [hdebts]
  case past => simp
  case events =>
    rw [hdebts]
    intro X hX
    have hclear : X inner .actions = some now := by
      rw [hX inner (Nat.le_refl _) hhi]
      rfl
    simp only [List.map_nil, List.nil_append, List.flatMap_singleton, Task.home, Option.getD_some,
      prospect, waitEnd, List.map_nil, latest, List.foldr_nil, actionsOf_walk, hclear]
    exact .refl _

/-- A playback that plays by itself, with given settings and voices. -/
structure Steady (c : Config) (voices : VoiceCache) (p : Playback) : Prop where
  config : p.session.config = c
  pace : p.session.pace = ⟨true, false, 0, false, voices⟩
  sound : p.turn.failed = false

/-- From one playback to another something has been performed in a scope, which
goes by the timetable. -/
def Unfolds (c : Config) (voices : VoiceCache) (s : Nat) (own ret : Nat → Prop) (waits : Prop)
    (evs : List (Nat × Action)) (p q : Playback) : Prop :=
  ∃ qs ts ds, Effect qs ts ds p q ∧
    Plays c voices p.session.now s p.session.serial q.session.serial own ret waits evs qs ts ds

namespace Unfolds

theorem trans (h : Unfolds c voices s own ret waits evs p q)
    (h' : Unfolds c voices s own' ret' waits' evs' q r) (hs : s < p.session.serial) :
    Unfolds c voices s (fun n ↦ own n ∧ own' n) (fun n ↦ ret n ∧ ret' n) (waits ∨ waits')
      (evs ++ evs') p r := by
  obtain ⟨qs, ts, ds, heffect, hplays⟩ := h
  obtain ⟨qs', ts', ds', heffect', hplays'⟩ := h'
  rw [heffect.now] at hplays'
  exact ⟨_, _, _, heffect.trans heffect', hplays.append hplays' hs heffect.serial heffect'.serial⟩

theorem weaken (h : Unfolds c voices s own ret waits evs p q)
    (hown : ∀ n, p.session.now ≤ n → (own n ↔ own' n))
    (hret : ∀ n, p.session.now ≤ n → (ret n ↔ ret' n)) (hwaits : waits → waits') :
    Unfolds c voices s own' ret' waits' evs p q := by
  obtain ⟨qs, ts, ds, heffect, hplays⟩ := h
  exact ⟨qs, ts, ds, heffect, hplays.weaken hown hret hwaits (.refl _)⟩

theorem of_smooth (h : p.Smooth q) (hown : ∀ n, p.session.now ≤ n → own n)
    (hret : ∀ n, p.session.now ≤ n → ret n) : Unfolds c voices s own ret waits [] p q :=
  ⟨[], [], [], .of_smooth h, .nothing hret hown rfl⟩

theorem after_smooth (h : Unfolds c voices s own ret waits evs q r) (hp : p.Smooth q)
    (hs : s < p.session.serial) : Unfolds c voices s own ret waits evs p r := by
  have htrivial : Unfolds c voices s (fun _ ↦ True) (fun _ ↦ True) False [] p q :=
    .of_smooth hp (fun _ _ ↦ trivial) fun _ _ ↦ trivial
  exact (htrivial.trans h hs).weaken (fun _ _ ↦ iff_of_eq (true_and _)) (fun _ _ ↦ iff_of_eq (true_and _))
    fun hw ↦ hw.resolve_left id

end Unfolds

namespace Steady

theorem smooth (h : p.Steady c voices) (hp : p.Smooth q) : q.Steady c voices where
  config := hp.stirs.config.trans h.config
  pace := hp.level.pace.trans h.pace
  sound := hp.stirs.failed.trans h.sound

theorem after {qs : List Pause} {ts : List Task} {ds : List Dispatch} (h : p.Steady c voices)
    (he : Effect qs ts ds p q) : q.Steady c voices where
  config := (congrArg Moment.config he.moment).trans h.config
  pace := he.pace.trans h.pace
  sound := he.failed.trans h.sound

theorem autoPlay (h : p.Steady c voices) : p.session.autoPlay = true := congrArg Pace.autoPlay h.pace

theorem skips (h : p.Steady c voices) : p.session.skips = 0 := congrArg Pace.skips h.pace

theorem running (h : p.Steady c voices) : p.session.cancelled = false := congrArg Pace.cancelled h.pace

theorem cache (h : p.Steady c voices) : p.session.voices = voices := congrArg Pace.voices h.pace

end Steady

/-! ## Cues -/

section cues

variable {ticket : Ticket} (scopes : List Nat)

theorem unfolds_sleep (ending : Ending) (d : Duration) (h : p.Steady c voices) (hticket : ending.ticket? = some ticket)
    (hscope : ticket.scope = s) :
    Unfolds c voices s (fun n ↦ Come n (d.endFrom p.session.now))
      (fun n ↦ Come n (d.endFrom p.session.now)) False [] p (p.sleep d ending scopes) := by
  have hending : ending ≠ .completed := by
    rintro rfl
    cases hticket
  rcases effect_sleep d scopes h.running h.skips hending with ⟨heffect, hcome⟩ | ⟨timer, hdue, heffect⟩
  · exact ⟨_, _, _, heffect, .nothing (fun _ hn ↦ hcome.mono hn) (fun _ hn ↦ hcome.mono hn) rfl⟩
  · refine ⟨_, _, _, heffect, ?_⟩
    rw [← hdue]
    have htickets : (⟨.sleep timer 0, ending, scopes⟩ : Pause).tickets = [ticket] := by
      simp [Pause.tickets, hticket]
    refine .held htickets hscope (by simp [Pause.minds]) fun X n hn ↦ ?_
    simp [Wait.past, Wait.due, hn]

theorem unfolds_park (ending : Ending) (d : Duration) (h : p.Steady c voices)
    (hfresh : ∀ t ∈ p.session.taps, t.id < p.session.serial)
    (hticket : ending.ticket? = some ticket) (hscope : ticket.scope = s) :
    Unfolds c voices s (fun n ↦ Come n (d.endFrom p.session.now))
      (fun n ↦ Come n (d.endFrom p.session.now)) False [] p (p.park (.fixed d) ending scopes) := by
  have hending : ending ≠ .completed := by
    rintro rfl
    cases hticket
  rcases effect_park d scopes h.running h.autoPlay hfresh hending with
    ⟨heffect, hcome⟩ | ⟨park, timer, hdue, heffect⟩
  · exact ⟨_, _, _, heffect, .nothing (fun _ hn ↦ hcome.mono hn) (fun _ hn ↦ hcome.mono hn) rfl⟩
  · refine ⟨_, _, _, heffect, ?_⟩
    rw [← hdue]
    have htickets : (⟨.tap park (.fixed d) (.dwelling timer), ending, scopes⟩ : Pause).tickets =
        [ticket] := by simp [Pause.tickets, hticket]
    refine .held htickets hscope (by simp [Pause.minds, htickets, hscope]) fun X n hn ↦ ?_
    simp [Wait.past, Wait.due, hn]

/-- A task of its own holds a ticket for some time. -/
theorem unfolds_settleLater (d : Duration) (h : p.Steady c voices) (hscope : ticket.scope = s) :
    Unfolds c voices s (fun n ↦ Come n (d.endFrom p.session.now)) (fun _ ↦ True) False [] p
      (p.settleLater ticket d) := by
  refine ⟨_, _, _, .spawn none _ (.refl p) h.running, ?_⟩
  have hdebts : ∀ id, (⟨id, true, false, none, false, [.sleep d (.release ticket) [ticket.scope]],
      []⟩ : Task).debts p.session.now = [(ticket, d.endFrom p.session.now)] := fun _ ↦ rfl
  refine .task rfl ⟨rfl, fun e he ↦ ?_⟩ rfl ?_ ?_ fun _ _ ↦ trivial
  · rw [List.mem_singleton.mp he]
    exact ⟨trivial, rfl, rfl⟩
  · intro x hx
    rw [hdebts, List.mem_singleton] at hx
    rw [hx]
    exact hscope
  · simp [hdebts]

/-- The frames of a shake hold nothing. -/
theorem unfolds_animate (shake : Shake) (stamp : Nat) (d : Duration) (h : p.Steady c voices) :
    Unfolds c voices s (fun _ ↦ True) (fun _ ↦ True) False [] p
      (p.spawn none [.animate shake stamp d]) := by
  refine ⟨_, _, _, .spawn none _ (.refl p) h.running, ?_⟩
  refine .task rfl ⟨rfl, fun e he ↦ ?_⟩ rfl (by simp [Task.debts, Errand.debts]) ?_ fun _ _ ↦ trivial
  · rw [List.mem_singleton.mp he]
    exact ⟨trivial, rfl, rfl⟩
  · simp [Task.debts, Errand.debts]

theorem unfolds_talk (line : Line) (h : p.Steady c voices) (hs : s < p.session.serial)
    (hfresh : ∀ t ∈ p.session.taps, t.id < p.session.serial) (hscope : ticket.scope = s)
    (hvoice : (Action.cue (.talk line)).Unvoiced voices) :
    Unfolds c voices s (fun n ↦ Come n (c.talkDwell.endFrom p.session.now))
      (fun n ↦ Come n (c.talkDwell.endFrom p.session.now)) False [] p (p.talk line ticket scopes) := by
  have hvoiced : p.isVoiced line = false := by
    unfold isVoiced
    split
    next path hpath =>
      rw [h.cache]
      exact hvoice path (by simp [Action.voicePaths, Action.cues, Cue.voicePath, hpath])
    next => rfl
  have hsmooth := (p.smooth_tell line).trans (smooth_speak _ line)
  unfold talk
  simp only [hvoiced, Bool.false_eq_true, if_false, h.config]
  have hparks := unfolds_park scopes (.release ticket) c.talkDwell (h.smooth hsmooth) ?_ rfl hscope
  · rw [hsmooth.stirs.now] at hparks
    exact hparks.after_smooth hsmooth hs
  · rw [hsmooth.level.taps]
    exact fun t ht ↦ Nat.lt_of_lt_of_le (hfresh t ht) hsmooth.stirs.serial

theorem unfolds_telop (text : String) (h : p.Steady c voices) (hs : s < p.session.serial)
    (hfresh : ∀ t ∈ p.session.taps, t.id < p.session.serial) (hscope : ticket.scope = s) :
    Unfolds c voices s (fun n ↦ Come n (c.telopDwell.endFrom p.session.now))
      (fun n ↦ Come n (c.telopDwell.endFrom p.session.now)) False [] p
      (p.telop text ticket scopes) := by
  have hsmooth := p.smooth_present (Stage.setTelop text)
  unfold telop
  rw [h.config]
  have hparks := unfolds_park scopes (.clearTelop text ticket) c.telopDwell (h.smooth hsmooth) ?_ rfl
    hscope
  · rw [hsmooth.stirs.now] at hparks
    exact hparks.after_smooth hsmooth hs
  · rw [hsmooth.level.taps]
    exact fun t ht ↦ Nat.lt_of_lt_of_le (hfresh t ht) hsmooth.stirs.serial

theorem unfolds_changeModel (change : ModelChange) (h : p.Steady c voices)
    (hs : s < p.session.serial) (hscope : ticket.scope = s) :
    Unfolds c voices s (fun n ↦ Come n ((settleTime c change).endFrom p.session.now))
      (fun _ ↦ True) False [] p (p.changeModel change ticket) := by
  have hsmooth := p.smooth_presentIf change.apply
  unfold changeModel
  rw [h.config]
  have hsettles := unfolds_settleLater (settleTime c change) (h.smooth hsmooth) hscope
  rw [hsmooth.stirs.now] at hsettles
  exact hsettles.after_smooth hsmooth hs

theorem unfolds_coverScreen (cover : Cover) (visible : Bool) (d : Duration) (h : p.Steady c voices)
    (hs : s < p.session.serial) (hscope : ticket.scope = s) :
    Unfolds c voices s (fun n ↦ Come n (d.endFrom p.session.now))
      (fun n ↦ Come n (d.endFrom p.session.now)) False [] p
      (p.coverScreen cover visible d ticket scopes) := by
  have hsmooth := p.smooth_number (Stage.startCover cover visible d p.session.serial)
  have hsleeps := unfolds_sleep scopes
    (if visible then .coverShown cover p.session.serial ticket else .release ticket) d (h.smooth hsmooth) (by cases visible <;> rfl) hscope
  rw [hsmooth.stirs.now] at hsleeps
  exact hsleeps.after_smooth hsmooth hs

theorem unfolds_shakeTarget (shake : Shake) (d : Duration) (h : p.Steady c voices)
    (hs : s < p.session.serial) (hscope : ticket.scope = s) :
    Unfolds c voices s (fun n ↦ Come n (d.endFrom p.session.now))
      (fun n ↦ Come n (d.endFrom p.session.now)) False [] p
      (p.shakeTarget shake d ticket scopes) := by
  have hsmooth := p.smooth_number (Stage.startShake shake d p.session.serial)
  obtain ⟨q, hq⟩ : ∃ q, q = p.update
    (fun s ↦ s.nextSerial.2.present (Stage.startShake shake d p.session.serial)) := ⟨_, rfl⟩
  have hunfold : p.shakeTarget shake d ticket scopes =
      (q.spawn none [.animate shake p.session.serial d]).sleep d (.release ticket) scopes := by
    rw [hq]
    rfl
  rw [← hq] at hsmooth
  have hsteady := h.smooth hsmooth
  have hserial := Nat.lt_of_lt_of_le hs hsmooth.stirs.serial
  have hanimates := unfolds_animate (s := s) shake p.session.serial d hsteady
  obtain ⟨_, _, _, heffect, -⟩ := id hanimates
  have hsleeps := unfolds_sleep scopes (.release ticket) d (hsteady.after heffect) rfl hscope
  rw [heffect.now] at hsleeps
  have hboth := (hanimates.trans hsleeps hserial).after_smooth hsmooth hs
  rw [hunfold]
  rw [hsmooth.stirs.now] at hboth
  exact hboth.weaken (fun _ _ ↦ iff_of_eq (true_and _)) (fun _ _ ↦ iff_of_eq (true_and _))
    fun hw ↦ hw.elim id id

/-- A wait in a scope holds nothing itself. -/
theorem unfolds_drained (tally : Tally) (h : p.Steady c voices) :
    Unfolds c voices s (fun n ↦ p.session.now ≤ n) (fun n ↦ p.session.now ≤ n) True [] p
      (p.suspend (.drained s tally true) .nothing scopes) := by
  rw [suspend_drained h.running]
  split
  · exact .of_smooth (.refl p) (fun _ hn ↦ hn) fun _ hn ↦ hn
  · exact ⟨_, _, _, .leave (.refl p) trivial (by simp) (by simp [Pause.parks, Pause.park?]),
      .drained rfl (fun _ hn ↦ hn) fun _ hn ↦ hn⟩

end cues

section perform

variable {ids parking : List Nat}

theorem Ledger.taps_lt {kind : Kind} {hand : List Ticket} (h : p.Ledger kind ids hand parking) :
    ∀ t ∈ p.session.taps, t.id < p.session.serial := by
  intro t ht
  exact h.books.parks_lt _ (h.books.taps_subset (List.mem_map_of_mem ht))

theorem Ledger.scope_lt {kind : Kind} {hand : List Ticket} (h : p.Ledger kind ids hand parking)
    (hs : s ∈ ids) : s < p.session.serial := by
  obtain ⟨sc, hsc, rfl⟩ := List.mem_map.mp (h.known hs)
  exact h.books.numbered.lt sc hsc

theorem unfolds_performCue (cue : Cue) (scopes : List Nat) (step : Option Nat)
    (h : p.Ledger .timeline ids [] parking) (hs : s ∈ ids) (hp : p.Steady c voices)
    (hvoice : (Action.cue cue).Unvoiced voices) :
    Unfolds c voices s (fun n ↦ Come n (holds c p.session.now (.cue cue)))
      (fun n ↦ Come n (cueReturn c p.session.now cue)) ((Action.cue cue).isWait = true) []
      p (p.performCue cue s scopes step) := by
  have hserial := h.scope_lt hs
  obtain ⟨q, hq⟩ : ∃ q, q = (p.announce step).enter s cue.isTapBlocking := ⟨_, rfl⟩
  obtain ⟨ticket, hticket⟩ : ∃ ticket,
    ticket = (p.announce step).session.ticket s cue.isTapBlocking := ⟨_, rfl⟩
  have hsmooth : p.Smooth q := hq ▸ (p.smooth_announce step).trans (smooth_enter _ s _)
  have hscope : ticket.scope = s := hticket ▸ Session.ticket_scope s _
  have hsteady := hp.smooth hsmooth
  have hserial' := Nat.lt_of_lt_of_le hserial hsmooth.stirs.serial
  have hfresh : ∀ t ∈ q.session.taps, t.id < q.session.serial := by
    rw [hsmooth.level.taps]
    exact fun t ht ↦ Nat.lt_of_lt_of_le (h.taps_lt t ht) hsmooth.stirs.serial
  have hcome : ∀ n x, p.session.now ≤ n → (Come n x ↔ Come n (later x (some p.session.now))) :=
    fun n x hn ↦ by simp [hn]
  unfold performCue
  rw [if_neg (by simp [isOver, hp.running, hp.sound])]
  dsimp only
  rw [← hticket, ← hq]
  cases cue with
  | talk line =>
      have hunfolds := (unfolds_talk scopes line hsteady hserial' hfresh hscope
        hvoice).after_smooth hsmooth hserial
      rw [hsmooth.stirs.now] at hunfolds
      exact hunfolds.weaken (fun n ↦ hcome n _) (fun _ _ ↦ .rfl) False.elim
  | telop text =>
      have hunfolds := (unfolds_telop scopes text hsteady hserial' hfresh
        hscope).after_smooth hsmooth hserial
      rw [hsmooth.stirs.now] at hunfolds
      exact hunfolds.weaken (fun n ↦ hcome n _) (fun _ _ ↦ .rfl) False.elim
  | model change =>
      have hunfolds := (unfolds_changeModel change hsteady hserial' hscope).after_smooth hsmooth
        hserial
      rw [hsmooth.stirs.now] at hunfolds
      refine hunfolds.weaken (fun n hn ↦ ?_) (fun n hn ↦ ?_) False.elim
      · simp [holds, cueReturn, settled, hn]
      · simp [cueReturn, hn]
  | tremble axis character =>
      refine .of_smooth (hsmooth.trans (q.smooth_release ticket)) (fun n hn ↦ ?_) fun n hn ↦ ?_
      · simp [holds, cueReturn, settled, hn]
      · simp [cueReturn, hn]
  | cover cover visible seconds =>
      have hunfolds := (unfolds_coverScreen scopes cover visible (.ofSeconds seconds)
        hsteady hserial' hscope).after_smooth hsmooth hserial
      rw [hsmooth.stirs.now] at hunfolds
      exact hunfolds.weaken (fun n ↦ hcome n _) (fun _ _ ↦ .rfl) False.elim
  | shake shake seconds =>
      have hunfolds := (unfolds_shakeTarget scopes shake (.ofSeconds seconds)
        hsteady hserial' hscope).after_smooth hsmooth hserial
      rw [hsmooth.stirs.now] at hunfolds
      exact hunfolds.weaken (fun n ↦ hcome n _) (fun _ _ ↦ .rfl) False.elim
  | scenery scenery path =>
      refine .of_smooth (hsmooth.trans (q.smooth_changeScenery scenery path ticket)) (fun n hn ↦ ?_)
        fun n hn ↦ ?_
      · simp [holds, cueReturn, settled, hn]
      · simp [cueReturn, hn]
  | delay seconds =>
      have hunfolds := (unfolds_sleep scopes (.release ticket) (.ofSeconds seconds) hsteady rfl hscope).after_smooth hsmooth hserial
      rw [hsmooth.stirs.now] at hunfolds
      exact hunfolds.weaken (fun n ↦ hcome n _) (fun _ _ ↦ .rfl) False.elim
  | waitForAll =>
      have hreleased := hsmooth.trans (q.smooth_release ticket)
      have hunfolds := (unfolds_drained scopes .actions
        (hp.smooth hreleased)).after_smooth hreleased hserial
      rw [hreleased.stirs.now] at hunfolds
      refine hunfolds.weaken (fun n hn ↦ ?_) (fun n hn ↦ ?_) fun _ ↦ rfl
      · simp [holds, cueReturn, settled, hn]
      · simp [cueReturn, hn]
  | waitForTap =>
      have hreleased := hsmooth.trans (q.smooth_release ticket)
      have hunfolds := (unfolds_drained scopes .taps
        (hp.smooth hreleased)).after_smooth hreleased hserial
      rw [hreleased.stirs.now] at hunfolds
      refine hunfolds.weaken (fun n hn ↦ ?_) (fun n hn ↦ ?_) fun _ ↦ rfl
      · simp [holds, cueReturn, settled, hn]
      · simp [cueReturn, hn]

/-- A wait for a count takes a ticket for a moment only, and waits if others are
out that the count takes into account. -/
theorem effect_wait {cue : Cue} {tally : Tally}
    (hcue : cue = .waitForAll ∧ tally = .actions ∨ cue = .waitForTap ∧ tally = .taps)
    (scopes : List Nat) (step : Option Nat) (h : p.Ledger .timeline ids [] parking) (hs : s ∈ ids)
    (hp : p.Steady c voices) :
    (Effect [] [] [] p (p.performCue cue s scopes step) ∧
        ∀ t ∈ p.tickets, t.scope = s → tally.regards t = false) ∨
      Effect [⟨.drained s tally true, .nothing, scopes⟩] [] [] p (p.performCue cue s scopes step) := by
  obtain ⟨q, hq⟩ : ∃ q, q = ((p.announce step).enter s cue.isTapBlocking).release
    ((p.announce step).session.ticket s cue.isTapBlocking) := ⟨_, rfl⟩
  have hsmooth : p.Smooth q := by
    rw [hq]
    exact (p.smooth_announce step).trans ((smooth_enter _ s _).trans (smooth_release _ _))
  have hledger : q.Ledger .timeline ids [] parking :=
    hq ▸ ((h.announce step).enter hs cue.isTapBlocking).release
  have hsteady := hp.smooth hsmooth
  have hperform : p.performCue cue s scopes step = q.suspend (.drained s tally true) .nothing scopes := by
    unfold performCue
    rw [if_neg (by simp [isOver, hp.running, hp.sound]), hq]
    rcases hcue with ⟨rfl, rfl⟩ | ⟨rfl, rfl⟩ <;> rfl
  rw [hperform, suspend_drained hsteady.running]
  split
  next hzero =>
    have hnone := (hledger.pending_eq_zero hsteady.skips).mp hzero
    have htickets : q.tickets = p.tickets := by
      simp only [tickets, hsmooth.stirs.pauses, hsmooth.stirs.agenda, hsmooth.stirs.tasks]
    exact .inl ⟨.of_smooth hsmooth, htickets ▸ hnone⟩
  next => exact .inr (.leave hsmooth trivial (by simp) (by simp [Pause.parks, Pause.park?]))

/-- The wait at the end of a block is for what its parts have left behind. -/
theorem unfolds_enclosed {inner : Nat} {scopes : List Nat} (h : r.Ledger .timeline ids [] parking)
    (hinner : inner ∈ ids) (hq : q.Steady c voices) (hs : s < inner)
    (hlt : inner < q.session.serial) (hunfolds : Unfolds c voices inner own ret True evs q r) :
    ∃ qs ts ds, Effect qs ts ds q (r.performCue .waitForAll inner scopes none) ∧
      Plays c voices q.session.now s inner (r.performCue .waitForAll inner scopes none).session.serial
        (fun _ ↦ True) (fun n ↦ own n ∧ ret n) False evs qs ts ds := by
  obtain ⟨qs, ts, ds, heffect, hplays⟩ := hunfolds
  have hserial : q.session.serial ≤ r.session.serial := heffect.serial
  rcases effect_wait (.inl ⟨rfl, rfl⟩) scopes none h hinner (hq.after heffect) with
    ⟨hwait, hnone⟩ | hwait
  · refine ⟨_, _, _, heffect.trans hwait, ?_⟩
    simp only [List.append_nil]
    have hencloses := hplays.enclose (s := s) (l := []) hlt hs hserial hwait.serial
      (.inl ⟨rfl, fun d hd hscope ↦ ?_⟩)
    · rwa [List.append_nil] at hencloses
    · exact absurd (hnone d.1 (heffect.mem_tickets hd) hscope) (by simp [Tally.regards])
  · refine ⟨_, _, _, heffect.trans hwait, ?_⟩
    rw [List.append_nil, List.append_nil]
    exact hplays.enclose hlt hs hserial hwait.serial (.inr ⟨true, scopes, rfl⟩)

/-- What is noted comes first among what is taken up. -/
theorem Unfolds.note (action : Action) (step : Option Nat) (hp : p.Steady c voices)
    (h : Unfolds c voices s own ret waits evs (p.note action s step) r) :
    Unfolds c voices s own ret waits ((p.session.now, action) :: evs) p r := by
  obtain ⟨qs, ts, ds, heffect, hplays⟩ := h
  rw [note_session] at hplays
  have hnote := Effect.note action s step (show p.isOver = false by simp [isOver, hp.running, hp.sound])
  refine ⟨_, _, _, hnote.trans heffect, ?_⟩
  exact { hplays with events := fun X hX ↦ (hplays.events X hX).cons _ }

theorem Steady.note (h : p.Steady c voices) (action : Action) (step : Option Nat) :
    (p.note action s step).Steady c voices :=
  h.after (Effect.note _ _ _ (by simp [isOver, h.running, h.sound]))

mutual

/-- Performing an action goes by the timetable. -/
theorem unfolds_perform (action : Action) {s : Nat} (scopes : List Nat) {ids : List Nat} (step : Option Nat)
    {p : Playback} (h : p.Ledger .timeline ids [] parking) (hs : s ∈ ids)
    (hp : p.Steady c voices) (hvoice : action.Unvoiced voices) :
    Unfolds c voices s (fun n ↦ Come n (holds c p.session.now action))
      (fun n ↦ Come n (returns c p.session.now action)) (action.isWait = true)
      (events c action p.session.now) p (perform action s scopes step p) := by
  have hover : p.isOver = false := by simp [isOver, hp.running, hp.sound]
  cases action with
  | cue cue =>
      have hunfolds := unfolds_performCue cue scopes step (h.note (.cue cue) s step) hs
        (hp.note _ step) hvoice
      rw [note_session] at hunfolds
      rw [events, perform]
      simpa only [returns] using hunfolds.note _ _ hp
  | block parts =>
      have hopened := (h.note (.block parts) s step).openWithin step hs
      rw [note_session] at hopened
      have hsmooth := (p.note (.block parts) s step).smooth_openWithin s step
      have hsteady := (hp.note (.block parts) step).smooth hsmooth
      have hnow := hsmooth.stirs.now
      rw [note_session] at hnow
      have hparts := Ledger.performAll parts hopened List.mem_cons_self (List.mem_cons_self (l := scopes))
      have hunfolds := unfolds_performAll parts hopened List.mem_cons_self
        (List.mem_cons_self (l := scopes)) hsteady fun part hpart ↦ hvoice.part hpart
      obtain ⟨qs, ts, ds, heffect, hplays⟩ := unfolds_enclosed (s := s) hparts
        List.mem_cons_self hsteady (h.scope_lt hs) (hopened.scope_lt List.mem_cons_self) hunfolds
      rw [hnow] at hplays
      rw [events]
      refine .note _ step hp ?_
      simp only [perform, hover, Bool.false_eq_true, if_false]
      refine ⟨qs, ts, ds, heffect.after_smooth hsmooth, ?_⟩
      rw [note_session]
      refine hplays.weaken (fun n hn ↦ ?_) (fun n hn ↦ ?_) False.elim (.refl _)
      · simp [holds, hn]
      · rw [returns, come_returnsAll_iff hn]
  | fork parts =>
      have hopened := (h.note (.fork parts) s step).openWithin step hs
      rw [note_session] at hopened
      have hsmooth := (p.note (.fork parts) s step).smooth_openWithin s step
      have hsteady := (hp.note (.fork parts) step).smooth hsmooth
      have hspawn := Effect.spawn (some p.session.serial) (walk p.session.serial false parts)
        (.refl _) hsteady.running
      have heffect := hspawn.after_smooth hsmooth
      have hinner := hopened.scope_lt List.mem_cons_self
      rw [events]
      refine .note _ step hp ?_
      simp only [perform, hover, Bool.false_eq_true, if_false]
      refine ⟨_, _, _, heffect, ?_⟩
      rw [note_session]
      refine (Plays.forked parts ?_ fun part hpart ↦ hvoice.part hpart).weaken (fun n hn ↦ ?_)
        (fun n hn ↦ ?_) False.elim (.refl _)
      · exact Nat.lt_of_lt_of_le hinner hspawn.serial
      · simp [holds, hn]
      · simp [returns, hn]

theorem unfolds_performAll (parts : List Action) {s : Nat} {scopes ids : List Nat} {p : Playback}
    (h : p.Ledger .timeline ids [] parking) (hs : s ∈ ids) (hmem : s ∈ scopes)
    (hp : p.Steady c voices) (hvoice : ∀ part ∈ parts, part.Unvoiced voices) :
    Unfolds c voices s (fun n ↦ ∀ part ∈ parts, Come n (holds c p.session.now part))
      (fun n ↦ ∀ part ∈ parts, Come n (returns c p.session.now part)) True
      (eventsAll c parts p.session.now) p (performAll parts s scopes p) := by
  cases parts with
  | nil => exact .of_smooth (.refl p) (by simp) (by simp)
  | cons part rest =>
      have hfirst := unfolds_perform part scopes none h hs hp (hvoice part List.mem_cons_self)
      obtain ⟨_, _, _, heffect, -⟩ := id hfirst
      have hrest := unfolds_performAll rest (h.perform part none hs hmem) hs hmem (hp.after heffect)
        fun part hpart ↦ hvoice part (List.mem_cons_of_mem _ hpart)
      rw [heffect.now] at hrest
      rw [eventsAll, performAll]
      refine (hfirst.trans hrest (h.scope_lt hs)).weaken (fun n _ ↦ ?_) (fun n _ ↦ ?_) fun _ ↦ trivial
      · rw [List.forall_mem_cons]
      · rw [List.forall_mem_cons]

end

end perform

end Playback

end Storyline
