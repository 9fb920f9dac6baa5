import Storyline.Proofs.Script.Content
import Storyline.Proofs.Timetable

/-!
# When a script shows its lines

How long each entry of a script holds the story can be read off the entry.  The
time of a line or a title is the start and all that the entries before it take,
each span in whole milliseconds.  The timetable of the actions that the script
becomes says the same.
-/

namespace Storyline

open Timetable

/-! ## Spans -/

namespace Duration

/-- The milliseconds that a span takes, a begun one counting as a whole. -/
def millis (d : Duration) : Nat := (d.nanos + (nanosPerMilli - 1)) / nanosPerMilli

/-- When the last of some spans is over that follow each other, if the clock can show it. -/
def arrival (start : Nat) : List Duration → Option Nat
  | [] => some start
  | d :: spans => (d.endFrom start).bind (arrival · spans)

variable {start : Nat}

theorem endFrom_cases (d : Duration) (start : Nat) :
    d.endFrom start = some (start + d.millis) ∨
      d.endFrom start = none ∧ 1000 * 2 ^ 63 ≤ start + d.millis := by
  by_cases h : (nanosPerMilli * start + d.nanos) / nanosPerSecond < 2 ^ 63
  · refine .inl (clockAt_eq_some_iff.mpr ⟨h, ?_⟩)
    simp only [millis, nanosPerMilli]
    omega
  · refine .inr ⟨if_neg h, ?_⟩
    simp only [millis, nanosPerMilli, nanosPerSecond] at h ⊢
    omega

/-- The spans add up, as far as the clock goes. -/
theorem arrival_cases (spans : List Duration) (start : Nat) :
    arrival start spans = some (start + (spans.map millis).sum) ∨
      arrival start spans = none ∧ 1000 * 2 ^ 63 ≤ start + (spans.map millis).sum := by
  induction spans generalizing start with
  | nil => exact .inl rfl
  | cons d spans ih =>
      rw [arrival, List.map_cons, List.sum_cons, ← Nat.add_assoc]
      rcases endFrom_cases d start with h | ⟨h, hlong⟩
      · rw [h]
        exact ih (start + d.millis)
      · rw [h]
        exact .inr ⟨rfl, Nat.le_trans hlong (Nat.le_add_right _ _)⟩

theorem arrival_append (spans later : List Duration) :
    arrival start (spans ++ later) = (arrival start spans).bind (arrival · later) := by
  induction spans generalizing start with
  | nil => rfl
  | cons d spans ih =>
      rw [List.cons_append, arrival, arrival, Option.bind_assoc]
      exact congrArg _ (funext fun t ↦ ih)

theorem arrival_singleton (d : Duration) : arrival start [d] = d.endFrom start :=
  Option.bind_fun_some (d.endFrom start)

end Duration

/-- The span of a delay, if there is one. -/
def delaySpan (delay : Binary64) : List Duration :=
  if delay.isPositive then [.ofSeconds delay] else []

namespace Entry

/-- What an entry shows until it is tapped on. -/
def shown? : Entry → Option Cue
  | talk t => some (.talk t.line)
  | effect ⟨_, _, .telop text⟩ => some (.telop text)
  | _ => none

/-- How long the body of an entry takes, if the story waits for it. -/
def stay (c : Config) : Entry → List Duration
  | talk _ => [c.talkDwell]
  | effect ⟨_, _, .telop _⟩ => [c.telopDwell]
  | effect ⟨_, _, .blackIn⟩ | effect ⟨_, _, .blackOut⟩ | effect ⟨_, _, .whiteIn⟩
  | effect ⟨_, _, .whiteOut⟩ => [.ofSeconds c.coverDuration.toSeconds]
  | effect ⟨_, _, .shakeScreen⟩ | effect ⟨_, _, .shakeWindow⟩ =>
    [.ofSeconds c.shakeDuration.toSeconds]
  | _ => []

/-- How long an entry holds the story: not at all if it is not waited for or becomes
nothing, and else for its delay and its body. -/
def spans (c : Config) (e : Entry) : List Duration :=
  if e.holds = true ∧ e.body (.ofConfig c) ≠ [] then delaySpan e.delay ++ e.stay c else []

end Entry

/-- What some entries show, and the spans before it. -/
def showings (c : Config) : List Duration → List Entry → List (List Duration × Cue)
  | _, [] => []
  | spent, e :: rest =>
    (e.shown?.map fun cue ↦ (spent ++ delaySpan e.delay, cue)).toList ++
      showings c (spent ++ e.spans c) rest

/-- What a script shows, each line and title with the spans before it. -/
def Script.showings (c : Config) (s : Script) : List (List Duration × Cue) :=
  Storyline.showings c [] s.entries

/-- What is shown after its spans, if ever. -/
def timed (start : Nat) (x : List Duration × Cue) : Option (Nat × Cue) :=
  (Duration.arrival start x.1).map (·, x.2)

/-! ## The timetable of the cues -/

/-- A line or a title, as it is taken up. -/
def shown? : Nat × Action → Option (Nat × Cue)
  | (t, .cue cue) => if cue.isTapBlocking then some (t, cue) else none
  | _ => none

namespace Timetable

variable {c : Config} {t : Nat} {pend : Option Nat} {cues : List Cue} {actions : List Action}

/-- The lines and titles among cues that follow each other. -/
def shows (c : Config) : List Cue → Nat → List (Nat × Cue)
  | [], _ => []
  | cue :: rest, t =>
    (if cue.isTapBlocking then [(t, cue)] else []) ++ ((cueReturn c t cue).elim [] (shows c rest))

theorem shows_eq_nil (h : ∀ cue ∈ cues, cue.isTapBlocking = false) : shows c cues t = [] := by
  induction cues generalizing t with
  | nil => rfl
  | cons cue rest ih =>
      rw [shows, h cue List.mem_cons_self]
      cases cueReturn c t cue with
      | none => rfl
      | some u => exact ih fun cue hc ↦ h cue (List.mem_cons_of_mem _ hc)

theorem le_of_mem_shows {x : Nat × Cue} (hx : x ∈ shows c cues t) : t ≤ x.1 := by
  induction cues generalizing t with
  | nil => cases hx
  | cons cue rest ih =>
      rw [shows] at hx
      rcases List.mem_append.mp hx with hx | hx
      · split at hx
        · rw [List.mem_singleton.mp hx]
        · cases hx
      · cases hu : cueReturn c t cue with
        | none =>
            rw [hu] at hx
            cases hx
        | some u =>
            rw [hu] at hx
            have hcue : Come u (returns c t (.cue cue)) := ⟨u, by rw [returns, hu], Nat.le_refl u⟩
            exact Nat.le_trans (le_of_come_returns hcue) (ih hx)

theorem shows_ordered : (shows c cues t).Pairwise (fun x y ↦ x.1 ≤ y.1) := by
  induction cues generalizing t with
  | nil => exact .nil
  | cons cue rest ih =>
      rw [shows]
      cases hu : cueReturn c t cue with
      | none => split <;> simp
      | some u =>
          have hcue : Come u (returns c t (.cue cue)) := ⟨u, by rw [returns, hu], Nat.le_refl u⟩
          refine List.pairwise_append.mpr ⟨by split <;> simp, ih, fun x hx y hy ↦ ?_⟩
          split at hx
          · rw [List.mem_singleton.mp hx]
            exact Nat.le_trans (le_of_come_returns hcue) (le_of_mem_shows hy)
          · cases hx

theorem resumes_cue {cue : Cue} (h : cue.isScripted = true) :
    resumes c t pend (.cue cue) = cueReturn c t cue := by
  unfold resumes
  split
  case h_1 heq =>
      injection heq with heq
      rw [heq] at h
      cases h
  case h_2 => rw [returns]

theorem shown_walkEvents_cues (h : ∀ cue ∈ cues, cue.isScripted = true) :
    (walkEvents c (Cue.actions cues) t pend).filterMap shown? = shows c cues t := by
  induction cues generalizing t pend with
  | nil =>
      rw [Cue.actions, List.map_nil, walkEvents]
      rfl
  | cons cue rest ih =>
      have hrest : Cue.actions (cue :: rest) = .cue cue :: Cue.actions rest := rfl
      rw [hrest, walkEvents, shows, events, List.filterMap_append,
        resumes_cue (h cue List.mem_cons_self)]
      congr 1
      · simp only [List.filterMap_cons, List.filterMap_nil, shown?]
        split <;> simp_all
      · cases cueReturn c t cue with
        | none => rfl
        | some u => exact ih fun cue hc ↦ h cue (List.mem_cons_of_mem _ hc)

/-- Nothing is shown by the forks of a script, and they take no time. -/
theorem shown_walkEvents (h : ∀ a ∈ actions, a.Scripted) :
    (walkEvents c actions t pend).filterMap shown? = shows c (actions.filterMap Action.cue?) t := by
  induction actions generalizing t pend with
  | nil =>
      rw [walkEvents]
      rfl
  | cons a rest ih =>
      have hrest : ∀ a ∈ rest, a.Scripted := fun a ha ↦ h a (List.mem_cons_of_mem _ ha)
      cases h a List.mem_cons_self with
      | @cue cue hcue =>
          have hcues : (Action.cue cue :: rest).filterMap Action.cue? =
            cue :: rest.filterMap Action.cue? := rfl
          rw [hcues, walkEvents, shows, events, List.filterMap_append, resumes_cue hcue]
          congr 1
          · simp only [List.filterMap_cons, List.filterMap_nil, shown?]
            split <;> simp_all
          · cases cueReturn c t cue with
            | none => rfl
            | some u => exact ih hrest
      | @fork cues _ hcues =>
          have hskip : (Action.fork (Cue.actions cues) :: rest).filterMap Action.cue? =
            rest.filterMap Action.cue? := rfl
          have hparts : (walkEvents c (Cue.actions cues) t (some t)).filterMap shown? = [] := by
            rw [shown_walkEvents_cues fun cue hc ↦ (hcues cue hc).1]
            exact shows_eq_nil fun cue hc ↦ (hcues cue hc).2
          have hresumes : resumes c t pend (.fork (Cue.actions cues)) = some t := by
            simp [resumes, returns]
          rw [hskip, walkEvents, events, hresumes, List.filterMap_append, List.filterMap_cons]
          simp only [shown?, hparts, List.nil_append]
          exact ih hrest

end Timetable

/-! ## The timetable of the entries -/

section

variable {c : Config} {start t : Nat}

/-- How long the story is held by a cue. -/
def Cue.spans (c : Config) : Cue → List Duration
  | .talk _ => [c.talkDwell]
  | .telop _ => [c.telopDwell]
  | .cover _ _ seconds | .shake _ seconds | .delay seconds => [.ofSeconds seconds]
  | .model _ | .tremble .. | .scenery .. | .waitForAll | .waitForTap => []

theorem cueReturn_eq_arrival (cue : Cue) :
    cueReturn c t cue = Duration.arrival t (cue.spans c) := by
  cases cue with
  | talk | telop | cover | shake | delay => exact (Duration.arrival_singleton _).symm
  | model | tremble | scenery | waitForAll | waitForTap => rfl

theorem shows_append (cues later : List Cue) :
    shows c (cues ++ later) t = shows c cues t ++
      (Duration.arrival t (cues.flatMap (Cue.spans c))).elim [] (shows c later) := by
  induction cues generalizing t with
  | nil => rfl
  | cons cue rest ih =>
      rw [List.cons_append, shows, shows, List.flatMap_cons, Duration.arrival_append,
        ← cueReturn_eq_arrival, List.append_assoc]
      cases cueReturn c t cue with
      | none => rfl
      | some u => exact congrArg _ ih

theorem spans_delayCues (delay : Binary64) :
    (delayCues delay).flatMap (Cue.spans c) = delaySpan delay := by
  unfold delayCues delaySpan
  split <;> rfl

theorem shows_delayCues (delay : Binary64) : shows c (delayCues delay) t = [] := by
  refine shows_eq_nil fun cue hc ↦ ?_
  rw [mem_delayCues hc]
  rfl

namespace Entry

variable {e : Entry}

/-- The cues that are shown are talk and titles, and these have bodies. -/
theorem kept_of_shown {cue : Cue} (h : e.shown? = some cue) :
    e.kept (.ofConfig c) = delayCues e.delay ++ [cue] ∧ cue.isTapBlocking = true := by
  cases e with
  | talk t =>
      obtain rfl := Option.some.inj h
      exact ⟨rfl, rfl⟩
  | effect e =>
      obtain ⟨wait, delay, kind⟩ := e
      cases kind with
      | telop text =>
          obtain rfl := Option.some.inj h
          exact ⟨rfl, rfl⟩
      | _ => cases h
  | _ => cases h

theorem body_of_not_shown (h : e.shown? = none) :
    (∀ t, e ≠ talk t) ∧ ∀ cue ∈ e.body (.ofConfig c), cue.isTapBlocking = false := by
  have hplain : ∀ {body : List Cue}, Fits false body → ∀ cue ∈ body, cue.isTapBlocking = false :=
    fun hfits cue hc ↦ (hfits cue hc).2.2 rfl
  cases e with
  | talk t => cases h
  | sound s => exact ⟨fun t ht ↦ (nomatch ht), hplain (fits_sound false s)⟩
  | effect e =>
      refine ⟨fun t ht ↦ (nomatch ht), fun cue hc ↦ ?_⟩
      obtain ⟨wait, delay, kind⟩ := e
      cases kind with
      | telop text => cases h
      | unknown => cases hc
      | _ =>
          rw [List.mem_singleton.mp hc]
          rfl
  | layout l => exact ⟨fun t ht ↦ (nomatch ht), hplain (fits_layout false l)⟩
  | motion m => exact ⟨fun t ht ↦ (nomatch ht), hplain (fits_motion false m.motion)⟩
  | unknown => exact ⟨fun t ht ↦ (nomatch ht), fun cue hc ↦ (nomatch hc)⟩

theorem spans_motion (m : Motion) : ∀ cue ∈ m.cues, cue.spans c = [] := by
  intro cue hc
  rcases List.mem_append.mp hc with hc | hc
  all_goals
    split at hc
    · cases hc
    · rw [List.mem_singleton.mp hc]
      rfl

/-- The body of an entry takes its stay. -/
theorem spans_body (ht : ∀ t, e ≠ talk t) :
    (e.body (.ofConfig c)).flatMap (Cue.spans c) = e.stay c := by
  cases e with
  | talk t => exact absurd rfl (ht t)
  | sound s =>
      refine List.flatMap_eq_nil_iff.mpr fun cue hc ↦ ?_
      rcases List.mem_append.mp hc with hc | hc
      all_goals
        obtain ⟨path, -, rfl⟩ := Option.map_eq_some_iff.mp (Option.mem_toList.mp hc)
        rfl
  | effect e =>
      obtain ⟨wait, delay, kind⟩ := e
      cases kind <;> simp only [body, Effect.cues, stay, Cue.spans, List.flatMap_cons, List.flatMap_nil,
        List.append_nil, Pacing.ofConfig, Pacing.ofDurations]
  | layout l =>
      refine List.flatMap_eq_nil_iff.mpr fun cue hc ↦ ?_
      have hc : cue ∈ l.cues := hc
      unfold LayoutEntry.cues at hc
      cases hk : l.kind
      all_goals
        simp only [hk] at hc
        rcases List.mem_cons.mp hc with rfl | hc
        · rfl
      · exact spans_motion l.motion cue hc
      · cases hc
      · exact spans_motion l.motion cue hc
  | motion m => exact List.flatMap_eq_nil_iff.mpr (spans_motion m.motion)
  | unknown => rfl

/-- What an entry puts on the main timeline takes its spans. -/
theorem spans_kept (e : Entry) : (e.kept (.ofConfig c)).flatMap (Cue.spans c) = e.spans c := by
  by_cases ht : ∃ t, e = talk t
  · obtain ⟨t, rfl⟩ := ht
    have hbody : body (.ofConfig c) (talk t) ≠ [] := by simp [body]
    rw [kept, List.flatMap_append, spans_delayCues, spans, if_pos ⟨rfl, hbody⟩]
    rfl
  · have ht : ∀ t, e ≠ talk t := fun t h ↦ ht ⟨t, h⟩
    rw [kept_eq ht, spans, ← spans_body ht]
    by_cases hholds : e.holds = true
    · by_cases hbody : e.body (.ofConfig c) = []
      · simp [hholds, told, paced, hbody]
      · simp [hholds, told, paced, hbody, spans_delayCues]
    · simp [hholds]

/-- What an entry shows comes after its delay. -/
theorem shows_kept (e : Entry) : shows c (e.kept (.ofConfig c)) t =
    (e.shown?.bind fun cue ↦ timed t (delaySpan e.delay, cue)).toList := by
  cases hshown : e.shown? with
  | some cue =>
      obtain ⟨hkept, htap⟩ := kept_of_shown (c := c) hshown
      rw [hkept, shows_append, shows_delayCues, spans_delayCues, List.nil_append, Option.bind_some,
        timed]
      cases Duration.arrival t (delaySpan e.delay) with
      | none => rfl
      | some u =>
          simp only [Option.elim_some, shows, htap, if_true]
          cases cueReturn c u cue <;> rfl
  | none =>
      obtain ⟨ht, hbody⟩ := body_of_not_shown (c := c) hshown
      rw [kept_eq ht, Option.bind_none]
      refine shows_eq_nil fun cue hc ↦ ?_
      split at hc
      · rcases mem_paced hc with rfl | hc
        · rfl
        · exact hbody cue hc
      · cases hc

end Entry

/-- The entries show what they have to show when the spans before it are over. -/
theorem shows_entries (entries : List Entry) (spent : List Duration) :
    (Duration.arrival start spent).elim []
        (shows c (entries.flatMap (Entry.kept (.ofConfig c)))) =
      (showings c spent entries).filterMap (timed start) := by
  induction entries generalizing spent with
  | nil => cases Duration.arrival start spent <;> rfl
  | cons e rest ih =>
      have hrest := ih (spent ++ e.spans c)
      rw [showings, List.filterMap_append, ← hrest, List.flatMap_cons, Duration.arrival_append]
      cases hspent : Duration.arrival start spent with
      | none =>
          cases e.shown? with
          | none => rfl
          | some cue => simp [timed, Duration.arrival_append, hspent]
      | some t =>
          rw [Option.elim_some, shows_append, Entry.shows_kept, Entry.spans_kept, Option.bind_some]
          congr 1
          cases e.shown? with
          | none => rfl
          | some cue =>
              simp only [timed, Option.bind_some, Option.map_some, Option.toList_some,
                List.filterMap_cons, List.filterMap_nil, Duration.arrival_append, hspent]
              cases Duration.arrival t (delaySpan e.delay) <;> rfl

/-- The timetable of a script shows its lines and titles when the spans before
them are over. -/
theorem Script.shown_story (s : Script) (start : Nat) (pend : Option Nat) :
    (walkEvents c (s.story (.ofConfig c)) start pend).filterMap shown? =
      (s.showings c).filterMap (timed start) := by
  have hrendered := s.rendered_story (.ofConfig c)
  have hscene : ∀ cue ∈ s.scene, cue.isTapBlocking = false ∧ cue.spans c = [] := by
    intro cue hc
    rcases List.mem_append.mp hc with hc | hc
    all_goals
      obtain ⟨path, -, rfl⟩ := Option.map_eq_some_iff.mp (Option.mem_toList.mp hc)
      exact ⟨rfl, rfl⟩
  rw [shown_walkEvents hrendered.scripted, hrendered.main, shows_append,
    shows_eq_nil fun cue hc ↦ (hscene cue hc).1,
    List.flatMap_eq_nil_iff.mpr fun cue hc ↦ (hscene cue hc).2, List.nil_append]
  exact shows_entries s.entries []

end

end Storyline
