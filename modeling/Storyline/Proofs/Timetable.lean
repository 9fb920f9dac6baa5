import Storyline.Playback.Perform
import Storyline.Proofs.Clock

/-!
# Timetables

When the actions of a story are taken up and when they return, if it plays by
itself and no voice can be played.  The times are given by recursion over the
story alone; a time that never comes is none.
-/

namespace Storyline

namespace Timetable

/-! ## Times -/

/-- The later of two times. -/
def later : Option Nat → Option Nat → Option Nat
  | some a, some b => some (max a b)
  | _, _ => none

/-- The latest of some times and a first one. -/
def latest (t : Nat) (l : List (Option Nat)) : Option Nat := l.foldr later (some t)

/-- A time has come. -/
def Come (n : Nat) (x : Option Nat) : Prop := ∃ t, x = some t ∧ t ≤ n

section times

variable {n t : Nat} {a b x y : Option Nat} {l : List (Option Nat)}

@[simp] theorem come_some : Come n (some t) ↔ t ≤ n :=
  ⟨fun ⟨_, he, hle⟩ ↦ Option.some.inj he ▸ hle, fun h ↦ ⟨t, rfl, h⟩⟩

@[simp] theorem not_come_none : ¬Come n none := fun ⟨_, he, _⟩ ↦ nomatch he

theorem Come.mono {m : Nat} (h : Come n x) (hle : n ≤ m) : Come m x := by
  obtain ⟨t, rfl, ht⟩ := h
  exact ⟨t, rfl, Nat.le_trans ht hle⟩

/-- Times are the same if they come by the same times. -/
theorem ext_come (h : ∀ n, Come n x ↔ Come n y) : x = y := by
  cases x with
  | none =>
      cases y with
      | none => rfl
      | some u => exact absurd ((h u).mpr (come_some.mpr (Nat.le_refl u))) not_come_none
  | some t =>
      cases y with
      | none => exact absurd ((h t).mp (come_some.mpr (Nat.le_refl t))) not_come_none
      | some u =>
          have ht := come_some.mp ((h u).mpr (come_some.mpr (Nat.le_refl u)))
          have hu := come_some.mp ((h t).mp (come_some.mpr (Nat.le_refl t)))
          exact congrArg some (Nat.le_antisymm ht hu)

@[simp] theorem come_later : Come n (later a b) ↔ Come n a ∧ Come n b := by
  cases a <;> cases b <;> simp [later, Nat.max_le]

@[simp] theorem come_latest : Come n (latest t l) ↔ t ≤ n ∧ ∀ x ∈ l, Come n x := by
  induction l with
  | nil => simp [latest]
  | cons x rest ih =>
      have hstep : latest t (x :: rest) = later x (latest t rest) := rfl
      rw [hstep, come_later, ih, List.forall_mem_cons]
      exact and_left_comm

end times

/-! ## Returns -/

variable (c : Config)

def cueReturn (t : Nat) : Cue → Option Nat
  | .talk _ => c.talkDwell.endFrom t
  | .telop _ => c.telopDwell.endFrom t
  | .cover _ _ seconds | .shake _ seconds | .delay seconds => (Duration.ofSeconds seconds).endFrom t
  | .model _ | .tremble .. | .scenery .. | .waitForAll | .waitForTap => some t

/-- When the change of a model has settled. -/
def settled (t : Nat) : Action → Option Nat
  | .cue (.model change) => (Playback.settleTime c change).endFrom t
  | _ => some t

mutual

/-- When an action returns that is taken up at a time. -/
def returns (t : Nat) : Action → Option Nat
  | .cue cue => cueReturn c t cue
  | .block parts => returnsAll t parts
  | .fork _ => some t

/-- When the parts of a block have returned and settled. -/
def returnsAll (t : Nat) : List Action → Option Nat
  | [] => some t
  | part :: rest => later (later (returns t part) (settled c t part)) (returnsAll t rest)

end

/-- When a walk goes on from an action, if what has gone before has settled at the
time `pend`. -/
def resumes (t : Nat) (pend : Option Nat) : Action → Option Nat
  | .cue .waitForAll => later (some t) pend
  | action => returns c t action

/-- When the ticket is released that an action has taken in its scope; a block or
fork gives it back at once. -/
def holds (t : Nat) : Action → Option Nat
  | .cue cue => later (cueReturn c t cue) (settled c t (.cue cue))
  | _ => some t

mutual

/-- The actions that are taken up with an action, and their times. -/
def events : Action → Nat → List (Nat × Action)
  | .cue cue, t => [(t, .cue cue)]
  | .block parts, t => (t, .block parts) :: eventsAll parts t
  | .fork parts, t => (t, .fork parts) :: walkEvents parts t (some t)

/-- The parts of a block are taken up together. -/
def eventsAll : List Action → Nat → List (Nat × Action)
  | [], _ => []
  | part :: rest, t => events part t ++ eventsAll rest t

/-- The actions of a walk are taken up one after the other. -/
def walkEvents : List Action → Nat → Option Nat → List (Nat × Action)
  | [], _, _ => []
  | action :: rest, t, pend =>
    events action t ++
      match resumes c t pend action with
      | some u => walkEvents rest u (later pend (settled c t action))
      | none => []

end

/-- When a walk is over and all of it has settled. -/
def walkEnd : List Action → Nat → Option Nat → Option Nat
  | [], t, pend => later (some t) pend
  | action :: rest, t, pend =>
    match resumes c t pend action with
    | some u => walkEnd rest u (later pend (settled c t action))
    | none => none

/-! ## Nothing returns before it is taken up -/

variable {c} {n t : Nat} {pend pend' : Option Nat}

theorem le_of_come_endFrom {d : Duration} (h : Come n (d.endFrom t)) : t ≤ n := by
  obtain ⟨u, hu, hle⟩ := h
  exact Nat.le_trans (Duration.le_endFrom hu) hle

theorem come_returnsAll {parts : List Action} : Come n (returnsAll c t parts) ↔
    t ≤ n ∧ ∀ part ∈ parts, Come n (returns c t part) ∧ Come n (settled c t part) := by
  induction parts with
  | nil => simp [returnsAll]
  | cons part rest ih =>
      rw [returnsAll, come_later, come_later, ih, List.forall_mem_cons]
      exact and_left_comm

/-- The parts of a block have returned and settled when they have returned and
all of their tickets have been released. -/
theorem come_returnsAll_iff {parts : List Action} (ht : t ≤ n) :
    Come n (returnsAll c t parts) ↔
      (∀ part ∈ parts, Come n (holds c t part)) ∧ ∀ part ∈ parts, Come n (returns c t part) := by
  have hpart : ∀ part : Action, Come n (returns c t part) ∧ Come n (settled c t part) ↔
      Come n (holds c t part) ∧ Come n (returns c t part) := by
    intro part
    cases part with
    | cue cue =>
        rw [returns, holds, come_later]
        exact ⟨fun h ↦ ⟨h, h.1⟩, fun h ↦ h.1⟩
    | block parts => simp [holds, settled, ht, and_comm]
    | fork parts => simp [holds, settled, ht, and_comm]
  rw [come_returnsAll]
  constructor
  · rintro ⟨-, h⟩
    exact ⟨fun part hp ↦ ((hpart part).mp (h part hp)).1, fun part hp ↦ (h part hp).1⟩
  · rintro ⟨hholds, hreturns⟩
    exact ⟨ht, fun part hp ↦ (hpart part).mpr ⟨hholds part hp, hreturns part hp⟩⟩

theorem le_of_come_returns {action : Action} (h : Come n (returns c t action)) : t ≤ n := by
  cases action with
  | cue cue =>
      rw [returns] at h
      unfold cueReturn at h
      split at h <;> first | exact le_of_come_endFrom h | exact come_some.mp h
  | block parts =>
      rw [returns, come_returnsAll] at h
      exact h.1
  | fork parts => exact come_some.mp (by rwa [returns] at h)

theorem le_of_resumes {action : Action} {u : Nat} (h : resumes c t pend action = some u) : t ≤ u := by
  have hcome : Come u (resumes c t pend action) := ⟨u, h, Nat.le_refl u⟩
  unfold resumes at hcome
  split at hcome
  · exact come_some.mp (come_later.mp hcome).1
  · exact le_of_come_returns hcome

/-- What has settled before the walk goes on makes no difference to it. -/
theorem resumes_congr (h : later (some t) pend = later (some t) pend') (action : Action) :
    resumes c t pend action = resumes c t pend' action := by
  unfold resumes
  split
  · exact h
  · rfl

theorem later_congr {u : Nat} {x : Option Nat} (hle : t ≤ u)
    (h : later (some t) pend = later (some t) pend') :
    later (some u) (later pend x) = later (some u) (later pend' x) := by
  have hpend : ∀ n, t ≤ n → (Come n pend ↔ Come n pend') := by
    intro n hn
    have hcome := congrArg (Come n) h
    simpa [hn] using hcome
  refine ext_come fun n ↦ ?_
  simp only [come_later, come_some]
  constructor
  · exact fun hu ↦ ⟨hu.1, (hpend n (Nat.le_trans hle hu.1)).mp hu.2.1, hu.2.2⟩
  · exact fun hu ↦ ⟨hu.1, (hpend n (Nat.le_trans hle hu.1)).mpr hu.2.1, hu.2.2⟩

theorem walk_congr (actions : List Action) (h : later (some t) pend = later (some t) pend') :
    walkEvents c actions t pend = walkEvents c actions t pend' ∧
      walkEnd c actions t pend = walkEnd c actions t pend' := by
  induction actions generalizing t pend pend' with
  | nil => exact ⟨rfl, h⟩
  | cons action rest ih =>
      rw [walkEvents, walkEvents, walkEnd, walkEnd, resumes_congr h]
      cases hu : resumes c t pend' action with
      | none => exact ⟨rfl, rfl⟩
      | some u =>
          obtain ⟨hevents, hend⟩ := ih (later_congr (x := settled c t action) (le_of_resumes hu) h)
          exact ⟨congrArg (events c action t ++ ·) hevents, hend⟩

theorem le_of_come_walkEnd {actions : List Action} (h : Come n (walkEnd c actions t pend)) :
    t ≤ n := by
  induction actions generalizing t pend with
  | nil => exact come_some.mp (come_later.mp h).1
  | cons action rest ih =>
      rw [walkEnd] at h
      cases hu : resumes c t pend action with
      | none => simp [hu] at h
      | some u => exact Nat.le_trans (le_of_resumes hu) (ih (by simpa [hu] using h))

mutual

theorem le_of_mem_events (action : Action) {t : Nat} {e : Nat × Action}
    (he : e ∈ events c action t) : t ≤ e.1 := by
  cases action with
  | cue cue =>
      rw [events, List.mem_singleton] at he
      exact Nat.le_of_eq (congrArg Prod.fst he).symm
  | block parts =>
      rw [events, List.mem_cons] at he
      rcases he with rfl | he
      · exact Nat.le_refl _
      · exact le_of_mem_eventsAll parts he
  | fork parts =>
      rw [events, List.mem_cons] at he
      rcases he with rfl | he
      · exact Nat.le_refl _
      · exact le_of_mem_walkEvents parts he

theorem le_of_mem_eventsAll (parts : List Action) {t : Nat} {e : Nat × Action}
    (he : e ∈ eventsAll c parts t) : t ≤ e.1 := by
  cases parts with
  | nil => simp [eventsAll] at he
  | cons part rest =>
      rw [eventsAll, List.mem_append] at he
      exact he.elim (le_of_mem_events part) (le_of_mem_eventsAll rest)

theorem le_of_mem_walkEvents (actions : List Action) {t : Nat} {pend : Option Nat}
    {e : Nat × Action} (he : e ∈ walkEvents c actions t pend) : t ≤ e.1 := by
  cases actions with
  | nil => simp [walkEvents] at he
  | cons action rest =>
      rw [walkEvents, List.mem_append] at he
      rcases he with he | he
      · exact le_of_mem_events action he
      · cases hu : resumes c t pend action with
        | none => simp [hu] at he
        | some u =>
            rw [hu] at he
            exact Nat.le_trans (le_of_resumes hu) (le_of_mem_walkEvents rest he)

end

end Timetable

end Storyline
