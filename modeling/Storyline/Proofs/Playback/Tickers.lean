import Storyline.Proofs.Playback.Prospects

/-!
# Tickers keep to the plan

The frames of a shake and the ticker of fast-forward change nothing that concerns
the timetable, as long as fast-forward is off.
-/

namespace Storyline

open Timetable

namespace Playback

variable {p p₁ q : Playback}

/-- A look at a wait that ticks, while fast-forward is off. -/
theorem smooth_look {wait : Wait} (hticks : wait.Ticks) (htame : wait.Tame)
    (hforward : p.session.fastForward = false) :
    p.Smooth (p.look wait).1 ∧
      ∀ {q w}, p.look wait = (q, .waits w) → w.Ticks ∧ w.Tame := by
  cases wait with
  | frame shake stamp d start ticks timer =>
      rcases p.lookAtFrame_cases shake stamp d start ticks timer with
        ⟨-, h⟩ | ⟨-, h | ⟨n, finished, offset, h | h⟩⟩ <;> rw [look, h]
      · refine ⟨.refl p, fun he ↦ ?_⟩
        rw [← Verdict.waits.inj (Prod.mk.inj he).2]
        exact ⟨trivial, trivial⟩
      · exact ⟨.refl p, fun he ↦ by cases (Prod.mk.inj he).2⟩
      · exact ⟨p.smooth_sway n _, fun he ↦ by cases (Prod.mk.inj he).2⟩
      · refine ⟨(p.smooth_sway n _).trans (smooth_arm _), fun he ↦ ?_⟩
        rw [← Verdict.waits.inj (Prod.mk.inj he).2]
        exact ⟨trivial, trivial⟩
  | forward ticker =>
      have hlook : p.look (.forward ticker) = (p, .waits (.forward none)) := by
        simp [look, lookAtForward, hforward]
      rw [hlook]
      refine ⟨.refl p, fun he ↦ ?_⟩
      rw [← Verdict.waits.inj (Prod.mk.inj he).2]
      exact ⟨trivial, trivial⟩
  | _ => exact hticks.elim

/-- A turn of a ticker so far: nothing has happened beside the turn itself but to
the stage and the numbers. -/
structure Aside (p₁ p : Playback) : Prop where
  moment : p.session.moment = p₁.session.moment
  level : p₁.session.Level p.session
  serial : p₁.session.serial ≤ p.session.serial
  status : p.status = p₁.status
  tasks : p.tasks = p₁.tasks
  dispatches : p.dispatches = p₁.dispatches
  pauses : ∀ q ∈ p.turn.pauses, q.wait.Ticks ∧ q.wait.Tame ∧ q.ending = .nothing

namespace Aside

theorem smooth (h : p₁.Aside p) (hq : p.Smooth q) : p₁.Aside q where
  moment := hq.stirs.moment.trans h.moment
  level := h.level.trans hq.level
  serial := Nat.le_trans h.serial hq.stirs.serial
  status := hq.status.trans h.status
  tasks := hq.stirs.tasks.trans h.tasks
  dispatches := hq.stirs.dispatches.trans h.dispatches
  pauses := by
    rw [hq.stirs.pauses]
    exact h.pauses

theorem leave {pause : Pause} (h : p₁.Aside p)
    (hpause : pause.wait.Ticks ∧ pause.wait.Tame ∧ pause.ending = .nothing) : p₁.Aside (p.leave pause) :=
  { h with
    pauses := by
      intro x hx
      rcases List.mem_append.mp hx with hx | hx
      · exact h.pauses x hx
      · rwa [List.mem_singleton.mp hx] }

theorem suspend {wait : Wait} {scopes : List Nat} (h : p₁.Aside p) (hticks : wait.Ticks)
    (htame : wait.Tame) (hforward : p₁.session.fastForward = false) :
    p₁.Aside (p.suspend wait .nothing scopes) := by
  have hforward' : p.session.fastForward = false :=
    (congrArg Pace.fastForward h.level.pace).trans hforward
  obtain ⟨hsmooth, hwaits⟩ := smooth_look hticks htame hforward'
  unfold Playback.suspend
  split
  next q w hlook =>
    rw [hlook] at hsmooth
    obtain ⟨hticks, htame⟩ := hwaits hlook
    exact (h.smooth hsmooth).leave ⟨hticks, htame, rfl⟩
  next q ran hlook =>
    rw [hlook] at hsmooth
    split <;> exact h.smooth hsmooth
  next q hlook =>
    rw [hlook] at hsmooth
    have hleft : p₁.Aside (q.leave ⟨wait, .nothing, scopes⟩) :=
      (h.smooth hsmooth).leave ⟨hticks, htame, rfl⟩
    exact { hleft with }

theorem revisit {pause : Pause} (h : p₁.Aside p) (hforward : p₁.session.fastForward = false)
    (hpause : pause.wait.Ticks ∧ pause.wait.Tame ∧ pause.ending = .nothing) :
    p₁.Aside (p.revisit pause) := by
  unfold Playback.revisit
  split
  · exact h
  · rw [hpause.2.2]
    have htail : p₁.Aside (p.updateTurn (fun t ↦ { t with pauses := t.pauses.tail })) :=
      { h with pauses := fun x hx ↦ h.pauses x (List.mem_of_mem_tail hx) }
    exact htail.suspend hpause.1 hpause.2.1 hforward

theorem revisitAll {pauses : List Pause} (h : p₁.Aside p) (hforward : p₁.session.fastForward = false)
    (hpauses : ∀ x ∈ pauses, x.wait.Ticks ∧ x.wait.Tame ∧ x.ending = .nothing) :
    p₁.Aside (pauses.foldl (fun p pause ↦ p.revisit pause) p) := by
  induction pauses generalizing p with
  | nil => exact h
  | cons pause rest ih =>
      exact ih (h.revisit hforward (hpauses pause List.mem_cons_self)) fun x hx ↦
        hpauses x (List.mem_cons_of_mem _ hx)

theorem proceed {agenda : List Errand} (h : p₁.Aside p) (hforward : p₁.session.fastForward = false)
    {s : Session} (hagenda : ∀ e ∈ agenda, e.Fits .ticker s) :
    p₁.Aside (Playback.proceed agenda p) := by
  induction agenda generalizing p with
  | nil => exact h
  | cons errand rest ih =>
      simp only [Playback.proceed]
      split
      · have htaken : p₁.Aside (p.updateTurn (fun t ↦ { t with agenda := rest })) := { h with }
        refine ih ?_ fun e he ↦ hagenda e (List.mem_cons_of_mem _ he)
        have herrand := hagenda errand List.mem_cons_self
        cases errand with
        | animate shake stamp d =>
            have harm := htaken.smooth (smooth_arm _)
            exact harm.suspend trivial trivial hforward
        | fastForward => exact htaken.suspend trivial trivial hforward
        | _ => exact herrand.elim
      · exact h

end Aside

end Playback

/-- A ticker waits for frames or for the ticks of fast-forward. -/
theorem Pause.Fits.ticks {q : Pause} (h : q.Fits .ticker) : q.wait.Ticks ∧ q.ending = .nothing := by
  obtain ⟨wait, ending, scopes⟩ := q
  cases wait <;> first | exact ⟨trivial, h.1⟩ | exact h.elim

end Storyline
