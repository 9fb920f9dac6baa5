import Storyline.Proofs.Clock
import Storyline.Proofs.Playback.Signals

/-!
# Settled waits

A wait is settled if a look at it would change nothing.  An operation of a
playback raises a signal for every settled wait that it may unsettle; this is
what makes it safe to look at the waits of the woken tasks only.
-/

namespace Storyline

structure Moment where
  config : Config
  host : Host
  now : Nat

/-- Whether a look at a wait changes nothing. -/
def Wait.Settled (s : Session) : Wait → Prop
  | .tap park _ .off => s.cancelled = false ∧ s.isParked park = true ∧ s.autoPlay = false
  | .tap park _ (.listening _ _ timer) | .tap park _ (.dwelling timer) =>
    s.cancelled = false ∧ s.isParked park = true ∧ s.autoPlay = true ∧ timer.isDue s.now = false
  | .sleep timer skips => s.cancelled = false ∧ timer.isDue s.now = false ∧ s.skips = skips
  | .drained scope tally guarded =>
    (guarded = true → s.cancelled = false) ∧ s.pending scope tally ≠ 0
  | .cancelled => s.cancelled = false
  | .frame _ _ _ _ _ timer => timer.isDue s.now = false
  | .forward none => s.fastForward = false
  | .forward (some (_, _, timer)) => s.fastForward = true ∧ timer.isDue s.now = false

namespace Playback

theorem look_of_settled {p : Playback} {wait : Wait} (h : wait.Settled p.session) :
    p.look wait = (p, .waits wait) := by
  cases wait with
  | tap park kind auto =>
      cases auto with
      | off =>
          obtain ⟨hc, hp, ha⟩ := h
          simp [look, lookAtTap, hc, hp, ha]
      | listening start ticks timer =>
          obtain ⟨hc, hp, ha, ht⟩ := h
          simp [look, lookAtTap, hc, hp, ha, ht]
      | dwelling timer =>
          obtain ⟨hc, hp, ha, ht⟩ := h
          simp [look, lookAtTap, hc, hp, ha, ht]
  | sleep timer skips =>
      obtain ⟨hc, ht, hs⟩ := h
      simp [look, lookAtSleep, hc, ht, hs]
  | drained scope tally guarded =>
      obtain ⟨hc, hp⟩ := h
      have hg : (guarded && p.session.cancelled) = false := by
        cases guarded with
        | false => rfl
        | true => exact hc rfl
      simp [look, lookAtCount, hg, hp]
  | cancelled =>
      have hc : p.session.cancelled = false := h
      simp [look, hc]
  | frame shake stamp d start ticks timer =>
      have ht : timer.isDue p.session.now = false := h
      simp [look, lookAtFrame, ht]
  | forward ticker =>
      rcases ticker with _ | ⟨start, ticks, timer⟩
      · have hf : p.session.fastForward = false := h
        simp [look, lookAtForward, hf]
      · obtain ⟨hf, ht⟩ := h
        simp [look, lookAtForward, hf, ht]

end Playback

namespace Session

/-! ## Sessions that carry on -/

/-- What stays as it is while tasks run: the settings, the host and the time. -/
def moment (s : Session) : Moment := ⟨s.config, s.host, s.now⟩

/-- The numbers of scopes are distinct, and the counter is past them. -/
structure Numbered (s : Session) : Prop where
  nodup : (s.scopes.map Scope.id).Nodup
  lt : ∀ sc ∈ s.scopes, sc.id < s.serial

/-- One session carries another on, if all that it has unsettled heeds one of
the signals. -/
structure Carries (signals : List Signal) (s s' : Session) : Prop where
  moment : s'.moment = s.moment
  serial : s.serial ≤ s'.serial
  scopes : s.scopes.map Scope.id ⊆ s'.scopes.map Scope.id
  numbered : s.Numbered → s'.Numbered
  settled : ∀ w : Wait, w.Settled s → (∀ c ∈ signals, w.heeds c = false) → w.Settled s'

namespace Carries

variable {l r : List Signal} {s s' s'' : Session}

theorem refl (s : Session) : s.Carries l s :=
  ⟨rfl, Nat.le_refl _, List.Subset.refl _, fun h ↦ h, fun _ h _ ↦ h⟩

theorem trans (h : s.Carries l s') (h' : s'.Carries r s'') : s.Carries (l ++ r) s'' where
  moment := h'.moment.trans h.moment
  serial := Nat.le_trans h.serial h'.serial
  scopes := List.Subset.trans h.scopes h'.scopes
  numbered := fun hs ↦ h'.numbered (h.numbered hs)
  settled := fun w hw hl ↦
    h'.settled w (h.settled w hw fun c hc ↦ hl c (List.mem_append_left _ hc))
      fun c hc ↦ hl c (List.mem_append_right _ hc)

theorem weaken (h : s.Carries l s') (hl : l ⊆ r) : s.Carries r s' :=
  { h with settled := fun w hw hr ↦ h.settled w hw fun c hc ↦ hr c (hl hc) }

/-- What has to be checked of each kind of wait. -/
theorem of_agree (moment : s'.moment = s.moment) (serial : s.serial ≤ s'.serial)
    (scopes : s.scopes.map Scope.id ⊆ s'.scopes.map Scope.id)
    (numbered : s.Numbered → s'.Numbered)
    (parked : ∀ id, s.isParked id = true → Signal.tap id ∈ l ∨ s'.isParked id = true)
    (pending : ∀ id tally, s.pending id tally ≠ 0 →
      Signal.counter id tally ∈ l ∨ s'.pending id tally ≠ 0)
    (skips : Signal.skip ∈ l ∨ s'.skips = s.skips)
    (autoPlay : Signal.autoPlay ∈ l ∨ s'.autoPlay = s.autoPlay)
    (fastForward : Signal.fastForward ∈ l ∨ s'.fastForward = s.fastForward)
    (cancelled : Signal.cancel ∈ l ∨ s'.cancelled = s.cancelled) : s.Carries l s' where
  moment := moment
  serial := serial
  scopes := scopes
  numbered := numbered
  settled := by
    intro w hw hl
    have absent : ∀ c, w.heeds c = true → c ∉ l := by
      intro c hc hmem
      exact absurd (hl c hmem) (by simp [hc])
    have now : s'.now = s.now := congrArg Moment.now moment
    cases w with
    | tap park kind auto =>
        have hp := absent (.tap park) (by simp [Wait.heeds])
        have ha := absent .autoPlay rfl
        have hc := absent .cancel rfl
        cases auto <;> grind [Wait.Settled]
    | sleep timer skips =>
        have hs := absent .skip rfl
        have hc := absent .cancel rfl
        grind [Wait.Settled]
    | drained scope tally guarded =>
        have hp := absent (.counter scope tally) (by simp [Wait.heeds])
        obtain ⟨hguard, hpending⟩ := hw
        refine ⟨fun hg ↦ ?_, (pending scope tally hpending).resolve_left hp⟩
        have hc := absent .cancel (by simpa [Wait.heeds] using hg)
        exact (cancelled.resolve_left hc).trans (hguard hg)
    | cancelled => exact (cancelled.resolve_left (absent .cancel rfl)).trans hw
    | frame => simpa only [Wait.Settled, now] using hw
    | forward ticker =>
        have hf := absent .fastForward rfl
        cases ticker <;> grind [Wait.Settled]

end Carries

end Session

end Storyline
