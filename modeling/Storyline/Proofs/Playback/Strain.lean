import Storyline.Proofs.Playback.Casting

/-!
# Settings that a playback can bear

A look fails for three reasons only: the clock cannot show when the voice of a line is
to be looked at, or when fast-forward is to tick, or the offsets of a shake span no
number.  Settings without these reasons at some time are without them before that time,
and no task fails with them.
-/

namespace Storyline

/-- Settings with which nothing fails at a time. -/
structure Config.Bearable (time : Nat) (c : Config) : Prop where
  voice : (c.voicePoll.period.tickFrom time 1).isSome = true
  ticker : (c.fastForwardInterval.period.tickFrom time 1).isSome = true
  shake : Playback.canSway c.shakeMagnitude.abs = true → Playback.spans c.shakeMagnitude.abs = true

theorem Config.Bearable.earlier {c : Config} {time now : Nat} (h : c.Bearable time)
    (hle : now ≤ time) : c.Bearable now where
  voice := Duration.tickFrom_isSome hle h.voice
  ticker := Duration.tickFrom_isSome hle h.ticker
  shake := h.shake

/-- The settings of a session can be borne at its time. -/
def Session.Bears (s : Session) : Prop := s.config.Bearable s.now

namespace Playback

variable {p q : Playback}

theorem look_bears (h : p.session.Bears) (wait : Wait) : (p.look wait).2 ≠ .fails := by
  intro hfails
  have hlook : p.look wait = ((p.look wait).1, .fails) := Prod.ext rfl hfails
  have htime : ¬p.session.OutOfTime := Option.isSome_iff_ne_none.mp h.voice
  cases wait with
  | frame shake stamp d start ticks timer =>
    rw [look, lookAtFrame] at hlook
    split at hlook
    · cases (Prod.mk.inj hlook).2
    dsimp only at hlook
    split at hlook
    next hwide =>
      simp only [Bool.and_eq_true, Bool.not_eq_true'] at hwide
      have hspans := h.shake hwide.1.2
      rw [hspans] at hwide
      cases hwide.2
    next =>
      split at hlook <;> cases (Prod.mk.inj hlook).2
  | forward ticker =>
    rw [look, lookAtForward.eq_def] at hlook
    split at hlook
    · cases (Prod.mk.inj hlook).2
    split at hlook
    · split at hlook
      · cases (Prod.mk.inj hlook).2
      next hnone => exact Option.isSome_iff_ne_none.mp h.ticker hnone
    · split at hlook <;> cases (Prod.mk.inj hlook).2
  | drained scope tally guarded =>
    have hyields : (⟨.drained scope tally guarded, .nothing, []⟩ : Pause).Yields := by
      cases guarded <;> trivial
    exact htime (look_fails_yields hlook hyields)
  | tap park kind auto =>
    have hyields : (⟨.tap park kind auto, .nothing, []⟩ : Pause).Yields := trivial
    exact htime (look_fails_yields hlook hyields)
  | sleep timer skips =>
    have hyields : (⟨.sleep timer skips, .nothing, []⟩ : Pause).Yields := trivial
    exact htime (look_fails_yields hlook hyields)
  | cancelled =>
    have hyields : (⟨.cancelled, .nothing, []⟩ : Pause).Yields := rfl
    exact htime (look_fails_yields hlook hyields)

/-- So no wait fails. -/
theorem suspend_bears (h : p.session.Bears) (wait : Wait) (ending : Ending) (scopes : List Nat) :
    (p.suspend wait ending scopes).turn.failed = p.turn.failed := by
  have hst := p.stirs_look wait
  rw [suspend]
  split
  next q w hlook =>
    rw [hlook] at hst
    exact hst.failed
  next q ran hlook =>
    rw [hlook] at hst
    split
    · exact (q.stirs_finish ending).failed.trans hst.failed
    · exact hst.failed
  next q hlook => exact absurd (congrArg Prod.snd hlook) (look_bears h wait)

theorem begin_bears (h : p.session.Bears) {errand : Errand}
    (hother : ∀ action scope step, errand ≠ .perform action scope step) :
    (p.begin errand).turn.failed = p.turn.failed := by
  have harm : p.arm.session.Bears := h
  cases errand with
  | perform action scope step => exact absurd rfl (hother action scope step)
  | sleep d ending scopes => exact suspend_bears harm _ ending scopes
  | drain scope tally guarded ending => exact suspend_bears h _ ending [scope]
  | awaitEnd => exact suspend_bears h _ .nothing []
  | animate shake stamp d => exact suspend_bears harm _ .nothing []
  | fastForward => exact suspend_bears h _ .nothing []

theorem revisit_bears (h : p.session.Bears) (pause : Pause) :
    (p.revisit pause).turn.failed = p.turn.failed := by
  rw [revisit]
  split
  · rfl
  · exact suspend_bears (p := p.updateTurn _) h pause.wait pause.ending pause.scopes

/-- Performing fails for want of time only. -/
theorem Extends.bears (h : Extends false p q) (hp : p.session.Bears) (hgoes : p.turn.failed = false) :
    q.turn.failed = false := by
  have htime : ¬p.session.OutOfTime := Option.isSome_iff_ne_none.mp hp.voice
  refine Bool.eq_false_iff.mpr fun hf ↦ ?_
  rcases h.failed.resolve_left (by simp) hf with hbefore | hout
  · exact Bool.eq_false_iff.mp hgoes hbefore
  · exact htime hout

end Playback

namespace Machine

open Playback

variable {m n : Machine}

/-- With settings that can be borne, no beat makes the running task fail. -/
theorem Beat.bears (hs : Sound m) (hb : Beat m n) (h : m.playback.session.Bears)
    (hgoes : m.playback.turn.failed = false) : n.playback.turn.failed = false := by
  have hidle (hn : n.running = none) : n.playback.turn.failed = false := by
    rw [(hb.sound hs).orderly.idle (congrArg (Option.map Task.id) hn)]
    rfl
  have hopen (p : Playback) (action : Action) (scope : Nat) (step : Option Nat) :
      Extends false p ((p.note action scope step).openWithin scope step) :=
    (extends_note _ _ _).trans (.of_stirs (stirs_openWithin _ _ _))
  cases hb with
  | take => rfl
  | drop | finish => exact hidle rfl
  | look => exact (revisit_bears h _).trans hgoes
  | walk => exact hgoes
  | @begin p task errand rest _ _ hother =>
    exact (begin_bears (p := p.updateTurn (fun t ↦ { t with agenda := rest })) h hother).trans hgoes
  | skip => exact hgoes
  | cue =>
    exact Extends.bears ((extends_note _ _ _).trans (extends_performCue _ _ _ _)) h hgoes
  | block => exact (hopen _ _ _ _).bears h hgoes
  | fork =>
    exact Extends.bears ((hopen _ _ _ _).trans (extends_spawn _ (.inl (walk_yields _ false _)))) h hgoes
  | @close p task scope scopes =>
    exact Extends.bears (extends_performCue (p := p) .waitForAll scope scopes none) h hgoes

end Machine

end Storyline
