import Storyline.Proofs.Playback.Turns
import Storyline.Proofs.Wrapping.Sessions

/-!
# Looks in a story with wrapped actions

Two playbacks are alike if their sessions are twins.  A look then shows the same in
both, and what follows it leaves them alike.  Which tasks a signal wakes does not
matter here: it is told by the queues, and these are not compared.
-/

namespace Storyline

namespace Playback

/-- Two playbacks that have the same in common, their tasks aside. -/
structure Alike (N : Wrapping) (D : Detours) (p v : Playback) : Prop where
  session : p.session.Twins N D v.session
  status : p.status = v.status

/-- Two looks that show the same. -/
structure SeenAlike (N : Wrapping) (D : Detours) (W : Wait → Wait → Prop)
    (x' x : Playback × Verdict) : Prop where
  alike : x'.1.Alike N D x.1
  verdict : Wrapping.SameVerdict W x'.2 x.2

variable {N M : Wrapping} {D E : Detours} {o : Nat} {p v : Playback} {T : Ticket → Ticket → Prop}

theorem SeenAlike.ite {W : Wait → Wait → Prop} {x' x y' y : Playback × Verdict} {c' c : Prop}
    [Decidable c'] [Decidable c] (hc : c' ↔ c) (ht : c → SeenAlike N D W x' x)
    (hf : SeenAlike N D W y' y) : SeenAlike N D W (if c' then x' else y') (if c then x else y) := by
  by_cases h : c
  · rw [if_pos h, if_pos (hc.mpr h)]
    exact ht h
  · rwa [if_neg h, if_neg (mt hc.mp h)]

theorem SeenAlike.imp {W W' : Wait → Wait → Prop} {x' x : Playback × Verdict}
    (h : SeenAlike N D W x' x) (hW : ∀ {w' w}, W w' w → W' w' w) : SeenAlike N D W' x' x := by
  obtain ⟨halike, hverdict⟩ := h
  refine ⟨halike, ?_⟩
  revert hverdict
  generalize x'.2 = verdict'
  generalize x.2 = verdict
  rintro (hw | _ | _)
  · exact .waits (hW hw)
  · exact .ends
  · exact .fails

namespace Alike

theorem withSession (h : p.Alike N D v) {s' s : Session} (hs : s'.Twins M E s) :
    Alike M E { p with session := s' } { v with session := s } :=
  ⟨hs, h.status⟩

theorem update (h : p.Alike N D v) {f' f : Session → Session}
    (hs : (f' p.session).Twins M E (f v.session)) : (p.update f').Alike M E (v.update f) :=
  h.withSession hs

theorem touch (h : p.Alike N D v) {s' s : Session} (hs : s'.Twins M E s) (l' l : List Signal) :
    (p.touch s' l').Alike M E (v.touch s l) :=
  ⟨by rwa [touch_session, touch_session], by rw [touch_status, touch_status, h.status]⟩

theorem arm (h : p.Alike N D v) : p.arm.Alike N D v.arm := h.update h.session.arm

theorem timer (h : p.Alike N D v) (due : Option Nat) : p.timer due = v.timer due := by
  unfold Playback.timer
  rw [h.session.armed]

/-! ## What a look shows -/

section looks

variable {W : Wait → Wait → Prop}

theorem waits (h : p.Alike N D v) {w' w : Wait} (hw : W w' w) :
    SeenAlike N D W (p, .waits w') (v, .waits w) := ⟨h, .waits hw⟩

theorem ends (h : p.Alike N D v) : SeenAlike N D W (p, .ends true) (v, .ends true) := ⟨h, .ends⟩

theorem fails (h : p.Alike N D v) : SeenAlike N D W (p, .fails) (v, .fails) := ⟨h, .fails⟩

end looks

section tap

variable {park' park : Nat}

theorem moveOn (h : p.Alike N D v) (hpark : (park', park) ∈ N.ids) :
    SeenAlike N D N.SameHold (p.moveOn park') (v.moveOn park) := by
  unfold Playback.moveOn
  rw [unpark_eq_touch, unpark_eq_touch]
  exact (h.touch (h.session.unpark hpark) _ _).ends

theorem dwell (h : p.Alike N D v) (hpark : (park', park) ∈ N.ids) (kind : Dwell) (d : Duration) :
    SeenAlike N D N.SameHold (p.dwell park' kind d) (v.dwell park kind d) := by
  unfold Playback.dwell
  rw [h.session.now, h.timer]
  exact .ite .rfl (fun _ ↦ h.arm.moveOn hpark) (h.arm.waits (.tap hpark kind _))

theorem listen (h : p.Alike N D v) (hpark : (park', park) ∈ N.ids) (start ticks : Nat) :
    SeenAlike N D N.SameHold (p.listen park' start ticks) (v.listen park start ticks) := by
  unfold Playback.listen
  rw [h.session.config, h.timer]
  exact h.arm.waits (.tap hpark .voice _)

theorem beginLingering (h : p.Alike N D v) (hpark : (park', park) ∈ N.ids) (kind : Dwell) :
    SeenAlike N D N.SameHold (p.beginLingering park' kind) (v.beginLingering park kind) := by
  cases kind with
  | fixed d => exact h.dwell hpark _ d
  | voice =>
      unfold Playback.beginLingering
      rw [h.session.config, h.session.now]
      dsimp only
      split
      · exact h.listen hpark _ 1
      · exact h.fails

theorem lookAtTap (h : p.Alike N D v) (hpark : (park', park) ∈ N.ids) (kind : Dwell)
    (auto : Lingering) :
    SeenAlike N D N.SameHold (p.lookAtTap park' kind auto) (v.lookAtTap park kind auto) := by
  have hs := h.session
  unfold Playback.lookAtTap
  rw [hs.goes', hs.goes, hs.isParked hpark, hs.autoPlay, hs.now, hs.config, hs.isSpeaking]
  refine .ite .rfl (absurd · Bool.false_ne_true) ?_
  refine .ite .rfl (fun _ ↦ h.ends) ?_
  refine .ite .rfl (fun _ ↦ h.waits (.tap hpark kind .off)) ?_
  cases auto with
  | off => exact h.beginLingering hpark kind
  | listening start ticks timer =>
      exact .ite .rfl (fun _ ↦ h.waits (.tap hpark kind _))
        (.ite .rfl (fun _ ↦ h.listen hpark start (ticks + 1)) (h.dwell hpark kind _))
  | dwelling timer => exact .ite .rfl (fun _ ↦ h.moveOn hpark) (h.waits (.tap hpark kind _))

end tap

/-! ## Shakes -/

theorem drawOffset (h : p.Alike N D v) (finished : Bool) :
    (p.drawOffset finished).1.Alike N D (v.drawOffset finished).1 ∧
      (p.drawOffset finished).2 = (v.drawOffset finished).2 := by
  unfold Playback.drawOffset
  rw [h.session.config, h.session.draws, h.session.host]
  dsimp only
  split
  · exact ⟨h, rfl⟩
  · exact ⟨⟨h.session.setDraws _, h.status⟩, rfl⟩

theorem lookAtFrame (h : p.Alike N D v) (shake : Shake) {stamp' stamp : Nat}
    (hstamp : (stamp', stamp) ∈ N.ids) (d : Duration) (start ticks : Nat) (timer : Timer) :
    SeenAlike N D N.SameHold (p.lookAtFrame shake stamp' d start ticks timer)
      (v.lookAtFrame shake stamp d start ticks timer) := by
  unfold Playback.lookAtFrame
  rw [h.session.config, h.session.now]
  refine .ite .rfl (fun _ ↦ h.waits (.frame shake hstamp d start ticks timer)) ?_
  dsimp only
  generalize decide (d.nanos ≤ (Duration.ofMillis (v.session.now - start)).nanos) = finished
  refine .ite .rfl (fun _ ↦ h.fails) ?_
  obtain ⟨hdrawn, hoffset⟩ := h.drawOffset finished
  rw [hoffset]
  have hsway := hdrawn.session.stage.sway hdrawn.session.ids hstamp shake finished
    (v.drawOffset finished).2
  have hswayed := hdrawn.update (hdrawn.session.presentIf hsway)
  refine .ite (by rw [hdrawn.session.accepts hsway]) (fun _ ↦ hswayed.ends) ?_
  unfold Playback.waitForFrame
  rw [hswayed.session.config, hswayed.timer]
  exact hswayed.arm.waits (.frame shake hstamp d start (ticks + 1) _)

/-! ## Looks -/

theorem lookHold (h : p.Alike N D v) {w' w : Wait} (hw : N.SameHold w' w) :
    SeenAlike N D N.SameHold (p.look w') (v.look w) := by
  have hs := h.session
  cases hw with
  | tap hpark kind auto => exact h.lookAtTap hpark kind auto
  | sleep timer skips =>
      unfold Playback.look Playback.lookAtSleep
      dsimp only
      rw [hs.goes', hs.goes, hs.now, hs.skips]
      exact .ite .rfl (absurd · Bool.false_ne_true) (.ite .rfl (fun _ ↦ h.ends) (h.waits (.sleep timer skips)))
  | frame shake hstamp d start ticks timer => exact h.lookAtFrame shake hstamp d start ticks timer
  | unlit =>
      unfold Playback.look Playback.lookAtForward
      dsimp only
      rw [hs.slow', hs.slow]
      exact h.waits .unlit

theorem look (h : p.Alike N D v) (hD : D o = none) {w' w : Wait} (hw : N.SameWait o w' w) :
    SeenAlike N D (N.SameWait o) (p.look w') (v.look w) := by
  cases hw with
  | hold hw => exact (h.lookHold hw).imp .hold
  | drained hroom tally guarded =>
      unfold Playback.look Playback.lookAtCount
      dsimp only
      rw [h.session.goes', h.session.goes, h.session.pending hroom hD, Bool.and_false]
      exact .ite .rfl (absurd · Bool.false_ne_true)
        (.ite .rfl (fun _ ↦ h.ends) (h.waits (.drained hroom tally guarded)))

end Alike

end Playback

end Storyline
