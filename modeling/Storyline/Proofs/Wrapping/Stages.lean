import Storyline.Proofs.Forks.Naming
import Storyline.Proofs.Playback.Veils

/-!
# The stage of a story with wrapped actions

The two stages show the same, and the stamps of their covers and shakes stand for each
other.  Stamps are compared and found equal in the same way in both, so every change
of the stage keeps them the same or is refused by both.
-/

namespace Storyline

namespace Stage

variable (s : Stage)

theorem shake_setCover (c : Cover) (state : CoverState) (k : Shake) :
    (s.setCover c state).shake k = s.shake k := by
  cases c <;> rfl

theorem shake_setShake (k l : Shake) (state : ShakeState) :
    (s.setShake k state).shake l = if l = k then state else s.shake l := by
  cases k <;> cases l <;> rfl

/-- All but the covers and the shakes. -/
def props (s : Stage) : Option Nat × List (Option String) × List Layout × Option Line × Option String :=
  (s.step, [s.background, s.bgm, s.se], s.layouts, s.talk, s.telop)

theorem props_setCover (c : Cover) (state : CoverState) : (s.setCover c state).props = s.props := by
  cases c <;> rfl

theorem props_setShake (k : Shake) (state : ShakeState) : (s.setShake k state).props = s.props := by
  cases k <;> rfl

structure SameCover (ids : List (Nat × Nat)) (c' c : CoverState) : Prop where
  visible : c'.visible = c.visible
  transition : c'.transition = c.transition
  stamp : (c'.stamp, c.stamp) ∈ ids

structure SameShake (ids : List (Nat × Nat)) (k' k : ShakeState) : Prop where
  duration : k'.duration = k.duration
  offset : k'.offset = k.offset
  stamp : (k'.stamp, k.stamp) ∈ ids

/-- Two stages that show the same. -/
structure Same (ids : List (Nat × Nat)) (s' s : Stage) : Prop where
  props : s'.props = s.props
  cover : ∀ c, SameCover ids (s'.cover c) (s.cover c)
  shake : ∀ k, SameShake ids (s'.shake k) (s.shake k)

namespace Same

variable {ids ids' : List (Nat × Nat)} {s' s : Stage}

theorem mono (h : Same ids s' s) (hle : ids ⊆ ids') : Same ids' s' s where
  props := h.props
  cover := fun c ↦ { h.cover c with stamp := hle (h.cover c).stamp }
  shake := fun k ↦ { h.shake k with stamp := hle (h.shake k).stamp }

theorem step (h : Same ids s' s) : s'.step = s.step := congrArg Prod.fst h.props

theorem scenery (h : Same ids s' s) : [s'.background, s'.bgm, s'.se] = [s.background, s.bgm, s.se] :=
  congrArg (·.2.1) h.props

theorem layouts (h : Same ids s' s) : s'.layouts = s.layouts := congrArg (·.2.2.1) h.props

theorem talk (h : Same ids s' s) : s'.talk = s.talk := congrArg (·.2.2.2.1) h.props

theorem telop (h : Same ids s' s) : s'.telop = s.telop := congrArg (·.2.2.2.2) h.props

theorem setStep (h : Same ids s' s) (n : Nat) : Same ids (s'.setStep n) (s.setStep n) :=
  { h with props := congrArg (fun x ↦ (some n, x.2)) h.props }

theorem setTalk (h : Same ids s' s) (line : Line) : Same ids (s'.setTalk line) (s.setTalk line) :=
  { h with props := congrArg (fun x ↦ (x.1, x.2.1, x.2.2.1, some line, x.2.2.2.2)) h.props }

theorem setTelop (h : Same ids s' s) (text : Option String) :
    Same ids { s' with telop := text } { s with telop := text } :=
  { h with props := congrArg (fun x ↦ (x.1, x.2.1, x.2.2.1, x.2.2.2.1, text)) h.props }

theorem setLayouts (h : Same ids s' s) (layouts : List Layout) :
    Same ids { s' with layouts := layouts } { s with layouts := layouts } :=
  { h with props := congrArg (fun x ↦ (x.1, x.2.1, layouts, x.2.2.2)) h.props }

theorem setScenery (h : Same ids s' s) (path : String) (scenery : Scenery) :
    Same ids (s'.setScenery path scenery) (s.setScenery path scenery) := by
  obtain ⟨hbackground, hrest⟩ := List.cons.inj h.scenery
  obtain ⟨hbgm, hrest⟩ := List.cons.inj hrest
  have hse := (List.cons.inj hrest).1
  cases scenery with
  | background =>
      refine { h with props := ?_ }
      simp only [Stage.props, Stage.setScenery, h.step, h.layouts, h.talk, h.telop, hbgm, hse]
  | bgm =>
      refine { h with props := ?_ }
      simp only [Stage.props, Stage.setScenery, h.step, h.layouts, h.talk, h.telop, hbackground, hse]
  | se =>
      refine { h with props := ?_ }
      simp only [Stage.props, Stage.setScenery, h.step, h.layouts, h.talk, h.telop, hbackground, hbgm]

theorem clearTelop (h : Same ids s' s) (text : String) :
    Option.Rel (Same ids) (s'.clearTelop text) (s.clearTelop text) := by
  unfold Stage.clearTelop
  rw [h.telop]
  split
  · exact .some (h.setTelop none)
  · exact .none

/-! ## Models -/

theorem modifyLayout (h : Same ids s' s) (c : CharacterId) (f : Layout → Layout) :
    Option.Rel (Same ids) (s'.modifyLayout c f) (s.modifyLayout c f) := by
  unfold Stage.modifyLayout Stage.layout?
  rw [h.layouts]
  split
  · exact .some (h.setLayouts _)
  · exact .none

theorem change (h : Same ids s' s) (change : ModelChange) :
    Option.Rel (Same ids) (change.apply s') (change.apply s) := by
  cases change with
  | «show» c model position =>
      unfold ModelChange.apply Stage.showModel Stage.layout?
      dsimp only
      rw [h.layouts]
      split <;> exact .some (h.setLayouts _)
  | hide c =>
      unfold ModelChange.apply Stage.hideModel
      dsimp only
      rw [h.layouts]
      split
      · exact .none
      · exact .some (h.setLayouts _)
  | move c position => exact h.modifyLayout c _
  | act c motion => exact h.modifyLayout c _
  | express c expression => exact h.modifyLayout c _

/-! ## Covers and shakes -/

theorem setCover (h : Same ids s' s) (c : Cover) {state' state : CoverState}
    (hstate : SameCover ids state' state) : Same ids (s'.setCover c state') (s.setCover c state) where
  props := by rw [Stage.props_setCover, Stage.props_setCover, h.props]
  cover := fun k ↦ by
    rw [Stage.cover_setCover, Stage.cover_setCover]
    split
    · exact hstate
    · exact h.cover k
  shake := fun k ↦ by
    rw [Stage.shake_setCover, Stage.shake_setCover]
    exact h.shake k

theorem setShake (h : Same ids s' s) (k : Shake) {state' state : ShakeState}
    (hstate : SameShake ids state' state) : Same ids (s'.setShake k state') (s.setShake k state) where
  props := by rw [Stage.props_setShake, Stage.props_setShake, h.props]
  cover := fun c ↦ by
    rw [Stage.cover_setShake, Stage.cover_setShake]
    exact h.cover c
  shake := fun l ↦ by
    rw [Stage.shake_setShake, Stage.shake_setShake]
    split
    · exact hstate
    · exact h.shake l

section stamps

variable {stamp' stamp m n : Nat}

theorem startCover (h : Same ids s' s) (hstamp : (stamp', stamp) ∈ ids) (c : Cover)
    (visible : Bool) (d : Duration) :
    Same ids (s'.startCover c visible d stamp') (s.startCover c visible d stamp) := by
  refine h.setCover c ⟨rfl, rfl, ?_⟩
  cases visible with
  | true => exact hstamp
  | false => exact (h.cover c).stamp

theorem startShake (h : Same ids s' s) (hstamp : (stamp', stamp) ∈ ids) (k : Shake)
    (d : Duration) : Same ids (s'.startShake k d stamp') (s.startShake k d stamp) :=
  h.setShake k ⟨rfl, (h.shake k).offset, hstamp⟩

/-- Which of two covers has been shown later is the same in both. -/
theorem coverShown (h : Same ids s' s) (hids : Naming.Paired ids m n)
    (hstamp : (stamp', stamp) ∈ ids) (c : Cover) :
    Option.Rel (Same ids) (s'.coverShown c stamp') (s.coverShown c stamp) := by
  have hother := h.cover c.other
  have hearlier : decide ((s'.cover c.other).stamp < stamp') =
      decide ((s.cover c.other).stamp < stamp) :=
    decide_eq_decide.mpr (hids.lt_iff hother.stamp hstamp)
  unfold Stage.coverShown
  dsimp only
  rw [hother.visible, hearlier]
  split
  · exact .some (h.setCover c.other { hother with visible := rfl })
  · exact .none

theorem sway (h : Same ids s' s) (hids : Naming.Paired ids m n)
    (hstamp : (stamp', stamp) ∈ ids) (k : Shake) (finished : Bool) (offset : Binary32 × Binary32) :
    Option.Rel (Same ids) (s'.sway k stamp' finished offset) (s.sway k stamp finished offset) := by
  have htarget := h.shake k
  have hsame := hids.eq_iff htarget.stamp hstamp
  unfold Stage.sway
  dsimp only
  by_cases hown : (s.shake k).stamp = stamp
  · rw [if_pos hown, if_pos (hsame.mpr hown)]
    exact .some (h.setShake k ⟨by rw [htarget.duration], rfl, htarget.stamp⟩)
  · rw [if_neg hown, if_neg (mt hsame.mp hown)]
    exact .none

end stamps

end Same

end Stage

end Storyline
