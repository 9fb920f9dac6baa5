import Storyline.Proofs.Wrapping.Matching

/-!
# Commands to a story with wrapped actions

Between turns a command does the same to both playbacks.  A stop ends both; from then
on they are only compared by what they show.
-/

namespace Storyline

/-- Two sessions that show and sound the same. -/
structure Session.Echoes (ids : List (Nat × Nat)) (s v : Session) : Prop where
  host : s.host = v.host
  now : s.now = v.now
  stage : Stage.Same ids s.stage v.stage
  backlog : s.backlog = v.backlog
  autoPlay : s.autoPlay = v.autoPlay
  fastForward : s.fastForward = v.fastForward
  calls : s.calls = v.calls

namespace Session

variable {N : Wrapping} {D : Detours} {ids : List (Nat × Nat)} {s v : Session}

theorem Twins.echoes (h : s.Twins N D v) : s.Echoes N.ids v :=
  { h with fastForward := h.slow'.trans h.slow.symm }

theorem Echoes.cancel (h : s.Echoes ids v) : s.cancel.Echoes ids v.cancel := by
  have hfarewell : s.farewell = v.farewell := by
    unfold farewell
    rw [h.host, h.now]
  rw [cancel_eq_farewell, cancel_eq_farewell]
  exact { h with calls := by rw [h.calls, hfarewell] }

end Session

/-- What holds of all in a list, as each of them is related to one in another list. -/
theorem forall₂_left {α β : Type} {R : α → β → Prop} {P : α → Prop} {as : List α} {bs : List β}
    (h : List.Forall₂ R as bs) (hP : ∀ {a b}, R a b → P a) : ∀ a ∈ as, P a := by
  induction h with
  | nil => simp
  | cons hab _ ih => exact List.forall_mem_cons.mpr ⟨hP hab, ih⟩

namespace Playback

open Player (Ended Owning mainTask)

variable {N : Wrapping} {p q v w : Playback}

/-- Two playbacks that show and sound the same. -/
structure Echoes (N : Wrapping) (p v : Playback) : Prop where
  session : p.session.Echoes N.ids v.session
  status : p.status = v.status
  ascending : N.ids.Pairwise fun x y ↦ x.1 < y.1 ∧ x.2 < y.2

theorem matching_agree : Matching Agree Echoes where
  goes := corresponds_agree
  now := fun h ↦ h.session.now
  stays := fun h hq hw hnow ↦
    { h with
      session := by
        rw [hq.session, hw.session]
        exact { h.session with now := hnow }
      status := by rw [hq.status, hw.status, h.status] }

namespace Agree

variable (h : Agree N p v)

include h

theorem echoes : Echoes N p v := by
  obtain ⟨D, ht⟩ := h.twins
  exact ⟨ht.session.echoes, ht.status, ht.session.ids.ascending⟩

theorem running : p.session.cancelled = false ∧ v.session.cancelled = false := by
  obtain ⟨D, ht⟩ := h.twins
  exact ⟨ht.session.goes', ht.session.goes⟩

/-! ## While the playbacks go on -/

theorem stirs (hp : p.Stirs q) (hv : v.Stirs w)
    (halike : ∀ D, p.Twins N D none v → q.Alike N D w) : Agree N q w := by
  obtain ⟨⟨D, ht⟩, hroot⟩ := h
  exact ⟨⟨D, ht.stirs hp hv le_rfl (halike D ht)⟩, hroot⟩

theorem tap : Agree N p.tap v.tap :=
  h.stirs p.stirs_tap v.stirs_tap fun _ ht ↦ by
    rw [tap_eq_touch, tap_eq_touch]
    exact ht.touch ht.session.takeTap _ _

theorem tapped : p.tapped = v.tapped := by
  obtain ⟨⟨D, ht⟩, -⟩ := h
  exact ht.session.nextTap

theorem setAutoPlay (on : Bool) : Agree N (p.setAutoPlay on) (v.setAutoPlay on) :=
  h.stirs (p.stirs_setAutoPlay on) (v.stirs_setAutoPlay on) fun _ ht ↦ by
    rw [setAutoPlay_eq_touch, setAutoPlay_eq_touch]
    exact ht.touch (ht.session.setAutoPlay on) _ _

theorem setSlow : Agree N (p.setFastForward false) (v.setFastForward false) :=
  h.stirs (p.stirs_setFastForward _) (v.stirs_setFastForward _) fun _ ht ↦ by
    rw [setFastForward_eq_touch, setFastForward_eq_touch]
    exact ht.touch ht.session.setSlow _ _

theorem cacheVoice (path : String) (content : Bytes) :
    Agree N (p.update fun s ↦ { s with voices := s.voices.insert path content })
      (v.update fun s ↦ { s with voices := s.voices.insert path content }) :=
  h.stirs (.of_update (Session.carries_voices _)) (.of_update (Session.carries_voices _)) fun _ ht ↦
    ht.update (ht.session.cacheVoice path content)

/-- Both stories are started: the task of the main timeline is the second one. -/
theorem launch {actions' actions : List Action} (hwraps : Action.WrapsAll true actions' actions)
    (hspawned : p.spawned = 0) :
    Agree N (Player.launch actions' p) (Player.launch actions v) := by
  obtain ⟨⟨D, ht⟩, hroot⟩ := h
  have hplaying : Twins N D none { p with status := .playing } { v with status := .playing } :=
    { ht with status := rfl }
  have hticker := hplaying.spawn
    (.works (.plain (ht.fresh _ (Nat.le_refl _)) (.cons .fastForward .nil) .nil)) none none
  have hmain : (spawn none [.fastForward] { p with status := .playing }).spawned = mainTask := by
    unfold Playback.spawn
    rw [if_neg (by simp [ht.session.goes'])]
    exact congrArg (· + 1) hspawned
  have htimeline : List.Forall₂ (N.SameErrand mainTask) (Player.timeline actions') (Player.timeline actions) :=
    List.rel_append (InStep.walk hwraps hroot true)
      (.cons (.drain hroot .actions true .completed) .nil)
  refine ⟨⟨D, hticker.spawn (.works ?_) (some Player.root) (some Player.root)⟩, hroot⟩
  rw [hmain]
  exact .plain (hticker.fresh _ (Nat.le_of_eq hmain)) htimeline .nil

/-! ## The end -/

theorem owning : Owning p ∧ Owning v := by
  obtain ⟨⟨D, ht⟩, -⟩ := h
  refine ⟨⟨forall₂_left ht.tasks fun hsame ↦ hsame.owned', fun hc ↦ ?_⟩,
    ⟨forall₂_left ht.tasks.flip fun hsame ↦ hsame.owned, fun hc ↦ ?_⟩⟩
  · rw [ht.session.goes'] at hc
    cases hc
  · rw [ht.session.goes] at hc
    cases hc

theorem stopped : Echoes N (Player.stopped p) (Player.stopped v) := by
  obtain ⟨⟨D, ht⟩, -⟩ := h
  refine ⟨?_, ?_, ht.session.ids.ascending⟩
  · rw [Player.stopped_session ht.session.goes', Player.stopped_session ht.session.goes]
    exact ht.session.echoes.cancel
  · rw [Player.stopped_status, Player.stopped_status, ht.status]

end Agree

theorem KeepsPace.echoes (h : KeepsPace Agree Echoes N p v) : Echoes N p v := by
  cases h with
  | goes h => exact h.related.echoes
  | ended h => exact h

/-- What has ended is ended already. -/
theorem stopped_of_ended (h : Ended p) : Player.stopped p = p := by
  unfold Player.stopped
  rw [shutdown_closed h.closed]
  dsimp only
  rw [if_pos h.final]

end Playback

end Storyline
