import Storyline.Player
import Storyline.Proofs.Playback.Course

/-!
# Commands between turns

What a command does to a playback between turns keeps it in order: starting,
tapping, switching flags, and the end of the session.
-/

namespace Storyline

namespace Session

variable {s : Session}

/-- The signals of the end of a session. -/
def endSignals (s : Session) : List Signal :=
  .cancel :: (s.taps.map (fun t ↦ Signal.tap t.id) ++ Playback.resetSignals (s.scopes.map Scope.id))

theorem cancel_eq : ∃ calls voiceEnd, s.cancel =
    { s.resetScopes with
      cancelled := true, taps := [], calls := calls, voiceEnd := voiceEnd } := by
  have hstop : ∀ (l : List Channel) (s : Session), ∃ calls voiceEnd,
      l.foldl (fun s channel ↦ s.stopSound channel) s =
        { s with calls := calls, voiceEnd := voiceEnd } := by
    intro l
    induction l with
    | nil => exact fun s ↦ ⟨s.calls, s.voiceEnd, rfl⟩
    | cons channel rest ih =>
        intro s
        obtain ⟨calls, voiceEnd, h⟩ := s.stopSound_eq channel
        obtain ⟨calls', voiceEnd', h'⟩ := ih (s.stopSound channel)
        refine ⟨calls', voiceEnd', ?_⟩
        rw [List.foldl_cons, h', h]
  obtain ⟨calls, voiceEnd, h⟩ := hstop Channel.all
    ({ s with cancelled := true, taps := [] } : Session).resetScopes
  exact ⟨calls, voiceEnd, h⟩

theorem carries_cancel : s.Carries s.endSignals s.cancel := by
  obtain ⟨calls, voiceEnd, h⟩ := s.cancel_eq
  rw [h]
  refine .of_agree rfl (Nat.le_refl _) (map_id_resetScopes (s := s) ▸ List.Subset.refl _)
    (fun h ↦ ?_) (fun id h ↦ .inl ?_) (fun id tally h ↦ .inl ?_) (.inr rfl) (.inr rfl) (.inr rfl)
    (.inl (by simp [endSignals]))
  · have hnumbered := numbered_resetScopes h
    exact ⟨hnumbered.nodup, hnumbered.lt⟩
  · obtain ⟨t, ht, hid⟩ := List.any_eq_true.mp h
    have hid : t.id = id := by simpa using hid
    exact List.mem_cons_of_mem _ (List.mem_append_left _ (List.mem_map.mpr ⟨t, ht, by rw [hid]⟩))
  · obtain ⟨sc, hsc, rfl, -⟩ := exists_scope_of_pending h
    exact List.mem_cons_of_mem _ (List.mem_append_right _
      (mem_resetSignals.mpr (List.mem_map_of_mem hsc)))

end Session

namespace Playback

variable {m : Moment} {p : Playback}

theorem shutdown_eq (h : p.session.cancelled = false) :
    p.shutdown = (p.touch p.session.cancel p.session.endSignals).abortOwned := by
  have htaps : ∀ (ids : List Nat) (q : Playback),
      ids.foldl (fun q id ↦ q.raise (.tap id)) q = raiseAll (ids.map Signal.tap) q := by
    intro ids q
    rw [raiseAll, List.foldl_map]
  unfold shutdown
  rw [if_neg (by simp [h])]
  dsimp only
  rw [htaps, foldl_raiseReset, touch, Session.endSignals, raiseAll_cons, raiseAll_append,
    List.map_map]
  rfl

theorem Orderly.abortOwned (h : p.Orderly m none 0) : p.abortOwned.Orderly m none 0 := by
  unfold Playback.abortOwned
  dsimp only
  rw [wakeAll_eq]
  have hids : (p.tasks.map (fun t ↦ { t with aborted := t.aborted || t.owned })).map Task.id =
      p.tasks.map Task.id := by simp
  constructor
  case moment => exact h.moment
  case nodup_ids => simpa only [hids] using h.nodup_ids
  case id_lt =>
    intro t ht
    obtain ⟨old, hold, rfl⟩ := List.mem_map.mp ht
    exact h.id_lt old hold
  case idle => exact h.idle
  case running_mem => simp
  case nodup_queue => exact nodup_enqueue h.nodup_queue _
  case queued =>
    intro id hid
    simp only [hids, mem_enqueue] at hid ⊢
    refine ⟨?_, by simp⟩
    rcases hid with hid | hid
    · exact (h.queued id hid).1
    · obtain ⟨t, ht, rfl⟩ := List.mem_map.mp hid
      exact List.mem_map_of_mem (List.mem_filter.mp ht).1
  case numbered => exact h.numbered
  case resting =>
    intro t ht _ hnot
    obtain ⟨old, hold, rfl⟩ := List.mem_map.mp ht
    simp only [mem_enqueue, not_or] at hnot
    exact h.resting old hold (by simp) hnot.1
  case punctual =>
    intro t ht
    obtain ⟨old, hold, rfl⟩ := List.mem_map.mp ht
    exact h.punctual old hold
  case empty => simp
  case turn_punctual => exact h.turn_punctual
  case visited => exact h.visited
  case unvisited => exact h.unvisited

theorem Orderly.shutdown (h : p.Orderly m none 0) : p.shutdown.Orderly m none 0 := by
  cases hc : p.session.cancelled with
  | true =>
      unfold Playback.shutdown
      rwa [if_pos hc]
  | false =>
      rw [shutdown_eq hc]
      exact (h.stirs (.of_touch Session.carries_cancel)).abortOwned

theorem Orderly.withStatus (h : p.Orderly m none 0) (status : Status) :
    ({ p with status := status } : Playback).Orderly m none 0 :=
  h.stirs ⟨p.session, [], status, rfl, .refl _⟩

theorem Orderly.launch (h : p.Orderly m none 0) (actions : List Action) :
    (Player.launch actions p).Orderly m none 0 :=
  ((h.withStatus .playing).spawn _ _).spawn _ _

end Playback

end Storyline
