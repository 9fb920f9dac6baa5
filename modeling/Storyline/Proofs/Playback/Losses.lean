import Storyline.Proofs.Playback.Ledger

/-!
# What is lost with a task

A task that fails takes down the tickets that it holds.  They are not released any
more; the books are kept all the same, with the lost tickets among those in hand.
-/

namespace Storyline

theorem Session.abandon_ids (s : Session) (id : Nat) :
    (s.abandon id).taps.map Parked.id = s.taps.map Parked.id := by
  rw [abandon, List.map_map]
  refine List.map_congr_left fun t _ ↦ ?_
  by_cases he : t.id = id <;> simp [he]

namespace Session.Books

variable {s : Session} {ts : List Ticket} {parks : List Nat}

/-- A parked action for which nobody waits any more stays on the stack. -/
theorem abandon (h : s.Books ts parks) (id : Nat) : (s.abandon id).Books ts parks where
  running := h.running
  numbered := ⟨h.numbered.nodup, h.numbered.lt⟩
  balanced := h.balanced
  issued := h.issued
  unreset := h.unreset
  parks_nodup := h.parks_nodup
  parks_lt := h.parks_lt
  taps_nodup := (s.abandon_ids id).symm ▸ h.taps_nodup
  taps_subset := (s.abandon_ids id).symm ▸ h.taps_subset

end Session.Books

namespace Playback

namespace Ledger

variable {kind : Kind} {ids : List Nat} {hand : List Ticket} {parking : List Nat} {p : Playback}
  {m : Moment} {task : Task}

theorem abandonAll (pauses : List Pause) (h : p.Ledger kind ids hand parking) :
    (p.abandonAll pauses).Ledger kind ids hand parking := by
  unfold Playback.abandonAll
  generalize pauses.filterMap Pause.park? = parks
  induction parks generalizing p with
  | nil => exact h
  | cons park rest ih =>
      exact ih (h.stirs (.of_update (Session.carries_abandon park)) (h.books.abandon park))

/-- At the end of a failed turn what it held is lost. -/
theorem endTurn_lost (h : p.Ledger kind ids hand parking) (ho : p.Orderly m (some task.id) 0)
    (hf : p.turn.failed = true) :
    ∃ hand' parking', (p.endTurn task).Ledger .timeline ids hand' parking' := by
  have hempty : ∀ t ∈ p.tasks, t.id = task.id → t.pauses = [] ∧ t.agenda = [] :=
    fun t ht he ↦ ho.empty t ht (by rw [he])
  have hnone : (p.updateTurn (fun _ ↦ .none)).Ledger .timeline ids
      (hand ++ (p.turn.pauses.flatMap Pause.tickets ++ p.turn.agenda.flatMap Errand.tickets))
      (parking ++ p.turn.pauses.flatMap Pause.parks) := by
    refine ⟨?_, h.known, by simp [updateTurn, Turn.none], by simp [updateTurn, Turn.none],
      by simp [updateTurn, Turn.none], h.whole, h.tasks⟩
    have hbooks := h.books
    simpa [Playback.tickets, Playback.parks, updateTurn, Turn.none] using hbooks
  have hend : p.endTurn task =
      ((p.updateTurn (fun _ ↦ .none)).endTask task .failed).abandonAll p.turn.pauses := by
    unfold Playback.endTurn
    dsimp only
    rw [if_pos hf]
  exact ⟨_, _, hend ▸ (hnone.endTask .failed rfl hempty).abandonAll p.turn.pauses⟩

/-- Whatever becomes of a turn, the ledger is kept for what is lost. -/
theorem runTask_lost {id : Nat} {rest : List Nat} (h : p.Ledger kind ids hand parking)
    (ho : p.Orderly m none 0) (hq : p.queue = id :: rest) :
    ∃ hand' parking', (Playback.runTask id { p with queue := rest }).Ledger .timeline ids hand' parking' := by
  unfold Playback.runTask
  split
  next hnone =>
    obtain ⟨t, ht, he⟩ := List.mem_map.mp (ho.queued id (by simp [hq])).1
    have := List.find?_eq_none.mp hnone t ht
    simp [he] at this
  next task hsome =>
    obtain ⟨htask, rfl⟩ := Orderly.task?_eq (p := { p with queue := rest }) hsome
    rw [if_neg (by simp [h.whole task htask])]
    obtain ⟨kind', hbegun⟩ := h.beginTurn rest (ho.idle rfl) ho.nodup_ids htask
    obtain ⟨hworked, howorked⟩ := worked_of_begun ho hq htask hbegun
    by_cases hf : (worked task { p with queue := rest }).turn.failed = true
    · rw [takeTurn_eq]
      exact hworked.endTurn_lost howorked hf
    · exact ⟨hand, parking, h.takeTurn_of_begun ho hq htask hbegun fun he ↦ absurd he hf⟩

end Ledger

end Playback

end Storyline
