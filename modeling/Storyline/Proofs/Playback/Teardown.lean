import Storyline.Proofs.Playback.Settings
import Storyline.Proofs.Playback.Yielding

/-!
# After the end of a session

When a session has ended nothing is parked and nothing counts.  A task that gives
way has one more turn then, in which it changes nothing but the number of timers
that have been set.
-/

namespace Storyline

namespace Session

variable {s : Session}

/-- A session that has ended and holds nothing back. -/
structure Closed (s : Session) : Prop where
  cancelled : s.cancelled = true
  taps : s.taps = []
  counts : ∀ sc ∈ s.scopes, ∀ tally, (sc.counter tally).pending = 0

/-- The calls of the sound player at the end of a session. -/
def farewell (s : Session) : List (Nat × AudioCall) :=
  if s.host.audible then Channel.all.map (fun c ↦ (s.now, .stop c)) else []

/-- All that the end of a session does to it. -/
theorem cancel_eq_farewell : s.cancel =
    { s.resetScopes with
      cancelled := true, taps := [], calls := s.calls ++ s.farewell, voiceEnd := some 0 } := by
  cases h : s.host.audible <;>
    simp [cancel, farewell, Channel.all, stopSound, call, resetScopes, h]

theorem closed_cancel (s : Session) : s.cancel.Closed := by
  rw [cancel_eq_farewell]
  refine ⟨rfl, rfl, fun sc hsc tally ↦ ?_⟩
  obtain ⟨old, -, rfl⟩ := List.mem_map.mp hsc
  cases tally <;> rfl

namespace Closed

theorem pending (h : s.Closed) (id : Nat) (tally : Tally) : s.pending id tally = 0 := by
  unfold Session.pending
  split
  next sc hsc => exact h.counts sc (List.mem_of_find?_eq_some hsc) tally
  next => rfl

theorem takeTap (h : s.Closed) : s.takeTap = s := by
  have hstack : (s.taps.reverse.dropWhile (fun t ↦ !t.live)).tail.reverse = s.taps := by
    simp [h.taps]
  unfold Session.takeTap
  rw [hstack]

theorem nextTap (h : s.Closed) : s.nextTap = none := by simp [Session.nextTap, h.taps]

/-- No ticket counts any more. -/
theorem counts_eq_false (h : s.Closed) {sc : Scope} (hsc : sc ∈ s.scopes) (tally : Tally)
    (epoch : Nat) : (sc.counter tally).counts epoch = false := by
  simp [Counter.counts, h.counts sc hsc tally]

end Closed

end Session

namespace Playback

variable {p q : Playback}

/-! ## The end itself -/

theorem shutdown_session (hc : p.session.cancelled = false) : p.shutdown.session = p.session.cancel := by
  rw [shutdown_eq hc, abortOwned, wakeAll_eq]
  exact touch_session

theorem shutdown_status (p : Playback) : p.shutdown.status = p.status := by
  cases hc : p.session.cancelled with
  | true => rw [shutdown, if_pos hc]
  | false =>
      rw [shutdown_eq hc, abortOwned, wakeAll_eq]
      exact touch_status

theorem shutdown_outcomes (p : Playback) : p.shutdown.outcomes = p.outcomes := by
  cases hc : p.session.cancelled with
  | true => rw [shutdown, if_pos hc]
  | false =>
      rw [shutdown_eq hc, abortOwned, wakeAll_eq]
      exact touch_outcomes

theorem shutdown_dispatches (p : Playback) : p.shutdown.dispatches = p.dispatches := by
  cases hc : p.session.cancelled with
  | true => rw [shutdown, if_pos hc]
  | false =>
      rw [shutdown_eq hc, abortOwned, wakeAll_eq]
      exact touch_dispatches

/-- The end of a session aborts the tasks that it owns. -/
theorem shutdown_tasks (hc : p.session.cancelled = false) :
    p.shutdown.tasks = p.tasks.map (fun t ↦ { t with aborted := t.aborted || t.owned }) := by
  rw [shutdown_eq hc, abortOwned, wakeAll_eq]
  simp only [touch_tasks]

/-! ## Nothing is done any more -/

theorem tap_closed (h : p.session.Closed) : p.tap = p := by
  have hgone : goneTaps p.session = [] := by simp [goneTaps, h.taps]
  rw [tap_eq_touch, hgone, h.takeTap]
  rfl

theorem release_closed (h : p.session.Closed) (t : Ticket) : p.release t = p := by
  have hcount : ∀ tally epoch, p.releaseCount t.scope tally epoch = p := by
    intro tally epoch
    unfold releaseCount
    split
    · rfl
    next sc hsc =>
      rw [if_neg]
      simp [h.counts_eq_false (List.mem_of_find?_eq_some hsc) tally epoch]
  unfold Playback.release
  cases t.tapEpoch <;> simp only [hcount]

theorem shutdown_closed (h : p.session.Closed) : p.shutdown = p := by
  unfold Playback.shutdown
  rw [if_pos h.cancelled]

/-- A pause that gives way is over, and leads to nothing. -/
theorem look_closed (h : p.session.Closed) {pause : Pause} (hy : pause.Yields) :
    ∃ ran, p.look pause.wait = (p, .ends ran) ∧ (ran = true → pause.ending = .nothing) := by
  obtain ⟨wait, ending, scopes⟩ := pause
  cases wait with
  | tap park kind auto => exact ⟨false, by simp [Playback.look, lookAtTap, h.cancelled], by simp⟩
  | sleep timer skips => exact ⟨false, by simp [Playback.look, lookAtSleep, h.cancelled], by simp⟩
  | drained scope tally guarded =>
      cases guarded with
      | true => exact ⟨false, by simp [Playback.look, lookAtCount, h.cancelled], by simp⟩
      | false => exact ⟨true, by simp [Playback.look, lookAtCount, h.pending scope tally], fun _ ↦ hy⟩
  | cancelled => exact ⟨true, by simp [Playback.look, h.cancelled], fun _ ↦ hy⟩
  | frame | forward => exact hy.elim

theorem suspend_closed (h : p.session.Closed) {wait : Wait} {ending : Ending} {scopes : List Nat}
    (hy : Pause.Yields ⟨wait, ending, scopes⟩) : p.suspend wait ending scopes = p := by
  obtain ⟨ran, hlook, hran⟩ := look_closed h hy
  unfold Playback.suspend
  simp only [hlook]
  split
  next hr =>
    obtain rfl : ending = .nothing := hran hr
    rfl
  next => rfl

theorem revisit_closed (h : p.session.Closed) {pause : Pause} (hy : pause.Yields)
    (hf : p.turn.failed = false) :
    p.revisit pause = p.updateTurn (fun t ↦ { t with pauses := t.pauses.tail }) := by
  unfold Playback.revisit
  rw [if_neg (by simp [hf])]
  exact suspend_closed (p := p.updateTurn (fun t ↦ { t with pauses := t.pauses.tail })) h hy

theorem revisitAll_closed {pauses : List Pause} (h : p.session.Closed)
    (hy : ∀ x ∈ pauses, x.Yields) (hf : p.turn.failed = false) (hp : p.turn.pauses = pauses) :
    pauses.foldl (fun p pause ↦ p.revisit pause) p =
      p.updateTurn (fun t ↦ { t with pauses := [] }) := by
  induction pauses generalizing p with
  | nil =>
      rw [List.foldl_nil, updateTurn, ← hp]
  | cons pause rest ih =>
      rw [List.foldl_cons, revisit_closed h (hy pause (by simp)) hf]
      exact ih (p := p.updateTurn (fun t ↦ { t with pauses := t.pauses.tail })) h
        (fun x hx ↦ hy x (by simp [hx])) hf (by simp [updateTurn, hp])

/-- The session after some more timers have been set. -/
def armed (n : Nat) (p : Playback) : Playback := p.update (fun s ↦ { s with armed := n })

theorem armed_closed (h : p.session.Closed) (n : Nat) : (p.armed n).session.Closed :=
  ⟨h.cancelled, h.taps, h.counts⟩

theorem begin_closed (h : p.session.Closed) {errand : Errand} (hy : errand.Yields) :
    ∃ n, p.begin errand = p.armed n := by
  have hover : p.isOver = true := by simp [isOver, h.cancelled]
  cases errand with
  | perform action scope step =>
      refine ⟨p.session.armed, ?_⟩
      cases action <;> simp [Playback.begin, perform, note, performCue, hover, armed, update]
  | sleep d ending scopes =>
      exact ⟨p.session.armed + 1, suspend_closed (p := p.arm) (armed_closed h _) trivial⟩
  | drain scope tally guarded ending =>
      refine ⟨p.session.armed, suspend_closed h ?_⟩
      cases guarded <;> exact hy
  | awaitEnd => exact ⟨p.session.armed, suspend_closed h rfl⟩
  | animate | fastForward => exact hy.elim

theorem proceed_closed {agenda : List Errand} (h : p.session.Closed) (hy : ∀ e ∈ agenda, e.Yields)
    (hfree : p.turn.isFree = true) (ha : p.turn.agenda = agenda) :
    ∃ n, Playback.proceed agenda p = (p.armed n).updateTurn (fun t ↦ { t with agenda := [] }) := by
  induction agenda generalizing p with
  | nil =>
      refine ⟨p.session.armed, ?_⟩
      simp only [Playback.proceed, armed, update, updateTurn, ← ha]
  | cons errand rest ih =>
      simp only [Playback.proceed, hfree, if_true]
      obtain ⟨n, hn⟩ := begin_closed (p := p.updateTurn (fun t ↦ { t with agenda := rest })) h
        (hy errand (by simp))
      rw [hn]
      obtain ⟨n', hn'⟩ := ih
        (p := (p.updateTurn (fun t ↦ { t with agenda := rest })).armed n) (armed_closed h n)
        (fun e he ↦ hy e (by simp [he])) hfree rfl
      exact ⟨n', hn'⟩

/-- Changing an entry that is taken out makes no difference. -/
theorem removeTask_modifyTask (id : Nat) (f : Task → Task) (hf : ∀ t, (f t).id = t.id) :
    ((p.modifyTask id f).removeTask id).tasks = (p.removeTask id).tasks := by
  simp only [removeTask, modifyTask]
  induction p.tasks with
  | nil => rfl
  | cons t rest ih =>
      by_cases he : t.id = id
      · simpa [he, hf] using ih
      · simpa [he] using ih

/-- The last turn of a task that gives way. -/
theorem takeTurn_closed {task : Task} (h : p.session.Closed) (hidle : p.turn = .none)
    (hp : ∀ x ∈ task.pauses, x.Yields) (ha : ∀ e ∈ task.agenda, e.Yields) :
    ∃ n, p.takeTurn task = (p.armed n).endTask task (p.outcomeOf task.asks) := by
  have hrevisited := revisitAll_closed (p := p.begun task) h hp rfl rfl
  obtain ⟨n, hn⟩ := proceed_closed
    (p := (p.begun task).updateTurn (fun t ↦ { t with pauses := [] })) h ha rfl rfl
  refine ⟨n, ?_⟩
  rw [takeTurn_eq, worked, hrevisited, hn]
  have hremoved := p.removeTask_modifyTask task.id (fun t ↦ { t with agenda := [], pauses := [] })
    fun _ ↦ rfl
  have hended : endTurn task ((((p.begun task).updateTurn (fun t ↦ { t with pauses := [] })).armed
      n).updateTurn (fun t ↦ { t with agenda := [] })) =
      { (p.armed n).endTask task (p.outcomeOf task.asks) with
        tasks := ((p.modifyTask task.id
          (fun t ↦ { t with agenda := [], pauses := [] })).removeTask task.id).tasks
        turn := .none } := rfl
  rw [hended, hremoved, ← hidle]
  rfl

end Playback

end Storyline
