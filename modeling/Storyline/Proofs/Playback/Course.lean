import Storyline.Proofs.Playback.Quiet
import Storyline.Proofs.SortBy

/-!
# The course of time

The clock moves only while nothing is ready, and never past a timer.  At the
time of a timer the tasks that wait for it are woken, so a playback stays in
order however time passes.
-/

namespace Storyline

theorem Timer.isDue_eq_false {t : Timer} {now : Nat} (hpast : t.NotPast now)
    (hne : t.due ≠ some now) : t.isDue now = false := by
  refine isDue_eq_false_iff.mpr fun due hdue ↦ ?_
  refine Nat.lt_of_le_of_ne (hpast due hdue) fun he ↦ hne ?_
  rw [hdue, he]

/-- A settled wait stays so until its timer is due. -/
theorem Wait.Settled.later {w : Wait} {s : Session} {now : Nat} (h : w.Settled s)
    (hdue : ∀ t, w.timer? = some t → t.isDue now = false) : w.Settled { s with now := now } := by
  cases w with
  | tap park kind auto =>
      cases auto with
      | off => exact h
      | listening start ticks timer => exact ⟨h.1, h.2.1, h.2.2.1, hdue timer rfl⟩
      | dwelling timer => exact ⟨h.1, h.2.1, h.2.2.1, hdue timer rfl⟩
  | sleep timer skips => exact ⟨h.1, hdue timer rfl, h.2.2⟩
  | drained => exact h
  | cancelled => exact h
  | frame shake stamp d start ticks timer => exact hdue timer rfl
  | forward ticker =>
      rcases ticker with _ | ⟨start, ticks, timer⟩
      · exact h
      · exact ⟨h.1, hdue timer rfl⟩

theorem Wait.Punctual.later {w : Wait} {m : Moment} {now : Nat} (h : w.Punctual m)
    (hpast : ∀ t, w.timer? = some t → t.NotPast now) : w.Punctual { m with now := now } := by
  cases w with
  | tap park kind auto =>
      cases auto with
      | off => trivial
      | listening start ticks timer => exact ⟨hpast timer rfl, h.2⟩
      | dwelling timer => exact hpast timer rfl
  | sleep timer skips => exact hpast timer rfl
  | drained => trivial
  | cancelled => trivial
  | frame shake stamp d start ticks timer => exact ⟨hpast timer rfl, h.2⟩
  | forward ticker =>
      rcases ticker with _ | ⟨start, ticks, timer⟩
      · trivial
      · exact ⟨hpast timer rfl, h.2⟩

theorem Wait.Settled.timer_lt {w : Wait} {s : Session} {t : Timer} {due : Nat} (h : w.Settled s)
    (ht : w.timer? = some t) (hdue : t.due = some due) : s.now < due := by
  have hnot : t.isDue s.now = false := by
    unfold Wait.timer? at ht
    split at ht <;> cases ht
    · exact h.2.2.2
    · exact h.2.2.2
    · exact h.2.1
    · exact h
    · exact h.2
  exact Timer.isDue_eq_false_iff.mp hnot due hdue

namespace Playback

variable {m : Moment} {p : Playback}

/-- The clock moves to a time before which no timer is due, and at which all
those are woken whose timers are due. -/
theorem Orderly.moved {time : Nat} {ids : List Nat} (h : p.Orderly m none 0)
    (hpast : ∀ t ∈ p.tasks, ∀ q ∈ t.pauses, ∀ timer, q.wait.timer? = some timer →
      timer.NotPast time)
    (hids : ∀ id ∈ ids, id ∈ p.tasks.map Task.id)
    (hwoken : ∀ t ∈ p.tasks, ∀ q ∈ t.pauses, ∀ timer, q.wait.timer? = some timer →
      timer.due = some time → t.id ∈ ids) :
    ((p.update (fun s ↦ { s with now := time })).wakeAll ids).Orderly
      { m with now := time } none 0 := by
  rw [wakeAll_eq]
  have hturn : (p.update (fun s ↦ { s with now := time })).turn = .none := h.idle rfl
  constructor
  case moment =>
    rw [← h.moment]
    rfl
  case nodup_ids => exact h.nodup_ids
  case id_lt => exact h.id_lt
  case idle => exact h.idle
  case running_mem => exact h.running_mem
  case nodup_queue => exact nodup_enqueue h.nodup_queue ids
  case queued =>
    intro id hid
    simp only [mem_enqueue] at hid
    refine ⟨?_, by simp⟩
    rcases hid with hid | hid
    · exact (h.queued id hid).1
    · exact hids id hid
  case numbered => exact ⟨h.numbered.nodup, h.numbered.lt⟩
  case resting =>
    intro t ht _ hnot
    simp only [mem_enqueue, not_or] at hnot
    obtain ⟨hne, hs⟩ := h.resting t ht (by simp) hnot.1
    refine ⟨hne, fun q hqmem ↦ (hs q hqmem).later fun timer htimer ↦ ?_⟩
    refine Timer.isDue_eq_false (hpast t ht q hqmem timer htimer) fun hdue ↦ hnot.2 ?_
    exact hwoken t ht q hqmem timer htimer hdue
  case punctual =>
    intro t ht q hqmem
    exact (h.punctual t ht q hqmem).later (hpast t ht q hqmem)
  case empty => simp
  case turn_punctual => simp [hturn, Turn.none]
  case visited => simp [hturn, Turn.none]
  case unvisited => simp

theorem mem_timers {timer : Timer} {id : Nat} :
    (timer, id) ∈ p.timers ↔
      ∃ t ∈ p.tasks, t.id = id ∧ ∃ q ∈ t.pauses, q.wait.timer? = some timer := by
  simp only [timers, List.mem_flatMap, List.mem_filterMap, Option.map_eq_some_iff, Prod.mk.injEq]
  constructor
  · rintro ⟨t, ht, q, hq, timer, htimer, rfl, rfl⟩
    exact ⟨t, ht, rfl, q, hq, htimer⟩
  · rintro ⟨t, ht, rfl, q, hq, htimer⟩
    exact ⟨t, ht, q, hq, timer, htimer, rfl, rfl⟩

/-- While nothing is ready, every timer that will be due is due at the next time
or later. -/
theorem nextDue_le (h : p.Orderly m none 0) (hq : p.queue = []) {t : Task} (ht : t ∈ p.tasks)
    {q : Pause} (hmem : q ∈ t.pauses) {timer : Timer} (htimer : q.wait.timer? = some timer)
    {due : Nat} (hdue : timer.due = some due) :
    ∃ next, p.nextDue = some next ∧ next ≤ due := by
  have hsettled := (h.resting t ht (by simp) (by simp [hq])).2 q hmem
  have hlt := hsettled.timer_lt htimer hdue
  have hin : due ∈ p.timers.filterMap
      (fun t ↦ t.1.due.filter (fun due ↦ p.session.now < due)) := by
    refine List.mem_filterMap.mpr ⟨(timer, t.id), mem_timers.mpr ⟨t, ht, rfl, q, hmem, htimer⟩, ?_⟩
    simp [hdue, hlt]
  unfold nextDue
  cases hmin : (p.timers.filterMap
      (fun t ↦ t.1.due.filter (fun due ↦ p.session.now < due))).min? with
  | none =>
      rw [List.min?_eq_none_iff] at hmin
      simp [hmin] at hin
  | some next => exact ⟨next, rfl, (List.min?_eq_some_iff.mp hmin).2 due hin⟩

theorem lt_nextDue {next : Nat} (h : p.nextDue = some next) : p.session.now < next := by
  have hmem := (List.min?_eq_some_iff.mp h).1
  obtain ⟨t, -, ht⟩ := List.mem_filterMap.mp hmem
  simpa using (Option.filter_eq_some_iff.mp ht).2

theorem Orderly.moveTo (h : p.Orderly m none 0) (hq : p.queue = []) {next : Nat}
    (hnext : p.nextDue = some next) : (p.moveTo next).Orderly { m with now := next } none 0 := by
  refine h.moved ?_ ?_ ?_
  · intro t ht q hmem timer htimer due hdue
    obtain ⟨next', he, hle⟩ := nextDue_le h hq ht hmem htimer hdue
    rw [hnext] at he
    exact Option.some.inj he ▸ hle
  · intro id hid
    obtain ⟨⟨timer, id'⟩, hin, rfl⟩ := List.mem_map.mp hid
    rw [mem_sortBy, List.mem_filter] at hin
    obtain ⟨t, ht, he, -⟩ := mem_timers.mp hin.1
    exact List.mem_map.mpr ⟨t, ht, he⟩
  · intro t ht q hmem timer htimer hdue
    refine List.mem_map.mpr ⟨(timer, t.id), ?_, rfl⟩
    rw [mem_sortBy, List.mem_filter]
    exact ⟨mem_timers.mpr ⟨t, ht, rfl, q, hmem, htimer⟩, by simp [hdue]⟩

/-- The clock may move on to any time before the next timer. -/
theorem Orderly.rest (h : p.Orderly m none 0) (hq : p.queue = []) {time : Nat}
    (hnext : ∀ next, p.nextDue = some next → time < next) :
    (p.update (fun s ↦ { s with now := time })).Orderly { m with now := time } none 0 := by
  have hlt : ∀ t ∈ p.tasks, ∀ q ∈ t.pauses, ∀ timer, q.wait.timer? = some timer →
      ∀ due, timer.due = some due → time < due := by
    intro t ht q hmem timer htimer due hdue
    obtain ⟨next, he, hle⟩ := nextDue_le h hq ht hmem htimer hdue
    exact Nat.lt_of_lt_of_le (hnext next he) hle
  suffices hmoved : ((p.update (fun s ↦ { s with now := time })).wakeAll []).Orderly
      { m with now := time } none 0 from hmoved
  refine h.moved ?_ (by simp) ?_
  · exact fun t ht q hmem timer htimer due hdue ↦ Nat.le_of_lt (hlt t ht q hmem timer htimer due hdue)
  · intro t ht q hmem timer htimer hdue
    exact absurd (hlt t ht q hmem timer htimer time hdue) (Nat.lt_irrefl _)

end Playback

end Storyline
