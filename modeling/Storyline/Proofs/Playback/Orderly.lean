import Storyline.Proofs.Playback.Punctual

/-!
# Orderly playbacks

The tasks and the queue of a playback fit together: every task that is not
queued rests on pauses whose waits are settled, and no timer has been missed.
This holds between turns and, in a form that leaves the running task out, at
every moment of a turn.
-/

namespace Storyline

namespace Playback

/-- A playback is in order while the given task is running, which has yet to
look at the first `n` of its pauses. -/
structure Orderly (m : Moment) (running : Option Nat) (n : Nat) (p : Playback) : Prop where
  moment : p.session.moment = m
  nodup_ids : (p.tasks.map Task.id).Nodup
  id_lt : ∀ t ∈ p.tasks, t.id < p.spawned
  idle : running = none → p.turn = .none
  running_mem : ∀ id, running = some id → id ∈ p.tasks.map Task.id
  nodup_queue : p.queue.Nodup
  queued : ∀ id ∈ p.queue, id ∈ p.tasks.map Task.id ∧ some id ≠ running
  numbered : p.session.Numbered
  resting : ∀ t ∈ p.tasks, some t.id ≠ running → t.id ∉ p.queue →
    t.pauses ≠ [] ∧ ∀ q ∈ t.pauses, q.wait.Settled p.session
  punctual : ∀ t ∈ p.tasks, ∀ q ∈ t.pauses, q.wait.Punctual m
  empty : ∀ t ∈ p.tasks, some t.id = running → t.pauses = [] ∧ t.agenda = []
  turn_punctual : ∀ q ∈ p.turn.pauses, q.wait.Punctual m
  visited : p.turn.failed = true ∨ p.turn.again = true ∨
    ∀ q ∈ p.turn.pauses.drop n, q.wait.Settled p.session
  unvisited : p.turn.failed = true ∨ n ≤ p.turn.pauses.length

namespace Orderly

variable {m : Moment} {running : Option Nat} {id n : Nat} {p q : Playback}

theorem running_lt (h : p.Orderly m (some id) n) : id < p.spawned := by
  obtain ⟨t, ht, rfl⟩ := List.mem_map.mp (h.running_mem id rfl)
  exact h.id_lt t ht

/-! ## Within a turn -/

theorem stirs (h : p.Orderly m running n) (hst : p.Stirs q) : q.Orderly m running n := by
  obtain ⟨s, signals, status, rfl, hc⟩ := hst
  -- a pause that heeds no signal stays settled
  have settled : ∀ pauses : List Pause, (∀ x ∈ pauses, x.wait.Settled p.session) →
      (∀ c ∈ signals, pauses.any (fun x ↦ x.heeds c) = false) →
      ∀ x ∈ pauses, x.wait.Settled s := by
    intro pauses hs hl x hx
    refine hc.settled _ (hs x hx) fun c hmem ↦ ?_
    have := List.any_eq_false.mp (hl c hmem) x hx
    simpa [Pause.heeds] using this
  constructor
  case moment => simpa using hc.moment.trans h.moment
  case nodup_ids => simpa using h.nodup_ids
  case id_lt => simpa using h.id_lt
  case idle =>
    intro hrun
    have hnone := h.idle hrun
    simp only [touch, raiseAll_eq, hnone]
    simp [Turn.none]
  case running_mem => simpa using h.running_mem
  case nodup_queue => simpa [touch_queue] using nodup_enqueue h.nodup_queue _
  case queued =>
    intro id hid
    simp only [touch_queue, mem_enqueue, List.mem_flatMap, List.mem_map, List.mem_filter] at hid
    rcases hid with hid | ⟨c, -, t, ⟨ht, hheeds⟩, rfl⟩
    · simpa using h.queued id hid
    · refine ⟨by simpa using ⟨t, ht, rfl⟩, fun hrun ↦ ?_⟩
      have hnil := (h.empty t ht hrun).1
      simp [Task.heeds, hnil] at hheeds
  case numbered => simpa using hc.numbered h.numbered
  case resting =>
    intro t ht hrun hq
    simp only [touch_tasks] at ht
    simp only [touch_queue, mem_enqueue, not_or] at hq
    obtain ⟨hne, hs⟩ := h.resting t ht hrun hq.1
    refine ⟨hne, ?_⟩
    simp only [touch_session]
    refine settled t.pauses hs fun c hmem ↦ ?_
    refine Bool.eq_false_iff.mpr fun hheeds ↦ hq.2 (List.mem_flatMap.mpr ⟨c, hmem, List.mem_map.mpr ⟨t, ?_, rfl⟩⟩)
    exact List.mem_filter.mpr ⟨ht, by simpa [Task.heeds] using hheeds⟩
  case punctual => simpa using h.punctual
  case empty => simpa using h.empty
  case turn_punctual => simpa using h.turn_punctual
  case visited =>
    simp only [touch_failed, touch_again, touch_pauses, touch_session]
    rcases h.visited with hf | ha | hs
    · exact .inl hf
    · exact .inr (.inl (by simp [ha]))
    · by_cases hl : signals.any (fun c ↦ p.turn.pauses.any (fun x ↦ x.heeds c)) = true
      · exact .inr (.inl (by simp [hl]))
      · refine .inr (.inr (settled _ hs fun c hmem ↦ ?_))
        simp only [List.any_eq_true, not_exists, not_and, Bool.not_eq_true] at hl
        rw [List.any_eq_false]
        intro x hx
        simpa using hl c hmem x (List.mem_of_mem_drop hx)
  case unvisited => simpa using h.unvisited

/-- A turn may leave a settled pause behind, or any pause when it fails. -/
theorem leave {pause : Pause} (h : p.Orderly m (some id) n) (hpunctual : pause.wait.Punctual m)
    (hsettled : pause.wait.Settled p.session) : (p.leave pause).Orderly m (some id) n where
  moment := h.moment
  nodup_ids := h.nodup_ids
  id_lt := h.id_lt
  idle := by simp
  running_mem := h.running_mem
  nodup_queue := h.nodup_queue
  queued := h.queued
  numbered := h.numbered
  resting := h.resting
  punctual := h.punctual
  empty := h.empty
  turn_punctual := by
    intro x hx
    rcases List.mem_append.mp hx with hx | hx
    · exact h.turn_punctual x hx
    · rw [List.mem_singleton.mp hx]
      exact hpunctual
  visited := by
    rcases h.visited with hf | ha | hs
    · exact .inl hf
    · exact .inr (.inl ha)
    · refine .inr (.inr fun x hx ↦ ?_)
      have hx' : x ∈ (p.turn.pauses ++ [pause]).drop n := hx
      rw [List.drop_append] at hx'
      rcases List.mem_append.mp hx' with hx' | hx'
      · exact hs x hx'
      · rw [List.mem_singleton.mp (List.mem_of_mem_drop hx')]
        exact hsettled
  unvisited := by
    refine h.unvisited.imp_right fun hn ↦ ?_
    simp only [Playback.leave, updateTurn, List.length_append]
    omega

theorem fail {pause : Pause} (h : p.Orderly m (some id) n) (hpunctual : pause.wait.Punctual m) :
    ((p.leave pause).updateTurn (fun t ↦ { t with failed := true })).Orderly m (some id) n where
  moment := h.moment
  nodup_ids := h.nodup_ids
  id_lt := h.id_lt
  idle := by simp
  running_mem := h.running_mem
  nodup_queue := h.nodup_queue
  queued := h.queued
  numbered := h.numbered
  resting := h.resting
  punctual := h.punctual
  empty := h.empty
  turn_punctual := by
    intro x hx
    rcases List.mem_append.mp hx with hx | hx
    · exact h.turn_punctual x hx
    · rw [List.mem_singleton.mp hx]
      exact hpunctual
  visited := .inl rfl
  unvisited := .inl rfl

theorem addTask (owned asks : Bool) (scope : Option Nat) (agenda : List Errand)
    (h : p.Orderly m running n) :
    (p.addTask owned asks scope agenda).Orderly m running n where
  moment := h.moment
  nodup_ids := by
    simp only [Playback.addTask, List.map_append, List.nodup_append]
    refine ⟨h.nodup_ids, by simp, ?_⟩
    intro a ha b hb hab
    obtain ⟨t, ht, rfl⟩ := List.mem_map.mp ha
    have hlt := h.id_lt t ht
    have hb : b = p.spawned := by simpa using hb
    omega
  id_lt := by
    intro t ht
    rcases List.mem_append.mp ht with ht | ht
    · exact Nat.lt_succ_of_lt (h.id_lt t ht)
    · rw [List.mem_singleton.mp ht]
      exact Nat.lt_succ_self _
  idle := h.idle
  running_mem := by
    intro id hid
    simp only [Playback.addTask, List.map_append]
    exact List.mem_append_left _ (h.running_mem id hid)
  nodup_queue := by
    refine List.nodup_append.mpr ⟨h.nodup_queue, by simp, ?_⟩
    intro a ha b hb hab
    obtain ⟨t, ht, rfl⟩ := List.mem_map.mp (h.queued a ha).1
    have hlt := h.id_lt t ht
    have hb : b = p.spawned := by simpa using hb
    omega
  queued := by
    intro id hid
    simp only [Playback.addTask, List.map_append, List.mem_append]
    rcases List.mem_append.mp hid with hid | hid
    · exact ⟨.inl (h.queued id hid).1, (h.queued id hid).2⟩
    · rw [List.mem_singleton.mp hid]
      refine ⟨.inr (by simp), fun he ↦ ?_⟩
      subst he
      exact Nat.lt_irrefl _ h.running_lt
  numbered := h.numbered
  resting := by
    intro t ht hne hq
    simp only [Playback.addTask, List.mem_append, not_or] at hq
    rcases List.mem_append.mp ht with ht | ht
    · exact h.resting t ht hne hq.1
    · rw [List.mem_singleton.mp ht] at hq
      simp at hq
  punctual := by
    intro t ht x hx
    rcases List.mem_append.mp ht with ht | ht
    · exact h.punctual t ht x hx
    · rw [List.mem_singleton.mp ht] at hx
      simp at hx
  empty := by
    intro t ht he
    rcases List.mem_append.mp ht with ht | ht
    · exact h.empty t ht he
    · rw [List.mem_singleton.mp ht] at he
      subst he
      exact absurd h.running_lt (Nat.lt_irrefl _)
  turn_punctual := h.turn_punctual
  visited := h.visited
  unvisited := h.unvisited

theorem spawn (scope : Option Nat) (agenda : List Errand) (h : p.Orderly m running n) :
    (p.spawn scope agenda).Orderly m running n := by
  unfold Playback.spawn
  split
  · exact h
  · exact h.addTask _ _ _ _

theorem suspend {wait : Wait} (ending : Ending) (scopes : List Nat) (h : p.Orderly m (some id) n)
    (hw : wait.Punctual m) : (p.suspend wait ending scopes).Orderly m (some id) n := by
  unfold Playback.suspend
  have hst := p.stirs_look wait
  split
  next q w hlook =>
    rw [hlook] at hst
    obtain ⟨hsettled, hpunctual⟩ := look_waits (h.moment ▸ hw) hlook
    exact (h.stirs hst).leave ((h.stirs hst).moment ▸ hpunctual) hsettled
  next q ran hlook =>
    rw [hlook] at hst
    split
    · exact (h.stirs hst).stirs (q.stirs_finish ending)
    · exact h.stirs hst
  next q hlook =>
    rw [hlook] at hst
    exact (h.stirs hst).fail hw

theorem sleep (d : Duration) (ending : Ending) (scopes : List Nat) (h : p.Orderly m (some id) n) :
    (p.sleep d ending scopes).Orderly m (some id) n :=
  (h.stirs p.stirs_arm).suspend ending scopes (h.moment ▸ Timer.notPast_endFrom d _ _)

theorem park (kind : Dwell) (ending : Ending) (scopes : List Nat) (h : p.Orderly m (some id) n) :
    (p.park kind ending scopes).Orderly m (some id) n :=
  (h.stirs p.stirs_park).suspend ending scopes trivial

theorem note (action : Action) (scope : Nat) (step : Option Nat) (h : p.Orderly m (some id) n) :
    (p.note action scope step).Orderly m (some id) n := by
  unfold Playback.note
  split
  · exact h
  · exact { h with }

/-! ## Performing -/

theorem talk (line : Line) (ticket : Ticket) (scopes : List Nat) (h : p.Orderly m (some id) n) :
    (p.talk line ticket scopes).Orderly m (some id) n := by
  unfold Playback.talk
  refine Orderly.park _ _ _ ?_
  exact (h.stirs (p.stirs_tell line)).stirs (stirs_speak _ line)

theorem telop (text : String) (ticket : Ticket) (scopes : List Nat) (h : p.Orderly m (some id) n) :
    (p.telop text ticket scopes).Orderly m (some id) n :=
  Orderly.park _ _ _ (h.stirs (p.stirs_present _))

theorem changeModel (change : ModelChange) (ticket : Ticket) (h : p.Orderly m (some id) n) :
    (p.changeModel change ticket).Orderly m (some id) n :=
  (h.stirs (p.stirs_presentIf _)).spawn _ _

theorem coverScreen (cover : Cover) (visible : Bool) (d : Duration) (ticket : Ticket)
    (scopes : List Nat) (h : p.Orderly m (some id) n) :
    (p.coverScreen cover visible d ticket scopes).Orderly m (some id) n := by
  unfold Playback.coverScreen
  exact (h.stirs (p.stirs_number _)).sleep _ _ _

theorem shakeTarget (shake : Shake) (d : Duration) (ticket : Ticket) (scopes : List Nat)
    (h : p.Orderly m (some id) n) : (p.shakeTarget shake d ticket scopes).Orderly m (some id) n := by
  unfold Playback.shakeTarget
  exact ((h.stirs (p.stirs_number _)).spawn _ _).sleep _ _ _

theorem performCue (cue : Cue) (scope : Nat) (scopes : List Nat) (step : Option Nat)
    (h : p.Orderly m (some id) n) : (p.performCue cue scope scopes step).Orderly m (some id) n := by
  unfold Playback.performCue
  split
  · exact h
  have he := h.stirs ((p.stirs_announce step).trans (stirs_enter _ scope cue.isTapBlocking))
  cases cue with
  | talk line => exact he.talk line _ _
  | telop text => exact he.telop text _ _
  | model change => exact he.changeModel change _
  | tremble axis character => exact he.stirs (stirs_release _ _)
  | cover cover visible seconds => exact he.coverScreen cover visible _ _ _
  | shake shake seconds => exact he.shakeTarget shake _ _ _
  | scenery scenery path => exact he.stirs (stirs_changeScenery _ scenery path _)
  | delay seconds => exact he.sleep _ _ _
  | waitForAll => exact (he.stirs (stirs_release _ _)).suspend _ _ trivial
  | waitForTap => exact (he.stirs (stirs_release _ _)).suspend _ _ trivial

mutual

theorem perform (action : Action) (scope : Nat) (scopes : List Nat) (step : Option Nat)
    {p : Playback} (h : p.Orderly m (some id) n) :
    (Playback.perform action scope scopes step p).Orderly m (some id) n := by
  cases action with
  | cue cue => exact (h.note _ _ _).performCue cue scope scopes step
  | block parts =>
      simp only [Playback.perform]
      split
      · exact h
      · exact (performAll parts _ _ ((h.note _ _ _).stirs (stirs_openWithin _ scope step))).performCue _ _ _ _
  | fork parts =>
      simp only [Playback.perform]
      split
      · exact h
      · exact ((h.note _ _ _).stirs (stirs_openWithin _ scope step)).spawn _ _

theorem performAll (parts : List Action) (scope : Nat) (scopes : List Nat) {p : Playback}
    (h : p.Orderly m (some id) n) : (Playback.performAll parts scope scopes p).Orderly m (some id) n := by
  cases parts with
  | nil => exact h
  | cons part rest => exact performAll rest scope scopes (perform part scope scopes none h)

end

/-! ## Turns -/

theorem setAgenda (agenda : List Errand) (h : p.Orderly m (some id) n) :
    (p.updateTurn (fun t ↦ { t with agenda := agenda })).Orderly m (some id) n :=
  { h with idle := by simp }

theorem begin (errand : Errand) (h : p.Orderly m (some id) n) :
    (p.begin errand).Orderly m (some id) n := by
  cases errand with
  | perform action scope step => exact h.perform action scope [scope] step
  | sleep d ending scopes => exact h.sleep d ending scopes
  | drain scope tally guarded ending => exact h.suspend _ _ trivial
  | awaitEnd => exact h.suspend _ _ trivial
  | animate shake stamp d =>
      refine (h.stirs p.stirs_arm).suspend _ _ ⟨?_, ?_⟩
      · intro due hdue
        obtain rfl := Option.some.inj hdue
        exact Nat.le_of_eq (congrArg Moment.now h.moment).symm
      · intro due hdue tick htick
        obtain rfl := Option.some.inj hdue
        exact Duration.start_lt_tickFrom htick
  | fastForward => exact h.suspend _ _ trivial

theorem proceed (agenda : List Errand) (h : p.Orderly m (some id) n) :
    (Playback.proceed agenda p).Orderly m (some id) n := by
  induction agenda generalizing p with
  | nil => exact h
  | cons errand rest ih =>
      simp only [Playback.proceed]
      split
      · exact ih ((h.setAgenda rest).begin errand)
      · exact h

theorem revisit (pause : Pause) (h : p.Orderly m (some id) (n + 1)) (hw : pause.wait.Punctual m) :
    (p.revisit pause).Orderly m (some id) n := by
  unfold Playback.revisit
  split
  next hf => exact { h with visited := .inl hf, unvisited := .inl hf }
  next hf =>
    have hf : p.turn.failed = false := by simpa using hf
    have hn : n + 1 ≤ p.turn.pauses.length := h.unvisited.resolve_left (by simp [hf])
    refine Orderly.suspend _ _
      { h with idle := by simp, turn_punctual := ?_, visited := ?_, unvisited := ?_ } hw
    · exact fun x hx ↦ h.turn_punctual x (List.mem_of_mem_tail hx)
    · refine h.visited.imp_right (Or.imp_right fun hs x hx ↦ hs x ?_)
      have hx' : x ∈ p.turn.pauses.tail.drop n := hx
      rwa [List.drop_tail] at hx'
    · right
      simp only [updateTurn, List.length_tail]
      omega

theorem revisitAll (pauses : List Pause) (h : p.Orderly m (some id) pauses.length)
    (hw : ∀ x ∈ pauses, x.wait.Punctual m) :
    (pauses.foldl (fun p pause ↦ p.revisit pause) p).Orderly m (some id) 0 := by
  induction pauses generalizing p with
  | nil => exact h
  | cons pause rest ih =>
      exact ih (h.revisit pause (hw pause (by simp))) fun x hx ↦ hw x (by simp [hx])

/-- A running task that ends leaves the others as they are. -/
theorem endTask {task : Task} (outcome : Outcome) (h : p.Orderly m (some task.id) n)
    (hturn : p.turn = .none) : (p.endTask task outcome).Orderly m none 0 where
  moment := h.moment
  nodup_ids := List.Nodup.sublist (List.filter_sublist.map _) h.nodup_ids
  id_lt := fun t ht ↦ h.id_lt t (List.mem_filter.mp ht).1
  idle := fun _ ↦ hturn
  running_mem := by simp
  nodup_queue := h.nodup_queue
  queued := by
    intro id hid
    obtain ⟨hmem, hne⟩ := h.queued id hid
    obtain ⟨t, ht, rfl⟩ := List.mem_map.mp hmem
    have hne : t.id ≠ task.id := fun he ↦ hne (by rw [he])
    exact ⟨List.mem_map.mpr ⟨t, List.mem_filter.mpr ⟨ht, by simpa using hne⟩, rfl⟩, by simp⟩
  numbered := h.numbered
  resting := by
    intro t ht _ hq
    obtain ⟨ht, hne⟩ := List.mem_filter.mp ht
    have hne : t.id ≠ task.id := by simpa using hne
    exact h.resting t ht (by simpa using hne) hq
  punctual := fun t ht ↦ h.punctual t (List.mem_filter.mp ht).1
  empty := by simp
  turn_punctual := by simp [Playback.endTask, removeTask, hturn, Turn.none]
  visited := by simp [Playback.endTask, removeTask, hturn, Turn.none]
  unvisited := by simp [Playback.endTask, removeTask]

/-- A task whose pauses are settled is put back, and so is one that is woken at once. -/
theorem putBack {id : Nat} {agenda : List Errand} {pauses : List Pause}
    (h : p.Orderly m (some id) n) (hturn : p.turn = .none) (hne : pauses ≠ [])
    (hpunctual : ∀ x ∈ pauses, x.wait.Punctual m) (again : Bool)
    (hsettled : again = false → ∀ x ∈ pauses, x.wait.Settled p.session) :
    let q := p.modifyTask id (fun t ↦ { t with agenda := agenda, pauses := pauses })
    (if again then q.wake id else q).Orderly m none 0 := by
  intro q
  have hids : q.tasks.map Task.id = p.tasks.map Task.id := by
    simp only [q, modifyTask, List.map_map]
    refine List.map_congr_left fun t _ ↦ ?_
    simp only [Function.comp]
    split <;> rfl
  have hmem : ∀ t ∈ q.tasks, (t.id = id ∧ t.pauses = pauses) ∨ (t.id ≠ id ∧ t ∈ p.tasks) := by
    intro t ht
    obtain ⟨old, hold, rfl⟩ := List.mem_map.mp ht
    by_cases he : old.id = id
    · exact .inl (by simp [he])
    · exact .inr (by simpa [he] using hold)
  have hq : (if again then q.wake id else q) =
      { q with queue := if again then p.queue ++ [id] else p.queue } := by
    have hnot : id ∉ p.queue := fun hin ↦ (h.queued id hin).2 rfl
    cases again
    · rfl
    · simp [wake, q, modifyTask, hnot]
  rw [hq]
  constructor
  case moment => exact h.moment
  case nodup_ids => simpa only [hids] using h.nodup_ids
  case id_lt =>
    intro t ht
    have hin : t.id ∈ p.tasks.map Task.id := hids ▸ List.mem_map_of_mem ht
    obtain ⟨old, hold, he⟩ := List.mem_map.mp hin
    exact he ▸ h.id_lt old hold
  case idle => exact fun _ ↦ hturn
  case running_mem => simp
  case nodup_queue =>
    cases again
    · exact h.nodup_queue
    · refine List.nodup_append.mpr ⟨h.nodup_queue, by simp, fun a ha b hb hab ↦ ?_⟩
      rw [List.mem_singleton.mp hb] at hab
      exact (h.queued a ha).2 (by rw [hab])
  case queued =>
    intro other hin
    refine ⟨?_, by simp⟩
    simp only [hids]
    cases again
    · exact (h.queued other hin).1
    · rcases List.mem_append.mp hin with hin | hin
      · exact (h.queued other hin).1
      · rw [List.mem_singleton.mp hin]
        exact h.running_mem id rfl
  case numbered => exact h.numbered
  case resting =>
    intro t ht _ hnot
    rcases hmem t ht with ⟨he, hp⟩ | ⟨he, hold⟩
    · cases again
      · exact hp ▸ ⟨hne, hsettled rfl⟩
      · simp [he] at hnot
    · refine h.resting t hold (by simpa using he) fun hin ↦ hnot ?_
      cases again
      · exact hin
      · exact List.mem_append_left _ hin
  case punctual =>
    intro t ht
    rcases hmem t ht with ⟨-, hp⟩ | ⟨-, hold⟩
    · exact hp ▸ hpunctual
    · exact h.punctual t hold
  case empty => simp
  case turn_punctual => simp [q, modifyTask, hturn, Turn.none]
  case visited => simp [q, modifyTask, hturn, Turn.none]
  case unvisited => simp

theorem abandonAll (pauses : List Pause) (h : p.Orderly m running n) :
    (p.abandonAll pauses).Orderly m running n := by
  unfold Playback.abandonAll
  generalize pauses.filterMap Pause.park? = parks
  induction parks generalizing p with
  | nil => exact h
  | cons park rest ih => exact ih (h.stirs (.of_update (Session.carries_abandon park)))

theorem endTurn {task : Task} (h : p.Orderly m (some task.id) 0) :
    (p.endTurn task).Orderly m none 0 := by
  have hturn : (p.updateTurn (fun _ ↦ .none)).Orderly m (some task.id) 0 :=
    { h with
      idle := by simp
      turn_punctual := by simp [updateTurn, Turn.none]
      visited := by simp [updateTurn, Turn.none]
      unvisited := by simp }
  unfold Playback.endTurn
  dsimp only
  split
  · exact (hturn.endTask _ rfl).abandonAll _
  next hf =>
    split
    · exact hturn.endTask _ rfl
    next hne =>
      refine hturn.putBack rfl (by simpa using hne) h.turn_punctual p.turn.again fun hagain ↦ ?_
      rcases h.visited with hf' | ha | hs
      · exact absurd hf' hf
      · simp [hagain] at ha
      · exact fun x hx ↦ hs x (by simpa using hx)

/-- A task that is taken out of the queue begins its turn. -/
theorem beginTurn {task : Task} {rest : List Nat} (h : p.Orderly m none 0)
    (hq : p.queue = task.id :: rest) (htask : task ∈ p.tasks) :
    (({ p with queue := rest }.modifyTask task.id
        (fun t ↦ { t with agenda := [], pauses := [] })).updateTurn
      (fun _ ↦ .ofTask task)).Orderly m (some task.id) task.pauses.length := by
  have hids : (p.modifyTask task.id (fun t ↦ { t with agenda := [], pauses := [] })).tasks.map
      Task.id = p.tasks.map Task.id := by
    simp only [modifyTask, List.map_map]
    refine List.map_congr_left fun t _ ↦ ?_
    simp only [Function.comp]
    split <;> rfl
  have hmem : ∀ t ∈ (p.modifyTask task.id (fun t ↦ { t with agenda := [], pauses := [] })).tasks,
      (t.id = task.id ∧ t.pauses = [] ∧ t.agenda = []) ∨ (t.id ≠ task.id ∧ t ∈ p.tasks) := by
    intro t ht
    obtain ⟨old, hold, rfl⟩ := List.mem_map.mp ht
    by_cases he : old.id = task.id
    · exact .inl (by simp [he])
    · exact .inr (by simpa [he] using hold)
  have hnodup : (task.id :: rest).Nodup := hq ▸ h.nodup_queue
  constructor
  case moment => exact h.moment
  case nodup_ids => exact hids ▸ h.nodup_ids
  case id_lt =>
    intro t ht
    have hin : t.id ∈ p.tasks.map Task.id := hids ▸ List.mem_map_of_mem ht
    obtain ⟨old, hold, he⟩ := List.mem_map.mp hin
    exact he ▸ h.id_lt old hold
  case idle => simp
  case running_mem =>
    rintro id ⟨⟩
    exact hids ▸ List.mem_map_of_mem htask
  case nodup_queue => exact (List.nodup_cons.mp hnodup).2
  case queued =>
    intro id hid
    refine ⟨hids ▸ (h.queued id (hq ▸ List.mem_cons_of_mem _ hid)).1, fun he ↦ ?_⟩
    exact (List.nodup_cons.mp hnodup).1 (Option.some.inj he ▸ hid)
  case numbered => exact h.numbered
  case resting =>
    intro t ht hne hnot
    rcases hmem t ht with ⟨he, -⟩ | ⟨he, hold⟩
    · exact absurd (by rw [he]) hne
    · refine h.resting t hold (by simp) fun hin ↦ ?_
      rw [hq, List.mem_cons] at hin
      exact hin.elim he hnot
  case punctual =>
    intro t ht x hx
    rcases hmem t ht with ⟨-, hp, -⟩ | ⟨-, hold⟩
    · simp [hp] at hx
    · exact h.punctual t hold x hx
  case empty =>
    intro t ht he
    rcases hmem t ht with ⟨-, hp⟩ | ⟨hne, -⟩
    · exact hp
    · exact absurd (Option.some.inj he) hne
  case turn_punctual => exact fun x hx ↦ h.punctual task htask x hx
  case visited => exact .inr (.inr (by simp [updateTurn, Turn.ofTask]))
  case unvisited => exact .inr (Nat.le_refl _)

theorem takeTurn {task : Task} {rest : List Nat} (h : p.Orderly m none 0)
    (hq : p.queue = task.id :: rest) (htask : task ∈ p.tasks) :
    (Playback.takeTurn task { p with queue := rest }).Orderly m none 0 :=
  (((h.beginTurn hq htask).revisitAll task.pauses (h.punctual task htask)).proceed _).endTurn

theorem task?_eq {id : Nat} {task : Task} (h : p.task? id = some task) :
    task ∈ p.tasks ∧ task.id = id :=
  ⟨List.mem_of_find?_eq_some h, by simpa using List.find?_some h⟩

theorem runTask {id : Nat} {rest : List Nat} (h : p.Orderly m none 0) (hq : p.queue = id :: rest) :
    (Playback.runTask id { p with queue := rest }).Orderly m none 0 := by
  have hnodup : (id :: rest).Nodup := hq ▸ h.nodup_queue
  unfold Playback.runTask
  split
  next hnone =>
    obtain ⟨t, ht, he⟩ := List.mem_map.mp (h.queued id (by simp [hq])).1
    have := List.find?_eq_none.mp hnone t ht
    simp [he] at this
  next task hsome =>
    obtain ⟨htask, rfl⟩ := task?_eq (p := { p with queue := rest }) hsome
    split
    · refine { h with
        nodup_ids := List.Nodup.sublist (List.filter_sublist.map _) h.nodup_ids
        id_lt := fun t ht ↦ h.id_lt t (List.mem_filter.mp ht).1
        running_mem := by simp
        nodup_queue := (List.nodup_cons.mp hnodup).2
        queued := ?_
        resting := ?_
        punctual := fun t ht ↦ h.punctual t (List.mem_filter.mp ht).1
        empty := by simp }
      · intro id hid
        obtain ⟨hmem, -⟩ := h.queued id (hq ▸ List.mem_cons_of_mem _ hid)
        obtain ⟨t, ht, rfl⟩ := List.mem_map.mp hmem
        have hne : t.id ≠ task.id := fun he ↦ (List.nodup_cons.mp hnodup).1 (he ▸ hid)
        exact ⟨List.mem_map.mpr ⟨t, List.mem_filter.mpr ⟨ht, by simpa using hne⟩, rfl⟩, by simp⟩
      · intro t ht _ hnot
        obtain ⟨ht, hne⟩ := List.mem_filter.mp ht
        refine h.resting t ht (by simp) fun hin ↦ ?_
        rw [hq, List.mem_cons] at hin
        exact hin.elim (by simpa using hne) hnot
    · exact h.takeTurn hq htask

end Orderly

end Playback

end Storyline
