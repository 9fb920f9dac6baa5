import Storyline.Playback.Run

/-!
# Signals

A signal wakes tasks and changes nothing else.  Most operations of a playback
put a new session in the place of the old one and raise some signals, and are
brought into that form here; what such an operation leaves alone is then said
once.
-/

namespace Storyline

namespace Session

variable {s : Session} {id other : Nat} {f : Scope → Scope}

theorem scope?_modifyScope (hf : ∀ sc, (f sc).id = sc.id) :
    (s.modifyScope id f).scope? other =
      if other = id then (s.scope? id).map f else s.scope? other := by
  have hid : (fun sc : Scope ↦ (if sc.id == id then f sc else sc).id == other) =
      fun sc ↦ sc.id == other := by
    funext sc
    split <;> simp [hf]
  simp only [scope?, modifyScope, List.find?_map, Function.comp_def, hid]
  split
  next h =>
    subst h
    cases hs : s.scopes.find? (fun sc ↦ sc.id == other) with
    | none => rfl
    | some sc =>
      have hsc : sc.id = other := by simpa using List.find?_some hs
      simp [hsc]
  next h =>
    cases hs : s.scopes.find? (fun sc ↦ sc.id == other) with
    | none => rfl
    | some sc =>
      have hsc : sc.id = other := by simpa using List.find?_some hs
      simp [hsc, h]

theorem pending_modifyScope_ne (hf : ∀ sc, (f sc).id = sc.id) (h : other ≠ id) (tally : Tally) :
    (s.modifyScope id f).pending other tally = s.pending other tally := by
  simp [pending, scope?_modifyScope hf, h]

end Session

namespace Playback

/-! ## Waking -/

/-- A queue after some tasks have been woken. -/
def enqueue (queue ids : List Nat) : List Nat :=
  ids.foldl (fun queue id ↦ if queue.contains id then queue else queue ++ [id]) queue

@[simp] theorem enqueue_nil (queue : List Nat) : enqueue queue [] = queue := rfl

@[simp] theorem mem_enqueue {id : Nat} {queue ids : List Nat} :
    id ∈ enqueue queue ids ↔ id ∈ queue ∨ id ∈ ids := by
  induction ids generalizing queue with
  | nil => simp [enqueue]
  | cons a ids ih =>
      have hstep : enqueue queue (a :: ids) =
          enqueue (if queue.contains a then queue else queue ++ [a]) ids := rfl
      rw [hstep, ih, List.mem_cons]
      by_cases ha : a ∈ queue
      · simp only [List.contains_iff_mem, ha, if_true]
        constructor
        · rintro (h | h)
          · exact .inl h
          · exact .inr (.inr h)
        · rintro (h | rfl | h)
          · exact .inl h
          · exact .inl ha
          · exact .inr h
      · simp [ha, or_assoc]

theorem nodup_enqueue {queue : List Nat} (h : queue.Nodup) (ids : List Nat) :
    (enqueue queue ids).Nodup := by
  induction ids generalizing queue with
  | nil => exact h
  | cons a ids ih =>
      apply ih
      by_cases ha : a ∈ queue
      · simpa [ha] using h
      · simp only [List.contains_iff_mem, ha, if_false]
        refine List.nodup_append.mpr ⟨h, by simp, ?_⟩
        intro x hx y hy hxy
        rw [List.mem_singleton] at hy
        exact ha (hy ▸ hxy ▸ hx)

theorem wakeAll_eq (p : Playback) (ids : List Nat) :
    p.wakeAll ids = { p with queue := enqueue p.queue ids } := by
  induction ids generalizing p with
  | nil => rfl
  | cons a ids ih =>
      have hwake : p.wake a =
          { p with queue := if p.queue.contains a then p.queue else p.queue ++ [a] } := by
        unfold wake
        split <;> rfl
      have hstep : p.wakeAll (a :: ids) = (p.wake a).wakeAll ids := rfl
      rw [hstep, ih, hwake]
      rfl

theorem raise_eq (signal : Signal) (p : Playback) :
    p.raise signal =
      { p with
        turn := { p.turn with again := p.turn.again || p.turn.pauses.any (fun q ↦ q.heeds signal) }
        queue := enqueue p.queue ((p.tasks.filter (fun t ↦ t.heeds signal)).map Task.id) } := by
  simp only [raise, wakeAll_eq]
  rfl

/-! ## A new session and its signals -/

/-- Some signals, one after the other. -/
def raiseAll (signals : List Signal) (p : Playback) : Playback :=
  signals.foldl (fun p signal ↦ p.raise signal) p

/-- Puts a session in the place of the old one and raises signals. -/
def touch (s : Session) (signals : List Signal) (p : Playback) : Playback :=
  raiseAll signals { p with session := s }

theorem raiseAll_cons (signal : Signal) (signals : List Signal) (p : Playback) :
    raiseAll (signal :: signals) p = raiseAll signals (p.raise signal) := rfl

theorem raiseAll_append (l r : List Signal) (p : Playback) :
    raiseAll (l ++ r) p = raiseAll r (raiseAll l p) := List.foldl_append

theorem raiseAll_eq (signals : List Signal) (p : Playback) :
    raiseAll signals p =
      { p with
        turn :=
          { p.turn with
            again := p.turn.again || signals.any (fun c ↦ p.turn.pauses.any (fun q ↦ q.heeds c)) }
        queue :=
          enqueue p.queue
            (signals.flatMap (fun c ↦ (p.tasks.filter (fun t ↦ t.heeds c)).map Task.id)) } := by
  induction signals generalizing p with
  | nil => simp [raiseAll]
  | cons signal signals ih =>
      rw [raiseAll_cons, ih, raise_eq]
      simp [enqueue, List.foldl_append, Bool.or_assoc]

section touch

variable {s : Session} {signals : List Signal} {p : Playback}

@[simp] theorem touch_session : (p.touch s signals).session = s := by simp [touch, raiseAll_eq]

@[simp] theorem touch_status : (p.touch s signals).status = p.status := by
  simp [touch, raiseAll_eq]

@[simp] theorem touch_tasks : (p.touch s signals).tasks = p.tasks := by simp [touch, raiseAll_eq]

@[simp] theorem touch_spawned : (p.touch s signals).spawned = p.spawned := by
  simp [touch, raiseAll_eq]

@[simp] theorem touch_outcomes : (p.touch s signals).outcomes = p.outcomes := by
  simp [touch, raiseAll_eq]

@[simp] theorem touch_dispatches : (p.touch s signals).dispatches = p.dispatches := by
  simp [touch, raiseAll_eq]

@[simp] theorem touch_agenda : (p.touch s signals).turn.agenda = p.turn.agenda := by
  simp [touch, raiseAll_eq]

@[simp] theorem touch_pauses : (p.touch s signals).turn.pauses = p.turn.pauses := by
  simp [touch, raiseAll_eq]

@[simp] theorem touch_failed : (p.touch s signals).turn.failed = p.turn.failed := by
  simp [touch, raiseAll_eq]

theorem touch_again : (p.touch s signals).turn.again =
    (p.turn.again || signals.any (fun c ↦ p.turn.pauses.any (fun q ↦ q.heeds c))) := by
  simp [touch, raiseAll_eq]

theorem touch_queue : (p.touch s signals).queue =
    enqueue p.queue (signals.flatMap (fun c ↦ (p.tasks.filter (fun t ↦ t.heeds c)).map Task.id)) := by
  simp [touch, raiseAll_eq]

theorem touch_self : p.touch p.session [] = p := rfl

theorem update_eq_touch (f : Session → Session) : p.update f = p.touch (f p.session) [] := rfl

theorem update_raise_eq_touch (f : Session → Session) (signal : Signal) :
    (p.update f).raise signal = p.touch (f p.session) [signal] := rfl

theorem arm_eq_touch : p.arm = p.touch { p.session with armed := p.session.armed + 1 } [] := rfl

/-- The signals of entering a scope. -/
def enterSignals (scope : Nat) (tapBlocking : Bool) : List Signal :=
  .counter scope .actions :: if tapBlocking then [.counter scope .taps] else []

theorem enter_eq_touch (scope : Nat) (tapBlocking : Bool) :
    p.enter scope tapBlocking =
      p.touch (p.session.modifyScope scope (.enter tapBlocking)) (enterSignals scope tapBlocking) := by
  cases tapBlocking <;> rfl

theorem unpark_eq_touch (id : Nat) :
    p.unpark id = p.touch (p.session.unpark id) [.tap id] := rfl

theorem skip_eq_touch : p.skip = p.touch p.session.skip [.skip] := rfl

/-- The parked actions that a tap takes off the stack. -/
def goneTaps (s : Session) : List Nat := (s.taps.drop s.takeTap.taps.length).map Parked.id

theorem tap_eq_touch : p.tap = p.touch p.session.takeTap ((goneTaps p.session).map Signal.tap) := by
  simp only [tap, touch, raiseAll, goneTaps, List.foldl_map]
  rfl

theorem setAutoPlay_eq_touch (on : Bool) :
    p.setAutoPlay on =
      p.touch (p.session.setAutoPlay on) (if p.session.cancelled then [] else [.autoPlay]) := by
  unfold setAutoPlay
  cases h : p.session.cancelled <;> simp [Session.setAutoPlay, h, touch, raiseAll, update]

theorem setFastForward_eq_touch (on : Bool) :
    p.setFastForward on =
      p.touch (p.session.setFastForward on) (if p.session.cancelled then [] else [.fastForward]) := by
  unfold setFastForward
  cases h : p.session.cancelled <;> simp [Session.setFastForward, h, touch, raiseAll, update]

/-- The signals of resetting scopes. -/
def resetSignals (scopes : List Nat) : List Signal :=
  scopes.flatMap (fun id ↦ [.counter id .actions, .counter id .taps])

theorem foldl_raiseReset (scopes : List Nat) :
    scopes.foldl (fun p id ↦ p.raiseReset id) p = raiseAll (resetSignals scopes) p := by
  induction scopes generalizing p with
  | nil => rfl
  | cons id scopes ih => rw [List.foldl_cons, ih]; rfl

theorem resetScope_eq_touch (scope : Nat) :
    p.resetScope scope = p.touch (p.session.modifyScope scope Scope.reset) (resetSignals [scope]) := rfl

theorem resetScopes_eq_touch :
    p.resetScopes = p.touch p.session.resetScopes (resetSignals (p.session.scopes.map Scope.id)) := by
  unfold resetScopes
  rw [foldl_raiseReset]
  rfl

theorem fastForwardTick_session :
    p.fastForwardTick.session = p.session.resetScopes.skip.takeTap := by
  simp only [fastForwardTick, tap_eq_touch, skip_eq_touch, resetScopes_eq_touch, touch_session]

end touch

end Playback

end Storyline
