import Storyline.Proofs.Playback.Orderly

/-!
# Work

The work of a playback is what its tasks can still do at the present time.  A
turn that wakes a task or adds one does some of it, so that there is a bound on
the turns until nothing is ready.
-/

namespace Storyline

theorem Action.size_pos (action : Action) : 1 ≤ action.size := by
  cases action <;> simp [Action.size]

theorem Errand.weight_pos (errand : Errand) : 1 ≤ errand.weight := by
  cases errand with
  | perform action scope step =>
      have hsize := action.size_pos
      simp only [Errand.weight]
      omega
  | _ => simp [Errand.weight]

theorem Pause.weight_pos (now : Nat) (pause : Pause) : 1 ≤ pause.weight now := by
  unfold Pause.weight
  split
  · split <;> omega
  · exact Nat.le_refl 1

theorem Pause.weight_eq_one {pause : Pause} {s : Session} (h : pause.wait.Settled s) :
    pause.weight s.now = 1 := by
  obtain ⟨wait, ending, scopes⟩ := pause
  unfold Pause.weight
  cases wait with
  | tap park kind auto => cases auto <;> simp_all [Wait.Settled, Wait.timer?]
  | sleep timer skips => simp_all [Wait.Settled, Wait.timer?]
  | drained => rfl
  | cancelled => rfl
  | frame => simp_all [Wait.Settled, Wait.timer?]
  | forward ticker => rcases ticker with _ | ⟨_, _, _⟩ <;> simp_all [Wait.Settled, Wait.timer?]

namespace Playback

/-- The work of all tasks, the running one included, and the number of tasks. -/
def bulk (now : Nat) (p : Playback) : Nat :=
  p.tasks.length + (p.tasks.map (Task.weight now)).sum + (p.turn.agenda.map Errand.weight).sum +
    (p.turn.pauses.map (Pause.weight now)).sum

/-- One playback comes from another with at most `k` more to do. -/
structure Costs (now k : Nat) (p q : Playback) : Prop where
  agenda : q.turn.agenda = p.turn.agenda
  length : p.tasks.length ≤ q.tasks.length
  bulk : q.bulk now ≤ p.bulk now + k
  now : q.session.now = p.session.now

namespace Costs

variable {now k l : Nat} {p q r : Playback}

theorem refl (p : Playback) : Costs now k p p := ⟨rfl, Nat.le_refl _, Nat.le_add_right _ _, rfl⟩

theorem trans (h : Costs now k p q) (h' : Costs now l q r) : Costs now (k + l) p r where
  agenda := h'.agenda.trans h.agenda
  now := h'.now.trans h.now
  length := Nat.le_trans h.length h'.length
  bulk := by
    have := h.bulk
    have := h'.bulk
    omega

theorem andThen (h : Costs now k p q) (hnow : p.session.now = now)
    (hr : q.session.now = now → Costs now l q r) : Costs now (k + l) p r :=
  h.trans (hr (h.now.trans hnow))

theorem weaken (h : Costs now k p q) (hk : k ≤ l) : Costs now l p q :=
  { h with bulk := Nat.le_trans h.bulk (Nat.add_le_add_left hk _) }

end Costs

theorem Stirs.bulk {p q : Playback} (h : p.Stirs q) (now : Nat) : q.bulk now = p.bulk now := by
  simp only [Playback.bulk, h.tasks, h.agenda, h.pauses]

theorem Stirs.costs {now : Nat} {p q : Playback} (h : p.Stirs q) : Costs now 0 p q :=
  ⟨h.agenda, Nat.le_of_eq (congrArg List.length h.tasks.symm), Nat.le_of_eq (h.bulk now), h.now⟩

/-- What is stirred costs nothing; the clock is not moved. -/
theorem Stirs.then_costs {now k : Nat} {p q r : Playback} (h : p.Stirs q)
    (hnow : p.session.now = now) (hr : q.session.now = now → Costs now k q r) :
    Costs now k p r :=
  (h.costs.andThen hnow hr).weaken (Nat.le_of_eq (Nat.zero_add k))

section costs

variable {now : Nat} {p : Playback}

theorem costs_leave (now : Nat) (pause : Pause) : Costs now (pause.weight now) p (p.leave pause) := by
  refine ⟨rfl, Nat.le_refl _, Nat.le_of_eq ?_, rfl⟩
  simp only [bulk, leave, updateTurn, List.map_append, List.map_cons, List.map_nil,
    List.sum_append, List.sum_cons, List.sum_nil]
  omega

/-- A wait that goes on has nothing to do at present; one that fails stays as it is. -/
theorem costs_suspend {k : Nat} {wait : Wait} {ending : Ending} {scopes : List Nat}
    (hw : wait.Punctual p.session.moment) (hnow : p.session.now = now) (hk : 1 ≤ k)
    (hfails : (p.look wait).2 = .fails → Pause.weight now ⟨wait, ending, scopes⟩ ≤ k) :
    Costs now k p (p.suspend wait ending scopes) := by
  unfold suspend
  have hst := p.stirs_look wait
  split
  next q w hlook =>
    rw [hlook] at hst
    have hone : Pause.weight now ⟨w, ending, scopes⟩ = 1 := by
      rw [← hnow, ← hst.now]
      exact Pause.weight_eq_one (look_waits hw hlook).1
    refine (hst.costs.trans (costs_leave now ⟨w, ending, scopes⟩)).weaken ?_
    omega
  next q ran hlook =>
    rw [hlook] at hst
    split
    · exact (hst.trans (q.stirs_finish ending)).costs.weaken (Nat.zero_le _)
    · exact hst.costs.weaken (Nat.zero_le _)
  next q hlook =>
    rw [hlook] at hst hfails
    have hcost := hst.costs.trans (costs_leave now ⟨wait, ending, scopes⟩)
    refine Costs.weaken ?_ (Nat.le_trans (Nat.le_of_eq (Nat.zero_add _)) (hfails rfl))
    exact ⟨hcost.agenda, hcost.length, hcost.bulk, hcost.now⟩

theorem costs_addTask (owned asks : Bool) (scope : Option Nat) (agenda : List Errand) :
    Costs now ((agenda.map Errand.weight).sum + 1) p (p.addTask owned asks scope agenda) := by
  refine ⟨rfl, by simp [addTask], Nat.le_of_eq ?_, rfl⟩
  simp only [bulk, addTask, Task.weight, List.map_append, List.map_cons, List.map_nil,
    List.sum_append, List.sum_cons, List.sum_nil, List.length_append, List.length_cons,
    List.length_nil]
  omega

theorem costs_spawn (scope : Option Nat) (agenda : List Errand) :
    Costs now ((agenda.map Errand.weight).sum + 1) p (p.spawn scope agenda) := by
  unfold spawn
  split
  · exact .refl p
  · exact costs_addTask _ _ _ _

theorem costs_sleep {d : Duration} {ending : Ending} {scopes : List Nat}
    (hnow : p.session.now = now) : Costs now 1 p (p.sleep d ending scopes) := by
  refine p.stirs_arm.then_costs hnow fun harm ↦ costs_suspend ?_ harm (Nat.le_refl 1) ?_
  · exact Timer.notPast_endFrom d _ _
  · intro hfails
    simp only [look, lookAtSleep] at hfails
    split at hfails
    · simp at hfails
    · split at hfails <;> simp at hfails

theorem costs_park {kind : Dwell} {ending : Ending} {scopes : List Nat}
    (hnow : p.session.now = now) : Costs now 1 p (p.park kind ending scopes) := by
  refine p.stirs_park.then_costs hnow fun hpark ↦ ?_
  exact costs_suspend trivial hpark (Nat.le_refl 1) fun _ ↦ Nat.le_refl 1

theorem costs_drain {scope : Nat} {tally : Tally} {guarded : Bool} {ending : Ending}
    {scopes : List Nat} (hnow : p.session.now = now) :
    Costs now 1 p (p.suspend (.drained scope tally guarded) ending scopes) :=
  costs_suspend trivial hnow (Nat.le_refl 1) fun _ ↦ Nat.le_refl 1

theorem costs_note (action : Action) (scope : Nat) (step : Option Nat) :
    Costs now 0 p (p.note action scope step) := by
  unfold note
  split
  · exact .refl p
  · exact ⟨rfl, Nat.le_refl _, Nat.le_refl _, rfl⟩

theorem costs_performCue (cue : Cue) (scope : Nat) (scopes : List Nat) (step : Option Nat)
    (hnow : p.session.now = now) : Costs now 5 p (p.performCue cue scope scopes step) := by
  unfold performCue
  split
  · exact .refl p
  have hst := (p.stirs_announce step).trans (stirs_enter _ scope cue.isTapBlocking)
  refine hst.then_costs hnow fun hnow ↦ ?_
  cases cue with
  | talk line =>
      exact ((stirs_tell _ line).trans (stirs_speak _ line)).then_costs hnow fun h ↦
        (costs_park h).weaken (by omega)
  | telop text =>
      exact (stirs_present _ _).then_costs hnow fun h ↦ (costs_park h).weaken (by omega)
  | model change =>
      exact (stirs_presentIf _ _).then_costs hnow fun _ ↦
        (costs_spawn _ _).weaken (by simp [Errand.weight])
  | tremble axis character => exact (stirs_release _ _).costs.weaken (by omega)
  | cover cover visible seconds =>
      exact (stirs_number _ _).then_costs hnow fun h ↦ (costs_sleep h).weaken (by omega)
  | shake shake seconds =>
      exact (stirs_number _ _).then_costs hnow fun h ↦
        ((costs_spawn _ _).andThen h costs_sleep).weaken (by simp [Errand.weight])
  | scenery scenery path => exact (stirs_changeScenery _ scenery path _).costs.weaken (by omega)
  | delay seconds => exact (costs_sleep hnow).weaken (by omega)
  | waitForAll =>
      exact (stirs_release _ _).then_costs hnow fun h ↦ (costs_drain h).weaken (by omega)
  | waitForTap =>
      exact (stirs_release _ _).then_costs hnow fun h ↦ (costs_drain h).weaken (by omega)

theorem weight_walk (scope : Nat) (indexed : Bool) (actions : List Action) :
    ((walk scope indexed actions).map Errand.weight).sum = 6 * Action.sizeOfList actions := by
  suffices h : ∀ n, (((actions.zipIdx n).map (fun a ↦
      Errand.perform a.1 scope (if indexed then some a.2 else none))).map Errand.weight).sum =
      6 * Action.sizeOfList actions from h 0
  induction actions with
  | nil => intro n; rfl
  | cons a rest ih =>
      intro n
      simp only [List.zipIdx_cons, List.map_cons, List.sum_cons, ih (n + 1), Errand.weight,
        Action.sizeOfList]
      omega

mutual

theorem costs_perform (action : Action) (scope : Nat) (scopes : List Nat) (step : Option Nat)
    {p : Playback} (hnow : p.session.now = now) :
    Costs now (6 * action.size - 1) p (perform action scope scopes step p) := by
  have hn : Costs now 0 p (p.note action scope step) := costs_note action scope step
  cases action with
  | cue cue =>
      have hcue := costs_performCue cue scope scopes step (hn.now.trans hnow)
      exact (hn.trans hcue).weaken (by simp [Action.size])
  | block parts =>
      simp only [perform, Action.size]
      split
      · exact .refl p
      have ho := hn.trans (stirs_openWithin _ scope step).costs
      have hall := ho.trans (costs_performAll parts p.session.serial
        (p.session.serial :: scopes) (ho.now.trans hnow))
      refine (hall.trans (costs_performCue .waitForAll _ _ _ (hall.now.trans hnow))).weaken ?_
      omega
  | fork parts =>
      simp only [perform, Action.size]
      split
      · exact .refl p
      have ho := hn.trans (stirs_openWithin _ scope step).costs
      refine (ho.trans (costs_spawn _ _)).weaken ?_
      rw [weight_walk]
      omega

theorem costs_performAll (parts : List Action) (scope : Nat) (scopes : List Nat) {p : Playback}
    (hnow : p.session.now = now) :
    Costs now (6 * Action.sizeOfList parts) p (performAll parts scope scopes p) := by
  cases parts with
  | nil => exact .refl p
  | cons part rest =>
      have hpart := costs_perform part scope scopes none hnow
      have hsize := part.size_pos
      have hrest := costs_performAll rest scope scopes (hpart.now.trans hnow)
      refine (hpart.trans hrest).weaken ?_
      simp only [Action.sizeOfList]
      omega

end

theorem costs_begin (errand : Errand) (hnow : p.session.now = now) :
    Costs now (errand.weight - 1) p (p.begin errand) := by
  cases errand with
  | perform action scope step => exact costs_perform action scope [scope] step hnow
  | sleep d ending scopes => exact (costs_sleep hnow).weaken (by simp [Errand.weight])
  | drain scope tally guarded ending => exact (costs_drain hnow).weaken (by simp [Errand.weight])
  | awaitEnd =>
      exact costs_suspend trivial hnow (by simp [Errand.weight]) fun _ ↦ Nat.le_succ 1
  | animate shake stamp d =>
      refine p.stirs_arm.then_costs hnow fun harm ↦ costs_suspend ⟨?_, ?_⟩ harm
        (by simp [Errand.weight]) fun _ ↦ ?_
      · intro due hdue
        obtain rfl := Option.some.inj hdue
        exact Nat.le_refl _
      · intro due hdue tick htick
        obtain rfl := Option.some.inj hdue
        exact Duration.start_lt_tickFrom htick
      · simp only [Pause.weight, Wait.timer?, Errand.weight]
        split <;> omega
  | fastForward =>
      exact costs_suspend trivial hnow (by simp [Errand.weight]) fun _ ↦ Nat.le_succ 1

end costs

end Playback

end Storyline
