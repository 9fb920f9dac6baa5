import Storyline.Proofs.Playback.Work

/-!
# Until nothing is ready

Every turn either does some work or wakes nobody, so the ready tasks run out
within the bound that the playback gives itself.
-/

namespace Storyline

namespace Playback

/-! ## Calm looks -/

/-- Neither a task nor the running one has been woken. -/
def Calm (p q : Playback) : Prop := q.queue = p.queue ∧ q.turn.again = p.turn.again

theorem Calm.trans {p q r : Playback} (h : p.Calm q) (h' : q.Calm r) : p.Calm r :=
  ⟨h'.1.trans h.1, h'.2.trans h.2⟩

section look

variable {p q : Playback} {w wait : Wait}

theorem dwell_calm {park : Nat} {kind : Dwell} {d : Duration}
    (h : p.dwell park kind d = (q, .waits w)) : p.Calm q := by
  unfold dwell at h
  dsimp only at h
  split at h
  · simp [moveOn] at h
  · obtain ⟨rfl, -⟩ := Prod.mk.inj h
    exact ⟨rfl, rfl⟩

theorem lookAtTap_calm {park : Nat} {kind : Dwell} {auto : Lingering}
    (h : p.lookAtTap park kind auto = (q, .waits w)) : p.Calm q := by
  unfold lookAtTap at h
  split at h
  · simp at h
  split at h
  · simp at h
  split at h
  · obtain ⟨rfl, -⟩ := Prod.mk.inj h
    exact ⟨rfl, rfl⟩
  cases auto with
  | off =>
      cases kind with
      | fixed d => exact dwell_calm h
      | voice =>
          simp only [beginLingering] at h
          split at h
          · obtain ⟨rfl, -⟩ := Prod.mk.inj h
            exact ⟨rfl, rfl⟩
          · simp at h
  | listening start ticks timer =>
      dsimp only at h
      split at h
      · obtain ⟨rfl, -⟩ := Prod.mk.inj h
        exact ⟨rfl, rfl⟩
      split at h
      · obtain ⟨rfl, -⟩ := Prod.mk.inj h
        exact ⟨rfl, rfl⟩
      · exact dwell_calm h
  | dwelling timer =>
      dsimp only at h
      split at h
      · simp [moveOn] at h
      · obtain ⟨rfl, -⟩ := Prod.mk.inj h
        exact ⟨rfl, rfl⟩

/-- A wait that goes on has woken nobody, unless it was due. -/
theorem look_calm (hdue : ∀ t, wait.timer? = some t → t.isDue p.session.now = false)
    (h : p.look wait = (q, .waits w)) : p.Calm q := by
  cases wait with
  | tap park kind auto => exact lookAtTap_calm h
  | sleep timer skips =>
      simp only [look, lookAtSleep] at h
      split at h
      · simp at h
      split at h
      · simp at h
      · obtain ⟨rfl, -⟩ := Prod.mk.inj h
        exact ⟨rfl, rfl⟩
  | drained scope tally guarded =>
      simp only [look, lookAtCount] at h
      split at h
      · simp at h
      split at h
      · simp at h
      · obtain ⟨rfl, -⟩ := Prod.mk.inj h
        exact ⟨rfl, rfl⟩
  | cancelled =>
      obtain ⟨rfl, -⟩ := Prod.mk.inj h
      exact ⟨rfl, rfl⟩
  | frame shake stamp d start ticks timer =>
      rcases p.lookAtFrame_cases shake stamp d start ticks timer with ⟨-, h'⟩ | ⟨hdue', -⟩
      · obtain ⟨rfl, -⟩ := Prod.mk.inj (h'.symm.trans h)
        exact ⟨rfl, rfl⟩
      · simp [hdue timer rfl] at hdue'
  | forward ticker =>
      simp only [look, lookAtForward] at h
      split at h
      · obtain ⟨rfl, -⟩ := Prod.mk.inj h
        exact ⟨rfl, rfl⟩
      rcases ticker with _ | ⟨start, ticks, timer⟩
      · dsimp only at h
        split at h
        · obtain ⟨rfl, -⟩ := Prod.mk.inj h
          exact ⟨rfl, rfl⟩
        · simp at h
      · simp only [hdue timer rfl, Bool.false_eq_true, if_false] at h
        obtain ⟨rfl, -⟩ := Prod.mk.inj h
        exact ⟨rfl, rfl⟩

theorem dwell_ne_fails {park : Nat} {kind : Dwell} {d : Duration} :
    (p.dwell park kind d).2 ≠ .fails := by
  unfold dwell moveOn
  dsimp only
  split <;> simp

/-- A look that fails changes nothing. -/
theorem look_fails (h : p.look wait = (q, .fails)) : q = p := by
  cases wait with
  | tap park kind auto =>
      simp only [look, lookAtTap] at h
      split at h
      · simp at h
      split at h
      · simp at h
      split at h
      · simp at h
      cases auto with
      | off =>
          cases kind with
          | fixed d => exact absurd (congrArg Prod.snd h) dwell_ne_fails
          | voice =>
              simp only [beginLingering] at h
              split at h
              · simp [listen] at h
              · exact (Prod.mk.inj h).1.symm
      | listening start ticks timer =>
          dsimp only at h
          split at h
          · simp at h
          split at h
          · simp [listen] at h
          · exact absurd (congrArg Prod.snd h) dwell_ne_fails
      | dwelling timer =>
          dsimp only at h
          split at h <;> simp [moveOn] at h
  | sleep timer skips =>
      simp only [look, lookAtSleep] at h
      split at h
      · simp at h
      split at h <;> simp at h
  | drained scope tally guarded =>
      simp only [look, lookAtCount] at h
      split at h
      · simp at h
      split at h <;> simp at h
  | cancelled =>
      simp only [look] at h
      split at h <;> simp at h
  | frame shake stamp d start ticks timer =>
      rcases p.lookAtFrame_cases shake stamp d start ticks timer with
        ⟨-, h'⟩ | ⟨-, h' | ⟨n, finished, offset, h' | h'⟩⟩
      · simp [look, h'] at h
      · exact (Prod.mk.inj (h'.symm.trans h)).1.symm
      · simp [look, h'] at h
      · simp [look, h', waitForFrame] at h
  | forward ticker =>
      simp only [look, lookAtForward] at h
      split at h
      · simp at h
      rcases ticker with _ | ⟨start, ticks, timer⟩
      · dsimp only at h
        split at h
        · simp [waitForTick] at h
        · exact (Prod.mk.inj h).1.symm
      · dsimp only at h
        split at h <;> simp [waitForTick] at h

theorem dwell_ran {park : Nat} {kind : Dwell} {d : Duration} {ran : Bool}
    (h : p.dwell park kind d = (q, .ends ran)) : ran = true := by
  unfold dwell moveOn at h
  dsimp only at h
  split at h
  · exact (Verdict.ends.inj (Prod.mk.inj h).2).symm
  · cases (Prod.mk.inj h).2

/-- Without the end of the session no wait is cut short. -/
theorem look_ran {ran : Bool} (hc : p.session.cancelled = false)
    (h : p.look wait = (q, .ends ran)) : ran = true := by
  cases wait with
  | tap park kind auto =>
      simp only [look, lookAtTap, hc, Bool.false_eq_true, if_false] at h
      split at h
      · exact (Verdict.ends.inj (Prod.mk.inj h).2).symm
      split at h
      · cases (Prod.mk.inj h).2
      cases auto with
      | off =>
          cases kind with
          | fixed d => exact dwell_ran h
          | voice =>
              simp only [beginLingering] at h
              split at h <;> cases (Prod.mk.inj h).2
      | listening start ticks timer =>
          dsimp only at h
          split at h
          · cases (Prod.mk.inj h).2
          split at h
          · cases (Prod.mk.inj h).2
          · exact dwell_ran h
      | dwelling timer =>
          dsimp only at h
          split at h
          · exact (Verdict.ends.inj (Prod.mk.inj h).2).symm
          · cases (Prod.mk.inj h).2
  | sleep timer skips =>
      simp only [look, lookAtSleep, hc, Bool.false_eq_true, if_false] at h
      split at h
      · exact (Verdict.ends.inj (Prod.mk.inj h).2).symm
      · cases (Prod.mk.inj h).2
  | drained scope tally guarded =>
      simp only [look, lookAtCount, hc, Bool.and_false, Bool.false_eq_true, if_false] at h
      split at h
      · exact (Verdict.ends.inj (Prod.mk.inj h).2).symm
      · cases (Prod.mk.inj h).2
  | cancelled => simp [look, hc] at h
  | frame shake stamp d start ticks timer =>
      rcases p.lookAtFrame_cases shake stamp d start ticks timer with
        ⟨-, h'⟩ | ⟨-, h' | ⟨n, finished, offset, h' | h'⟩⟩ <;> rw [look, h'] at h
      · cases (Prod.mk.inj h).2
      · cases (Prod.mk.inj h).2
      · exact (Verdict.ends.inj (Prod.mk.inj h).2).symm
      · cases (Prod.mk.inj h).2
  | forward ticker =>
      simp only [look, lookAtForward] at h
      split at h
      · cases (Prod.mk.inj h).2
      split at h
      · split at h <;> cases (Prod.mk.inj h).2
      · split at h <;> cases (Prod.mk.inj h).2

end look

/-! ## A turn -/

/-- Part of a turn that does some work or wakes nobody. -/
structure Spends (now : Nat) (p q : Playback) : Prop where
  length : p.tasks.length ≤ q.tasks.length
  calm : q.bulk now = p.bulk now → p.Calm q
  bulk : q.bulk now ≤ p.bulk now
  now : q.session.now = p.session.now

namespace Spends

variable {now : Nat} {p q r : Playback}

theorem refl (p : Playback) : Spends now p p :=
  ⟨Nat.le_refl _, fun _ ↦ ⟨rfl, rfl⟩, Nat.le_refl _, rfl⟩

theorem trans (h : Spends now p q) (h' : Spends now q r) : Spends now p r where
  now := h'.now.trans h.now
  length := Nat.le_trans h.length h'.length
  bulk := Nat.le_trans h'.bulk h.bulk
  calm := by
    intro he
    have hq := h.bulk
    have hr := h'.bulk
    exact (h.calm (by omega)).trans (h'.calm (by omega))

end Spends

section turn

variable {now : Nat} {p : Playback}

/-- A look at a pause that has been taken out of the turn. -/
theorem suspend_spends (pause : Pause) (hw : pause.wait.Punctual p.session.moment)
    (hnow : p.session.now = now) :
    let q := p.suspend pause.wait pause.ending pause.scopes
    q.session.now = p.session.now ∧ p.tasks.length ≤ q.tasks.length ∧
      q.bulk now ≤ p.bulk now + pause.weight now ∧
      (q.bulk now = p.bulk now + pause.weight now → p.Calm q) := by
  intro q
  have hpos := pause.weight_pos now
  have hcost : Costs now (pause.weight now) p q :=
    costs_suspend hw hnow hpos fun _ ↦ Nat.le_refl _
  refine ⟨hcost.now, hcost.length, hcost.bulk, fun he ↦ ?_⟩
  have hst := p.stirs_look pause.wait
  simp only [q] at he ⊢
  unfold suspend at he ⊢
  split at he
  next p' w hlook =>
    rw [hlook] at hst
    have hwaits : (p'.leave ⟨w, pause.ending, pause.scopes⟩).bulk now ≤ p.bulk now + 1 := by
      have hone : Pause.weight now ⟨w, pause.ending, pause.scopes⟩ = 1 := by
        rw [← hnow, ← hst.now]
        exact Pause.weight_eq_one (look_waits hw hlook).1
      have hleave := (costs_leave (p := p') now ⟨w, pause.ending, pause.scopes⟩).bulk
      rw [hone, hst.bulk now] at hleave
      exact hleave
    have hdue : ∀ t, pause.wait.timer? = some t → t.isDue p.session.now = false := by
      intro t ht
      refine Bool.eq_false_iff.mpr fun hdue ↦ ?_
      have htwo : pause.weight now = 2 := by simp [Pause.weight, ht, ← hnow, hdue]
      omega
    have hcalm := look_calm hdue hlook
    exact ⟨hcalm.1, hcalm.2⟩
  next p' ran hlook =>
    rw [hlook] at hst
    have hends : (if ran = true then p'.finish pause.ending else p').bulk now = p.bulk now := by
      split
      · exact (hst.trans (p'.stirs_finish _)).bulk now
      · exact hst.bulk now
    omega
  next p' hlook =>
    rw [look_fails hlook]
    exact ⟨rfl, rfl⟩

/-- The turn has yet to look at the given pauses, unless it has failed. -/
def Awaits (pauses : List Pause) (p : Playback) : Prop :=
  p.turn.failed = true ∨ ∃ done, p.turn.pauses = pauses ++ done

theorem suspend_agenda {wait : Wait} {ending : Ending} {scopes : List Nat} :
    (p.suspend wait ending scopes).turn.agenda = p.turn.agenda := by
  have hst := p.stirs_look wait
  unfold suspend
  split
  next q w hlook =>
    rw [hlook] at hst
    exact hst.agenda
  next q ran hlook =>
    rw [hlook] at hst
    split
    · exact (q.stirs_finish ending).agenda.trans hst.agenda
    · exact hst.agenda
  next q hlook =>
    rw [hlook] at hst
    exact hst.agenda

theorem revisit_agenda (pause : Pause) : (p.revisit pause).turn.agenda = p.turn.agenda := by
  unfold revisit
  split
  · rfl
  · exact suspend_agenda

theorem revisit_awaits {pause : Pause} {rest : List Pause} (h : p.Awaits (pause :: rest)) :
    (p.revisit pause).Awaits rest := by
  unfold revisit
  split
  next hf => exact .inl hf
  next hf =>
    obtain ⟨done, hdone⟩ := h.resolve_left hf
    have hst := stirs_look (p.updateTurn (fun t ↦ { t with pauses := t.pauses.tail })) pause.wait
    have htail : (p.updateTurn (fun t ↦ { t with pauses := t.pauses.tail })).turn.pauses =
        rest ++ done := by simp [updateTurn, hdone]
    unfold suspend
    split
    next p' w hlook =>
      rw [hlook] at hst
      have hpauses : p'.turn.pauses = rest ++ done := hst.pauses.trans htail
      exact .inr ⟨done ++ [⟨w, pause.ending, pause.scopes⟩], by simp [leave, updateTurn, hpauses]⟩
    next p' ran hlook =>
      rw [hlook] at hst
      refine .inr ⟨done, ?_⟩
      split
      · rw [(p'.stirs_finish _).pauses, hst.pauses, htail]
      · rw [hst.pauses, htail]
    next p' hlook => exact .inl rfl

theorem revisit_spends {pause : Pause} {rest : List Pause} (h : p.Awaits (pause :: rest))
    (hw : pause.wait.Punctual p.session.moment) (hnow : p.session.now = now) :
    Spends now p (p.revisit pause) := by
  unfold revisit
  split
  · exact .refl p
  next hf =>
    obtain ⟨done, hdone⟩ := h.resolve_left hf
    have hbulk : p.bulk now =
        (p.updateTurn (fun t ↦ { t with pauses := t.pauses.tail })).bulk now +
          pause.weight now := by
      simp only [bulk, updateTurn, hdone, List.cons_append, List.tail_cons, List.map_cons,
        List.sum_cons]
      omega
    obtain ⟨hnow', hlength, hle, hcalm⟩ :=
      suspend_spends (p := p.updateTurn (fun t ↦ { t with pauses := t.pauses.tail })) pause hw hnow
    exact ⟨hlength, fun he ↦ hcalm (he.trans hbulk), hbulk ▸ hle, hnow'⟩

theorem revisitAll_spends {m : Moment} {id : Nat} (pauses : List Pause)
    (h : p.Orderly m (some id) pauses.length) (hp : p.Awaits pauses)
    (hw : ∀ x ∈ pauses, x.wait.Punctual m) :
    Spends m.now p (pauses.foldl (fun p pause ↦ p.revisit pause) p) := by
  induction pauses generalizing p with
  | nil => exact .refl p
  | cons pause rest ih =>
      have hpause := hw pause (by simp)
      have hstep := revisit_spends hp (h.moment ▸ hpause) (congrArg Moment.now h.moment)
      exact hstep.trans (ih (h.revisit pause hpause) (revisit_awaits hp) fun x hx ↦
        hw x (by simp [hx]))

theorem proceed_spends (agenda : List Errand) (hagenda : p.turn.agenda = agenda)
    (hnow : p.session.now = now) : Spends now p (proceed agenda p) := by
  induction agenda generalizing p with
  | nil => exact .refl p
  | cons errand rest ih =>
      simp only [proceed]
      split
      · have hcost := costs_begin (p := p.updateTurn (fun t ↦ { t with agenda := rest })) errand hnow
        have hpos := errand.weight_pos
        have hbulk : p.bulk now =
            (p.updateTurn (fun t ↦ { t with agenda := rest })).bulk now + errand.weight := by
          simp only [bulk, updateTurn, hagenda, List.map_cons, List.sum_cons]
          omega
        have hle := hcost.bulk
        have hstep : Spends now p ((p.updateTurn (fun t ↦ { t with agenda := rest })).begin errand) :=
          ⟨hcost.length, fun he ↦ by omega, by omega, hcost.now⟩
        exact hstep.trans (ih hcost.agenda (hcost.now.trans hnow))
      · exact .refl p

end turn

/-! ## Work before and after a turn -/

theorem sum_modifyTask {tasks : List Task} {task : Task} {g : Task → Task} (f : Task → Nat)
    (hnodup : (tasks.map Task.id).Nodup) (htask : task ∈ tasks) :
    ((tasks.map (fun t ↦ if t.id == task.id then g t else t)).map f).sum + f task =
      (tasks.map f).sum + f (g task) := by
  induction tasks with
  | nil => simp at htask
  | cons t rest ih =>
      rw [List.map_cons, List.nodup_cons] at hnodup
      rcases List.mem_cons.mp htask with rfl | hmem
      · have hrest : rest.map (fun t ↦ if t.id == task.id then g t else t) = rest := by
          refine (List.map_congr_left fun t ht ↦ ?_).trans (List.map_id rest)
          have hne : t.id ≠ task.id := fun he ↦ hnodup.1 (he ▸ List.mem_map_of_mem ht)
          simp [hne]
        simp only [List.map_cons, List.sum_cons, beq_self_eq_true, if_true, hrest]
        omega
      · have hne : t.id ≠ task.id := fun he ↦ hnodup.1 (he ▸ List.mem_map_of_mem hmem)
        have := ih hnodup.2 hmem
        simp only [List.map_cons, List.sum_cons, beq_iff_eq, hne, if_false] at this ⊢
        omega

theorem sum_filter_le (tasks : List Task) (f : Task → Nat) (keep : Task → Bool) :
    ((tasks.filter keep).map f).sum ≤ (tasks.map f).sum := by
  induction tasks with
  | nil => simp
  | cons t rest ih =>
      rw [List.filter_cons]
      split
      · simpa using ih
      · simp only [List.map_cons, List.sum_cons]
        omega

section turn

variable {m : Moment} {p : Playback} {task : Task}

theorem bulk_idle (h : p.Orderly m none 0) : p.bulk m.now = p.tasks.length + p.work := by
  have hnow : p.session.now = m.now := congrArg Moment.now h.moment
  simp [bulk, work, h.idle rfl, Turn.none, hnow]

theorem bulk_beginTurn (hnodup : (p.tasks.map Task.id).Nodup) (htask : task ∈ p.tasks)
    (hturn : p.turn = .none) (now : Nat) :
    ((p.modifyTask task.id (fun t ↦ { t with agenda := [], pauses := [] })).updateTurn
      (fun _ ↦ .ofTask task)).bulk now = p.bulk now := by
  have hsum := sum_modifyTask (g := fun t ↦ { t with agenda := [], pauses := [] })
    (Task.weight now) hnodup htask
  simp only [bulk, modifyTask, updateTurn, List.length_map, Turn.ofTask, hturn, Turn.none,
    List.map_nil, List.sum_nil, Nat.add_zero] at hsum ⊢
  have hempty : Task.weight now { task with agenda := [], pauses := [] } = 0 := rfl
  have htask : Task.weight now task =
    (task.agenda.map Errand.weight).sum + (task.pauses.map (Pause.weight now)).sum := rfl
  omega

theorem abandonAll_stirs (pauses : List Pause) : p.Stirs (p.abandonAll pauses) := by
  unfold abandonAll
  generalize pauses.filterMap Pause.park? = parks
  induction parks generalizing p with
  | nil => exact .refl p
  | cons park rest ih => exact (Stirs.of_update (Session.carries_abandon park)).trans ih

theorem abandonAll_queue (pauses : List Pause) : (p.abandonAll pauses).queue = p.queue := by
  unfold abandonAll
  generalize pauses.filterMap Pause.park? = parks
  induction parks generalizing p with
  | nil => rfl
  | cons park rest ih => exact ih

/-- At the end of its turn a task is taken out or put back with what is left of it. -/
theorem endTurn_spends (h : p.Orderly m (some task.id) 0) :
    (p.endTurn task).tasks.length ≤ p.tasks.length ∧
      ((p.endTurn task).tasks.map (Task.weight m.now)).sum + p.tasks.length ≤ p.bulk m.now ∧
      (p.turn.again = false → (p.endTurn task).queue = p.queue) := by
  have hended : ∀ outcome,
      (((p.updateTurn (fun _ ↦ .none)).endTask task outcome).tasks.map (Task.weight m.now)).sum +
        p.tasks.length ≤ p.bulk m.now := by
    intro outcome
    have := sum_filter_le p.tasks (Task.weight m.now) (fun t ↦ t.id != task.id)
    simp only [endTask, removeTask, updateTurn, bulk]
    omega
  unfold endTurn
  dsimp only
  split
  · have hst := abandonAll_stirs (p := (p.updateTurn (fun _ ↦ .none)).endTask task .failed)
      p.turn.pauses
    rw [hst.tasks]
    exact ⟨List.length_filter_le _ _, hended _, fun _ ↦ abandonAll_queue _⟩
  split
  · exact ⟨List.length_filter_le _ _, hended _, fun _ ↦ rfl⟩
  · have htasks : ∀ again : Bool, ∀ q : Playback,
        (if again then q.wake task.id else q).tasks = q.tasks := by
      intro again q
      cases again
      · rfl
      · simp only [wake, if_true]
        split <;> rfl
    rw [htasks]
    refine ⟨Nat.le_of_eq (List.length_map _), ?_, fun hagain ↦ by simp [hagain, modifyTask, updateTurn]⟩
    obtain ⟨t, ht, hid⟩ := List.mem_map.mp (h.running_mem task.id rfl)
    obtain ⟨hpauses, hagenda⟩ := h.empty t ht (by rw [hid])
    have hsum := sum_modifyTask
      (g := fun t ↦ { t with agenda := p.turn.agenda, pauses := p.turn.pauses })
      (Task.weight m.now) h.nodup_ids ht
    have hback : Task.weight m.now { t with agenda := p.turn.agenda, pauses := p.turn.pauses } =
      (p.turn.agenda.map Errand.weight).sum + (p.turn.pauses.map (Pause.weight m.now)).sum := rfl
    rw [hback, hid] at hsum
    have hempty : Task.weight m.now t = 0 := by simp [Task.weight, hpauses, hagenda]
    simp only [bulk, modifyTask, updateTurn]
    omega

theorem revisitAll_agenda (pauses : List Pause) :
    (pauses.foldl (fun p pause ↦ p.revisit pause) p).turn.agenda = p.turn.agenda := by
  induction pauses generalizing p with
  | nil => rfl
  | cons pause rest ih => exact ih.trans (revisit_agenda pause)

/-- A turn does some work, or it wakes nobody. -/
theorem takeTurn_spends {rest : List Nat} (h : p.Orderly m none 0)
    (hq : p.queue = task.id :: rest) (htask : task ∈ p.tasks) :
    let q := takeTurn task { p with queue := rest }
    q.tasks.length + q.work ≤ p.tasks.length + p.work ∧
      (q.work < p.work ∨ (q.work ≤ p.work ∧ q.queue = rest)) := by
  intro q
  have hend : q.Orderly m none 0 := h.takeTurn hq htask
  -- the playback at the beginning of the turn, after the pauses and after the agenda
  obtain ⟨p₁, hp₁⟩ : ∃ p₁, p₁ = ({ p with queue := rest }.modifyTask task.id
    (fun t ↦ { t with agenda := [], pauses := [] })).updateTurn (fun _ ↦ .ofTask task) := ⟨_, rfl⟩
  obtain ⟨p₂, hp₂⟩ : ∃ p₂, p₂ = task.pauses.foldl (fun p pause ↦ p.revisit pause) p₁ := ⟨_, rfl⟩
  obtain ⟨p₃, hp₃⟩ : ∃ p₃, p₃ = p₂.proceed task.agenda := ⟨_, rfl⟩
  have hq₃ : q = p₃.endTurn task := by simp only [q, hp₃, hp₂, hp₁, takeTurn]
  have h₁ : p₁.Orderly m (some task.id) task.pauses.length := hp₁ ▸ h.beginTurn hq htask
  have h₂ : p₂.Orderly m (some task.id) 0 := hp₂ ▸ h₁.revisitAll _ (h.punctual task htask)
  have h₃ : p₃.Orderly m (some task.id) 0 := hp₃ ▸ h₂.proceed _
  have hpauses : p₁.turn.pauses = task.pauses := by rw [hp₁]; rfl
  have hagenda : p₁.turn.agenda = task.agenda := by rw [hp₁]; rfl
  have hspend : Spends m.now p₁ p₃ := by
    refine (hp₂ ▸ revisitAll_spends task.pauses h₁ (.inr ⟨[], by simp [hpauses]⟩)
      (h.punctual task htask) : Spends m.now p₁ p₂).trans ?_
    rw [hp₃]
    refine proceed_spends task.agenda ?_ (congrArg Moment.now h₂.moment)
    rw [hp₂, revisitAll_agenda, hagenda]
  have hbulk₁ : p₁.bulk m.now = p.tasks.length + p.work := by
    rw [← bulk_idle h, hp₁]
    exact bulk_beginTurn (p := { p with queue := rest }) h.nodup_ids htask (h.idle rfl) m.now
  have hlength₁ : p₁.tasks.length = p.tasks.length := by rw [hp₁]; exact List.length_map _
  obtain ⟨hlength, hwork, hcalm⟩ := endTurn_spends h₃
  have hwork' : q.work = ((p₃.endTurn task).tasks.map (Task.weight m.now)).sum := by
    have hnow : q.session.now = m.now := congrArg Moment.now hend.moment
    rw [work, hnow, hq₃]
  rw [← hwork'] at hwork
  rw [← hq₃] at hlength hcalm
  have hle := hspend.bulk
  have hlen := hspend.length
  refine ⟨by omega, ?_⟩
  by_cases he : p₃.bulk m.now = p₁.bulk m.now
  · right
    obtain ⟨hqueue, hagain⟩ := hspend.calm he
    refine ⟨by omega, ?_⟩
    rw [hcalm (hagain.trans (by rw [hp₁]; rfl)), hqueue, hp₁]
    rfl
  · left
    omega

theorem runTask_spends {id : Nat} {rest : List Nat} (h : p.Orderly m none 0)
    (hq : p.queue = id :: rest) :
    let q := runTask id { p with queue := rest }
    q.tasks.length + q.work ≤ p.tasks.length + p.work ∧
      (q.work < p.work ∨ (q.work ≤ p.work ∧ q.queue = rest)) := by
  unfold runTask
  split
  · exact ⟨Nat.le_refl _, .inr ⟨Nat.le_refl _, rfl⟩⟩
  next task hsome =>
    obtain ⟨htask, rfl⟩ := Orderly.task?_eq hsome
    split
    · have hsum := sum_filter_le p.tasks (Task.weight p.session.now) (fun t ↦ t.id != task.id)
      have hlen := List.length_filter_le (fun t : Task ↦ t.id != task.id) p.tasks
      refine ⟨?_, .inr ⟨hsum, rfl⟩⟩
      simp only [removeTask, work] at hsum hlen ⊢
      omega
    · exact takeTurn_spends h hq htask

/-! ## Enough turns -/

theorem queue_length_le (h : p.Orderly m none 0) : p.queue.length ≤ p.tasks.length := by
  have hsub : p.queue ⊆ p.tasks.map Task.id := fun id hid ↦ (h.queued id hid).1
  have hle := List.Nodup.length_le_of_subset h.nodup_queue hsub
  rwa [List.length_map] at hle

/-- With enough turns no task is left ready. -/
theorem runReady_queue {bulk : Nat} (h : p.Orderly m none 0)
    (hbulk : p.tasks.length + p.work ≤ bulk) (bound : Nat)
    (hbound : p.work * (bulk + 1) + p.queue.length ≤ bound) : (runReady bound p).queue = [] := by
  induction bound generalizing p with
  | zero =>
      simp only [runReady]
      exact List.length_eq_zero_iff.mp (by omega)
  | succ bound ih =>
      unfold runReady
      split
      next hq => exact hq
      next id rest hq =>
        obtain ⟨hle, hstep⟩ := runTask_spends h hq
        have hnext := h.runTask hq
        refine ih hnext (Nat.le_trans hle hbulk) ?_
        have hlen := queue_length_le hnext
        rw [hq, List.length_cons] at hbound
        rcases hstep with hlt | ⟨hwork, hqueue⟩
        · -- some work is done: whoever has been woken fits into the bound
          have hmul := Nat.mul_le_mul_right (bulk + 1) (Nat.succ_le_of_lt hlt)
          rw [Nat.succ_mul] at hmul
          omega
        · have hmul := Nat.mul_le_mul_right (bulk + 1) hwork
          rw [hqueue]
          omega

theorem runReady_orderly (h : p.Orderly m none 0) (bound : Nat) :
    (runReady bound p).Orderly m none 0 := by
  induction bound generalizing p with
  | zero => exact h
  | succ bound ih =>
      unfold runReady
      split
      · exact h
      next id rest hq => exact ih (h.runTask hq)

theorem settle_orderly (h : p.Orderly m none 0) : p.settle.Orderly m none 0 :=
  runReady_orderly h _

theorem runReady_idle (hq : p.queue = []) (bound : Nat) : runReady bound p = p := by
  cases bound with
  | zero => rfl
  | succ bound => simp [runReady, hq]

/-- Once settled, a playback has no task ready. -/
theorem settle_queue (h : p.Orderly m none 0) : p.settle.queue = [] := by
  refine runReady_queue h (Nat.le_refl _) _ ?_
  have hmul := Nat.mul_le_mul_left p.work
    (show p.tasks.length + p.work + 1 ≤ p.work + p.tasks.length + 2 by omega)
  rw [turnBound, Nat.succ_mul]
  omega

end turn

end Playback

end Storyline
