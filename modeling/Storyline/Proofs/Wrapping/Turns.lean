import Storyline.Proofs.Playback.Idle
import Storyline.Proofs.Wrapping.Detours

/-!
# Turns in a story with wrapped actions

A task has its turn in both playbacks.  If it works through a list, it looks at what it
waits for and begins its errands in step; a settling releases its ticket.  At the end of
the turn the task is put back in both playbacks, or taken out of both.
-/

namespace Storyline

/-- Filtering two lists alike. -/
theorem forall₂_filter {α β : Type} {R S : α → β → Prop} {f : α → Bool} {g : β → Bool} {as : List α}
    {bs : List β} (h : List.Forall₂ R as bs) (hfg : ∀ {a b}, R a b → f a = g b)
    (hS : ∀ {a b}, R a b → g b = true → S a b) : List.Forall₂ S (as.filter f) (bs.filter g) := by
  induction h with
  | nil => exact .nil
  | @cons a b as bs hab _ ih =>
      rw [List.filter_cons, List.filter_cons, hfg hab]
      split
      next hb => exact .cons (hS hab hb) ih
      next => exact ih

namespace Playback

open Wrapping (Swapped)

variable {N M : Wrapping} {D E : Detours} {o scope' scope : Nat} {p q v w : Playback} {e' e : Errand}

theorem InStepFrom.midway (h : p.InStepFrom N D o v) (hD : D o = none) : p.MidwayFrom N D o v := by
  obtain ⟨M, hle, h⟩ := h
  exact ⟨M, D, hle, fun _ _ ↦ rfl, h.midway hD⟩

namespace InStep

theorem begin (h : p.InStep N D o v) (hD : D o = none) (hfree : p.turn.isFree = true)
    (he : N.SameErrand o e' e) : (p.begin e').MidwayFrom N D o (v.begin e) := by
  cases he with
  | perform hwraps hroom step =>
      cases hwraps with
      | cue walked c => exact (h.perform (.cue c) hD (.cue false c) hroom _ _ step).midway hD
      | wrap hc => exact h.performWrapped hD hfree hc hroom _ _ step
      | block walked hparts => exact (h.perform _ hD (.block false hparts) hroom _ _ step).midway hD
      | fork walked hparts => exact (h.perform _ hD (.fork false hparts) hroom [] [] step).midway hD
  | @drain scope' scope hroom tally guarded e' e he =>
      have hx : N.SamePause o ⟨.drained scope' tally guarded, e', [scope']⟩
          ⟨.drained scope tally guarded, e, [scope]⟩ := ⟨.drained hroom tally guarded, he⟩
      exact (h.suspend hD hx).here.midway hD
  | @animate shake stamp' stamp hstamp d =>
      have harmed := h.stirs p.stirs_arm v.stirs_arm le_rfl h.twins.arm
      have hx : N.SamePause o
          ⟨.frame shake stamp' d v.session.now 0 (v.timer (some v.session.now)), .nothing, []⟩
          ⟨.frame shake stamp d v.session.now 0 (v.timer (some v.session.now)), .nothing, []⟩ :=
        ⟨.hold (.frame shake hstamp d _ 0 _), .nothing⟩
      unfold Playback.begin
      dsimp only
      rw [h.session.now, h.twins.timer]
      exact (harmed.suspend hD hx).here.midway hD
  | fastForward =>
      have hx : N.SamePause o ⟨.forward none, .nothing, []⟩ ⟨.forward none, .nothing, []⟩ :=
        ⟨.hold .unlit, .nothing⟩
      exact (h.suspend hD hx).here.midway hD

theorem revisit (h : p.InStep N D o v) (hD : D o = none) {x' x : Pause} (hx : N.SamePause o x' x) :
    (p.revisit x').InStep N D o (v.revisit x) := by
  cases hf : v.turn.failed with
  | true => rwa [revisit_failed (h.failed.trans hf), revisit_failed hf]
  | false =>
      rw [revisit_eq (h.failed.trans hf), revisit_eq hf]
      have htail := List.forall₂_drop 1 h.pauses
      rw [List.drop_one, List.drop_one] at htail
      have haside : p.aside.InStep N D o v.aside :=
        { h with
          twins := { h.twins with }
          pauses := htail }
      exact haside.suspend hD hx

theorem revisitAll (h : p.InStep N D o v) (hD : D o = none) {pauses' pauses : List Pause}
    (hpauses : List.Forall₂ (N.SamePause o) pauses' pauses) :
    (pauses'.foldl (fun p x ↦ p.revisit x) p).InStep N D o
      (pauses.foldl (fun v x ↦ v.revisit x) v) := by
  induction hpauses generalizing p v with
  | nil => exact h
  | cons hx _ ih => exact ih (h.revisit hD hx)

end InStep

theorem Midway.held (h : p.Midway N D o v) (hp : p.turn.isFree = false) (hv : v.turn.isFree = false)
    (agenda' agenda : List Errand) : (proceed agenda' p).MidwayFrom N D o (proceed agenda v) := by
  rw [proceed_held hp, proceed_held hv]
  exact ⟨N, D, le_rfl, fun _ _ ↦ rfl, h⟩

/-- The errands are begun in step until one leaves something to wait for. -/
theorem Midway.proceed {agenda' agenda : List Errand} (h : p.Midway N D o v)
    (hagenda' : p.turn.agenda = agenda') (hagenda : v.turn.agenda = agenda) :
    (proceed agenda' p).MidwayFrom N D o (proceed agenda v) := by
  induction agenda' generalizing N D p v agenda with
  | nil =>
      cases h.turn with
      | fails hf' hf => exact h.held (by simp [Turn.isFree, hf']) (by simp [Turn.isFree, hf]) _ _
      | works hf' hf hwork =>
          have hsame : List.Forall₂ (N.SameErrand o) p.turn.agenda v.turn.agenda := by
            cases hwork with
            | plain _ he => exact he
            | wrapped _ he => exact he
          rw [hagenda', hagenda] at hsame
          rw [List.forall₂_nil_left_iff.mp hsame]
          exact ⟨N, D, le_rfl, fun _ _ ↦ rfl, h⟩
  | cons e' rest' ih =>
      cases h.turn with
      | fails hf' hf => exact h.held (by simp [Turn.isFree, hf']) (by simp [Turn.isFree, hf]) _ _
      | works hf' hf hwork =>
          cases hwork with
          | wrapped hD he hw hx scopes' scopes inners hpauses' hpauses =>
              exact h.held (by simp [Turn.isFree, hpauses']) (by simp [Turn.isFree, hpauses]) _ _
          | plain hD he hpauses =>
              have hsame : v.turn.isFree = p.turn.isFree := by
                unfold Turn.isFree
                rw [hf', hf, isEmpty_eq_of_forall₂ hpauses]
              cases hfree : p.turn.isFree with
              | false => exact h.held hfree (hsame.trans hfree) _ _
              | true =>
                  rw [hagenda', hagenda] at he
                  obtain _ | @⟨_, e, _, rest, he, hrest⟩ := he
                  have htaken : (p.updateTurn fun t ↦ { t with agenda := rest' }).InStep N D o
                      (v.updateTurn fun t ↦ { t with agenda := rest }) :=
                    ⟨{ h.twins with }, h.old, hrest, hpauses, hf'.trans hf.symm⟩
                  obtain ⟨M, E, hle, hE, hbegun⟩ := htaken.begin hD hfree he
                  have hmore := ih hbegun (costs_begin e' rfl).agenda (costs_begin e rfl).agenda
                  unfold Playback.proceed
                  rw [hfree, hsame.trans hfree, if_pos rfl, if_pos rfl]
                  exact hmore.weaken hle hE

/-! ## The table -/

/-- A task that waits for something is put back, and may be woken at once. -/
theorem endTurn_waiting (task : Task) (hf : p.turn.failed = false) (hne : p.turn.pauses ≠ []) :
    ∃ queue, p.endTurn task = { (p.updateTurn fun _ ↦ .none).modifyTask task.id (fun t ↦
      { t with agenda := p.turn.agenda, pauses := p.turn.pauses }) with queue := queue } := by
  unfold Playback.endTurn
  dsimp only
  rw [if_neg (by simp [hf]), if_neg (by simpa using hne)]
  split
  · exact ⟨_, wakeAll_eq _ [task.id]⟩
  · exact ⟨p.queue, rfl⟩

variable {task' task : Task}

namespace Twins

theorem requeue {running : Option Nat} (h : p.Twins N D running v) (queue' queue : List Nat) :
    Twins N D running { p with queue := queue' } { v with queue := queue } :=
  { h with }

theorem modifyTask {r running : Option Nat} (h : p.Twins N D r v) {f' f : Task → Task}
    (hself : ∀ {t' t}, N.SameTask D r t' t → t.id = o → N.SameTask D running (f' t') (f t))
    (hother : ∀ {t' t}, N.SameTask D r t' t → t.id ≠ o → N.SameTask D running t' t) :
    (p.modifyTask o f').Twins N D running (v.modifyTask o f) := by
  refine { h with tasks := List.rel_map (R := N.SameTask D r) (fun t' t ht ↦ ?_) h.tasks }
  rw [ht.id]
  by_cases he : t.id = o
  · rw [if_pos (by simpa using he), if_pos (by simpa using he)]
    exact hself ht he
  · rw [if_neg (by simpa using he), if_neg (by simpa using he)]
    exact hother ht he

/-- The other tasks have before them what they had. -/
theorem other {t' t : Task} (h : N.SameTask D (some o) t' t) (hne : t.id ≠ o) :
    N.SameTask D none t' t :=
  { h with duty := fun _ ↦ h.duty (by simpa using hne) }

theorem begun (h : p.Twins N D none v) (hid : task'.id = task.id) :
    (p.begun task').Twins N D (some task.id) (v.begun task) := by
  have hemptied : ((p.modifyTask task.id fun t ↦ { t with agenda := [], pauses := [] })).Twins N D
      (some task.id) (v.modifyTask task.id fun t ↦ { t with agenda := [], pauses := [] }) :=
    h.modifyTask (fun ht he ↦ { ht with duty := fun hne ↦ absurd (congrArg some he) hne })
      fun ht _ ↦ { ht with duty := fun _ ↦ ht.duty (by simp) }
  unfold Playback.begun
  rw [hid]
  exact { hemptied with }

theorem putBack (h : p.Twins N D (some o) v) {agenda' agenda : List Errand} {pauses' pauses : List Pause}
    (hduty : N.SameDuty D o agenda' agenda pauses' pauses) :
    (p.modifyTask o fun t ↦ { t with agenda := agenda', pauses := pauses' }).Twins N D none
      (v.modifyTask o fun t ↦ { t with agenda := agenda, pauses := pauses }) :=
  h.modifyTask (fun ht he ↦ { ht with duty := fun _ ↦ by subst he; exact hduty }) other

theorem endTask (h : p.Twins N D (some task.id) v) (hid : task'.id = task.id)
    (outcome' outcome : Outcome) :
    (p.endTask task' outcome').Twins N D none (v.endTask task outcome) := by
  refine { h with tasks := forall₂_filter h.tasks (fun ht ↦ ?_) fun ht hne ↦ other ht (by simpa using hne) }
  rw [ht.id, hid]

theorem abandonAll {running : Option Nat} (h : p.Twins N D running v) {pauses' pauses : List Pause}
    (hparks : List.Forall₂ (fun a b ↦ (a, b) ∈ N.ids) (pauses'.filterMap Pause.park?)
      (pauses.filterMap Pause.park?)) :
    (p.abandonAll pauses').Twins N D running (v.abandonAll pauses) := by
  unfold Playback.abandonAll
  revert hparks
  generalize pauses'.filterMap Pause.park? = parks'
  generalize pauses.filterMap Pause.park? = parks
  intro hparks
  induction hparks generalizing p v with
  | nil => exact h
  | cons hpark _ ih => exact ih { h with session := h.session.abandon hpark }

/-! ## The end of a turn -/

theorem endFailed (h : p.Twins N D (some task.id) v) (hid : task'.id = task.id)
    (hf' : p.turn.failed = true) (hf : v.turn.failed = true)
    (hparks : List.Forall₂ (fun a b ↦ (a, b) ∈ N.ids) (p.turn.pauses.filterMap Pause.park?)
      (v.turn.pauses.filterMap Pause.park?)) : (p.endTurn task').Twins N D none (v.endTurn task) := by
  have hcleared : (p.updateTurn fun _ ↦ .none).Twins N D (some task.id) (v.updateTurn fun _ ↦ .none) :=
    { h with }
  unfold Playback.endTurn
  dsimp only
  rw [if_pos hf', if_pos hf]
  exact (hcleared.endTask hid _ _).abandonAll hparks

theorem endDone (h : p.Twins N D (some task.id) v) (hid : task'.id = task.id)
    (hf' : p.turn.failed = false) (hf : v.turn.failed = false) (hpauses' : p.turn.pauses = [])
    (hpauses : v.turn.pauses = []) : (p.endTurn task').Twins N D none (v.endTurn task) := by
  have hcleared : (p.updateTurn fun _ ↦ .none).Twins N D (some task.id) (v.updateTurn fun _ ↦ .none) :=
    { h with }
  unfold Playback.endTurn
  dsimp only
  rw [hf', hf, hpauses', hpauses]
  exact hcleared.endTask hid _ _

theorem endWaiting (h : p.Twins N D (some task.id) v) (hid : task'.id = task.id)
    (hf' : p.turn.failed = false) (hf : v.turn.failed = false) (hpauses' : p.turn.pauses ≠ [])
    (hpauses : v.turn.pauses ≠ [])
    (hduty : N.SameDuty D task.id p.turn.agenda v.turn.agenda p.turn.pauses v.turn.pauses) :
    (p.endTurn task').Twins N D none (v.endTurn task) := by
  have hcleared : (p.updateTurn fun _ ↦ .none).Twins N D (some task.id) (v.updateTurn fun _ ↦ .none) :=
    { h with }
  obtain ⟨queue', hp⟩ := endTurn_waiting task' hf' hpauses'
  obtain ⟨queue, hv⟩ := endTurn_waiting task hf hpauses
  rw [hp, hv, hid]
  exact (hcleared.putBack hduty).requeue queue' queue

end Twins

theorem Midway.endTurn (h : p.Midway N D task.id v) (hid : task'.id = task.id) :
    (p.endTurn task').Twins N D none (v.endTurn task) := by
  cases h.turn with
  | fails hf' hf hparks => exact h.twins.endFailed hid hf' hf hparks
  | works hf' hf hwork =>
      have hempty : v.turn.pauses = [] ↔ p.turn.pauses = [] := by
        cases hwork with
        | plain _ _ hpauses => rw [← List.isEmpty_iff, ← List.isEmpty_iff, isEmpty_eq_of_forall₂ hpauses]
        | wrapped _ _ _ _ _ _ _ hpauses' hpauses => simp [hpauses', hpauses]
      by_cases hnone : p.turn.pauses = []
      · exact h.twins.endDone hid hf' hf hnone (hempty.mpr hnone)
      · exact h.twins.endWaiting hid hf' hf hnone (mt hempty.mp hnone) (.works hwork)

theorem MidwayFrom.endTurn (h : p.MidwayFrom N D task.id v) (hid : task'.id = task.id) :
    ∃ M E, N ≤ M ∧ (p.endTurn task').Twins M E none (v.endTurn task) := by
  obtain ⟨M, E, hle, -, h⟩ := h
  exact ⟨M, E, hle, h.endTurn hid⟩

/-! ## Settlings -/

theorem suspend_sleep (hc : p.session.cancelled = false) (timer : Timer) (skips : Nat) (e : Ending)
    (scopes : List Nat) :
    p.suspend (.sleep timer skips) e scopes =
      if timer.isDue p.session.now || p.session.skips != skips then p.finish e
      else p.leave ⟨.sleep timer skips, e, scopes⟩ := by
  simp only [suspend, look, lookAtSleep, hc, Bool.false_eq_true, if_false]
  by_cases hdue : (timer.isDue p.session.now || p.session.skips != skips) = true <;> simp [hdue]

/-- A settling waits on, or it releases its ticket and is over. -/
theorem Twins.settle (h : p.Twins N D (some task.id) v) (hid : task'.id = task.id)
    (hf' : p.turn.failed = false) (hf : v.turn.failed = false) (hpauses' : p.turn.pauses = [])
    (hpauses : v.turn.pauses = []) (hagenda' : p.turn.agenda = []) (hagenda : v.turn.agenda = [])
    {t' t : Ticket} (ht : N.Settles t' t) (hpos : 0 < p.session.pending t'.scope .actions)
    (timer : Timer) (skips : Nat) (scopes' scopes : List Nat) :
    ((p.suspend (.sleep timer skips) (.release t') scopes').endTurn task').Twins N D none
      ((v.suspend (.sleep timer skips) (.release t) scopes).endTurn task) := by
  rw [suspend_sleep h.session.goes', suspend_sleep h.session.goes, h.session.now, h.session.skips]
  split
  · have hp := p.stirs_release t'
    have hv := v.stirs_release t
    obtain ⟨⟨o, hsame⟩, htap⟩ := ht
    have hreleased := h.stirs hp hv le_rfl
      (h.toAlike.release (h.session.release hsame (.inr ⟨htap, hpos⟩)))
    exact hreleased.endDone hid (hp.failed.trans hf') (hv.failed.trans hf) (hp.pauses.trans hpauses')
      (hv.pauses.trans hpauses)
  · have hleft : (p.leave ⟨.sleep timer skips, .release t', scopes'⟩).Twins N D (some task.id)
        (v.leave ⟨.sleep timer skips, .release t, scopes⟩) := { h with }
    exact hleft.endWaiting hid hf' hf (by simp [leave, updateTurn]) (by simp [leave, updateTurn])
      (.settles timer skips ht scopes' scopes hagenda' hagenda (congrArg (· ++ [_]) hpauses')
        (congrArg (· ++ [_]) hpauses))

/-- A ticket counts in its scope, unless that has been reset. -/
def Counted (p : Playback) (t : Ticket) : Prop :=
  ∀ sc, p.session.scope? t.scope = some sc → sc.actions.epoch = t.epoch → 0 < sc.actions.pending

theorem Alike.settles_pending (h : p.Alike N D v) {t' t : Ticket} (ht : N.Settles t' t)
    (hcounted : p.Counted t') : 0 < p.session.pending t'.scope .actions := by
  obtain ⟨⟨o, hsame⟩, -⟩ := ht
  obtain ⟨sc, _, hsc, _, hscope⟩ := h.session.rooms hsame.room
  rw [Session.pending_eq hsc]
  exact hcounted sc hsc ((hscope.epoch' .actions).trans hsame.first'.epoch.symm)

/-! ## Turns -/

/-- A task has its turn in both playbacks. -/
theorem Twins.takeTurn (h : p.Twins N D none v) (hold : task'.id < p.spawned)
    (ht : N.SameTask D none task' task) (hcounted : ∀ t ∈ task'.tickets, p.Counted t) :
    ∃ M E, N ≤ M ∧ (takeTurn task' p).Twins M E none (takeTurn task v) := by
  have hbegun := h.begun ht.id
  have hold : task.id < (p.begun task').spawned := ht.id ▸ hold
  have hagenda' : (task'.pauses.foldl (fun p x ↦ p.revisit x) (p.begun task')).turn.agenda =
      task'.agenda := revisitAll_agenda _
  have hagenda : (task.pauses.foldl (fun p x ↦ p.revisit x) (v.begun task)).turn.agenda =
      task.agenda := revisitAll_agenda _
  rw [takeTurn_eq, takeTurn_eq]
  unfold worked
  cases ht.duty (by simp) with
  | works hwork =>
      refine MidwayFrom.endTurn (D := D) ?_ ht.id
      cases hwork with
      | plain hD he hx =>
          have hstep : (p.begun task').InStep N D task.id (v.begun task) :=
            ⟨hbegun, hold, he, hx, rfl⟩
          exact ((hstep.revisitAll hD hx).midway hD).proceed hagenda' hagenda
      | @wrapped d hD he w' w hw e' e hending scopes' scopes inners hpauses' hpauses =>
          obtain ⟨M, E, hle, hE, hback⟩ := hbegun.resume ⟨w', e', scopes'⟩ ⟨w, e, scopes⟩ hold hD
            he rfl rfl hw hending rfl hpauses' hpauses
          rw [hpauses'] at hagenda' ⊢
          rw [hpauses] at hagenda ⊢
          exact (hback.proceed hagenda' hagenda).weaken hle hE
  | @settling d ticket' ticket hsettles scopes' scopes hagenda' hagenda hpauses' hpauses =>
      have hpos := h.settles_pending hsettles (hcounted ticket' (by
        simp [Task.tickets, hagenda', Errand.tickets, Ending.ticket?]))
      have hfree' : (p.begun task').turn.isFree = true := by
        simp [Turn.isFree, Playback.begun, updateTurn, Turn.ofTask, hpauses']
      have hfree : (v.begun task).turn.isFree = true := by
        simp [Turn.isFree, Playback.begun, updateTurn, Turn.ofTask, hpauses]
      refine ⟨N, D, le_rfl, ?_⟩
      rw [hagenda', hagenda, hpauses', hpauses]
      simp only [List.foldl_nil, Playback.proceed, hfree', hfree, if_true]
      have htaken : ((p.begun task').updateTurn fun t ↦ { t with agenda := [] }).Twins N D
          (some task.id) ((v.begun task).updateTurn fun t ↦ { t with agenda := [] }) :=
        { hbegun with }
      have harmed := htaken.stirs (stirs_arm _) (stirs_arm _) le_rfl htaken.arm
      unfold Playback.begin sleep
      dsimp only
      rw [htaken.session.now, htaken.session.skips, htaken.timer]
      exact harmed.settle ht.id rfl rfl hpauses' hpauses rfl rfl hsettles hpos _ _ scopes' scopes
  | @settles timer skips ticket' ticket hsettles scopes' scopes hagenda' hagenda hpauses' hpauses =>
      have hpos := h.settles_pending hsettles (hcounted ticket' (by
        simp [Task.tickets, hpauses', Pause.tickets, Ending.ticket?]))
      refine ⟨N, D, le_rfl, ?_⟩
      rw [hagenda', hagenda, hpauses', hpauses]
      simp only [List.foldl_cons, List.foldl_nil, Playback.proceed]
      rw [revisit_eq rfl, revisit_eq rfl]
      have haside : (p.begun task').aside.Twins N D (some task.id) (v.begun task).aside := { hbegun with }
      exact haside.settle ht.id rfl rfl (congrArg List.tail hpauses') (congrArg List.tail hpauses) hagenda'
        hagenda hsettles hpos timer skips scopes' scopes

theorem Twins.task? {running : Option Nat} (h : p.Twins N D running v) (id : Nat) :
    Option.Rel (N.SameTask D running) (p.task? id) (v.task? id) :=
  (Weave.of_forall₂ (Q := fun _ ↦ False) h.tasks).find? (fun ht ↦ by rw [ht.id]) False.elim

theorem Twins.runTask (h : p.Twins N D none v) (id : Nat) (hold : ∀ t ∈ p.tasks, t.id < p.spawned)
    (hcounted : ∀ task ∈ p.tasks, ∀ t ∈ task.tickets, p.Counted t) :
    ∃ M E, N ≤ M ∧ (runTask id p).Twins M E none (runTask id v) := by
  have htask := h.task? id
  have hmem : ∀ t, p.task? id = some t → t ∈ p.tasks := fun t ht ↦ List.mem_of_find?_eq_some ht
  unfold Playback.runTask
  revert htask hmem
  generalize p.task? id = found'
  generalize v.task? id = found
  rintro (ht | _) hmem
  · dsimp only
    rw [ht.whole', ht.whole, if_neg Bool.false_ne_true, if_neg Bool.false_ne_true]
    exact h.takeTurn (hold _ (hmem _ rfl)) ht (hcounted _ (hmem _ rfl))
  · exact ⟨N, D, le_rfl, h⟩

end Playback

end Storyline
