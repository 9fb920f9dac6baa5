import Storyline.Proofs.Playback.Pace
import Storyline.Proofs.Playback.Waiters
import Storyline.Proofs.Wrapping.Looks

/-!
# Playbacks of a story with wrapped actions

The two playbacks have the same tasks, which have the same before them.  In the turn
of a task the playbacks are in step as long as it has taken no detour; at its end the
task has failed in both, or has the same before it again.  The queues are not
compared, nor is which tasks have been woken.
-/

namespace Storyline

namespace Wrapping

/-- What a turn leaves: what the task has before it, or its failure. -/
inductive SameTurn (N : Wrapping) (D : Detours) (o : Nat) (t' t : Turn) : Prop
  | works (failed' : t'.failed = false) (failed : t.failed = false)
    (work : N.SameWork D o t'.agenda t.agenda t'.pauses t.pauses)
  | fails (failed' : t'.failed = true) (failed : t.failed = true)
    (parks : List.Forall₂ (fun a b ↦ (a, b) ∈ N.ids) (t'.pauses.filterMap Pause.park?)
      (t.pauses.filterMap Pause.park?))

variable {N : Wrapping} {o : Nat} {x' x : Pause}

theorem SameHold.park? {w' w : Wait} (h : N.SameHold w' w) (e' e : Ending) (scopes' scopes : List Nat) :
    Option.Rel (fun a b ↦ (a, b) ∈ N.ids) (Pause.park? ⟨w', e', scopes'⟩)
      (Pause.park? ⟨w, e, scopes⟩) := by
  cases h with
  | tap h dwell auto => exact .some h
  | _ => exact .none

theorem SameHold.parks (h : N.SameHold x'.wait x.wait) :
    List.Forall₂ (fun a b ↦ (a, b) ∈ N.ids) ([x'].filterMap Pause.park?) ([x].filterMap Pause.park?) :=
  List.rel_filterMap (R := fun x' x : Pause ↦ N.SameHold x'.wait x.wait) (fun _ _ hx ↦ hx.park? _ _ _ _)
    (.cons h .nil)

theorem SamePause.park? (h : N.SamePause o x' x) :
    Option.Rel (fun a b ↦ (a, b) ∈ N.ids) x'.park? x.park? := by
  obtain ⟨w', e', scopes'⟩ := x'
  obtain ⟨w, e, scopes⟩ := x
  cases h.wait with
  | hold h => exact h.park? e' e scopes' scopes
  | drained => exact .none

end Wrapping

namespace Playback

variable {N M : Wrapping} {D E : Detours} {running : Option Nat} {o scope' scope : Nat}
  {p q v w : Playback} {T : Ticket → Ticket → Prop} {t' t : Ticket} {e' e : Ending}

namespace Alike

theorem enter (h : p.Alike N D v) (tapBlocking : Bool)
    (hs : (p.session.modifyScope scope' (.enter tapBlocking)).Twins M E
      (v.session.modifyScope scope (.enter tapBlocking))) :
    (p.enter scope' tapBlocking).Alike M E (v.enter scope tapBlocking) := by
  rw [enter_eq_touch, enter_eq_touch]
  exact h.touch hs _ _

theorem release (h : p.Alike N D v)
    (hs : (p.session.modifyScope t'.scope (.release t')).Twins M E
      (v.session.modifyScope t.scope (.release t))) : (p.release t').Alike M E (v.release t) :=
  ⟨by rwa [release_session h.session.numbered', release_session h.session.numbered],
    by rw [(p.smooth_release t').status, (v.smooth_release t).status, h.status]⟩

/-- What the release of a ticket does holds of the endings that release it. -/
theorem finish {R : Playback → Playback → Prop} (h : p.Alike N D v) (he : N.SameRelease T e' e)
    (hR : ∀ {q w : Playback} {t' t : Ticket}, q.Alike N D w → T t' t → R (q.release t') (w.release t)) :
    R (p.finish e') (v.finish e) := by
  cases he with
  | release ht => exact hR h ht
  | clearTelop text ht => exact hR (h.update (h.session.presentIf (h.session.stage.clearTelop text))) ht
  | coverShown cover hstamp ht =>
      exact hR (h.update (h.session.presentIf
        (h.session.stage.coverShown h.session.ids hstamp cover))) ht

end Alike

/-! ## Suspending -/

/-- A pause goes on, ends or fails in both playbacks. -/
inductive Suspended (N : Wrapping) (D : Detours) (W : Wait → Wait → Prop) (x' x : Pause)
    (p v : Playback) : Playback → Playback → Prop
  | waits {q r : Playback} (hq : p.Stirs q) (hr : v.Stirs r) (ha : q.Alike N D r) {w' w : Wait}
    (hw : W w' w) :
    Suspended N D W x' x p v (q.leave { x' with wait := w' }) (r.leave { x with wait := w })
  | ends {q r : Playback} (hq : p.Stirs q) (hr : v.Stirs r) (ha : q.Alike N D r) :
    Suspended N D W x' x p v (q.finish x'.ending) (r.finish x.ending)
  | fails {q r : Playback} (hq : p.Stirs q) (hr : v.Stirs r) (ha : q.Alike N D r) :
    Suspended N D W x' x p v ((q.leave x').updateTurn fun t ↦ { t with failed := true })
      ((r.leave x).updateTurn fun t ↦ { t with failed := true })

theorem SeenAlike.suspended {W : Wait → Wait → Prop} {x' x : Pause}
    (h : SeenAlike N D W (p.look x'.wait) (v.look x.wait)) :
    Suspended N D W x' x p v (p.suspend x'.wait x'.ending x'.scopes)
      (v.suspend x.wait x.ending x.scopes) := by
  obtain ⟨halike, hverdict⟩ := h
  have hq := p.stirs_look x'.wait
  have hr := v.stirs_look x.wait
  unfold Playback.suspend
  revert halike hverdict hq hr
  generalize p.look x'.wait = seen'
  generalize v.look x.wait = seen
  obtain ⟨q, verdict'⟩ := seen'
  obtain ⟨r, verdict⟩ := seen
  rintro halike (hw | _ | _) hq hr
  · exact .waits hq hr halike hw
  · exact .ends hq hr halike
  · exact .fails hq hr halike

/-! ## Tasks -/

/-- Two playbacks whose tasks have the same before them. -/
structure Twins (N : Wrapping) (D : Detours) (running : Option Nat) (p v : Playback) : Prop
    extends Alike N D p v where
  tasks : List.Forall₂ (N.SameTask D running) p.tasks v.tasks
  spawned : p.spawned = v.spawned
  fresh : ∀ o, p.spawned ≤ o → D o = none

namespace Twins

theorem carry (h : p.Twins N D running v) (hp : p.Stirs q) (hv : v.Stirs w) (hle : N ≤ M)
    (ha : q.Alike M E w) (hE : ∀ u, some u ≠ running → E u = D u)
    (hfresh : ∀ u, p.spawned ≤ u → E u = none) : q.Twins M E running w where
  toAlike := ha
  tasks := by
    rw [hp.tasks, hv.tasks]
    exact h.tasks.imp fun _ _ ht ↦ ht.mono hle (hE _)
  spawned := by rw [hp.spawned, hv.spawned, h.spawned]
  fresh := hp.spawned ▸ hfresh

theorem stirs (h : p.Twins N D running v) (hp : p.Stirs q) (hv : v.Stirs w) (hle : N ≤ M)
    (ha : q.Alike M D w) : q.Twins M D running w :=
  h.carry hp hv hle ha (fun _ _ ↦ rfl) h.fresh

theorem spawn (h : p.Twins N D running v) {agenda' agenda : List Errand}
    (hduty : N.SameDuty D p.spawned agenda' agenda [] []) (home' home : Option Nat) :
    (p.spawn home' agenda').Twins N D running (v.spawn home agenda) := by
  unfold Playback.spawn
  rw [if_neg (by simp [h.session.goes']), if_neg (by simp [h.session.goes])]
  refine ⟨⟨h.session, h.status⟩, List.rel_append h.tasks (.cons ?_ .nil), ?_, fun u hu ↦ ?_⟩
  · exact ⟨h.spawned, rfl, rfl, rfl, rfl, fun _ ↦ h.spawned ▸ hduty⟩
  · exact congrArg (· + 1) h.spawned
  · exact h.fresh u (Nat.le_of_succ_le hu)

end Twins

/-! ## In step -/

/-- Two playbacks at the same moment of the turn of a task that has taken no detour, or
that has nothing to wait for yet. -/
structure InStep (N : Wrapping) (D : Detours) (o : Nat) (p v : Playback) : Prop where
  twins : p.Twins N D (some o) v
  old : o < p.spawned
  agenda : List.Forall₂ (N.SameErrand o) p.turn.agenda v.turn.agenda
  pauses : List.Forall₂ (N.SamePause o) p.turn.pauses v.turn.pauses
  failed : p.turn.failed = v.turn.failed

/-- Two playbacks that are in step, with more names than before. -/
def InStepFrom (N : Wrapping) (D : Detours) (o : Nat) (p v : Playback) : Prop :=
  ∃ M, N ≤ M ∧ p.InStep M D o v

/-- Two playbacks when a task may have set out on a detour, or failed. -/
structure Midway (N : Wrapping) (D : Detours) (o : Nat) (p v : Playback) : Prop where
  twins : p.Twins N D (some o) v
  old : o < p.spawned
  turn : N.SameTurn D o p.turn v.turn

def MidwayFrom (N : Wrapping) (D : Detours) (o : Nat) (p v : Playback) : Prop :=
  ∃ M E, N ≤ M ∧ (∀ u, u ≠ o → E u = D u) ∧ p.Midway M E o v

theorem InStepFrom.weaken (h : p.InStepFrom M D o v) (hle : N ≤ M) : p.InStepFrom N D o v := by
  obtain ⟨L, hle', h⟩ := h
  exact ⟨L, hle.trans hle', h⟩

theorem MidwayFrom.weaken (h : p.MidwayFrom M E o v) (hle : N ≤ M) (hE : ∀ u, u ≠ o → E u = D u) :
    p.MidwayFrom N D o v := by
  obtain ⟨L, F, hle', hF, h⟩ := h
  exact ⟨L, F, hle.trans hle', fun u hu ↦ (hF u hu).trans (hE u hu), h⟩

namespace InStep

theorem here (h : p.InStep N D o v) : p.InStepFrom N D o v := ⟨N, le_rfl, h⟩

theorem session (h : p.InStep N D o v) : p.session.Twins N D v.session := h.twins.session

theorem isOver (h : p.InStep N D o v) : p.isOver = v.isOver := by
  unfold Playback.isOver
  rw [h.session.goes', h.session.goes, h.failed]

theorem midway (h : p.InStep N D o v) (hD : D o = none) : p.Midway N D o v := by
  refine ⟨h.twins, h.old, ?_⟩
  cases hf : v.turn.failed with
  | true => exact .fails (h.failed.trans hf) hf (List.rel_filterMap (fun _ _ hx ↦ hx.park?) h.pauses)
  | false => exact .works (h.failed.trans hf) hf (.plain hD h.agenda h.pauses)

theorem carry (h : p.InStep N D o v) (hp : p.Stirs q) (hv : v.Stirs w) (hle : N ≤ M)
    (ha : q.Alike M E w) (hE : ∀ u, u ≠ o → E u = D u) : q.InStep M E o w where
  twins := h.twins.carry hp hv hle ha (fun u hu ↦ hE u fun he ↦ hu (congrArg some he)) fun u hu ↦
    (hE u (Nat.ne_of_gt (Nat.lt_of_lt_of_le h.old hu))).trans (h.twins.fresh u hu)
  old := hp.spawned ▸ h.old
  agenda := by
    rw [hp.agenda, hv.agenda]
    exact h.agenda.imp fun _ _ he ↦ he.mono hle
  pauses := by
    rw [hp.pauses, hv.pauses]
    exact h.pauses.imp fun _ _ hx ↦ hx.mono hle
  failed := by rw [hp.failed, hv.failed, h.failed]

theorem stirs (h : p.InStep N D o v) (hp : p.Stirs q) (hv : v.Stirs w) (hle : N ≤ M)
    (ha : q.Alike M D w) : q.InStep M D o w :=
  h.carry hp hv hle ha fun _ _ ↦ rfl

theorem note_left (h : p.InStep N D o v) (action : Action) (scope : Nat) (step : Option Nat) :
    (p.note action scope step).InStep N D o v := by
  unfold Playback.note
  split
  · exact h
  · exact { h with twins := { h.twins with } }

theorem note_right (h : p.InStep N D o v) (action : Action) (scope : Nat) (step : Option Nat) :
    p.InStep N D o (v.note action scope step) := by
  unfold Playback.note
  split
  · exact h
  · exact { h with twins := { h.twins with } }

theorem note (h : p.InStep N D o v) (action' action : Action) (scope' scope : Nat)
    (step' step : Option Nat) :
    (p.note action' scope' step').InStep N D o (v.note action scope step) :=
  (h.note_left action' scope' step').note_right action scope step

theorem announce (h : p.InStep N D o v) (step : Option Nat) :
    (p.announce step).InStep N D o (v.announce step) := by
  refine h.stirs (p.stirs_announce step) (v.stirs_announce step) le_rfl ?_
  cases step with
  | none => exact h.twins.toAlike
  | some n => exact h.twins.update (h.session.present fun hstage ↦ hstage.setStep n)

theorem enter (h : p.InStep N D o v) (hroom : N.SameRoom o scope' scope) (tapBlocking : Bool) :
    (p.enter scope' tapBlocking).InStep N D o (v.enter scope tapBlocking) :=
  h.stirs (p.stirs_enter _ _) (v.stirs_enter _ _) le_rfl
    (h.twins.enter tapBlocking (h.session.enter hroom tapBlocking))

theorem release (h : p.InStep N D o v) (hD : D o = none) (ht : N.SameTicket o t' t) :
    (p.release t').InStep N D o (v.release t) :=
  h.stirs (p.stirs_release _) (v.stirs_release _) le_rfl
    (h.twins.toAlike.release (h.session.release ht (.inl hD)))

theorem spawn (h : p.InStep N D o v) {agenda' agenda : List Errand}
    (hduty : N.SameDuty D p.spawned agenda' agenda [] []) (home' home : Option Nat) :
    (p.spawn home' agenda').InStep N D o (v.spawn home agenda) where
  twins := h.twins.spawn hduty home' home
  old := by
    unfold Playback.spawn
    split
    · exact h.old
    · exact Nat.lt_succ_of_lt h.old
  agenda := by
    rw [spawn_turn, spawn_turn]
    exact h.agenda
  pauses := by
    rw [spawn_turn, spawn_turn]
    exact h.pauses
  failed := by
    rw [spawn_turn, spawn_turn]
    exact h.failed

/-! ## Waiting in step -/

theorem leave (h : p.InStep N D o v) {x' x : Pause} (hx : N.SamePause o x' x) :
    (p.leave x').InStep N D o (v.leave x) :=
  { h with
    twins := { h.twins with }
    pauses := List.rel_append h.pauses (.cons hx .nil) }

theorem fail (h : p.InStep N D o v) :
    (p.updateTurn fun t ↦ { t with failed := true }).InStep N D o
      (v.updateTurn fun t ↦ { t with failed := true }) :=
  { h with
    twins := { h.twins with }
    failed := rfl }

theorem finish (h : p.InStep N D o v) (hD : D o = none) (he : N.SameEnding o e' e) :
    (p.finish e').InStep N D o (v.finish e) := by
  refine h.stirs (p.stirs_finish e') (v.stirs_finish e) le_rfl ?_
  cases he with
  | nothing => exact h.twins.toAlike
  | releases he =>
      exact h.twins.toAlike.finish (R := fun p v ↦ p.Alike N D v) he fun hq ht ↦
        hq.release (hq.session.release ht (.inl hD))
  | completed =>
      unfold Playback.finish
      dsimp only
      rw [h.twins.status]
      split
      · exact ⟨h.session, rfl⟩
      · exact h.twins.toAlike

theorem suspend (h : p.InStep N D o v) (hD : D o = none) {x' x : Pause} (hx : N.SamePause o x' x) :
    (p.suspend x'.wait x'.ending x'.scopes).InStep N D o
      (v.suspend x.wait x.ending x.scopes) := by
  have hseen := (h.twins.look hD hx.wait).suspended
  revert hseen
  generalize p.suspend x'.wait x'.ending x'.scopes = q
  generalize v.suspend x.wait x.ending x.scopes = w
  rintro (⟨hq, hr, ha, hw⟩ | ⟨hq, hr, ha⟩ | ⟨hq, hr, ha⟩)
  · exact (h.stirs hq hr le_rfl ha).leave ⟨hw, hx.ending⟩
  · exact (h.stirs hq hr le_rfl ha).finish hD hx.ending
  · exact ((h.stirs hq hr le_rfl ha).leave hx).fail

end InStep

end Playback

end Storyline
