import Storyline.Proofs.Wrapping.Performing

/-!
# The detour of a wrapped action

A wrapped action counts in the scope of its block, while the action itself counts in
the scope around it.  Its task waits for the action and then for the block, so when the
action is over, both are.
-/

namespace Storyline

namespace Playback

open Wrapping (Swapped)

variable {N M : Wrapping} {D E : Detours} {o scope' scope : Nat} {p q v w : Playback} {d : Detour}
  {e' e : Ending} {t' t : Ticket} {x' x y : Pause}

/-! ## The block around a wrapped action -/

/-- To enter and leave a scope at once changes nothing in the session. -/
theorem pass_session (h : q.session.Numbered) (scope : Nat) :
    ((q.enter scope false).release (q.session.ticket scope false)).session = q.session := by
  have hentered : (q.enter scope false).session = q.session.modifyScope scope (.enter false) := by
    rw [enter_eq_touch, touch_session]
  have hnumbered : (q.enter scope false).session.Numbered := by
    rw [hentered]
    exact Session.numbered_modifyScope (fun sc ↦ rfl) h
  rw [release_session hnumbered, hentered, Session.ticket_scope]
  exact Session.modifyScope_enter_release h scope

theorem InStep.openInner (h : p.InStep N D o v) (scope' : Nat) (step : Option Nat) :
    (p.openWithin scope' step).session =
        ((p.announce step).session.openScope (some scope')).2 ∧
      (p.openWithin scope' step).InStep (N.enclose p.session.serial) D o (v.announce step) := by
  have hannounced := h.announce step
  have hsession : (p.openWithin scope' step).session =
      ((p.announce step).session.openScope (some scope')).2 :=
    congrArg (fun s ↦ (s.openScope (some scope')).2) (pass_session hannounced.session.numbered' scope')
  refine ⟨hsession, h.stirs (stirs_openWithin p scope' step) (v.stirs_announce step)
    (N.le_enclose _) ⟨?_, ?_⟩⟩
  · have hopened := hannounced.session.openInner (some scope')
    rw [serial_announce] at hopened
    exact hsession ▸ hopened
  · exact (smooth_openWithin p scope' step).status.trans
      (h.twins.status.trans (v.smooth_announce step).status.symm)

/-- The task sets out on its detour as the wrapped action enters the scope of the block. -/
theorem InStep.setOut (h : p.InStep N D o v) (hD : D o = none) (hroom : N.SameRoom o scope' scope)
    {inner : Nat} {parent : Option Nat} (hinner : inner ∈ N.inners)
    (hsc : p.session.scope? inner = some (Scope.fresh inner parent))
    (hunused : ∀ u d, D u = some d → d.inner ≠ inner) (tapBlocking : Bool) :
    let d : Detour := ⟨inner, v.session.ticket scope tapBlocking⟩
    Swapped d (p.session.ticket inner tapBlocking) (v.session.ticket scope tapBlocking) ∧
      (p.enter inner tapBlocking).InStep N (Function.update D o (some d)) o
        (v.enter scope tapBlocking) := by
  intro d
  refine ⟨⟨?_, rfl⟩, h.carry (p.stirs_enter _ _) (v.stirs_enter _ _) le_rfl
    (h.twins.enter tapBlocking (h.session.detour hroom hD hinner hsc rfl hunused tapBlocking))
    fun u hu ↦ Function.update_of_ne hu _ _⟩
  have hticket : p.session.ticket inner tapBlocking = (Scope.fresh inner parent).ticket tapBlocking := by
    simp only [Session.ticket, hsc]
  rw [hticket]
  cases tapBlocking with
  | false => exact congrArg (Ticket.mk inner 0) (Session.ticket_tapless scope).symm
  | true =>
      have hfirst := (h.session.ticket hroom true).first
      obtain ⟨-, sc, -, hsc, -⟩ := h.session.rooms hroom
      have hid : sc.id = scope := by simpa using List.find?_some hsc
      have htap := Session.ticket_tapEpoch h.session.numbered
        (List.mem_map.mpr ⟨sc, List.mem_of_find?_eq_some hsc, hid⟩) true
      obtain ⟨epoch, hepoch⟩ := Option.isSome_iff_exists.mp htap
      have hzero : d.ticket.tapEpoch = some 0 := hepoch.trans (congrArg some (hfirst.tapped _ hepoch))
      exact congrArg (Ticket.mk inner 0) hzero.symm

/-- At its end a block enters and leaves its scope once more, and waits for what counts there. -/
theorem performCue_close (h : q.session.Numbered) (hgoes : q.isOver = false) (inner : Nat)
    (scopes : List Nat) :
    ∃ z, q.Stirs z ∧ z.session = q.session ∧ z.status = q.status ∧
      q.performCue .waitForAll inner scopes none =
        if q.session.pending inner .actions = 0 then z
        else z.leave ⟨.drained inner .actions true, .nothing, scopes⟩ := by
  obtain ⟨z, hz⟩ : ∃ z, z = (q.enter inner false).release (q.session.ticket inner false) := ⟨_, rfl⟩
  have hsession : z.session = q.session := hz ▸ pass_session h inner
  have hrunning : q.session.cancelled = false := by
    cases hc : q.session.cancelled <;> simp_all [isOver]
  have hperform : q.performCue .waitForAll inner scopes none =
      z.suspend (.drained inner .actions true) .nothing scopes := by
    unfold performCue
    rw [if_neg (by simp [hgoes]), hz]
    rfl
  refine ⟨z, hz ▸ (q.stirs_enter inner false).trans (stirs_release _ _), hsession,
    hz ▸ (smooth_release _ _).status.trans (q.smooth_enter inner false).status, ?_⟩
  rw [hperform, suspend_drained (hsession ▸ hrunning), hsession]
  rfl

theorem Alike.counts (h : q.Alike N D w) (hD : D o = some d) :
    q.session.pending d.inner .actions = 1 := by
  obtain ⟨sc, hsc, hone⟩ := h.session.counts hD
  rw [Session.pending_eq hsc]
  exact congrArg Counter.pending hone

theorem Alike.close_waits (h : q.Alike N D w) (hD : D o = some d) (hgoes : q.isOver = false)
    (scopes : List Nat) :
    ∃ z, q.Stirs z ∧ z.Alike N D w ∧ q.performCue .waitForAll d.inner scopes none =
      z.leave ⟨.drained d.inner .actions true, .nothing, scopes⟩ := by
  obtain ⟨z, hz, hsession, hstatus, heq⟩ :=
    performCue_close h.session.numbered' hgoes d.inner scopes
  rw [h.counts hD, if_neg Nat.one_ne_zero] at heq
  exact ⟨z, hz, ⟨hsession ▸ h.session, hstatus.trans h.status⟩, heq⟩

theorem Alike.close_ends (h : q.Alike N D w) (hgoes : q.isOver = false) {inner : Nat}
    (hzero : q.session.pending inner .actions = 0) (scopes : List Nat) :
    q.Stirs (q.performCue .waitForAll inner scopes none) ∧
      (q.performCue .waitForAll inner scopes none).Alike N D w := by
  obtain ⟨z, hz, hsession, hstatus, heq⟩ := performCue_close h.session.numbered' hgoes inner scopes
  rw [if_pos hzero] at heq
  rw [heq]
  exact ⟨hz, hsession ▸ h.session, hstatus.trans h.status⟩

/-! ## The end of a detour -/

theorem Alike.rejoin (h : q.Alike N D w) (hD : D o = some d) (ht : Swapped d t' t) :
    (q.release t').Alike N (Function.update D o none) (w.release t) ∧
      (q.release t').session.pending d.inner .actions = 0 := by
  obtain ⟨rfl, rfl⟩ := ht
  refine ⟨h.release (h.session.rejoin hD), ?_⟩
  obtain ⟨sc, hsc, hone⟩ := h.session.counts hD
  have hsc : (q.session.modifyScope d.taken.scope (.release d.taken)).scope? d.inner =
      some (sc.release d.taken) := Session.scope?_modifyScope_self (Scope.release_id _) hsc
  rw [release_session h.session.numbered', Session.pending_eq hsc]
  change (sc.release d.taken).actions.pending = 0
  rw [Scope.release_actions, hone]
  rfl

theorem Twins.rejoin (h : q.Twins N D (some o) w) (hold : o < q.spawned) (hD : D o = some d)
    (he : N.SameRelease (Swapped d) e' e) :
    (q.finish e').Twins N (Function.update D o none) (some o) (w.finish e) ∧
      (q.finish e').session.pending d.inner .actions = 0 := by
  obtain ⟨halike, hzero⟩ := h.toAlike.finish
    (R := fun q w ↦ q.Alike N (Function.update D o none) w ∧ q.session.pending d.inner .actions = 0)
    he fun hq ht ↦ hq.rejoin hD ht
  refine ⟨h.carry (q.stirs_finish e') (w.stirs_finish e) le_rfl halike (fun u hu ↦ ?_) fun u hu ↦ ?_,
    hzero⟩
  · exact Function.update_of_ne (fun he ↦ hu (congrArg some he)) _ _
  · rw [Function.update_of_ne (Nat.ne_of_gt (Nat.lt_of_lt_of_le hold hu))]
    exact h.fresh u hu

/-! ## On the way -/

/-- A block ends at once, if its action is over at once. -/
theorem InStep.closeEnded (h : q.InStep N D o w) (hD : D o = none) (hgoes : q.turn.failed = false)
    {inner : Nat} (hzero : q.session.pending inner .actions = 0) (scopes : List Nat) :
    (q.performCue .waitForAll inner scopes none).MidwayFrom N D o w := by
  have hover : q.isOver = false := by simp [Playback.isOver, h.session.goes', hgoes]
  obtain ⟨hst, halike⟩ := h.twins.close_ends hover hzero scopes
  exact ⟨N, D, le_rfl, fun _ _ ↦ rfl, (h.stirs hst (.refl w) le_rfl halike).midway hD⟩

theorem InStep.pauses_nil (h : q.InStep N D o w) (hnone : q.turn.pauses = []) : w.turn.pauses = [] := by
  have hsame := h.pauses
  rw [hnone] at hsame
  exact List.forall₂_nil_left_iff.mp hsame

/-- A block waits while its action waits. -/
theorem InStep.closeWaiting (h : q.InStep N D o w) (hD : D o = some d) (x' x : Pause) (hnone : q.turn.pauses = [])
    (hgoes : q.turn.failed = false) (hw : N.SameHold x'.wait x.wait)
    (he : N.SameRelease (Swapped d) x'.ending x.ending) (scopes : List Nat) :
    ((q.leave x').performCue .waitForAll d.inner scopes none).MidwayFrom N D o (w.leave x) := by
  have hleft : (q.leave x').Twins N D (some o) (w.leave x) := { h.twins with }
  have hover : (q.leave x').isOver = false := by
    simp [Playback.isOver, Playback.leave, updateTurn, h.session.goes', hgoes]
  obtain ⟨z, hz, halike, heq⟩ := hleft.toAlike.close_waits hD hover scopes
  have hpauses' : z.turn.pauses = [x'] := hz.pauses.trans (congrArg (· ++ [x']) hnone)
  have hpauses : (w.leave x).turn.pauses = [x] := congrArg (· ++ [x]) (h.pauses_nil hnone)
  have hagenda : z.turn.agenda = q.turn.agenda := hz.agenda
  rw [heq]
  refine ⟨N, D, le_rfl, fun _ _ ↦ rfl, { hleft.stirs hz (.refl _) le_rfl halike with },
    hz.spawned ▸ h.old, .works (hz.failed.trans hgoes) (h.failed.symm.trans hgoes) ?_⟩
  exact .wrapped hD (hagenda ▸ h.agenda) hw he x'.scopes x.scopes scopes
    (congrArg (· ++ [_]) hpauses') hpauses

/-- A block whose action has failed does nothing. -/
theorem InStep.closeFailed (h : q.InStep N D o w) (hnone : q.turn.pauses = [])
    (hw : N.SameHold x'.wait x.wait) (inner : Nat) (scopes : List Nat) :
    (((q.leave x').updateTurn fun t ↦ { t with failed := true }).performCue .waitForAll inner scopes
      none).MidwayFrom N D o ((w.leave x).updateTurn fun t ↦ { t with failed := true }) := by
  have hover : ((q.leave x').updateTurn fun t ↦ { t with failed := true }).isOver = true := by
    simp [Playback.isOver, updateTurn]
  unfold Playback.performCue
  rw [if_pos hover]
  refine ⟨N, D, le_rfl, fun _ _ ↦ rfl, { h.twins with }, h.old, .fails rfl rfl ?_⟩
  simpa [Playback.leave, updateTurn, hnone, h.pauses_nil hnone] using hw.parks

/-- A block waits as long as its action, whatever a look at the action shows. -/
theorem HoldsUp.close {p' v' : Playback} (h : HoldsUp N D o (Swapped d) p v p' v') (hD : D o = some d)
    (hpauses : p.turn.pauses = []) (hfailed : p.turn.failed = false) (scopes : List Nat) :
    (p'.performCue .waitForAll d.inner scopes none).MidwayFrom N D o v' := by
  obtain @⟨M, q, w, x', x, hle, h, hpauses', hfailed', hw, he⟩ := h
  have hseen := (h.twins.lookHold hw).suspended
  revert hseen
  generalize q.suspend x'.wait x'.ending x'.scopes = p'
  generalize w.suspend x.wait x.ending x.scopes = v'
  rintro (@⟨q, w, hq, hr, ha, y', y, hy⟩ | @⟨q, w, hq, hr, ha⟩ | @⟨q, w, hq, hr, ha⟩) <;>
    have hgone := h.stirs hq hr le_rfl ha <;>
    have hnone : q.turn.pauses = [] := hq.pauses.trans (hpauses'.trans hpauses) <;>
    have hgoes : q.turn.failed = false := hq.failed.trans (hfailed'.trans hfailed)
  · have hclosed := hgone.closeWaiting hD { x' with wait := y' } { x with wait := y } hnone hgoes hy he
      scopes
    exact hclosed.weaken hle fun _ _ ↦ rfl
  · obtain ⟨htwins, hzero⟩ := hgone.twins.rejoin hgone.old hD he
    have hended := hgone.carry (q.stirs_finish x'.ending) (w.stirs_finish x.ending) le_rfl
      htwins.toAlike fun u hu ↦ Function.update_of_ne hu _ _
    have hclosed := hended.closeEnded (Function.update_self o _ D)
      ((q.stirs_finish x'.ending).failed.trans hgoes) hzero scopes
    exact hclosed.weaken hle fun u hu ↦ Function.update_of_ne hu _ _
  · exact (hgone.closeFailed hnone hw d.inner scopes).weaken hle fun _ _ ↦ rfl

/-- A wrapped action is performed in the scope of its block, and the block ends. -/
theorem InStep.performInner {c : Cue} {step : Option Nat} (h : q.InStep N D o (w.announce step))
    (hD : D o = none) (hc : c.isWrappable = true) (hroom : N.SameRoom o scope' scope)
    {inner : Nat} (parent : Option Nat) (hinner : inner ∈ N.inners)
    (hsc : q.session.scope? inner = some (Scope.fresh inner parent))
    (hunused : ∀ u d, D u = some d → d.inner ≠ inner) (hpauses : q.turn.pauses = [])
    (hfailed : q.turn.failed = false) (hover : w.isOver = false) (inners scopes : List Nat) :
    ((q.performCue c inner inners none).performCue .waitForAll inner inners none).MidwayFrom N D o
      (w.performCue c scope scopes step) := by
  obtain ⟨hswapped, hset⟩ := h.setOut hD hroom hinner hsc hunused c.isTapBlocking
  have hgoes : q.isOver = false := by simp [Playback.isOver, h.session.goes', hfailed]
  have hentered := q.stirs_enter inner c.isTapBlocking
  have hpauses' := hentered.pauses.trans hpauses
  have hfailed' := hentered.failed.trans hfailed
  have hown := Function.update_self o (some (⟨inner, (w.announce step).session.ticket scope
    c.isTapBlocking⟩ : Detour)) D
  cases hlast : c.holdsUp with
  | true =>
      have hset : ((q.announce none).enter inner c.isTapBlocking).InStep N _ o _ := hset
      have hholds := hset.holds hlast hgoes hover inners scopes hswapped
      exact (hholds.close hown hpauses' hfailed' inners).weaken le_rfl fun u hu ↦
        Function.update_of_ne hu _ _
  | false =>
      cases c with
      | tremble axis character =>
          obtain ⟨halike, hzero⟩ := hset.twins.toAlike.rejoin hown hswapped
          have hback := hset.carry (stirs_release _ _) (stirs_release _ _) le_rfl halike fun u hu ↦
            Function.update_of_ne hu _ _
          have hdone := hback.closeEnded (Function.update_self o _ _)
            ((stirs_release _ _).failed.trans hfailed') hzero inners
          have hperform' : q.performCue (.tremble axis character) inner inners none =
              (q.enter inner false).release (q.session.ticket inner false) := by
            unfold Playback.performCue
            rw [if_neg (by simp [hgoes])]
            rfl
          have hperform : w.performCue (.tremble axis character) scope scopes step =
              ((w.announce step).enter scope false).release
                ((w.announce step).session.ticket scope false) := by
            unfold Playback.performCue
            rw [if_neg (by simp [hover])]
            rfl
          rw [hperform', hperform]
          exact hdone.weaken le_rfl fun u hu ↦
            (Function.update_of_ne hu _ _).trans (Function.update_of_ne hu _ _)
      | talk | telop | cover | shake | delay => cases hlast
      | model | scenery | waitForAll | waitForTap => cases hc

/-- A wrapped action is performed. -/
theorem InStep.performWrapped (h : p.InStep N D o v) (hD : D o = none) (hfree : p.turn.isFree = true)
    {c : Cue} (hc : c.isWrappable = true) (hroom : N.SameRoom o scope' scope)
    (scopes' scopes : List Nat) (step : Option Nat) :
    (Playback.perform (.block [.cue c]) scope' scopes' step p).MidwayFrom N D o
      (Playback.perform (.cue c) scope scopes step v) := by
  obtain ⟨hpauses, hfailed⟩ : p.turn.pauses = [] ∧ p.turn.failed = false := by
    simpa [Turn.isFree] using hfree
  have hgoes : p.isOver = false := by simp [Playback.isOver, h.session.goes', hfailed]
  have hnoted := h.note (.block [.cue c]) (.cue c) scope' scope step step
  obtain ⟨hsession, hopened⟩ := hnoted.openInner scope' step
  have hst := stirs_openWithin (p.note (.block [.cue c]) scope' step) scope' step
  have hle := N.le_enclose p.session.serial
  have hsc : ((p.note (.block [.cue c]) scope' step).openWithin scope' step).session.scope?
      p.session.serial = some (Scope.fresh p.session.serial (some scope')) := by
    have hfound := Session.scope?_openScope_self (hnoted.announce step).session.numbered' (some scope')
    rw [serial_announce, note_session] at hfound
    rw [hsession]
    exact hfound
  have hunused : ∀ u d, D u = some d → d.inner ≠ p.session.serial := fun u d hd ↦
    Nat.ne_of_lt (h.session.scopes.apart _ (h.session.scopes.taken u d hd).inner).1
  rw [note_session] at hopened
  simp only [Playback.perform, Playback.performAll, hgoes, Bool.false_eq_true, if_false]
  refine ((hopened.note_left (.cue c) p.session.serial none).performInner hD hc (hroom.mono hle)
    (some scope') (N.mem_enclose _) ?_ hunused ?_ ?_ ?_ _ scopes).weaken hle fun _ _ ↦ rfl
  · rw [note_session, hsc]
  · rw [note_turn, hst.pauses, note_turn, hpauses]
  · rw [note_turn, hst.failed, note_turn, hfailed]
  · rw [note_isOver, ← h.isOver, hgoes]

/-! ## Looking at a wrapped action -/

/-- The task of a wrapped action looks at the action, and has the block to look at yet. -/
structure Resuming (N : Wrapping) (D : Detours) (o : Nat) (d : Detour) (y : Pause) (p v : Playback) :
    Prop where
  twins : p.Twins N D (some o) v
  old : o < p.spawned
  detour : D o = some d
  wait : y.wait = .drained d.inner .actions true
  ending : y.ending = .nothing
  agenda : List.Forall₂ (N.SameErrand o) p.turn.agenda v.turn.agenda
  failed' : p.turn.failed = false
  failed : v.turn.failed = false
  pauses' : p.turn.pauses = [y]
  pauses : v.turn.pauses = []

namespace Resuming

theorem stirs (h : Resuming N D o d y p v) (hq : p.Stirs q) (hw : v.Stirs w) (ha : q.Alike N D w) :
    Resuming N D o d y q w :=
  { h with
    twins := h.twins.stirs hq hw le_rfl ha
    old := hq.spawned ▸ h.old
    agenda := by
      rw [hq.agenda, hw.agenda]
      exact h.agenda
    failed' := hq.failed.trans h.failed'
    failed := hw.failed.trans h.failed
    pauses' := hq.pauses.trans h.pauses'
    pauses := hw.pauses.trans h.pauses }

/-- While the action waits the block waits as well. -/
theorem waits (h : Resuming N D o d y p v) (hw : N.SameHold x'.wait x.wait)
    (he : N.SameRelease (Swapped d) x'.ending x.ending) :
    ((p.leave x').revisit y).MidwayFrom N D o (v.leave x) := by
  have hleft : (p.leave x').Alike N D (v.leave x) := { h.twins.toAlike with }
  have hgoes : (p.leave x').turn.failed = false := h.failed'
  have hblock : (p.leave x').revisit y = (p.leave x').aside.leave y := by
    rw [revisit_drained hgoes hleft.session.goes' h.wait, hleft.counts h.detour,
      if_neg Nat.one_ne_zero]
  have hpauses : ((p.leave x').aside.leave y).turn.pauses = [x', y] := by
    simp [Playback.leave, aside, updateTurn, h.pauses']
  have hy : y = ⟨.drained d.inner .actions true, .nothing, y.scopes⟩ := by rw [← h.wait, ← h.ending]
  rw [hblock]
  exact ⟨N, D, le_rfl, fun _ _ ↦ rfl, { h.twins with }, h.old, .works h.failed' h.failed
    (.wrapped h.detour h.agenda hw he x'.scopes x.scopes y.scopes (hy ▸ hpauses)
      (congrArg (· ++ [x]) h.pauses))⟩

/-- When the action is over nothing counts in the block any more, and the detour ends. -/
theorem ends (h : Resuming N D o d y p v) (he : N.SameRelease (Swapped d) e' e) :
    ((p.finish e').revisit y).MidwayFrom N D o (v.finish e) := by
  obtain ⟨htwins, hzero⟩ := h.twins.rejoin h.old h.detour he
  have hp := p.stirs_finish e'
  have hv := v.stirs_finish e
  have hblock : (p.finish e').revisit y = (p.finish e').aside := by
    rw [revisit_drained (hp.failed.trans h.failed') htwins.session.goes' h.wait, if_pos hzero, h.ending]
    rfl
  have hagenda : List.Forall₂ (N.SameErrand o) (p.finish e').turn.agenda (v.finish e).turn.agenda := by
    rw [hp.agenda, hv.agenda]
    exact h.agenda
  have hnone' : (p.finish e').aside.turn.pauses = [] :=
    (congrArg List.tail (hp.pauses.trans h.pauses') :)
  have hnone : (v.finish e).turn.pauses = [] := hv.pauses.trans h.pauses
  rw [hblock]
  refine ⟨N, _, le_rfl, fun u hu ↦ Function.update_of_ne hu _ _, { htwins with }, hp.spawned ▸ h.old,
    .works (hp.failed.trans h.failed') (hv.failed.trans h.failed)
      (.plain (Function.update_self o _ D) hagenda ?_)⟩
  rw [hnone', hnone]
  exact .nil

theorem fails (h : Resuming N D o d y p v) (hw : N.SameHold x'.wait x.wait) :
    (((p.leave x').updateTurn fun t ↦ { t with failed := true }).revisit y).MidwayFrom N D o
      ((v.leave x).updateTurn fun t ↦ { t with failed := true }) := by
  have hnone : y.park? = none := by rw [Pause.park?, h.wait]
  rw [revisit_failed rfl]
  refine ⟨N, D, le_rfl, fun _ _ ↦ rfl, { h.twins with }, h.old, .fails rfl rfl ?_⟩
  simpa [Playback.leave, updateTurn, h.pauses', h.pauses, hnone] using hw.parks

end Resuming

/-- The task of a wrapped action looks at the action and then at the block. -/
theorem Twins.resume (h : p.Twins N D (some o) v) (x' x : Pause) (hold : o < p.spawned)
    (hD : D o = some d)
    (hagenda : List.Forall₂ (N.SameErrand o) p.turn.agenda v.turn.agenda)
    (hgoes' : p.turn.failed = false) (hgoes : v.turn.failed = false)
    (hw : N.SameHold x'.wait x.wait) (he : N.SameRelease (Swapped d) x'.ending x.ending)
    {inners : List Nat} (hy : y = ⟨.drained d.inner .actions true, .nothing, inners⟩)
    (hpauses' : p.turn.pauses = [x', y]) (hpauses : v.turn.pauses = [x]) :
    ((p.revisit x').revisit y).MidwayFrom N D o (v.revisit x) := by
  have haside : Resuming N D o d y p.aside v.aside :=
    { twins := { h with }
      old := hold
      detour := hD
      wait := congrArg Pause.wait hy
      ending := congrArg Pause.ending hy
      agenda := hagenda
      failed' := hgoes'
      failed := hgoes
      pauses' := congrArg List.tail hpauses'
      pauses := congrArg List.tail hpauses }
  have hseen := (haside.twins.lookHold hw).suspended
  rw [revisit_eq hgoes', revisit_eq hgoes]
  revert hseen
  generalize p.aside.suspend x'.wait x'.ending x'.scopes = p'
  generalize v.aside.suspend x.wait x.ending x.scopes = v'
  rintro (⟨hq, hr, ha, hw'⟩ | ⟨hq, hr, ha⟩ | ⟨hq, hr, ha⟩)
  · exact (haside.stirs hq hr ha).waits hw' he
  · exact (haside.stirs hq hr ha).ends he
  · exact (haside.stirs hq hr ha).fails hw

end Playback

end Storyline
