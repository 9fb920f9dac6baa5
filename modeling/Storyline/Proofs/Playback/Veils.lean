import Storyline.Proofs.Playback.Faces

/-!
# Covers from one moment to the next

No cover appears unless it is shown, and what is shown gets the next number of
the session's counter.  The showing of a cover that is not cut short takes the
other cover away, unless that one has been shown later.
-/

namespace Storyline

namespace Stage

/-- The other cover is not seen, or has been shown later. -/
def Clear (c : Cover) (stamp : Nat) (s : Stage) : Prop :=
  (s.cover c.other).visible = true → stamp < (s.cover c.other).stamp

/-- The other cover is not seen, or has been shown at another time. -/
def Apart (c : Cover) (stamp : Nat) (s : Stage) : Prop :=
  (s.cover c.other).visible = true → (s.cover c.other).stamp ≠ stamp

theorem cover_setCover (c d : Cover) (state : CoverState) (s : Stage) :
    (s.setCover c state).cover d = if d = c then state else s.cover d := by
  cases c <;> cases d <;> rfl

theorem cover_setShake (k : Shake) (state : ShakeState) (c : Cover) (s : Stage) :
    (s.setShake k state).cover c = s.cover c := cover_eq_of_face (face_setShake k state s) c

end Stage

/-- The pause of a cover that is coming up. -/
def Pause.Raises (c : Cover) (stamp : Nat) (q : Pause) : Prop :=
  ∃ ticket, q.ending = .coverShown c stamp ticket

namespace Session

/-- No cover appears, but for the given one that may be shown. -/
structure Veils (new : Option Cover) (s s' : Session) : Prop where
  serial : s.serial ≤ s'.serial
  covers : ∀ c, (s'.stage.cover c).visible = true →
    ((s.stage.cover c).visible = true ∧ (s'.stage.cover c).stamp = (s.stage.cover c).stamp) ∨
      (new = some c ∧ (s'.stage.cover c).stamp = s.serial ∧ s.serial < s'.serial)

variable {new : Option Cover} {s s' s'' : Session} {c : Cover} {stamp : Nat}

theorem Veils.of_covers (hserial : s.serial ≤ s'.serial)
    (hcovers : ∀ c, s'.stage.cover c = s.stage.cover c) : Veils none s s' :=
  ⟨hserial, fun c hc ↦ .inl ⟨hcovers c ▸ hc, by rw [hcovers c]⟩⟩

theorem cover_of_shown (h : s'.shown = s.shown) (c : Cover) :
    s'.stage.cover c = s.stage.cover c :=
  Stage.cover_eq_of_face (congrArg Prod.fst h) c

theorem Veils.refl (s : Session) : Veils none s s := .of_covers (Nat.le_refl _) fun _ ↦ rfl

theorem Veils.trans (h : Veils new s s') (h' : Veils none s' s'') : Veils new s s'' where
  serial := Nat.le_trans h.serial h'.serial
  covers := by
    intro c hc
    obtain ⟨hc', hstamp⟩ := (h'.covers c hc).resolve_right (by simp)
    refine (h.covers c hc').imp (fun hold ↦ ⟨hold.1, hstamp.trans hold.2⟩) fun hnew ↦ ?_
    exact ⟨hnew.1, hstamp.trans hnew.2.1, Nat.lt_of_lt_of_le hnew.2.2 h'.serial⟩

/-- Before a cover is shown nothing may have been numbered. -/
theorem Veils.then (h : Veils none s s') (hserial : s'.serial = s.serial) (h' : Veils new s' s'') :
    Veils new s s'' where
  serial := Nat.le_trans h.serial h'.serial
  covers := by
    intro c hc
    rcases h'.covers c hc with ⟨hold, hstamp⟩ | ⟨hnew, hstamp, hlt⟩
    · obtain ⟨hold', hstamp'⟩ := (h.covers c hold).resolve_right (by simp)
      exact .inl ⟨hold', hstamp.trans hstamp'⟩
    · exact .inr ⟨hnew, hstamp.trans hserial, hserial ▸ hlt⟩

/-- What is clear stays clear: what is shown anew is shown later. -/
theorem Veils.clear (h : Veils new s s') (hpast : stamp < s.serial) (hclear : s.stage.Clear c stamp) :
    s'.stage.Clear c stamp := by
  intro hc
  rcases h.covers _ hc with ⟨hold, hstamp⟩ | ⟨-, hstamp, -⟩
  · exact hstamp ▸ hclear hold
  · exact hstamp ▸ hpast

theorem Veils.apart (h : Veils new s s') (hpast : stamp < s.serial) (hapart : s.stage.Apart c stamp) :
    s'.stage.Apart c stamp := by
  intro hc
  rcases h.covers _ hc with ⟨hold, hstamp⟩ | ⟨-, hstamp, -⟩
  · exact hstamp ▸ hapart hold
  · exact hstamp ▸ (Nat.ne_of_lt hpast).symm

theorem veils_coverShown (c : Cover) (stamp : Nat) (s : Session) :
    Veils none s (s.presentIf (Stage.coverShown c stamp)) := by
  unfold presentIf
  split
  · exact .refl s
  split
  next stage hstage =>
    refine ⟨Nat.le_refl _, fun d hd ↦ .inl ?_⟩
    unfold Stage.coverShown at hstage
    dsimp only at hstage
    split at hstage
    · rw [← Option.some.inj hstage, Stage.cover_setCover] at hd ⊢
      split at hd
      · cases hd
      next hne =>
        rw [if_neg hne]
        exact ⟨hd, rfl⟩
    · cases hstage
  next => exact .refl s

/-- The showing that ends takes the other cover away. -/
theorem clear_coverShown (hc : s.cancelled = false) (h : s.stage.Apart c stamp) :
    (s.presentIf (Stage.coverShown c stamp)).stage.Clear c stamp := by
  unfold presentIf Stage.coverShown
  simp only [hc, Bool.false_eq_true, if_false]
  by_cases hhides : (s.stage.cover c.other).visible = true ∧ (s.stage.cover c.other).stamp < stamp
  · simp [hhides, Stage.Clear, Stage.cover_setCover]
  · have hkeeps : ((s.stage.cover c.other).visible &&
        decide ((s.stage.cover c.other).stamp < stamp)) = false := by
      simpa using hhides
    simp only [hkeeps, Bool.false_eq_true, if_false]
    intro hvisible
    have hle : stamp ≤ (s.stage.cover c.other).stamp :=
      Nat.le_of_not_lt fun hlt ↦ hhides ⟨hvisible, hlt⟩
    exact Nat.lt_of_le_of_ne hle (h hvisible).symm

/-- A cover that is shown gets the next number of the session. -/
theorem veils_startCover (c : Cover) (visible : Bool) (d : Duration) (s : Session) :
    Veils (if visible then some c else none) s
      (s.nextSerial.2.present (Stage.startCover c visible d s.serial)) := by
  cases hcancelled : s.cancelled with
  | true =>
      have hsame : s.nextSerial.2.present (Stage.startCover c visible d s.serial) = s.nextSerial.2 :=
        if_pos hcancelled
      rw [hsame]
      exact ⟨Nat.le_succ _, fun k hk ↦ .inl ⟨hk, rfl⟩⟩
  | false =>
      have hstage : (s.nextSerial.2.present (Stage.startCover c visible d s.serial)).stage =
          s.stage.startCover c visible d s.serial := by
        simp [present, nextSerial, hcancelled]
      have hserial : (s.nextSerial.2.present (Stage.startCover c visible d s.serial)).serial =
          s.serial + 1 := serial_present _ _
      refine ⟨hserial ▸ Nat.le_succ _, fun k hk ↦ ?_⟩
      rw [hstage, Stage.startCover, Stage.cover_setCover] at hk ⊢
      rw [hserial]
      by_cases hkc : k = c
      · rw [if_pos hkc] at hk ⊢
        cases visible with
        | true => exact .inr (by simp [hkc])
        | false => cases hk
      · rw [if_neg hkc] at hk ⊢
        exact .inl ⟨hk, rfl⟩

end Session

namespace Playback

open Session (Veils cover_of_shown)

variable {p q : Playback}

theorem Stirs.veils (h : p.Stirs q) (hshown : q.session.shown = p.session.shown) :
    Veils none p.session q.session := .of_covers h.serial (cover_of_shown hshown)

theorem veils_finish (ending : Ending) : Veils none p.session (p.finish ending).session := by
  cases ending with
  | coverShown c stamp ticket =>
      have hhides : Veils none p.session (p.update (.presentIf (Stage.coverShown c stamp))).session :=
        Session.veils_coverShown c stamp p.session
      exact hhides.trans ((stirs_release _ ticket).veils (shown_release ticket))
  | _ => exact (p.stirs_finish _).veils (shown_finish (by simp))

theorem veils_suspend (wait : Wait) (ending : Ending) (scopes : List Nat) :
    Veils none p.session (p.suspend wait ending scopes).session := by
  have hlook := (p.stirs_look wait).veils (p.looked_look wait).shown
  unfold suspend
  split
  next q w heq => rwa [heq] at hlook
  next q ran heq =>
    rw [heq] at hlook
    split
    · exact hlook.trans (veils_finish ending)
    · exact hlook
  next q heq => rwa [heq] at hlook

theorem veils_sleep (d : Duration) (ending : Ending) (scopes : List Nat) :
    Veils none p.session (p.sleep d ending scopes).session :=
  (p.stirs_arm.veils rfl).trans (veils_suspend _ _ _)

theorem veils_park (kind : Dwell) (ending : Ending) (scopes : List Nat) :
    Veils none p.session (p.park kind ending scopes).session :=
  (p.stirs_park.veils rfl).trans (veils_suspend _ _ _)

theorem veils_spawn (scope : Option Nat) (agenda : List Errand) :
    Veils none p.session (p.spawn scope agenda).session := by
  rw [spawn_session]
  exact .refl _

theorem veils_announce (step : Option Nat) : Veils none p.session (p.announce step).session := by
  refine .of_covers (p.stirs_announce step).serial fun c ↦ ?_
  cases step with
  | none => rfl
  | some n =>
      simp only [announce, update, Session.present]
      split
      · rfl
      · cases c <;> rfl

theorem veils_tell (line : Line) :
    Veils none p.session
      (p.update (fun s ↦ (s.present (Stage.setTalk line)).pushBacklog line)).session := by
  refine .of_covers (p.stirs_tell line).serial fun c ↦ ?_
  simp only [update, Session.pushBacklog, Session.present]
  split
  · rfl
  · cases c <;> rfl

theorem veils_openWithin (scope : Nat) (step : Option Nat) :
    Veils none p.session (p.openWithin scope step).session := by
  refine (veils_announce step).trans (.of_covers ?_ (cover_of_shown (shown_openWithin scope step)))
  have hstirs : (p.announce step).Stirs (p.openWithin scope step) := by
    unfold openWithin
    exact (stirs_enter _ scope false).trans ((stirs_release _ _).trans
      (.of_update (Session.carries_openScope _)))
  exact hstirs.serial

/-- The cover that a cue shows. -/
def shownBy : Cue → Option Cover
  | .cover c true _ => some c
  | _ => none

theorem exists_of_shownBy {cue : Cue} {c : Cover} (h : shownBy cue = some c) :
    ∃ seconds, cue = .cover c true seconds := by
  unfold shownBy at h
  split at h
  next d seconds => exact ⟨seconds, by rw [Option.some.inj h]⟩
  next => cases h

theorem serial_openWithin (scope : Nat) (step : Option Nat) :
    p.session.serial < (p.openWithin scope step).session.serial := by
  unfold openWithin
  refine Nat.lt_succ_of_le (Nat.le_trans (p.stirs_announce step).serial ?_)
  exact ((stirs_enter (p.announce step) scope false).trans (stirs_release _ _)).serial

theorem veils_performCue (cue : Cue) (scope : Nat) (scopes : List Nat) (step : Option Nat)
    (hover : p.isOver = false) :
    Veils (shownBy cue) p.session (p.performCue cue scope scopes step).session := by
  unfold performCue
  rw [if_neg (by simp [hover])]
  have hbefore : Veils none p.session ((p.announce step).enter scope cue.isTapBlocking).session :=
    (veils_announce step).trans ((stirs_enter _ _ _).veils (shown_enter _ _))
  have hserial : ((p.announce step).enter scope cue.isTapBlocking).session.serial =
      p.session.serial := by
    rw [serial_enter, serial_announce]
  dsimp only
  generalize (p.announce step).enter scope cue.isTapBlocking = q at hbefore hserial
  refine hbefore.then hserial ?_
  cases cue with
  | talk line =>
      refine (veils_tell line).trans (Veils.trans ?_ (veils_park _ _ _))
      exact (stirs_speak _ line).veils (shown_speak line)
  | telop text =>
      refine Veils.trans ?_ (veils_park _ _ _)
      exact (q.stirs_present _).veils (Session.shown_present fun _ ↦ rfl)
  | model change =>
      refine Veils.trans ?_ (veils_spawn _ _)
      exact (q.stirs_presentIf _).veils (Session.shown_presentIf fun _ _ hf ↦ change.face_apply hf)
  | tremble axis character => exact (q.stirs_release _).veils (shown_release _)
  | cover c visible seconds =>
      refine Veils.trans ?_ (veils_sleep _ _ _)
      have hstart := Session.veils_startCover c visible (.ofSeconds seconds) q.session
      cases visible <;> exact hstart
  | shake shake seconds =>
      refine Veils.trans ?_ ((veils_spawn _ _).trans (veils_sleep _ _ _))
      refine (q.stirs_number _).veils ?_
      exact Session.shown_present (s := q.session.nextSerial.2) fun _ ↦ Stage.face_setShake _ _ _
  | scenery scenery path =>
      exact (q.stirs_changeScenery scenery path _).veils (shown_changeScenery _ _ _)
  | delay seconds => exact veils_sleep _ _ _
  | waitForAll | waitForTap =>
      exact ((q.stirs_release _).veils (shown_release _)).trans (veils_suspend _ _ _)

/-! ## Pauses are kept -/

theorem kept_suspend {wait : Wait} {ending : Ending} {scopes : List Nat} :
    p.turn.pauses <+: (p.suspend wait ending scopes).turn.pauses := by
  have hst := p.stirs_look wait
  unfold suspend
  split
  next q w hlook =>
    rw [hlook] at hst
    exact ⟨_, by rw [← hst.pauses]; rfl⟩
  next q ran hlook =>
    rw [hlook] at hst
    split
    · exact ⟨[], by rw [(q.stirs_finish ending).pauses, hst.pauses, List.append_nil]⟩
    · exact ⟨[], by rw [hst.pauses, List.append_nil]⟩
  next q hlook =>
    rw [hlook] at hst
    exact ⟨_, by rw [← hst.pauses]; rfl⟩

theorem Stirs.kept (h : p.Stirs q) : p.turn.pauses <+: q.turn.pauses :=
  h.pauses ▸ List.prefix_refl _

theorem kept_spawn (scope : Option Nat) (agenda : List Errand) :
    p.turn.pauses <+: (p.spawn scope agenda).turn.pauses :=
  (spawn_turn (p := p) scope agenda).symm ▸ List.prefix_refl _

theorem kept_sleep (d : Duration) (ending : Ending) (scopes : List Nat) :
    p.turn.pauses <+: (p.sleep d ending scopes).turn.pauses := kept_suspend (p := p.arm)

theorem kept_park (kind : Dwell) (ending : Ending) (scopes : List Nat) :
    p.turn.pauses <+: (p.park kind ending scopes).turn.pauses :=
  p.stirs_park.kept.trans kept_suspend

theorem kept_performCue (cue : Cue) (scope : Nat) (scopes : List Nat) (step : Option Nat) :
    p.turn.pauses <+: (p.performCue cue scope scopes step).turn.pauses := by
  unfold performCue
  split
  · exact List.prefix_refl _
  refine ((p.stirs_announce step).trans (stirs_enter _ scope cue.isTapBlocking)).kept.trans ?_
  cases cue with
  | talk line => exact ((stirs_tell _ line).trans (stirs_speak _ line)).kept.trans (kept_park _ _ _)
  | telop text => exact (stirs_present _ _).kept.trans (kept_park _ _ _)
  | model change =>
      refine List.IsPrefix.trans ?_ (kept_spawn _ _)
      exact (stirs_presentIf _ _).kept
  | tremble axis character => exact (stirs_release _ _).kept
  | cover c visible seconds => exact (stirs_number _ _).kept.trans (kept_sleep _ _ _)
  | shake shake seconds =>
      refine List.IsPrefix.trans ?_ ((kept_spawn _ _).trans (kept_sleep _ _ _))
      exact (stirs_number _ _).kept
  | scenery scenery path => exact (stirs_changeScenery _ scenery path _).kept
  | delay seconds => exact kept_sleep _ _ _
  | waitForAll | waitForTap => exact (stirs_release _ _).kept.trans kept_suspend

/-- A cover whose coming up has ended has taken the other one away. -/
theorem clear_of_ends {wait : Wait} {c : Cover} {stamp : Nat} {ran : Bool} (ticket : Ticket)
    (hc : p.session.cancelled = false) (hapart : p.session.stage.Apart c stamp)
    (hends : p.look wait = (q, .ends ran)) :
    (if ran then q.finish (.coverShown c stamp ticket) else q).session.stage.Clear c stamp := by
  have hlook := (p.looked_look wait).shown
  have hsettings := (p.looked_look wait).settings
  obtain rfl := look_ran hc hends
  rw [hends] at hlook hsettings
  have hapart' : q.session.stage.Apart c stamp := by
    unfold Stage.Apart
    rwa [cover_of_shown hlook]
  have hclear := Session.clear_coverShown ((Session.cancelled_eq hsettings).trans hc) hapart'
  intro hvisible
  rw [if_pos rfl] at hvisible ⊢
  have hkept := cover_of_shown (shown_release (p := q.update (.presentIf (Stage.coverShown c stamp))) ticket)
  rw [finish, hkept] at hvisible ⊢
  exact hclear hvisible

/-- A cover that is coming up still does, or it has taken the other one away. -/
theorem suspend_raises {wait : Wait} {c : Cover} {stamp : Nat} {ticket : Ticket} {scopes : List Nat}
    (hc : p.session.cancelled = false) (hapart : p.session.stage.Apart c stamp) :
    (∃ q ∈ (p.suspend wait (.coverShown c stamp ticket) scopes).turn.pauses, q.Raises c stamp) ∨
      (p.suspend wait (.coverShown c stamp ticket) scopes).session.stage.Clear c stamp := by
  unfold suspend
  split
  next q w heq =>
    exact .inl ⟨_, List.mem_append_right _ (List.mem_singleton.mpr rfl), ticket, rfl⟩
  next q ran heq => exact .inr (clear_of_ends _ hc hapart heq)
  next q heq =>
    exact .inl ⟨_, List.mem_append_right _ (List.mem_singleton.mpr rfl), ticket, rfl⟩

end Playback

end Storyline
