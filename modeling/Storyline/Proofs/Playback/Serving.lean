import Storyline.Proofs.Playback.Veils
import Storyline.Proofs.Player.Telling

/-!
# Serving what has been taken up

Most of a turn takes up no action of the story.  It adds tasks that never do, it
leaves the status and the dispatches as they are, and what is told of the story,
its step and its lines, is as before.  A cue that is taken up tells its own step
and line, and nothing else.
-/

namespace Storyline

/-! ## What is told -/

/-- The step and the line on screen, and all lines so far. -/
structure Recital where
  step : Option Nat
  talk : Option Line
  backlog : List Line

def Cue.line? : Cue → Option Line
  | .talk line => some line
  | _ => none

def Action.line? : Action → Option Line
  | .cue c => c.line?
  | _ => none

namespace Recital

/-- A step and a line are told. -/
def tell (step : Option Nat) (line : Option Line) (r : Recital) : Recital :=
  ⟨step.or r.step, line.or r.talk, r.backlog ++ line.toList⟩

theorem tell_none (r : Recital) : r.tell none none = r := by simp [tell]

end Recital

namespace Session

def recital (s : Session) : Recital := ⟨s.stage.step, s.stage.talk, s.backlog⟩

variable {s s' : Session}

theorem recital_of_shown (h : s'.shown = s.shown) : s'.recital = s.recital := by
  have hface : s'.stage.face = s.stage.face := congrArg Prod.fst h
  simp only [recital, Recital.mk.injEq]
  exact ⟨congrArg Face.step hface, congrArg Face.talk hface, congrArg Prod.snd h⟩

theorem recital_present {f : Stage → Stage} (hstep : ∀ stage, (f stage).step = stage.step)
    (htalk : ∀ stage, (f stage).talk = stage.talk) : (s.present f).recital = s.recital := by
  unfold present
  split
  · rfl
  · simp [recital, hstep, htalk]

end Session

namespace Playback

/-- What a task is left with does not end the story. -/
def Errand.Serves : Errand → Prop
  | .perform .. => False
  | .sleep _ ending _ | .drain _ _ _ ending => ending ≠ .completed
  | .awaitEnd | .animate .. | .fastForward => True

/-- A task that takes up no action and does not end the story. -/
structure Idle (agenda : List Errand) (pauses : List Pause) : Prop where
  agenda : ∀ e ∈ agenda, Errand.Serves e
  pauses : ∀ q ∈ pauses, q.ending ≠ .completed

/-- Part of a turn in which no action is taken up; the story may be completed
only if the turn is closing it. -/
structure Serves (closing : Bool) (p q : Playback) : Prop where
  dispatches : q.dispatches = p.dispatches
  status : q.status = p.status ∨ closing = true ∧ q.status = .completed
  spawned : p.spawned ≤ q.spawned
  tasks : ∃ new, q.tasks = p.tasks ++ new ∧
    ∀ t ∈ new, p.spawned ≤ t.id ∧ Idle t.agenda t.pauses
  pauses : closing = true ∨ ∀ x ∈ q.turn.pauses, x ∈ p.turn.pauses ∨ x.ending ≠ .completed

namespace Serves

variable {closing : Bool} {p q r : Playback}

theorem of_mute (h : p.Mute q) : Serves closing p q where
  dispatches := h.stirs.dispatches
  status := .inl h.status
  spawned := Nat.le_of_eq h.stirs.spawned.symm
  tasks := ⟨[], by rw [h.stirs.tasks, List.append_nil], by simp⟩
  pauses := .inr fun x hx ↦ .inl (h.stirs.pauses ▸ hx)

theorem of_update (f : Session → Session) : Serves closing p (p.update f) :=
  ⟨rfl, .inl rfl, Nat.le_refl _, ⟨[], (List.append_nil _).symm, by simp⟩, .inr fun _ ↦ .inl⟩

theorem of_turn {f : Turn → Turn} (h : ∀ t : Turn, (f t).pauses ⊆ t.pauses) :
    Serves closing p (p.updateTurn f) :=
  ⟨rfl, .inl rfl, Nat.le_refl _, ⟨[], (List.append_nil _).symm, by simp⟩,
    .inr fun _ hx ↦ .inl (h _ hx)⟩

theorem refl (p : Playback) : Serves closing p p := .of_mute (.refl p)

theorem trans (h : Serves closing p q) (h' : Serves closing q r) : Serves closing p r where
  dispatches := h'.dispatches.trans h.dispatches
  status := h'.status.elim (fun hs ↦ h.status.imp hs.trans fun hc ↦ ⟨hc.1, hs.trans hc.2⟩) .inr
  spawned := Nat.le_trans h.spawned h'.spawned
  tasks := by
    obtain ⟨new, hnew, hidle⟩ := h.tasks
    obtain ⟨new', hnew', hidle'⟩ := h'.tasks
    refine ⟨new ++ new', by rw [hnew', hnew, List.append_assoc], fun t ht ↦ ?_⟩
    rcases List.mem_append.mp ht with ht | ht
    · exact hidle t ht
    · exact ⟨Nat.le_trans h.spawned (hidle' t ht).1, (hidle' t ht).2⟩
  pauses := by
    rcases h.pauses with hc | hp
    · exact .inl hc
    · exact h'.pauses.imp_right fun hq x hx ↦ (hq x hx).elim (hp x) .inr

end Serves

section

variable {closing : Bool} {p q : Playback}

theorem serves_spawn (scope : Option Nat) {agenda : List Errand}
    (ha : ∀ e ∈ agenda, Errand.Serves e) : Serves closing p (p.spawn scope agenda) := by
  unfold spawn
  split
  · exact .refl p
  · refine ⟨rfl, .inl rfl, Nat.le_succ _, ⟨[_], rfl, fun t ht ↦ ?_⟩, .inr fun _ ↦ .inl⟩
    rw [List.mem_singleton.mp ht]
    exact ⟨Nat.le_refl _, ha, by simp⟩

theorem serves_finish {ending : Ending} (h : closing = true ∨ ending ≠ .completed) :
    Serves closing p (p.finish ending) := by
  cases ending with
  | nothing => exact .refl p
  | release ticket => exact .of_mute (p.mute_release ticket)
  | clearTelop text ticket => exact (Serves.of_update _).trans (.of_mute (mute_release _ ticket))
  | coverShown cover stamp ticket =>
      exact (Serves.of_update _).trans (.of_mute (mute_release _ ticket))
  | background path => exact .of_update _
  | completed =>
      obtain rfl : closing = true := h.resolve_right (by simp)
      unfold finish
      dsimp only
      split
      · exact ⟨rfl, .inr ⟨rfl, rfl⟩, Nat.le_refl _, ⟨[], (List.append_nil _).symm, by simp⟩, .inl rfl⟩
      · exact .refl p

theorem serves_suspend {wait : Wait} {ending : Ending} {scopes : List Nat}
    (h : closing = true ∨ ending ≠ .completed) :
    Serves closing p (p.suspend wait ending scopes) := by
  have hlook : Serves closing p (p.look wait).1 := .of_mute (p.looked_look wait).mute
  have hleave : ∀ (q : Playback) (w : Wait), Serves closing q (q.leave ⟨w, ending, scopes⟩) :=
    fun q w ↦ ⟨rfl, .inl rfl, Nat.le_refl _, ⟨[], (List.append_nil _).symm, by simp⟩,
      h.imp_right fun h x hx ↦ (List.mem_append.mp hx).imp_right fun hx ↦ by
        rwa [List.mem_singleton.mp hx]⟩
  unfold suspend
  split
  next q w heq =>
    rw [heq] at hlook
    exact hlook.trans (hleave q w)
  next q ran heq =>
    rw [heq] at hlook
    split
    · exact hlook.trans (serves_finish h)
    · exact hlook
  next q heq =>
    rw [heq] at hlook
    exact hlook.trans ((hleave q wait).trans (.of_turn fun _ ↦ List.Subset.refl _))

theorem serves_sleep {d : Duration} {ending : Ending} {scopes : List Nat}
    (h : closing = true ∨ ending ≠ .completed) : Serves closing p (p.sleep d ending scopes) :=
  (Serves.of_mute p.mute_arm).trans (serves_suspend h)

theorem serves_park {kind : Dwell} {ending : Ending} {scopes : List Nat}
    (h : ending ≠ .completed) : Serves closing p (p.park kind ending scopes) :=
  (Serves.of_update _).trans (serves_suspend (.inr h))

theorem serves_announce (step : Option Nat) : Serves closing p (p.announce step) := by
  cases step with
  | none => exact .refl p
  | some n => exact .of_update _

theorem serves_speak (line : Line) : Serves closing p (p.speak line) := by
  unfold speak
  split
  · exact .of_update _
  · exact .refl p

theorem serves_openWithin (scope : Nat) (step : Option Nat) :
    Serves closing p (p.openWithin scope step) := by
  unfold openWithin
  exact (serves_announce step).trans ((Serves.of_mute (mute_enter _ scope false)).trans
    ((Serves.of_mute (mute_release _ _)).trans (.of_update _)))

theorem serves_changeScenery (scenery : Scenery) (path : String) (ticket : Ticket) :
    Serves closing p (p.changeScenery scenery path ticket) := by
  have hrelease : ∀ q : Playback,
      Serves closing q ((q.update (.present (Stage.setScenery path scenery))).release ticket) :=
    fun q ↦ (Serves.of_update _).trans (.of_mute (mute_release _ ticket))
  cases scenery with
  | background => exact hrelease p
  | bgm | se => exact (Serves.of_update _).trans (hrelease _)

theorem serves_performCue (cue : Cue) (scope : Nat) (scopes : List Nat) (step : Option Nat) :
    Serves closing p (p.performCue cue scope scopes step) := by
  unfold performCue
  split
  · exact .refl p
  refine (serves_announce step).trans
    ((Serves.of_mute (mute_enter _ scope cue.isTapBlocking)).trans ?_)
  cases cue with
  | talk line =>
      exact (Serves.of_update _).trans ((serves_speak line).trans (serves_park (by simp)))
  | telop text => exact (Serves.of_update _).trans (serves_park (by simp))
  | model change =>
      exact (Serves.of_update _).trans (serves_spawn none (by simp [Errand.Serves]))
  | tremble axis character => exact .of_mute (mute_release _ _)
  | cover cover visible seconds =>
      refine (Serves.of_update _).trans (serves_sleep (.inr ?_))
      cases visible <;> simp
  | shake shake seconds =>
      exact (Serves.of_update _).trans
        ((serves_spawn none (by simp [Errand.Serves])).trans (serves_sleep (.inr (by simp))))
  | scenery scenery path => exact serves_changeScenery scenery path _
  | delay seconds => exact serves_sleep (.inr (by simp))
  | waitForAll | waitForTap =>
      exact (Serves.of_mute (mute_release _ _)).trans (serves_suspend (.inr (by simp)))

/-- Whether an errand ends the story, or serves it. -/
theorem serves_begin {errand : Errand} (hother : ∀ action scope step, errand ≠ .perform action scope step)
    (h : closing = true ∨ Errand.Serves errand) : Serves closing p (p.begin errand) := by
  cases errand with
  | perform action scope step => exact absurd rfl (hother action scope step)
  | sleep => exact serves_sleep h
  | drain => exact serves_suspend h
  | awaitEnd | fastForward => exact serves_suspend (.inr (by simp))
  | animate => exact (Serves.of_mute p.mute_arm).trans (serves_suspend (.inr (by simp)))

theorem serves_revisit {pause : Pause} (h : closing = true ∨ pause.ending ≠ .completed) :
    Serves closing p (p.revisit pause) := by
  unfold revisit
  split
  · exact .refl p
  · exact (Serves.of_turn fun _ _ ↦ List.mem_of_mem_tail).trans (serves_suspend h)

/-! ## What a cue tells -/

theorem recital_announce (step : Option Nat) (hc : p.session.cancelled = false) :
    (p.announce step).session.recital = p.session.recital.tell step none := by
  cases step with
  | none => exact (Recital.tell_none _).symm
  | some n => simp [announce, update, Session.present, hc, Session.recital, Recital.tell, Stage.setStep]

theorem recital_finish (ending : Ending) :
    (p.finish ending).session.recital = p.session.recital := by
  cases ending with
  | coverShown cover stamp ticket =>
      refine (Session.recital_of_shown (shown_release ticket)).trans ?_
      simp only [update, Session.presentIf]
      split
      · rfl
      split
      next stage hstage =>
        simp only [Stage.coverShown] at hstage
        split at hstage
        · rw [← Option.some.inj hstage]
          cases cover <;> rfl
        · cases hstage
      · rfl
  | _ => exact Session.recital_of_shown (shown_finish (by simp))

theorem recital_suspend {wait : Wait} {ending : Ending} {scopes : List Nat} :
    (p.suspend wait ending scopes).session.recital = p.session.recital := by
  have hlook := Session.recital_of_shown (p.looked_look wait).shown
  unfold suspend
  split
  next q w heq => rwa [heq] at hlook
  next q ran heq =>
    rw [heq] at hlook
    split
    · exact (recital_finish ending).trans hlook
    · exact hlook
  next q heq => rwa [heq] at hlook

theorem recital_performCue (cue : Cue) (scope : Nat) (scopes : List Nat) (step : Option Nat)
    (hover : p.isOver = false) :
    (p.performCue cue scope scopes step).session.recital =
      p.session.recital.tell step cue.line? := by
  have hc : p.session.cancelled = false := by
    simp only [isOver, Bool.or_eq_false_iff] at hover
    exact hover.1
  have hannounced := recital_announce step hc
  have hentered : ((p.announce step).enter scope cue.isTapBlocking).session.recital =
      p.session.recital.tell step none :=
    (Session.recital_of_shown (shown_enter scope _)).trans hannounced
  cases cue with
  | talk line =>
      have hrunning : ((p.announce step).enter scope true).session.cancelled = false :=
        (Session.cancelled_eq ((settings_enter _ _).trans (settings_announce step))).trans hc
      unfold performCue
      rw [if_neg (by simp [hover])]
      refine recital_suspend.trans ((Session.recital_of_shown (shown_speak line)).trans ?_)
      have htold : ((((p.announce step).enter scope true).session.present
          (Stage.setTalk line)).pushBacklog line).recital =
          ((p.announce step).enter scope true).session.recital.tell none (some line) := by
        simp [Session.present, hrunning, Session.pushBacklog, Session.recital, Recital.tell,
          Stage.setTalk]
      refine htold.trans ?_
      rw [show ((p.announce step).enter scope true).session.recital = _ from hentered]
      simp [Recital.tell, Cue.line?]
  | cover c visible seconds =>
      unfold performCue
      rw [if_neg (by simp [hover])]
      refine recital_suspend.trans (Eq.trans ?_ hentered)
      refine Session.recital_present (s := Session.nextSerial _ |>.2) (fun stage ↦ ?_) fun stage ↦ ?_
      · cases c <;> rfl
      · cases c <;> rfl
  | _ =>
      refine (Session.recital_of_shown (shown_performCue hover (by simp) (by simp))).trans ?_
      exact hannounced

theorem recital_openWithin (scope : Nat) (step : Option Nat) (hc : p.session.cancelled = false) :
    (p.openWithin scope step).session.recital = p.session.recital.tell step none :=
  (Session.recital_of_shown (shown_openWithin scope step)).trans (recital_announce step hc)

theorem recital_begin {errand : Errand} (h : ∀ action scope step, errand ≠ .perform action scope step) :
    (p.begin errand).session.recital = p.session.recital := by
  cases errand with
  | perform action scope step => exact absurd rfl (h action scope step)
  | _ => exact recital_suspend

theorem recital_revisit (pause : Pause) :
    (p.revisit pause).session.recital = p.session.recital := by
  unfold revisit
  split
  · rfl
  · exact recital_suspend

end

end Playback

end Storyline
