import Storyline.Proofs.Playback.Parks
import Storyline.Proofs.Player.Telling

/-!
# Titles

A title stays on screen until a waiting title of the same text comes to its end.
Nothing else takes it away, and nothing but the next title takes its place.
-/

namespace Storyline

/-- The title that a cue shows. -/
def Cue.title? : Cue → Option String
  | telop text => some text
  | _ => none

def Action.title? : Action → Option String
  | cue c => c.title?
  | _ => none

def Job.title? : Job → Option String
  | perform action _ _ _ => action.title?
  | _ => none

/-- A pause that takes no title away at its end. -/
def Pause.Sparing (q : Pause) : Prop := ∀ text, q.ending.clears text = false

def Errand.Sparing : Errand → Prop
  | sleep _ ending _ | drain _ _ _ ending => ∀ text, ending.clears text = false
  | _ => True

/-- The showing of a title: the task that performs it, the number it is parked
under, and its text. -/
structure Titling where
  task : Nat
  park : Nat
  text : String

/-- The pause of a title that is parked under a number. -/
def Pause.Bills (park : Nat) (text : String) (q : Pause) : Prop :=
  q.park? = some park ∧ ∃ ticket, q.ending = .clearTelop text ticket

theorem lasting_bills (park : Nat) (text : String) : Lasting (Pause.Bills park text) :=
  fun _ _ hx h ↦ ⟨hx.park.trans h.1, h.2.imp fun _ ht ↦ hx.ending.trans ht⟩

theorem Ending.exists_of_clears {e : Ending} {text : String} (h : e.clears text = true) :
    ∃ ticket, e = .clearTelop text ticket := by
  cases e with
  | clearTelop other ticket => exact ⟨ticket, by rw [beq_iff_eq.mp h]⟩
  | _ => cases h

theorem ModelChange.telop_apply {change : ModelChange} {s s' : Stage} (h : change.apply s = some s') :
    s'.telop = s.telop := by
  obtain ⟨f, hf⟩ := change.apply_layouts
  rw [hf] at h
  obtain ⟨layouts, -, rfl⟩ := Option.map_eq_some_iff.mp h
  rfl

namespace Playback

def title (p : Playback) : Option String := p.session.stage.telop

/-- The titles that have been taken up, in this order. -/
def titles (p : Playback) : List String := p.dispatches.filterMap (fun d ↦ d.action.title?)

/-- Part of a turn that has nothing to do with titles. -/
structure Spares (p q : Playback) : Prop where
  title : q.title = p.title
  titles : q.titles = p.titles
  pauses : ∀ x ∈ q.turn.pauses, x.Sparing ∨
    ∃ y ∈ p.turn.pauses, x.park? = y.park? ∧ x.ending = y.ending
  tasks : ∃ new, q.tasks = p.tasks ++ new ∧ ∀ t ∈ new, t.pauses = [] ∧ ∀ e ∈ t.agenda, e.Sparing

variable {p q r : Playback}

namespace Spares

theorem of_stirs (h : p.Stirs q) (htitle : q.title = p.title) : Spares p q :=
  ⟨htitle, by rw [Playback.titles, h.dispatches]; rfl, fun x hx ↦ .inr ⟨x, h.pauses ▸ hx, rfl, rfl⟩,
    [], by rw [h.tasks, List.append_nil], by simp⟩

theorem of_mute (h : p.Mute q) : Spares p q :=
  .of_stirs h.stirs (congrArg (fun a ↦ a.stage.telop) h.same.account)

theorem refl (p : Playback) : Spares p p := of_mute (.refl p)

theorem of_turn {f : Turn → Turn} (h : ∀ t, (f t).pauses ⊆ t.pauses) : Spares p (p.updateTurn f) :=
  ⟨rfl, rfl, fun x hx ↦ .inr ⟨x, h _ hx, rfl, rfl⟩, [], (List.append_nil _).symm, by simp⟩

theorem trans (h : Spares p q) (h' : Spares q r) : Spares p r where
  title := h'.title.trans h.title
  titles := h'.titles.trans h.titles
  pauses := by
    intro x hx
    rcases h'.pauses x hx with hx | ⟨y, hy, hpark, hending⟩
    · exact .inl hx
    · refine (h.pauses y hy).imp (fun hy text ↦ hending ▸ hy text) fun ⟨z, hz, hpark', hending'⟩ ↦ ?_
      exact ⟨z, hz, hpark.trans hpark', hending.trans hending'⟩
  tasks := by
    obtain ⟨new, hnew, hadded⟩ := h.tasks
    obtain ⟨new', hnew', hadded'⟩ := h'.tasks
    refine ⟨new ++ new', by rw [hnew', hnew, List.append_assoc], fun t ht ↦ ?_⟩
    exact (List.mem_append.mp ht).elim (hadded t) (hadded' t)

end Spares

/-! ## What leaves titles alone -/

theorem title_present {f : Stage → Stage} (hf : ∀ s : Stage, (f s).telop = s.telop) (s : Session) :
    (s.present f).stage.telop = s.stage.telop := by
  unfold Session.present
  split
  · rfl
  · exact hf s.stage

theorem title_presentIf {f : Stage → Option Stage}
    (hf : ∀ s s' : Stage, f s = some s' → s'.telop = s.telop) (s : Session) :
    (s.presentIf f).stage.telop = s.stage.telop := by
  unfold Session.presentIf
  split
  · rfl
  split
  next stage hstage => exact hf _ _ hstage
  next => rfl

theorem spares_present {f : Stage → Stage} (hf : ∀ s : Stage, (f s).telop = s.telop) :
    Spares p (p.update (.present f)) := .of_stirs (p.stirs_present f) (title_present hf p.session)

theorem spares_presentIf {f : Stage → Option Stage}
    (hf : ∀ s s' : Stage, f s = some s' → s'.telop = s.telop) :
    Spares p (p.update (.presentIf f)) :=
  .of_stirs (p.stirs_presentIf f) (title_presentIf hf p.session)

theorem spares_announce (step : Option Nat) : Spares p (p.announce step) := by
  cases step with
  | none => exact .refl p
  | some n => exact spares_present fun _ ↦ rfl

theorem spares_number {f : Stage → Stage} (hf : ∀ s : Stage, (f s).telop = s.telop) :
    Spares p (p.update fun s ↦ s.nextSerial.2.present f) :=
  .of_stirs (p.stirs_number f) (title_present hf p.session.nextSerial.2)

theorem spares_finish {ending : Ending} (h : ∀ text, ending.clears text = false) :
    Spares p (p.finish ending) := by
  cases ending with
  | nothing => exact .refl p
  | release ticket => exact .of_mute (p.mute_release ticket)
  | clearTelop text ticket => simpa [Ending.clears] using h text
  | coverShown cover stamp ticket =>
      refine (spares_presentIf fun s s' hs ↦ ?_).trans (.of_mute (mute_release _ ticket))
      unfold Stage.coverShown at hs
      dsimp only at hs
      split at hs
      · rw [← Option.some.inj hs]
        cases cover <;> rfl
      · cases hs
  | background path => exact spares_present fun _ ↦ rfl
  | completed =>
      refine .of_stirs (p.stirs_finish .completed) ?_
      simp only [finish]
      split <;> rfl

theorem spares_look (wait : Wait) : Spares p (p.look wait).1 := .of_mute (p.looked_look wait).mute

theorem spares_leave {pause : Pause} (h : pause.Sparing) : Spares p (p.leave pause) where
  title := rfl
  titles := rfl
  pauses := by
    intro x hx
    rcases List.mem_append.mp hx with hx | hx
    · exact .inr ⟨x, hx, rfl, rfl⟩
    · exact .inl (by rwa [List.mem_singleton.mp hx])
  tasks := ⟨[], (List.append_nil _).symm, by simp⟩

theorem spares_suspend {wait : Wait} {ending : Ending} {scopes : List Nat}
    (h : ∀ text, ending.clears text = false) : Spares p (p.suspend wait ending scopes) := by
  have hlook := p.spares_look wait
  unfold suspend
  split
  next q w heq =>
    rw [heq] at hlook
    exact hlook.trans (spares_leave h)
  next q ran heq =>
    rw [heq] at hlook
    split
    · exact hlook.trans (spares_finish h)
    · exact hlook
  next q heq =>
    rw [heq] at hlook
    have hleft : Spares p (q.leave ⟨wait, ending, scopes⟩) := hlook.trans (spares_leave h)
    exact { hleft with }

/-- A wait that goes on takes no title away. -/
theorem title_suspend_of_goes {wait : Wait} {ending : Ending} {scopes : List Nat}
    (h : ∀ q ran, p.look wait ≠ (q, .ends ran)) : (p.suspend wait ending scopes).title = p.title := by
  have hlook := (p.spares_look wait).title
  unfold suspend
  split
  next q w heq =>
    rw [heq] at hlook
    exact hlook
  next q ran heq => exact absurd heq (h q ran)
  next q heq =>
    rw [heq] at hlook
    exact hlook

theorem suspend_of_ends {wait : Wait} {ending : Ending} {scopes : List Nat} {ran : Bool}
    (h : p.look wait = (q, .ends ran)) :
    p.suspend wait ending scopes = if ran then q.finish ending else q := by
  unfold suspend
  rw [h]

theorem spares_spawn (scope : Option Nat) {agenda : List Errand} (h : ∀ e ∈ agenda, e.Sparing) :
    Spares p (p.spawn scope agenda) := by
  unfold spawn
  split
  · exact .refl p
  · refine ⟨rfl, rfl, fun x hx ↦ .inr ⟨x, hx, rfl, rfl⟩, [_], rfl, fun t ht ↦ ?_⟩
    rw [List.mem_singleton.mp ht]
    exact ⟨rfl, h⟩

theorem spares_sleep (d : Duration) {ending : Ending} (scopes : List Nat)
    (h : ∀ text, ending.clears text = false) : Spares p (p.sleep d ending scopes) :=
  (Spares.of_mute p.mute_arm).trans (spares_suspend h)

theorem spares_park (kind : Dwell) {ending : Ending} (scopes : List Nat)
    (h : ∀ text, ending.clears text = false) : Spares p (p.park kind ending scopes) :=
  (Spares.of_stirs p.stirs_park rfl).trans (spares_suspend h)

theorem spares_speak (line : Line) : Spares p (p.speak line) := by
  refine .of_stirs (p.stirs_speak line) ?_
  unfold speak title
  split
  · unfold update Session.playVoice
    dsimp only
    split
    next blob _ =>
      obtain ⟨calls, voiceEnd, h⟩ := Ledger.stopAndPlay .voice (.blob blob) false p.session
      rw [h]
    next => rfl
  · rfl

theorem spares_changeScenery (scenery : Scenery) (path : String) (ticket : Ticket) :
    Spares p (p.changeScenery scenery path ticket) := by
  have hshows : ∀ {q : Playback}, Spares p q →
      Spares p ((q.update (.present (Stage.setScenery path scenery))).release ticket) :=
    fun h ↦ (h.trans (spares_present fun _ ↦ by cases scenery <;> rfl)).trans
      (.of_mute (mute_release _ ticket))
  cases scenery with
  | background => exact hshows (.refl p)
  | bgm =>
      obtain ⟨calls, voiceEnd, h⟩ := Ledger.stopAndPlay .bgm (.path path) true p.session
      have hsound : Spares p (p.update fun s ↦ (s.stopSound .bgm).playSound .bgm (.path path) true) :=
        .of_stirs (.of_update ((Session.carries_stopSound _).trans (Session.carries_playSound _ _ _)))
          (by simp only [title, update, h])
      exact hshows hsound
  | se =>
      obtain ⟨calls, voiceEnd, h⟩ := p.session.playSound_eq .se (.path path) false
      have hsound : Spares p (p.update (.playSound .se (.path path) false)) :=
        .of_stirs (.of_update (Session.carries_playSound _ _ _))
          (by simp only [title, update, h])
      exact hshows hsound

theorem spares_openWithin (scope : Nat) (step : Option Nat) : Spares p (p.openWithin scope step) := by
  unfold openWithin
  refine (spares_announce step).trans ((Spares.of_mute (mute_enter _ scope false)).trans ?_)
  exact (Spares.of_mute (mute_release _ _)).trans
    (.of_stirs (.of_update (Session.carries_openScope _)) rfl)

theorem spares_performCue {cue : Cue} (scope : Nat) (scopes : List Nat) (step : Option Nat)
    (h : cue.title? = none) : Spares p (p.performCue cue scope scopes step) := by
  unfold performCue
  split
  · exact .refl p
  refine ((spares_announce step).trans (.of_mute (mute_enter _ scope cue.isTapBlocking))).trans ?_
  have hrelease : ∀ (ticket : Ticket) (text : String), (Ending.release ticket).clears text = false :=
    fun _ _ ↦ rfl
  cases cue with
  | talk line =>
      refine (Spares.of_stirs (stirs_tell _ line) ?_).trans
        ((spares_speak line).trans (spares_park _ _ (hrelease _)))
      exact title_present (f := Stage.setTalk line) (fun _ ↦ rfl) _
  | telop text => cases h
  | model change =>
      exact (spares_presentIf fun _ _ hs ↦ change.telop_apply hs).trans
        (spares_spawn _ (by simp [Errand.Sparing, Ending.clears]))
  | tremble axis character => exact .of_mute (mute_release _ _)
  | cover cover visible seconds =>
      refine (spares_number fun _ ↦ by cases cover <;> rfl).trans (spares_sleep _ _ ?_)
      cases visible <;> exact fun _ ↦ rfl
  | shake shake seconds =>
      refine (spares_number fun _ ↦ by cases shake <;> rfl).trans
        ((spares_spawn _ (by simp [Errand.Sparing])).trans (spares_sleep _ _ (hrelease _)))
  | scenery scenery path => exact spares_changeScenery _ _ _
  | delay seconds => exact spares_sleep _ _ (hrelease _)
  | waitForAll | waitForTap => exact (Spares.of_mute (mute_release _ _)).trans (spares_suspend fun _ ↦ rfl)

theorem titles_note (action : Action) (scope : Nat) (step : Option Nat) (hover : p.isOver = false) :
    (p.note action scope step).titles = p.titles ++ action.title?.toList := by
  unfold note titles
  rw [if_neg (by simp [hover])]
  cases h : action.title? <;> simp [List.filterMap_append, h]

theorem spares_note {action : Action} (scope : Nat) (step : Option Nat) (h : action.title? = none) :
    Spares p (p.note action scope step) where
  title := congrArg (fun s : Session ↦ s.stage.telop) (note_session action scope step)
  titles := by
    by_cases hover : p.isOver = true
    · unfold note
      rw [if_pos hover]
    · rw [titles_note action scope step (by simpa using hover), h, Option.toList_none, List.append_nil]
  pauses := fun x hx ↦ .inr ⟨x, note_turn (p := p) action scope step ▸ hx, rfl, rfl⟩
  tasks := ⟨[], by unfold note; split <;> simp, by simp⟩

theorem walk_sparing (scope : Nat) (indexed : Bool) (actions : List Action) :
    ∀ e ∈ walk scope indexed actions, e.Sparing := by
  intro e he
  obtain ⟨a, -, rfl⟩ := List.mem_map.mp he
  trivial

theorem spares_begin {errand : Errand} (h : ∀ action scope step, errand ≠ .perform action scope step)
    (hsparing : errand.Sparing) : Spares p (p.begin errand) := by
  cases errand with
  | perform action scope step => exact absurd rfl (h action scope step)
  | sleep d ending scopes => exact spares_sleep d scopes hsparing
  | drain scope tally guarded ending => exact spares_suspend hsparing
  | animate => exact (Spares.of_mute p.mute_arm).trans (spares_suspend fun _ ↦ rfl)
  | _ => exact spares_suspend fun _ ↦ rfl

/-! ## Titles on and off -/

/-- Only a waiting title of the same text takes a title away. -/
theorem title_clearTelop (text : String) (ticket : Ticket) (hc : p.session.cancelled = false) :
    (p.finish (.clearTelop text ticket)).title = p.title.filter (fun t ↦ t ≠ text) := by
  have hrelease := (Spares.of_mute
    (mute_release (p.update (.presentIf (Stage.clearTelop text))) ticket)).title
  refine hrelease.trans ?_
  simp only [title, update, Session.presentIf, hc, Bool.false_eq_true, if_false, Stage.clearTelop]
  by_cases h : p.session.stage.telop = some text
  · simp [h, Option.filter]
  · cases htitle : p.session.stage.telop with
    | none => simp [htitle]
    | some other =>
        have hne : other ≠ text := fun he ↦ h (by rw [htitle, he])
        simp [htitle, hne, Option.filter]

/-- A waiting title goes on as it is, or takes its text away. -/
theorem title_suspend (wait : Wait) (text : String) (ticket : Ticket) (scopes : List Nat)
    (hc : p.session.cancelled = false) :
    ((p.suspend wait (.clearTelop text ticket) scopes).title = p.title ∧
        ∃ x ∈ (p.suspend wait (.clearTelop text ticket) scopes).turn.pauses,
          x.park? = (⟨wait, .clearTelop text ticket, scopes⟩ : Pause).park? ∧
            x.ending = .clearTelop text ticket) ∨
      ((p.suspend wait (.clearTelop text ticket) scopes).title = p.title.filter (fun t ↦ t ≠ text) ∧
        (p.suspend wait (.clearTelop text ticket) scopes).turn.pauses = p.turn.pauses) := by
  have hlook := (p.spares_look wait).title
  have hsettings := (p.looked_look wait).settings
  have hst := p.stirs_look wait
  unfold suspend
  split
  next q w heq =>
    rw [heq] at hlook
    exact .inl ⟨hlook, _, List.mem_append_right _ (List.mem_singleton.mpr rfl),
      (pause_becomes (.clearTelop text ticket) scopes heq).park, rfl⟩
  next q ran heq =>
    rw [heq] at hlook hsettings hst
    rw [look_ran hc heq, if_pos rfl, title_clearTelop text ticket
      ((Session.cancelled_eq hsettings).trans hc), hlook]
    exact .inr ⟨rfl, (hst.trans (q.stirs_finish _)).pauses⟩
  next q heq =>
    rw [heq] at hlook
    exact .inl ⟨hlook, _, List.mem_append_right _ (List.mem_singleton.mpr rfl), rfl, rfl⟩

/-- A title that is taken up comes on, and is parked under the next number. -/
theorem performCue_telop (text : String) (scope : Nat) (scopes : List Nat) (step : Option Nat)
    (hover : p.isOver = false) :
    let q := p.performCue (.telop text) scope scopes step
    q.titles = p.titles ∧ q.tasks = p.tasks ∧ p.session.serial < q.session.serial ∧
      (∀ x ∈ q.turn.pauses, x ∈ p.turn.pauses ∨ x.Bills p.session.serial text) ∧
      ((q.title = some text ∧ ∃ x ∈ q.turn.pauses, x.Bills p.session.serial text) ∨
        q.title = none ∧ q.turn.pauses = p.turn.pauses) := by
  have hc : p.session.cancelled = false := by
    simp only [isOver, Bool.or_eq_false_iff] at hover
    exact hover.1
  obtain ⟨r, hr⟩ : ∃ r, r = (p.announce step).enter scope true := ⟨_, rfl⟩
  have hstirs : p.Stirs r := hr ▸ (p.stirs_announce step).trans (stirs_enter _ scope true)
  have hserial : r.session.serial = p.session.serial := by rw [hr, serial_enter, serial_announce]
  have hcr : r.session.cancelled = false :=
    (Session.cancelled_eq (hr ▸ (settings_enter _ _).trans (settings_announce step))).trans hc
  obtain ⟨u, hu⟩ : ∃ u, u = (r.update (.present (Stage.setTelop text))).update fun s ↦ s.park.2 :=
    ⟨_, rfl⟩
  have hturn : u.turn.pauses = p.turn.pauses := hu ▸ hstirs.pauses
  have hpast : u.session.serial = p.session.serial + 1 := by
    rw [← hserial, hu]
    exact congrArg Nat.succ (Session.serial_present _ _)
  have htitle : u.title = some text := by
    simp [hu, title, update, Session.park, Session.present, hcr, Stage.setTelop]
  have hcu : u.session.cancelled = false := by
    simp [hu, update, Session.park, Session.present, hcr]
  obtain ⟨ticket, hperform⟩ : ∃ ticket, p.performCue (.telop text) scope scopes step =
      u.suspend (.tap p.session.serial (.fixed r.session.config.telopDwell) .off)
        (.clearTelop text ticket) scopes := by
    refine ⟨(p.announce step).session.ticket scope true, ?_⟩
    have hpresent : (r.update (.present (Stage.setTelop text))).session.serial = p.session.serial :=
      (Session.serial_present _ _).trans hserial
    unfold performCue
    rw [if_neg (by simp [hover])]
    dsimp only [Cue.isTapBlocking]
    rw [← hr, hu, ← hpresent, telop, park]
    rfl
  intro q
  have hq : q = _ := hperform
  rw [hq]
  refine ⟨?_, ?_, ?_, fun x hx ↦ ?_, ?_⟩
  · rw [titles, suspend_tasks.2, hu]
    exact congrArg (List.filterMap _) hstirs.dispatches
  · rw [suspend_tasks.1, hu]
    exact hstirs.tasks
  · exact Nat.lt_of_lt_of_le (hpast ▸ Nat.lt_succ_self _) (serial_suspend _ _ _)
  · rcases suspend_left hx with hold | hbecomes
    · exact .inl (hturn ▸ hold)
    · exact .inr ⟨hbecomes.park, ticket, hbecomes.ending⟩
  · rcases u.title_suspend (.tap p.session.serial (.fixed r.session.config.telopDwell) .off) text ticket
      scopes hcu with ⟨hkept, x, hx, hpark, hending⟩ | ⟨hgone, hpauses⟩
    · exact .inl ⟨hkept.trans htitle, x, hx, hpark, ticket, hending⟩
    · refine .inr ⟨?_, hpauses.trans hturn⟩
      rw [hgone, htitle]
      simp [Option.filter]

end Playback

end Storyline
