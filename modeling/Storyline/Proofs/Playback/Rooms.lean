import Storyline.Proofs.Playback.Following

/-!
# Rooms

A task works in rooms: in the scopes in which it performs actions and for whose
counts it waits.  While it works in one, nothing is entered in the others, and what
it leaves behind, pauses and tasks, belongs to the room or to none.
-/

namespace Storyline

/-- The scope whose count is waited for. -/
def Wait.room? : Wait → Option Nat
  | drained scope _ _ => some scope
  | _ => none

/-- The scope in which an errand performs an action or waits. -/
def Errand.room? : Errand → Option Nat
  | perform _ scope _ | drain scope _ _ _ => some scope
  | _ => none

/-- What follows the wait that an errand leaves behind. -/
def Errand.ending : Errand → Ending
  | sleep _ ending _ | drain _ _ _ ending => ending
  | _ => .nothing

def Job.room? : Job → Option Nat
  | look pause => pause.wait.room?
  | perform _ scope _ _ | close scope _ => some scope

/-- The scopes that a job keeps in use. -/
def Job.scopes : Job → List Nat
  | look pause => pause.scopes
  | perform _ _ scopes _ | close _ scopes => scopes

theorem Wait.Becomes.room {w w' : Wait} (h : w.Becomes w') : w'.room? = w.room? := by
  cases h <;> rfl

namespace Session

/-- What is entered, and how often sleeps have been skipped. -/
def rooms (s : Session) : List Scope × Nat := (s.scopes, s.skips)

def epoch? (s : Session) (id : Nat) : Option Nat := (s.scope? id).map fun sc ↦ sc.actions.epoch

/-- All scopes have been reset as often as sleeps have been skipped. -/
def Resets (s s' : Session) : Prop :=
  ∃ k, s'.skips = s.skips + k ∧ ∀ i n, s.epoch? i = some n → s'.epoch? i = some (n + k)

/-- Nothing has been entered but in a room, and none of the counts has grown. -/
structure Ebbs (room : Option Nat) (s s' : Session) : Prop where
  pending : ∀ i, room ≠ some i → ∀ tally, s'.pending i tally ≤ s.pending i tally
  resets : s.Resets s'

variable {room : Option Nat} {s s' s'' : Session}

theorem Resets.of_rooms (h : s'.rooms = s.rooms) : s.Resets s' := by
  obtain ⟨hscopes, hskips⟩ := Prod.mk.inj h
  refine ⟨0, hskips, fun i n hn ↦ ?_⟩
  simpa only [epoch?, scope?, hscopes, Nat.add_zero] using hn

theorem Resets.trans (h : s.Resets s') (h' : s'.Resets s'') : s.Resets s'' := by
  obtain ⟨k, hskips, hepochs⟩ := h
  obtain ⟨k', hskips', hepochs'⟩ := h'
  refine ⟨k + k', by rw [hskips', hskips, Nat.add_assoc], fun i n hn ↦ ?_⟩
  rw [hepochs' i _ (hepochs i n hn), Nat.add_assoc]

/-- Sleeps are never unskipped. -/
theorem Resets.le (h : s.Resets s') : s.skips ≤ s'.skips := by
  obtain ⟨k, hskips, -⟩ := h
  omega

/-- A scope that has not been reset tells that no sleep has been skipped. -/
theorem Resets.skips_eq (h : s.Resets s') {i n : Nat} (hn : s.epoch? i = some n)
    (hn' : s'.epoch? i = some n) : s'.skips = s.skips := by
  obtain ⟨k, hskips, hepochs⟩ := h
  have hk := Option.some.inj ((hepochs i n hn).symm.trans hn')
  omega

theorem Ebbs.of_rooms (h : s'.rooms = s.rooms) : s.Ebbs room s' := by
  refine ⟨fun i _ tally ↦ ?_, .of_rooms h⟩
  simp only [Session.pending, scope?, (Prod.mk.inj h).1, Nat.le_refl]

theorem Ebbs.trans (h : s.Ebbs room s') (h' : s'.Ebbs room s'') : s.Ebbs room s'' where
  pending := fun i hi tally ↦ Nat.le_trans (h'.pending i hi tally) (h.pending i hi tally)
  resets := h.resets.trans h'.resets

theorem epoch?_modifyScope {id : Nat} {f : Scope → Scope} (hf : ∀ sc, (f sc).id = sc.id)
    (h : ∀ sc, (f sc).actions.epoch = sc.actions.epoch) (i : Nat) :
    (s.modifyScope id f).epoch? i = s.epoch? i := by
  simp only [epoch?, scope?_modifyScope hf]
  split
  next hi =>
    subst hi
    cases s.scope? i <;> simp [h]
  next => rfl

theorem ebbs_modifyScope {id : Nat} {f : Scope → Scope} (hf : ∀ sc, (f sc).id = sc.id)
    (hepoch : ∀ sc, (f sc).actions.epoch = sc.actions.epoch)
    (h : room = some id ∨ ∀ sc tally, ((f sc).counter tally).pending ≤ (sc.counter tally).pending) :
    s.Ebbs room (s.modifyScope id f) := by
  refine ⟨fun i hi tally ↦ ?_, 0, rfl, fun i n hn ↦ (epoch?_modifyScope hf hepoch i).trans hn⟩
  by_cases he : i = id
  · subst he
    simp only [Session.pending, scope?_modifyScope hf, if_true]
    cases s.scope? i with
    | none => exact Nat.le_refl _
    | some sc => exact h.resolve_left hi sc tally
  · exact Nat.le_of_eq (pending_modifyScope_ne hf he tally)

theorem ebbs_enter (id : Nat) (tapBlocking : Bool) :
    s.Ebbs (some id) (s.modifyScope id (.enter tapBlocking)) :=
  ebbs_modifyScope (fun sc ↦ by cases tapBlocking <;> rfl) (fun sc ↦ by cases tapBlocking <;> rfl)
    (.inl rfl)

theorem ebbs_release (id : Nat) (tally : Tally) (epoch : Nat) :
    s.Ebbs room (s.modifyScope id (.modify tally (.release epoch))) := by
  have hrelease : ∀ c : Counter, (c.release epoch).pending ≤ c.pending := by
    intro c
    rw [Counter.release_pending]
    split
    · exact Nat.sub_le _ _
    · exact Nat.le_refl _
  refine ebbs_modifyScope (fun sc ↦ by cases tally <;> rfl) (fun sc ↦ ?_) (.inr fun sc other ↦ ?_)
  · cases tally
    · exact Counter.release_epoch epoch sc.actions
    · rfl
  · cases tally <;> cases other <;> first | exact hrelease _ | exact Nat.le_refl _

/-- With the skip of a tick all scopes are reset. -/
theorem ebbs_tick : s.Ebbs room s.resetScopes.skip := by
  have hfind : ∀ i, s.resetScopes.skip.scope? i = (s.scope? i).map Scope.reset := by
    intro i
    simp only [scope?, skip, resetScopes, List.find?_map]
    rfl
  refine ⟨fun i _ tally ↦ ?_, 1, rfl, fun i n hn ↦ ?_⟩
  · simp only [Session.pending, hfind]
    cases s.scope? i with
    | none => exact Nat.le_refl _
    | some sc => cases tally <;> exact Nat.zero_le _
  · obtain ⟨sc, hsc, rfl⟩ := Option.map_eq_some_iff.mp hn
    simp [epoch?, hfind, hsc, Scope.reset, Counter.reset]

theorem ebbs_openScope (parent : Option Nat) : s.Ebbs room (s.openScope parent).2 := by
  have hold : ∀ i sc, s.scope? i = some sc → (s.openScope parent).2.scope? i = some sc := by
    intro i sc hsc
    simp only [scope?, openScope, List.find?_append] at hsc ⊢
    rw [hsc, Option.some_or]
  refine ⟨fun i _ tally ↦ ?_, 0, rfl, fun i n hn ↦ ?_⟩
  · cases hsc : s.scope? i with
    | some sc => simp only [Session.pending, hold i sc hsc, hsc, Nat.le_refl]
    | none =>
        simp only [Session.pending, scope?, openScope, List.find?_append] at hsc ⊢
        rw [hsc, Option.none_or, List.find?_cons, List.find?_nil]
        cases (Scope.fresh s.serial parent).id == i <;> cases tally <;> exact Nat.zero_le _
  · obtain ⟨sc, hsc, rfl⟩ := Option.map_eq_some_iff.mp hn
    simp only [epoch?, hold i sc hsc, Option.map_some, Nat.add_zero]

theorem rooms_present (f : Stage → Stage) : (s.present f).rooms = s.rooms := by
  unfold present
  split <;> rfl

theorem rooms_presentIf (f : Stage → Option Stage) : (s.presentIf f).rooms = s.rooms := by
  unfold presentIf
  split
  · rfl
  · split <;> rfl

theorem rooms_stopSound (channel : Channel) : (s.stopSound channel).rooms = s.rooms := by
  obtain ⟨calls, voiceEnd, h⟩ := s.stopSound_eq channel
  rw [h]
  rfl

theorem rooms_playSound (channel : Channel) (sound : Sound) (looping : Bool) :
    (s.playSound channel sound looping).rooms = s.rooms := by
  obtain ⟨calls, voiceEnd, h⟩ := s.playSound_eq channel sound looping
  rw [h]
  rfl

theorem rooms_playVoice (path : String) : (s.playVoice path).2.rooms = s.rooms := by
  unfold playVoice
  split
  next => exact (rooms_playSound _ _ _).trans (rooms_stopSound _)
  next => rfl

end Session

namespace Playback

/-- An errand that has nothing to do in a scope, but may keep the room in use for its ticket. -/
structure Quarters (room : Option Nat) (e : Errand) : Prop where
  apart : e.room? = none
  scopes : ∀ i ∈ e.scopes, room = some i
  ticket : ∀ t, e.ending.ticket? = some t → t.scope ∈ e.scopes

/-- Part of a turn adds tasks that work in no scope and have nothing to do in one. -/
def Lodges (room : Option Nat) (p q : Playback) : Prop :=
  ∃ new, q.tasks = p.tasks ++ new ∧
    ∀ t ∈ new, t.scope = none ∧ t.pauses = [] ∧ ∀ e ∈ t.agenda, Quarters room e

/-- What is done with nothing entered but in a room: the pauses that are left
behind have a property, and the tasks that are added work in no room. -/
structure Works (room : Option Nat) (P : Pause → Prop) (p q : Playback) : Prop where
  serial : p.session.serial ≤ q.session.serial
  pauses : ∀ x ∈ q.turn.pauses, x ∈ p.turn.pauses ∨ P x
  tasks : p.Lodges room q
  ebbs : p.session.Ebbs room q.session

variable {room : Option Nat} {P : Pause → Prop} {p q r : Playback}

namespace Works

theorem of_stirs (h : p.Stirs q) (hebbs : p.session.Ebbs room q.session) : Works room P p q where
  serial := h.serial
  pauses := fun _ hx ↦ .inl (h.pauses ▸ hx)
  tasks := ⟨[], by rw [h.tasks, List.append_nil], by simp⟩
  ebbs := hebbs

theorem refl (p : Playback) : Works room P p p := .of_stirs (.refl p) (.of_rooms rfl)

theorem trans (h : Works room P p q) (h' : Works room P q r) : Works room P p r where
  serial := Nat.le_trans h.serial h'.serial
  pauses := fun x hx ↦ (h'.pauses x hx).elim (h.pauses x) .inr
  ebbs := h.ebbs.trans h'.ebbs
  tasks := by
    obtain ⟨new, hnew, hadded⟩ := h.tasks
    obtain ⟨new', hnew', hadded'⟩ := h'.tasks
    refine ⟨new ++ new', by rw [hnew', hnew, List.append_assoc], fun t ht ↦ ?_⟩
    exact (List.mem_append.mp ht).elim (hadded t) (hadded' t)

end Works

theorem lasting_true : Lasting fun _ ↦ True := fun _ _ _ _ ↦ trivial

/-! ## Parts of a turn -/

theorem works_update {f : Session → Session} (hst : p.Stirs (p.update f))
    (h : (f p.session).rooms = p.session.rooms) : Works room P p (p.update f) :=
  .of_stirs hst (.of_rooms h)

theorem works_present (f : Stage → Stage) : Works room P p (p.update (.present f)) :=
  works_update (p.stirs_present f) (Session.rooms_present f)

theorem works_presentIf (f : Stage → Option Stage) : Works room P p (p.update (.presentIf f)) :=
  works_update (p.stirs_presentIf f) (Session.rooms_presentIf f)

theorem works_number (f : Stage → Stage) :
    Works room P p (p.update fun s ↦ s.nextSerial.2.present f) :=
  works_update (p.stirs_number f) (Session.rooms_present f)

theorem works_arm : Works room P p p.arm := .of_stirs p.stirs_arm (.of_rooms rfl)

theorem works_announce (step : Option Nat) : Works room P p (p.announce step) := by
  cases step with
  | none => exact .refl p
  | some n => exact works_present _

theorem works_enter (scope : Nat) (tapBlocking : Bool) :
    Works (some scope) P p (p.enter scope tapBlocking) := by
  refine .of_stirs (p.stirs_enter scope tapBlocking) ?_
  rw [enter_eq_touch, touch_session]
  exact Session.ebbs_enter scope tapBlocking

theorem works_releaseCount (scope : Nat) (tally : Tally) (epoch : Nat) :
    Works room P p (p.releaseCount scope tally epoch) := by
  refine .of_stirs (p.stirs_releaseCount scope tally epoch) ?_
  unfold releaseCount
  split
  · exact .of_rooms rfl
  · split
    · rw [update_raise_eq_touch, touch_session]
      exact Session.ebbs_release scope tally epoch
    · exact .of_rooms rfl

theorem works_release (t : Ticket) : Works room P p (p.release t) := by
  unfold release
  cases t.tapEpoch with
  | none => exact works_releaseCount _ _ _
  | some epoch => exact (works_releaseCount _ _ _).trans (works_releaseCount _ _ _)

theorem works_tell (line : Line) :
    Works room P p (p.update fun s ↦ (s.present (Stage.setTalk line)).pushBacklog line) :=
  works_update (p.stirs_tell line) (Session.rooms_present (Stage.setTalk line))

theorem works_speak (line : Line) : Works room P p (p.speak line) := by
  unfold speak
  split
  · exact works_update (.of_update (Session.carries_playVoice _)) (Session.rooms_playVoice _)
  · exact .refl p

theorem works_changeScenery (scenery : Scenery) (path : String) (ticket : Ticket) :
    Works room P p (p.changeScenery scenery path ticket) := by
  have hshows : ∀ {q : Playback}, Works room P p q →
      Works room P p ((q.update (.present (Stage.setScenery path scenery))).release ticket) :=
    fun hsound ↦ (hsound.trans (works_present _)).trans (works_release _)
  cases scenery with
  | background => exact hshows (.refl p)
  | bgm =>
      refine hshows (works_update (.of_update ?_) ?_)
      · exact (Session.carries_stopSound _).trans (Session.carries_playSound _ _ _)
      · exact (Session.rooms_playSound _ _ _).trans (Session.rooms_stopSound _)
  | se =>
      exact hshows (works_update (.of_update (Session.carries_playSound _ _ _))
        (Session.rooms_playSound _ _ _))

theorem works_openWithin (scope : Nat) (step : Option Nat) :
    Works (some scope) P p (p.openWithin scope step) := by
  have hopen : ∀ q : Playback,
      Works (some scope) P q (q.update fun s ↦ (s.openScope (some scope)).2) :=
    fun q ↦ .of_stirs (.of_update (Session.carries_openScope _)) (Session.ebbs_openScope _)
  exact (works_announce step).trans
    ((works_enter scope false).trans ((works_release _).trans (hopen _)))

theorem works_finish (ending : Ending) : Works room P p (p.finish ending) := by
  cases ending with
  | nothing => exact .refl p
  | release ticket => exact works_release ticket
  | clearTelop text ticket => exact (works_presentIf _).trans (works_release ticket)
  | coverShown cover stamp ticket => exact (works_presentIf _).trans (works_release ticket)
  | background path => exact works_present _
  | completed =>
      refine .of_stirs (p.stirs_finish .completed) (.of_rooms ?_)
      unfold finish
      dsimp only
      split <;> rfl

theorem works_looked (h : p.Looked q) (hst : p.Stirs q) : Works room P p q := by
  refine .of_stirs hst ?_
  cases h with
  | still | arms => exact .of_rooms rfl
  | movesOn park | dwells park =>
      rw [unpark_eq_touch, touch_session]
      exact .of_rooms rfl
  | sways n shake stamp finished offset | swaysOn n shake stamp finished offset =>
      exact .of_rooms (Session.rooms_presentIf (s := { p.session with draws := n }) _)
  | ticks =>
      refine Session.ebbs_tick.trans (.of_rooms ?_)
      rw [arm_eq_touch, touch_session, fastForwardTick_session]
      rfl

theorem works_look (wait : Wait) : Works room P p (p.look wait).1 :=
  works_looked (p.looked_look wait) (p.stirs_look wait)

/-! ## Waits and what is performed -/

theorem works_leave {pause : Pause} (h : P pause) : Works room P p (p.leave pause) where
  serial := Nat.le_refl _
  pauses := fun x hx ↦ (List.mem_append.mp hx).imp_right fun hx ↦ by
    rwa [List.mem_singleton.mp hx]
  tasks := ⟨[], (List.append_nil _).symm, by simp⟩
  ebbs := .of_rooms rfl

theorem works_suspend (hP : Lasting P) {wait : Wait} {ending : Ending} {scopes : List Nat}
    (h : P ⟨wait, ending, scopes⟩) : Works room P p (p.suspend wait ending scopes) := by
  have hlook : Works room P p (p.look wait).1 := works_look wait
  unfold suspend
  split
  next q w heq =>
    rw [heq] at hlook
    exact hlook.trans (works_leave (hP _ _ (pause_becomes ending scopes heq) h))
  next q ran heq =>
    rw [heq] at hlook
    split
    · exact hlook.trans (works_finish ending)
    · exact hlook
  next q heq =>
    rw [heq] at hlook
    have hleft : Works room P q (q.leave ⟨wait, ending, scopes⟩) := works_leave h
    exact hlook.trans { hleft with pauses := hleft.pauses }

theorem works_sleep (hP : Lasting P) {d : Duration} {ending : Ending} {scopes : List Nat}
    (h : ∀ wait, wait.room? = none → P ⟨wait, ending, scopes⟩) :
    Works room P p (p.sleep d ending scopes) :=
  works_arm.trans (works_suspend hP (h _ rfl))

theorem works_park (hP : Lasting P) {kind : Dwell} {ending : Ending} {scopes : List Nat}
    (h : ∀ wait, wait.room? = none → P ⟨wait, ending, scopes⟩) :
    Works room P p (p.park kind ending scopes) :=
  (works_update p.stirs_park rfl).trans (works_suspend hP (h _ rfl))

theorem works_spawn {agenda : List Errand} (h : ∀ e ∈ agenda, Quarters room e) :
    Works room P p (p.spawn none agenda) := by
  unfold spawn
  split
  · exact .refl p
  · exact
      { serial := Nat.le_refl _
        pauses := fun _ ↦ .inl
        tasks := ⟨[_], rfl, fun t ht ↦ by
          rw [List.mem_singleton.mp ht]
          exact ⟨rfl, rfl, h⟩⟩
        ebbs := .of_rooms rfl }

theorem works_note (action : Action) (scope : Nat) (step : Option Nat) :
    Works room P p (p.note action scope step) := by
  unfold note
  split
  · exact .refl p
  · exact ⟨Nat.le_refl _, fun _ ↦ .inl, ⟨[], (List.append_nil _).symm, by simp⟩, .of_rooms rfl⟩

/-- A cue works in its scope. -/
theorem works_performCue (hP : Lasting P) (cue : Cue) {scope : Nat} {scopes : List Nat}
    (step : Option Nat)
    (h : ∀ wait ending, wait.room? = none ∨ wait.room? = some scope →
      (∀ t, ending.ticket? = some t → t.scope = scope) → P ⟨wait, ending, scopes⟩) :
    Works (some scope) P p (p.performCue cue scope scopes step) := by
  have hnone : ∀ t, Ending.nothing.ticket? = some t → t.scope = scope := nofun
  have hheld : ∀ {s : Session} {tapBlocking : Bool} (t : Ticket),
      some (s.ticket scope tapBlocking) = some t → t.scope = scope := by
    rintro s tapBlocking _ ⟨⟩
    exact Session.ticket_scope scope tapBlocking
  have hfree : ∀ ending : Ending, (∀ t, ending.ticket? = some t → t.scope = scope) →
      ∀ wait, Wait.room? wait = none → P ⟨wait, ending, scopes⟩ :=
    fun ending hending wait hw ↦ h wait ending (.inl hw) hending
  unfold performCue
  split
  · exact .refl p
  refine (works_announce step).trans ((works_enter scope cue.isTapBlocking).trans ?_)
  cases cue with
  | talk line =>
      exact (works_tell line).trans ((works_speak line).trans (works_park hP (hfree (.release _) hheld)))
  | telop text => exact (works_present _).trans (works_park hP (hfree (.clearTelop text _) hheld))
  | model change =>
      refine (works_presentIf _).trans (works_spawn fun e he ↦ ?_)
      rw [List.mem_singleton.mp he]
      refine ⟨rfl, fun i hi ↦ ?_, ?_⟩
      · rw [List.mem_singleton.mp hi, hheld _ rfl]
      · rintro _ ⟨⟩
        exact List.mem_singleton.mpr rfl
  | tremble axis character => exact works_release _
  | cover cover visible seconds =>
      refine (works_number _).trans (works_sleep hP (hfree _ ?_))
      cases visible <;> exact hheld
  | shake shake seconds =>
      refine (works_number _).trans
        ((works_spawn fun e he ↦ ?_).trans (works_sleep hP (hfree (.release _) hheld)))
      rw [List.mem_singleton.mp he]
      exact ⟨rfl, nofun, nofun⟩
  | scenery scenery path => exact works_changeScenery scenery path _
  | delay seconds => exact works_sleep hP (hfree (.release _) hheld)
  | waitForAll | waitForTap =>
      exact (works_release _).trans (works_suspend hP (h _ _ (.inr rfl) hnone))

/-- An errand other than an action works in no room, but it may wait for the count of one. -/
theorem works_begin (hP : Lasting P) {errand : Errand}
    (hother : ∀ action scope step, errand ≠ .perform action scope step)
    (h : ∀ wait, wait.room? = none ∨ wait.room? = errand.room? →
      P ⟨wait, errand.ending, errand.scopes⟩) : Works room P p (p.begin errand) := by
  cases errand with
  | perform action scope step => exact absurd rfl (hother action scope step)
  | sleep d ending scopes => exact works_sleep hP fun wait hw ↦ h wait (.inl hw)
  | animate => exact works_arm.trans (works_suspend hP (h _ (.inl rfl)))
  | drain => exact works_suspend hP (h _ (.inr rfl))
  | awaitEnd | fastForward => exact works_suspend hP (h _ (.inl rfl))

/-- A cue of the story is noted and performed in its scope. -/
theorem works_cue (hP : Lasting P) (cue : Cue) {scope : Nat} {scopes : List Nat} (step : Option Nat)
    (h : ∀ wait ending, wait.room? = none ∨ wait.room? = some scope →
      (∀ t, ending.ticket? = some t → t.scope = scope) → P ⟨wait, ending, scopes⟩) :
    Works (some scope) P p ((p.note (.cue cue) scope step).performCue cue scope scopes step) :=
  (works_note (.cue cue) scope step).trans (works_performCue hP cue step h)

/-- A block or a fork is noted, and its scope is opened. -/
theorem works_open (action : Action) (scope : Nat) (step : Option Nat) :
    Works (some scope) P p ((p.note action scope step).openWithin scope step) :=
  (works_note action scope step).trans (works_openWithin scope step)

theorem works_setAgenda (rest : List Errand) :
    Works room P p (p.updateTurn fun t ↦ { t with agenda := rest }) :=
  ⟨Nat.le_refl _, fun _ ↦ .inl, ⟨[], (List.append_nil _).symm, by simp⟩, .of_rooms rfl⟩

/-- An errand is taken from the agenda and begun. -/
theorem works_errand (hP : Lasting P) {errand : Errand} (rest : List Errand)
    (hother : ∀ action scope step, errand ≠ .perform action scope step)
    (h : ∀ wait, wait.room? = none ∨ wait.room? = errand.room? →
      P ⟨wait, errand.ending, errand.scopes⟩) :
    Works room P p ((p.updateTurn fun t ↦ { t with agenda := rest }).begin errand) :=
  (works_setAgenda rest).trans (works_begin hP hother h)

theorem works_revisit (hP : Lasting P) {pause : Pause} (h : P pause) :
    Works room P p (p.revisit pause) := by
  by_cases hf : p.turn.failed = true
  · rw [revisit_failed hf]
    exact .refl p
  · rw [revisit_eq (by simpa using hf)]
    have haside : Works room P p p.aside :=
      ⟨Nat.le_refl _, fun _ hx ↦ .inl (List.mem_of_mem_tail hx),
        ⟨[], (List.append_nil _).symm, by simp⟩, .of_rooms rfl⟩
    exact haside.trans (works_suspend hP h)

end Playback

end Storyline
