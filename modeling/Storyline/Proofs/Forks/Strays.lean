import Storyline.Proofs.Forks.Turns
import Storyline.Proofs.Playback.Books

/-!
# Turns of strays

Forks without lines and titles, what settles after them, and the shakes have
their turns without the main timeline noticing: they signal their own scopes
only, and what they show is not what a main timeline shows.
-/

namespace Storyline

namespace Playback

/-- A moment of a turn of a stray, which the solo knows nothing of. -/
structure Beside (N : Naming) (p v : Playback) : Prop where
  mirrors : p.Mirrors N v
  turn : N.StrayTurn p.turn

def BesideFrom (N : Naming) (p v : Playback) : Prop := ∃ M, N ≤ M ∧ p.Beside M v

variable {N M : Naming} {p v q : Playback} {s : Session} {scope : Nat}

theorem BesideFrom.weaken (h : p.BesideFrom M v) (hle : N ≤ M) : p.BesideFrom N v := by
  obtain ⟨L, hle', h⟩ := h
  exact ⟨L, hle.trans hle', h⟩

namespace Beside

theorem here (h : p.Beside N v) : p.BesideFrom N v := ⟨N, le_rfl, h⟩

theorem session (h : p.Beside N v) : p.session.Mirrors N v.session := h.mirrors.session

theorem touch (h : p.Beside N v) {l : List Signal} (hs : s.Mirrors N v.session)
    (hl : ∀ c ∈ l, N.StraySignal c) : (p.touch s l).Beside N v where
  mirrors := by
    have htouched : (p.touch s l).Mirrors N (v.touch v.session []) := h.mirrors.touch hs (.strays hl)
    rwa [touch_self] at htouched
  turn := ⟨by simpa using h.turn.agenda, by simpa using h.turn.pauses⟩

theorem withSession (h : p.Beside N v) (hs : s.Mirrors N v.session) :
    ({ p with session := s }).Beside N v :=
  (h.touch hs fun _ hc ↦ (List.not_mem_nil hc).elim : (p.touch s []).Beside N v)

theorem unseen (h : p.Beside N v) (hs : p.session.Unseen s) : ({ p with session := s }).Beside N v :=
  h.withSession (h.session.unseen hs (.refl _))

theorem learn (h : p.Beside N v) (hle : N ≤ M) (htasks : M.tasks = N.tasks)
    (hstrays : M.strayTasks = N.strayTasks) (hs : s.Mirrors M v.session) :
    ({ p with session := s }).Beside M v :=
  ⟨h.mirrors.learn hle htasks hstrays hs, h.turn.mono hle⟩

/-! ## Scopes -/

theorem enter (h : p.Beside N v) (hscope : scope ∈ N.strayScopes) (tapBlocking : Bool) :
    (p.enter scope tapBlocking).Beside N v := by
  rw [enter_eq_touch]
  refine h.touch (h.session.modifyStray hscope (Scope.enter_id tapBlocking)) fun c hc ↦ ?_
  rcases List.mem_cons.mp hc with rfl | hc
  · exact .counter hscope .actions
  · cases tapBlocking with
    | false => cases hc
    | true =>
        rw [List.mem_singleton.mp hc]
        exact .counter hscope .taps

theorem releaseCount (h : p.Beside N v) (hscope : scope ∈ N.strayScopes) (tally : Tally)
    (epoch : Nat) : (p.releaseCount scope tally epoch).Beside N v := by
  unfold Playback.releaseCount
  split
  · exact h
  split
  · rw [update_raise_eq_touch]
    refine h.touch (h.session.modifyStray hscope fun sc ↦ ?_) fun c hc ↦ ?_
    · cases tally <;> rfl
    · rw [List.mem_singleton.mp hc]
      exact .counter hscope tally
  · exact h

theorem release (h : p.Beside N v) {t : Ticket} (ht : t.scope ∈ N.strayScopes) :
    (p.release t).Beside N v := by
  unfold Playback.release
  split
  · exact (h.releaseCount ht .taps _).releaseCount ht .actions t.epoch
  · exact h.releaseCount ht .actions t.epoch

/-! ## Waits -/

/-- What a look of a stray leaves to wait for is a wait of a stray. -/
theorem look (h : p.Beside N v) {w : Wait} (hw : N.StrayWait w) :
    (p.look w).1.Beside N v ∧ ∀ w', (p.look w).2 = .waits w' → N.StrayWait w' := by
  have hstays : ∀ w', Verdict.waits w = .waits w' → N.StrayWait w' :=
    fun w' he ↦ Verdict.waits.inj he ▸ hw
  cases hw with
  | sleep timer skips =>
      simp only [Playback.look, lookAtSleep]
      split
      · exact ⟨h, by simp⟩
      split
      · exact ⟨h, by simp⟩
      · exact ⟨h, hstays⟩
  | drained hscope tally guarded =>
      simp only [Playback.look, lookAtCount]
      split
      · exact ⟨h, by simp⟩
      split
      · exact ⟨h, by simp⟩
      · exact ⟨h, hstays⟩
  | frame shake stamp d start ticks timer =>
      have hmoved : ∀ n finished offset, (p.update fun s ↦
          Session.presentIf (Stage.sway shake stamp finished offset) { s with draws := n }).Beside N v :=
        fun n finished offset ↦ h.unseen (Session.unseen_sway shake stamp finished offset n)
      rcases p.lookAtFrame_cases shake stamp d start ticks timer with
        ⟨-, he⟩ | ⟨-, he | ⟨n, finished, offset, he | he⟩⟩ <;> simp only [Playback.look, he]
      · exact ⟨h, hstays⟩
      · exact ⟨h, by simp⟩
      · exact ⟨hmoved n finished offset, by simp⟩
      · refine ⟨(hmoved n finished offset).unseen Session.unseen_arm, fun w' hw' ↦ ?_⟩
        rw [← Verdict.waits.inj hw']
        exact .frame shake stamp d start (ticks + 1) _

theorem finish (h : p.Beside N v) {e : Ending} (he : N.StrayEnding e) : (p.finish e).Beside N v := by
  cases he with
  | nothing => exact h
  | release ht => exact h.release ht
  | coverShown cover stamp ht =>
      exact Beside.release (h.unseen (Session.unseen_coverShown cover stamp)) ht

theorem leave (h : p.Beside N v) {x : Pause} (hx : N.StrayPause x) : (p.leave x).Beside N v := by
  refine ⟨{ h.mirrors with }, { h.turn with pauses := fun y hy ↦ ?_ }⟩
  rcases List.mem_append.mp hy with hy | hy
  · exact h.turn.pauses y hy
  · exact List.mem_singleton.mp hy ▸ hx

theorem suspend (h : p.Beside N v) {w : Wait} {e : Ending} (hw : N.StrayWait w)
    (he : N.StrayEnding e) (scopes : List Nat) : (p.suspend w e scopes).Beside N v := by
  obtain ⟨hlook, hwaits⟩ := h.look hw
  unfold Playback.suspend
  split
  next q w' hq =>
    rw [hq] at hlook hwaits
    exact hlook.leave ⟨hwaits w' rfl, he⟩
  next q ran hq =>
    rw [hq] at hlook
    split
    · exact hlook.finish he
    · exact hlook
  next q hq =>
    rw [hq] at hlook
    have hleft := hlook.leave (⟨hw, he⟩ : N.StrayPause ⟨w, e, scopes⟩)
    exact ⟨{ hleft.mirrors with }, { hleft.turn with }⟩

theorem sleep (h : p.Beside N v) (d : Duration) {e : Ending} (he : N.StrayEnding e)
    (scopes : List Nat) : (p.sleep d e scopes).Beside N v :=
  Beside.suspend (h.unseen Session.unseen_arm) (.sleep _ _) he scopes

theorem spawn (h : p.Beside N v) {agenda : List Errand} (hagenda : ∀ e ∈ agenda, N.StrayErrand e)
    (scope : Option Nat) : (p.spawn scope agenda).BesideFrom N v := by
  obtain ⟨M, hle, hspawned⟩ := h.mirrors.spawnStray hagenda scope
  refine ⟨M, hle, hspawned, ?_⟩
  rw [spawn_turn]
  exact h.turn.mono hle

/-! ## Actions -/

theorem note (h : p.Beside N v) (action : Action) (scope : Nat) (step : Option Nat) :
    (p.note action scope step).Beside N v := by
  unfold Playback.note
  split
  · exact h
  · exact ⟨{ h.mirrors with }, h.turn⟩

theorem performCue (h : p.Beside N v) {cue : Cue} (htapless : cue.isTapBlocking = false)
    (hscope : scope ∈ N.strayScopes) (scopes : List Nat) :
    (p.performCue cue scope scopes none).BesideFrom N v := by
  have hentered := h.enter hscope cue.isTapBlocking
  have hticket : (p.session.ticket scope cue.isTapBlocking).scope ∈ N.strayScopes := by
    rwa [Session.ticket_scope]
  unfold Playback.performCue
  split
  · exact h.here
  cases cue with
  | talk line => cases htapless
  | telop text => cases htapless
  | model change =>
      have hchanged := hentered.unseen (Session.unseen_change change)
      exact Beside.spawn hchanged
        (fun e he ↦ List.mem_singleton.mp he ▸ .sleep _ (.release hticket) _) none
  | tremble axis character => exact (hentered.release hticket).here
  | cover cover visible seconds =>
      have hshown := hentered.unseen
        (Session.unseen_startCover cover visible (.ofSeconds seconds) (p.enter scope false).session.serial)
      cases visible with
      | true => exact (Beside.sleep hshown _ (.coverShown cover _ hticket) scopes).here
      | false => exact (Beside.sleep hshown _ (.release hticket) scopes).here
  | shake shake seconds =>
      have hshown := hentered.unseen
        (Session.unseen_startShake shake (.ofSeconds seconds) (p.enter scope false).session.serial)
      have hframes : ∀ e ∈ [Errand.animate shake (p.enter scope false).session.serial
          (.ofSeconds seconds)], N.StrayErrand e :=
        fun e he ↦ List.mem_singleton.mp he ▸ .animate shake _ _
      obtain ⟨M, hle, hspawned⟩ := Beside.spawn hshown hframes none
      exact ⟨M, hle, hspawned.sleep _ (.release (hle.strayScopes hticket)) scopes⟩
  | scenery scenery path =>
      have hshown := fun s : Session ↦ s.unseen_setScenery path scenery
      cases scenery with
      | background => exact (Beside.release (hentered.unseen (hshown _)) hticket).here
      | bgm =>
          exact (Beside.release
            (hentered.unseen ((Session.unseen_playBgm path).trans (hshown _))) hticket).here
      | se =>
          exact (Beside.release
            (hentered.unseen ((Session.unseen_playSe path).trans (hshown _))) hticket).here
  | delay seconds => exact (hentered.sleep _ (.release hticket) scopes).here
  | waitForAll =>
      exact ((hentered.release hticket).suspend (.drained hscope .actions true) .nothing scopes).here
  | waitForTap =>
      exact ((hentered.release hticket).suspend (.drained hscope .taps true) .nothing scopes).here

theorem openWithin (h : p.Beside N v) (hscope : scope ∈ N.strayScopes) :
    (p.openWithin scope none).Beside (N.strayScope p.session.serial) v := by
  have hticket : (p.session.ticket scope false).scope ∈ N.strayScopes := by
    rwa [Session.ticket_scope]
  have hpassed := (h.enter hscope false).release hticket
  have hserial : ((p.enter scope false).release (p.session.ticket scope false)).session.serial =
      p.session.serial := serial_passed _ none _
  have hopened := hpassed.session.openStray (some scope)
  rw [hserial] at hopened
  exact hpassed.learn (N.le_strayScope _) rfl rfl hopened

mutual

theorem perform {N : Naming} {p v : Playback} {scope : Nat} (action : Action) (h : p.Beside N v)
    (htapless : ∀ c ∈ action.cues, c.isTapBlocking = false) (hscope : scope ∈ N.strayScopes)
    (scopes : List Nat) : (perform action scope scopes none p).BesideFrom N v := by
  cases action with
  | cue cue =>
      exact (h.note _ scope none).performCue (htapless cue List.mem_cons_self) hscope scopes
  | block parts =>
      simp only [Playback.perform]
      split
      · exact h.here
      have hopened := (h.note (.block parts) scope none).openWithin hscope
      rw [note_session] at hopened
      have hle := N.le_strayScope p.session.serial
      have hinner := N.mem_strayScope p.session.serial
      obtain ⟨M, hle', hparts⟩ := performAll parts hopened htapless hinner
        (p.session.serial :: scopes)
      exact (hparts.performCue rfl (hle'.strayScopes hinner) _).weaken (hle.trans hle')
  | fork parts =>
      simp only [Playback.perform]
      split
      · exact h.here
      have hopened := (h.note (.fork parts) scope none).openWithin hscope
      rw [note_session] at hopened
      have hall : (Action.cuesOfList parts).all (fun c ↦ !c.isTapBlocking) = true :=
        List.all_eq_true.mpr fun c hc ↦ by simpa using htapless c hc
      exact (hopened.spawn (strays_walk hall (N.mem_strayScope _)) _).weaken (N.le_strayScope _)

theorem performAll {N : Naming} {p v : Playback} {scope : Nat} (parts : List Action)
    (h : p.Beside N v) (htapless : ∀ c ∈ Action.cuesOfList parts, c.isTapBlocking = false)
    (hscope : scope ∈ N.strayScopes) (scopes : List Nat) :
    (performAll parts scope scopes p).BesideFrom N v := by
  cases parts with
  | nil => exact h.here
  | cons part rest =>
      obtain ⟨M, hle, hperformed⟩ := perform part h
        (fun c hc ↦ htapless c (List.mem_append_left _ hc)) hscope scopes
      exact (performAll rest hperformed (fun c hc ↦ htapless c (List.mem_append_right _ hc))
        (hle.strayScopes hscope) scopes).weaken hle

end

/-! ## Turns -/

theorem begin (h : p.Beside N v) {e : Errand} (he : N.StrayErrand e) : (p.begin e).BesideFrom N v := by
  cases he with
  | perform htapless hscope => exact h.perform _ htapless hscope _
  | sleep d he scopes => exact (h.sleep d he scopes).here
  | animate shake stamp d =>
      exact (Beside.suspend (h.unseen Session.unseen_arm) (.frame shake stamp d _ 0 _) .nothing []).here

theorem proceed {agenda : List Errand} (h : p.Beside N v) (hagenda : ∀ e ∈ agenda, N.StrayErrand e) :
    (proceed agenda p).BesideFrom N v := by
  induction agenda generalizing N p with
  | nil => exact h.here
  | cons e rest ih =>
      have hrest : ∀ x ∈ rest, N.StrayErrand x := fun x hx ↦ hagenda x (List.mem_cons_of_mem _ hx)
      unfold Playback.proceed
      split
      · have htaken : (p.updateTurn fun t ↦ { t with agenda := rest }).Beside N v :=
          ⟨{ h.mirrors with }, { h.turn with agenda := hrest }⟩
        obtain ⟨M, hle, hbegun⟩ := htaken.begin (hagenda e List.mem_cons_self)
        exact (ih hbegun fun x hx ↦ (hrest x hx).mono hle).weaken hle
      · exact h.here

theorem revisit (h : p.Beside N v) {x : Pause} (hx : N.StrayPause x) : (p.revisit x).Beside N v := by
  unfold Playback.revisit
  split
  · exact h
  · have htaken : (p.updateTurn fun t ↦ { t with pauses := t.pauses.tail }).Beside N v :=
      ⟨{ h.mirrors with },
        { h.turn with pauses := fun y hy ↦ h.turn.pauses y (List.mem_of_mem_tail hy) }⟩
    exact htaken.suspend hx.wait hx.ending _

theorem revisitAll {pauses : List Pause} (h : p.Beside N v) (hpauses : ∀ x ∈ pauses, N.StrayPause x) :
    (pauses.foldl (fun p x ↦ p.revisit x) p).Beside N v := by
  induction pauses generalizing p with
  | nil => exact h
  | cons x rest ih =>
      exact ih (h.revisit (hpauses x List.mem_cons_self)) fun y hy ↦
        hpauses y (List.mem_cons_of_mem _ hy)

/-- No stray has parked an action that could be abandoned. -/
theorem abandonAll {pauses : List Pause} (hpauses : ∀ x ∈ pauses, N.StrayPause x) :
    p.abandonAll pauses = p := by
  have hnone : pauses.filterMap Pause.park? = [] := by
    refine List.filterMap_eq_nil_iff.mpr fun x hx ↦ ?_
    obtain ⟨wait, ending, scopes⟩ := x
    cases (hpauses _ hx).wait <;> rfl
  unfold Playback.abandonAll
  rw [hnone]
  rfl

theorem wake (h : p.Mirrors N v) {id : Nat} (hid : id ∈ N.strayTasks) : (p.wake id).Mirrors N v := by
  have hqueue := h.enqueue (.stray hid .nil : Weave _ _ [id] [])
  have hwake : p.wake id = { p with queue := Playback.enqueue p.queue [id] } := wakeAll_eq p [id]
  rw [hwake]
  exact { h with queue := hqueue }

theorem endTurn {task : Task} (h : p.Beside N v) (ht : N.StrayTask task) :
    (p.endTurn task).Mirrors N v := by
  have hcleared : (p.updateTurn fun _ ↦ .none).Mirrors N v := { h.mirrors with }
  have hended : ∀ outcome, ((p.updateTurn fun _ ↦ .none).endTask task outcome).Mirrors N v :=
    fun _ ↦ { hcleared.removeStray ht.id with }
  unfold Playback.endTurn
  dsimp only
  split
  · rw [abandonAll h.turn.pauses]
    exact hended _
  split
  · exact hended _
  have hput := hcleared.modifyStray ht.id
    (f := fun t ↦ { t with agenda := p.turn.agenda, pauses := p.turn.pauses })
    fun hstray ↦ ⟨hstray.id, h.turn.agenda, h.turn.pauses⟩
  split
  · exact wake hput ht.id
  · exact hput

end Beside

/-- A stray has its turn, and the solo stays as it is. -/
theorem Mirrors.runStray (h : p.Mirrors N v) {id : Nat} (hid : id ∈ N.strayTasks) :
    ∃ M, N ≤ M ∧ (Playback.runTask id p).Mirrors M v := by
  unfold Playback.runTask
  split
  · exact ⟨N, le_rfl, h⟩
  next task htask =>
    have ht := h.stray_of_task? hid htask
    have he : task.id = id := by simpa using List.find?_some htask
    split
    · exact ⟨N, le_rfl, h.removeStray hid⟩
    have hput := h.modifyStray ht.id (f := fun t ↦ { t with agenda := [], pauses := [] })
      fun hstray ↦ ⟨hstray.id, by simp, by simp⟩
    have hbegun : (p.begun task).Beside N v := ⟨{ hput with }, ⟨ht.agenda, ht.pauses⟩⟩
    obtain ⟨M, hle, hworked⟩ := (hbegun.revisitAll ht.pauses).proceed ht.agenda
    exact ⟨M, hle, hworked.endTurn (ht.mono hle)⟩

end Playback

end Storyline
