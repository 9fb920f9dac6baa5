import Storyline.Proofs.Counting
import Storyline.Proofs.Playback.Pace
import Storyline.Proofs.Playback.Parks

/-!
# Tolls

What is left to do is charged for: the actions that are still to be taken up, and
the waits that a tap or a skip can still end.  A turn takes no toll that was not
charged before; a tick of fast-forward, which skips and taps, lowers it.
-/

namespace Storyline

/-- What is charged. -/
structure Rate where
  /-- For an action that is still to be taken up, and a change that is to settle. -/
  ahead : Nat
  /-- For a wait that a tap or a skip can still end. -/
  held : Nat
  /-- For a ticker of fast-forward. -/
  ticker : Nat

def Errand.toll (r : Rate) : Errand → Nat
  | .perform action _ _ => r.ahead * action.size
  | .sleep .. => r.ahead
  | .fastForward => r.ticker
  | _ => 0

/-- A sleep is charged for every skip that is still to come until it ends. -/
def Wait.toll (r : Rate) (s : Session) : Wait → Nat
  | .tap park _ _ => if s.isParked park then r.held else 0
  | .sleep _ skips => r.held * (skips + 1 - s.skips)
  | .forward _ => r.ticker
  | _ => 0

/-- Whether a tick of fast-forward is waited for. -/
def Wait.awaitsTick : Wait → Bool
  | .forward (some _) => true
  | _ => false

def Pause.toll (r : Rate) (s : Session) (x : Pause) : Nat := x.wait.toll r s

def Task.toll (r : Rate) (s : Session) (t : Task) : Nat :=
  (t.agenda.map (Errand.toll r)).sum + (t.pauses.map (Pause.toll r s)).sum

namespace Session

/-- Nothing has been parked anew, nor has a skip been taken back. -/
structure Fades (s s' : Session) : Prop where
  serial : s.serial ≤ s'.serial
  skips : s.skips ≤ s'.skips
  parked : ∀ id, id < s.serial → s'.isParked id = true → s.isParked id = true

variable {s s' s'' : Session}

theorem Fades.refl (s : Session) : s.Fades s := ⟨Nat.le_refl _, Nat.le_refl _, fun _ _ h ↦ h⟩

theorem Fades.trans (h : s.Fades s') (h' : s'.Fades s'') : s.Fades s'' :=
  ⟨Nat.le_trans h.serial h'.serial, Nat.le_trans h.skips h'.skips, fun id hid hp ↦
    h.parked id hid (h'.parked id (Nat.lt_of_lt_of_le hid h.serial) hp)⟩

/-- Parked actions may leave the stack. -/
theorem Fades.of_sublist (hserial : s.serial ≤ s'.serial) (hskips : s.skips ≤ s'.skips)
    (htaps : s'.taps ⊆ s.taps) : s.Fades s' :=
  ⟨hserial, hskips, fun _ _ hp ↦
    let ⟨t, ht, hid⟩ := List.any_eq_true.mp hp
    List.any_eq_true.mpr ⟨t, htaps ht, hid⟩⟩

theorem fades_park : s.Fades s.park.2 := by
  refine ⟨Nat.le_succ _, Nat.le_refl _, fun id hid hp ↦ ?_⟩
  obtain ⟨t, ht, he⟩ := List.any_eq_true.mp hp
  rcases List.mem_append.mp ht with ht | ht
  · exact List.any_eq_true.mpr ⟨t, ht, he⟩
  · rw [List.mem_singleton.mp ht] at he
    exact absurd (by simpa using he) (Nat.ne_of_gt hid)

theorem takeTap_subset : s.takeTap.taps ⊆ s.taps := by
  conv_rhs => rw [taps_eq_takeTap_append]
  exact List.subset_append_left _ _

end Session

/-- A wait that a tap or a skip can still end does not begin anew. -/
theorem Wait.toll_le {r : Rate} {s s' : Session} {wait : Wait} (hf : s.Fades s')
    (hpark : ∀ park kind auto, wait = .tap park kind auto → park < s.serial) :
    wait.toll r s' ≤ wait.toll r s := by
  cases wait with
  | tap park kind auto =>
      simp only [Wait.toll]
      split
      next hp => exact Nat.le_of_eq (if_pos (hf.parked park (hpark park kind auto rfl) hp)).symm
      next => exact Nat.zero_le _
  | sleep timer skips =>
      have hskips := hf.skips
      exact Nat.mul_le_mul_left _ (by omega)
  | _ => exact Nat.le_refl _

namespace Playback

variable {p q : Playback} {r : Rate}

/-- What is charged at a moment for the turn and all tasks. -/
def tollAt (r : Rate) (s : Session) (p : Playback) : Nat :=
  (p.turn.agenda.map (Errand.toll r)).sum + (p.turn.pauses.map (Pause.toll r s)).sum +
    (p.tasks.map (Task.toll r s)).sum

def toll (r : Rate) (p : Playback) : Nat := p.tollAt r p.session

/-- All that is waited for has been parked before. -/
def Past (p : Playback) : Prop := ∀ id ∈ p.parks, id < p.session.serial

theorem Reparks.past (h : Reparks p q) (hp : p.Past) : q.Past := by
  intro id hid
  by_contra hge
  have hcount := h.count id
  have hserial := h.serial
  have hnone : p.parks.count id = 0 := List.count_eq_zero.mpr fun hmem ↦ by
    have := hp id hmem
    omega
  rw [hnone, if_neg (by omega)] at hcount
  exact List.count_eq_zero.mp (Nat.le_zero.mp hcount) hid

theorem park_mem_parks {x : Pause} {park : Nat} {kind : Dwell} {auto : Lingering}
    (hx : x ∈ p.turn.pauses ∨ ∃ t ∈ p.tasks, x ∈ t.pauses) (he : x.wait = .tap park kind auto) :
    park ∈ p.parks := by
  have hpark : park ∈ x.parks := by simp [Pause.parks, Pause.park?, he]
  rcases hx with hx | ⟨t, ht, hx⟩
  · exact List.mem_append_left _ (List.mem_flatMap.mpr ⟨x, hx, hpark⟩)
  · exact List.mem_append_right _
      (List.mem_flatMap.mpr ⟨t, ht, List.mem_flatMap.mpr ⟨x, hx, hpark⟩⟩)

theorem pause_toll_le {s : Session} {x : Pause} (hp : p.Past) (hf : p.session.Fades s)
    (hx : x ∈ p.turn.pauses ∨ ∃ t ∈ p.tasks, x ∈ t.pauses) : x.toll r s ≤ x.toll r p.session :=
  Wait.toll_le hf fun _ _ _ he ↦ hp _ (park_mem_parks hx he)

/-- As waits are ended from outside, less is charged. -/
theorem tollAt_le {s : Session} (hp : p.Past) (hf : p.session.Fades s) :
    p.tollAt r s ≤ p.toll r := by
  have hturn : (p.turn.pauses.map (Pause.toll r s)).sum ≤
      (p.turn.pauses.map (Pause.toll r p.session)).sum :=
    sum_map_le fun x hx ↦ pause_toll_le hp hf (.inl hx)
  have htasks : (p.tasks.map (Task.toll r s)).sum ≤ (p.tasks.map (Task.toll r p.session)).sum :=
    sum_map_le fun t ht ↦
      Nat.add_le_add_left (sum_map_le fun x hx ↦ pause_toll_le hp hf (.inr ⟨t, ht, hx⟩)) _
  unfold toll tollAt
  omega

/-- What leaves the tasks and the turn as they are adds nothing to the toll. -/
theorem toll_le (hp : p.Past) (hf : p.session.Fades q.session) (hturn : q.turn.agenda = p.turn.agenda)
    (hpauses : q.turn.pauses = p.turn.pauses) (htasks : q.tasks = p.tasks) : q.toll r ≤ p.toll r := by
  have hle := tollAt_le (r := r) hp hf
  simp only [toll, tollAt, hturn, hpauses, htasks] at hle ⊢
  exact hle

theorem toll_le_of_stirs (hp : p.Past) (hst : p.Stirs q) (hf : p.session.Fades q.session) :
    q.toll r ≤ p.toll r := toll_le hp hf hst.agenda hst.pauses hst.tasks

/-- A part of a turn that adds at most `k` to the toll, and takes no tick. -/
structure Pays (r : Rate) (k : Nat) (p q : Playback) : Prop where
  reparks : Reparks p q
  skips : q.session.skips = p.session.skips
  toll : p.Past → q.toll r ≤ p.toll r + k

namespace Pays

variable {k l : Nat} {p q p' : Playback}

theorem refl (p : Playback) : Pays r k p p := ⟨.refl p, rfl, fun _ ↦ Nat.le_add_right _ _⟩

theorem trans (h : Pays r k p q) (h' : Pays r l q p') : Pays r (k + l) p p' where
  reparks := h.reparks.trans h'.reparks
  skips := h'.skips.trans h.skips
  toll := by
    intro hp
    have := h.toll hp
    have := h'.toll (h.reparks.past hp)
    omega

theorem weaken (h : Pays r k p q) (hk : k ≤ l) : Pays r l p q :=
  { h with toll := fun hp ↦ Nat.le_trans (h.toll hp) (Nat.add_le_add_left hk _) }

end Pays

/-- What neither changes the tasks nor the turn. -/
theorem Stirs.pays (h : p.Stirs q) (hf : p.session.Fades q.session)
    (hskips : q.session.skips = p.session.skips) : Pays r 0 p q where
  reparks := .of_stirs h
  skips := hskips
  toll := fun hp ↦ toll_le_of_stirs hp h hf

theorem Smooth.pays (h : p.Smooth q) : Pays r 0 p q :=
  h.stirs.pays (.of_sublist h.stirs.serial (Nat.le_of_eq (congrArg Pace.skips h.level.pace).symm)
    (h.level.taps ▸ List.Subset.refl _)) (congrArg Pace.skips h.level.pace)

/-- What goes smoothly before a part of a turn is free. -/
theorem Smooth.then_pays {k : Nat} {p' : Playback} (h : p.Smooth q) (h' : Pays r k q p') :
    Pays r k p p' :=
  (h.pays.trans h').weaken (Nat.le_of_eq (Nat.zero_add k))

/-! ## Waiting -/

theorem fades_looked (h : p.Looked q) : p.session.Fades q.session := by
  have harm : ∀ p : Playback, p.session.Fades p.arm.session :=
    fun p ↦ .of_sublist (Nat.le_refl _) (Nat.le_refl _) (List.Subset.refl _)
  have hunpark : ∀ (p : Playback) (id : Nat), p.session.Fades (p.unpark id).session := by
    intro p id
    rw [unpark_eq_touch, touch_session]
    exact .of_sublist (Nat.le_refl _) (Nat.le_refl _) (List.filter_subset_self _)
  have hsway : ∀ (p : Playback) (n : Nat) (f : Stage → Option Stage),
      p.session.Fades (p.update fun s ↦ Session.presentIf f { s with draws := n }).session := by
    intro p n f
    have h := p.smooth_sway n f
    exact .of_sublist h.stirs.serial (Nat.le_of_eq (congrArg Pace.skips h.level.pace).symm)
      (h.level.taps ▸ List.Subset.refl _)
  cases h with
  | still => exact .refl _
  | arms => exact harm p
  | movesOn park => exact hunpark p park
  | dwells park => exact (harm p).trans (hunpark _ park)
  | sways n shake stamp finished offset => exact hsway p n _
  | swaysOn n shake stamp finished offset => exact (hsway p n _).trans (harm _)
  | ticks =>
      refine Session.Fades.trans ?_ (harm _)
      rw [fastForwardTick_session]
      exact .of_sublist (Nat.le_refl _) (Nat.le_succ _) Session.takeTap_subset

theorem skips_unpark (id : Nat) : (p.unpark id).session.skips = p.session.skips := by
  rw [unpark_eq_touch, touch_session]
  rfl

theorem skips_dwell (park : Nat) (kind : Dwell) (d : Duration) :
    (p.dwell park kind d).1.session.skips = p.session.skips := by
  unfold dwell
  dsimp only
  split
  · exact skips_unpark park
  · rfl

theorem skips_lookAtTap (park : Nat) (kind : Dwell) (auto : Lingering) :
    (p.lookAtTap park kind auto).1.session.skips = p.session.skips := by
  unfold lookAtTap
  split
  · rfl
  split
  · rfl
  split
  · rfl
  cases auto with
  | off =>
      cases kind with
      | fixed d => exact skips_dwell park _ d
      | voice =>
          simp only [beginLingering]
          split <;> rfl
  | listening start ticks timer =>
      dsimp only
      split
      · rfl
      split
      · rfl
      · exact skips_dwell park _ _
  | dwelling timer =>
      dsimp only
      split
      · exact skips_unpark park
      · rfl

/-- Ticks are taken only where they are waited for. -/
theorem skips_look {wait : Wait} (h : wait.awaitsTick = false) :
    (p.look wait).1.session.skips = p.session.skips := by
  cases wait with
  | tap park kind auto => exact skips_lookAtTap park kind auto
  | sleep | drained =>
      simp only [look, lookAtSleep, lookAtCount]
      split
      · rfl
      split <;> rfl
  | cancelled => rfl
  | frame shake stamp d start ticks timer =>
      have hsway : ∀ (n : Nat) (f : Stage → Option Stage), (p.update fun s ↦
          Session.presentIf f { s with draws := n }).session.skips = p.session.skips :=
        fun n f ↦ congrArg Pace.skips (p.smooth_sway n f).level.pace
      rcases p.lookAtFrame_cases shake stamp d start ticks timer with
        ⟨-, h⟩ | ⟨-, h | ⟨n, finished, offset, h | h⟩⟩ <;> rw [look, h]
      · exact hsway n _
      · exact hsway n _
  | forward ticker =>
      cases ticker with
      | none =>
          simp only [look, lookAtForward]
          split
          · rfl
          split <;> rfl
      | some ticker => cases h

theorem tollAt_leave (s : Session) (x : Pause) :
    (p.leave x).tollAt r s = p.tollAt r s + x.toll r s := by
  simp only [tollAt, leave, updateTurn, List.map_append, List.map_cons, List.map_nil,
    List.sum_append, List.sum_cons, List.sum_nil]
  omega

/-- A wait that goes on is charged for as before. -/
theorem look_waits_toll {wait w : Wait} (s : Session) (h : p.look wait = (q, .waits w)) :
    w.toll r s = wait.toll r s := by
  cases look_becomes h <;> rfl

theorem pays_finish (ending : Ending) : Pays r 0 p (p.finish ending) := by
  by_cases hending : ending = .completed
  · subst hending
    have hsession : (p.finish .completed).session = p.session := by
      simp only [finish]
      split <;> rfl
    exact (p.stirs_finish .completed).pays (hsession ▸ .refl _) (congrArg Session.skips hsession)
  · exact (p.smooth_finish hending).pays

/-- A wait that goes on is charged for; one that ends is not. -/
theorem toll_suspend {wait : Wait} (ending : Ending) (scopes : List Nat) (hp : p.Past)
    (hpark : ∀ park kind auto, wait = .tap park kind auto → park < p.session.serial) :
    (p.suspend wait ending scopes).toll r ≤ p.toll r + wait.toll r p.session := by
  have hst := p.stirs_look wait
  have hfades := fades_looked (p.looked_look wait)
  unfold suspend
  split
  next q w hlook =>
    rw [hlook] at hst hfades
    have hw : w.toll r q.session ≤ wait.toll r p.session :=
      look_waits_toll (r := r) q.session hlook ▸ Wait.toll_le hfades hpark
    change (q.leave ⟨w, ending, scopes⟩).tollAt r q.session ≤ _
    rw [tollAt_leave]
    exact Nat.add_le_add (toll_le_of_stirs hp hst hfades) hw
  next q ran hlook =>
    rw [hlook] at hst hfades
    refine Nat.le_trans ?_ (Nat.le_add_right _ _)
    split
    · have hq : q.Past := (Reparks.of_stirs hst).past hp
      exact Nat.le_trans ((pays_finish ending).toll hq) (toll_le_of_stirs hp hst hfades)
    · exact toll_le_of_stirs hp hst hfades
  next q hlook =>
    obtain rfl := look_fails hlook
    change (q.leave ⟨wait, ending, scopes⟩).tollAt r q.session ≤ _
    rw [tollAt_leave]
    exact Nat.le_refl _

theorem skips_suspend {wait : Wait} (ending : Ending) (scopes : List Nat)
    (h : wait.awaitsTick = false) :
    (p.suspend wait ending scopes).session.skips = p.session.skips := by
  have hskips := p.skips_look h
  unfold suspend
  split
  next q w hlook =>
    rw [hlook] at hskips
    exact hskips
  next q ran hlook =>
    rw [hlook] at hskips
    split
    · exact (pays_finish (r := ⟨0, 0, 0⟩) ending).skips.trans hskips
    · exact hskips
  next q hlook =>
    rw [hlook] at hskips
    exact hskips

/-! ## Parts of a turn -/

/-- A wait for something else than a parked action or a ticker. -/
theorem pays_suspend (wait : Wait) (ending : Ending) (scopes : List Nat)
    (hpark : (⟨wait, ending, scopes⟩ : Pause).park? = none) (h : wait.awaitsTick = false) :
    Pays r (wait.toll r p.session) p (p.suspend wait ending scopes) where
  reparks := reparks_suspend hpark
  skips := skips_suspend ending scopes h
  toll := fun hp ↦ toll_suspend ending scopes hp fun park kind auto he ↦ by
    rw [he] at hpark
    cases hpark

theorem pays_drain (scope : Nat) (tally : Tally) (guarded : Bool) (ending : Ending)
    (scopes : List Nat) : Pays r 0 p (p.suspend (.drained scope tally guarded) ending scopes) :=
  pays_suspend (.drained scope tally guarded) ending scopes rfl rfl

theorem pays_sleep (d : Duration) (ending : Ending) (scopes : List Nat) :
    Pays r r.held p (p.sleep d ending scopes) := by
  refine p.smooth_arm.then_pays ((pays_suspend (.sleep _ _) ending scopes rfl rfl).weaken ?_)
  have hone : p.session.skips + 1 - p.arm.session.skips = 1 := Nat.add_sub_cancel_left _ 1
  exact Nat.le_of_eq (by rw [Wait.toll, hone, Nat.mul_one])

theorem pays_park (kind : Dwell) (ending : Ending) (scopes : List Nat) :
    Pays r r.held p (p.park kind ending scopes) where
  reparks := reparks_park kind ending scopes
  skips := skips_suspend (p := p.update fun s ↦ s.park.2) ending scopes rfl
  toll := by
    intro hp
    let parked := p.update fun s ↦ s.park.2
    have hle := (p.stirs_park.pays (r := r) Session.fades_park rfl).toll hp
    have hpast : parked.Past := (Reparks.of_stirs p.stirs_park).past hp
    have hsuspend : (parked.suspend (.tap p.session.serial kind .off) ending scopes).toll r ≤
        parked.toll r + Wait.toll r parked.session (.tap p.session.serial kind .off) :=
      toll_suspend ending scopes hpast fun park kind auto he ↦ by
        cases he
        exact Nat.lt_succ_self _
    have hheld : Wait.toll r parked.session (.tap p.session.serial kind .off) ≤ r.held := by
      simp only [Wait.toll]
      split
      · exact Nat.le_refl _
      · exact Nat.zero_le _
    change (parked.suspend (.tap p.session.serial kind .off) ending scopes).toll r ≤ _
    have hle : parked.toll r ≤ p.toll r := hle
    omega

theorem pays_spawn (scope : Option Nat) (agenda : List Errand) :
    Pays r (agenda.map (Errand.toll r)).sum p (p.spawn scope agenda) where
  reparks := reparks_spawn scope agenda
  skips := congrArg Session.skips (spawn_session scope agenda)
  toll := by
    intro
    unfold toll
    rw [spawn_session]
    unfold spawn
    split
    · exact Nat.le_add_right _ _
    · simp only [tollAt, addTask, List.map_append, List.sum_append, List.map_cons, List.map_nil,
        List.sum_cons, List.sum_nil, Task.toll]
      omega

theorem pays_note (action : Action) (scope : Nat) (step : Option Nat) :
    Pays r 0 p (p.note action scope step) where
  reparks := reparks_note action scope step
  skips := congrArg Session.skips (note_session action scope step)
  toll := by
    intro
    unfold note
    split <;> exact Nat.le_refl _

/-- A cue is charged for at most as long as it is ahead. -/
theorem pays_performCue (hr : r.held ≤ r.ahead) (cue : Cue) (scope : Nat) (scopes : List Nat)
    (step : Option Nat) : Pays r r.ahead p (p.performCue cue scope scopes step) := by
  have hfree : ∀ {k : Nat} {p q : Playback}, Pays r 0 p q → Pays r k p q :=
    fun h ↦ h.weaken (Nat.zero_le _)
  unfold performCue
  split
  · exact .refl p
  refine ((p.smooth_announce step).trans (smooth_enter _ scope cue.isTapBlocking)).then_pays ?_
  cases cue with
  | talk line =>
      exact ((smooth_tell _ line).trans (smooth_speak _ line)).then_pays ((pays_park _ _ _).weaken hr)
  | telop text => exact (smooth_present _ _).then_pays ((pays_park _ _ _).weaken hr)
  | model change =>
      exact (smooth_presentIf _ _).then_pays
        ((pays_spawn _ _).weaken (by simp [Errand.toll]))
  | tremble axis character => exact hfree (smooth_release _ _).pays
  | cover cover visible seconds =>
      exact (smooth_number _ _).then_pays ((pays_sleep _ _ _).weaken hr)
  | shake shake seconds =>
      exact (smooth_number _ _).then_pays
        (((pays_spawn _ _).trans (pays_sleep _ _ _)).weaken (by simpa [Errand.toll] using hr))
  | scenery scenery path => exact hfree (smooth_changeScenery _ scenery path _).pays
  | delay seconds => exact (pays_sleep _ _ _).weaken hr
  | waitForAll | waitForTap =>
      exact (smooth_release _ _).then_pays (hfree (pays_drain _ _ _ _ _))

theorem toll_walk (scope : Nat) (indexed : Bool) (actions : List Action) :
    ((walk scope indexed actions).map (Errand.toll r)).sum = r.ahead * Action.sizeOfList actions := by
  suffices h : ∀ n, (((actions.zipIdx n).map (fun a ↦
      Errand.perform a.1 scope (if indexed then some a.2 else none))).map (Errand.toll r)).sum =
      r.ahead * Action.sizeOfList actions from h 0
  induction actions with
  | nil => exact fun _ ↦ rfl
  | cons a rest ih =>
      intro n
      simp only [List.zipIdx_cons, List.map_cons, List.sum_cons, ih (n + 1), Errand.toll,
        Action.sizeOfList, Nat.mul_add]

theorem pays_open (action : Action) (scope : Nat) (step : Option Nat) :
    Pays r 0 p ((p.note action scope step).openWithin scope step) :=
  (pays_note action scope step).trans (smooth_openWithin _ scope step).pays

mutual

theorem pays_perform (hr : r.held ≤ r.ahead) (action : Action) (scope : Nat) (scopes : List Nat)
    (step : Option Nat) (p : Playback) :
    Pays r (r.ahead * action.size) p (perform action scope scopes step p) := by
  cases action with
  | cue cue =>
      exact ((pays_note (.cue cue) scope step).trans
        (pays_performCue hr cue scope scopes step)).weaken (by simp [Action.size])
  | block parts =>
      simp only [perform, Action.size]
      split
      · exact .refl p
      have hopen := pays_open (r := r) (p := p) (.block parts) scope step
      have hparts := pays_performAll hr parts p.session.serial (p.session.serial :: scopes)
        ((p.note (.block parts) scope step).openWithin scope step)
      refine ((hopen.trans hparts).trans (pays_performCue hr .waitForAll _ _ none)).weaken ?_
      rw [Nat.mul_succ]
      omega
  | fork parts =>
      simp only [perform, Action.size]
      split
      · exact .refl p
      refine ((pays_open (.fork parts) scope step).trans
        (pays_spawn (some p.session.serial) (walk p.session.serial false parts))).weaken ?_
      rw [toll_walk, Nat.mul_succ]
      omega

theorem pays_performAll (hr : r.held ≤ r.ahead) (parts : List Action) (scope : Nat)
    (scopes : List Nat) (p : Playback) :
    Pays r (r.ahead * Action.sizeOfList parts) p (performAll parts scope scopes p) := by
  cases parts with
  | nil => exact .refl p
  | cons part rest =>
      refine ((pays_perform hr part scope scopes none p).trans
        (pays_performAll hr rest scope scopes _)).weaken (Nat.le_of_eq ?_)
      rw [Action.sizeOfList, Nat.mul_add]

end

/-! ## A whole turn -/

theorem pays_begin (hr : r.held ≤ r.ahead) (errand : Errand) :
    Pays r (errand.toll r) p (p.begin errand) := by
  cases errand with
  | perform action scope step => exact pays_perform hr action scope [scope] step p
  | sleep d ending scopes => exact (pays_sleep d ending scopes).weaken hr
  | drain scope tally guarded ending => exact pays_drain scope tally guarded ending [scope]
  | awaitEnd => exact pays_suspend .cancelled .nothing [] rfl rfl
  | animate shake stamp d =>
      exact p.smooth_arm.then_pays (pays_suspend (.frame ..) .nothing [] rfl rfl)
  | fastForward => exact pays_suspend (.forward none) .nothing [] rfl rfl

theorem pays_proceed (hr : r.held ≤ r.ahead) {agenda : List Errand} (h : p.turn.agenda = agenda) :
    Pays r 0 p (proceed agenda p) := by
  induction agenda generalizing p with
  | nil => exact .refl p
  | cons errand rest ih =>
      simp only [proceed]
      split
      next =>
        let taken := p.updateTurn fun t ↦ { t with agenda := rest }
        have hbegun : Pays r (errand.toll r) taken (taken.begin errand) := pays_begin hr errand
        have hrest := hbegun.trans (ih (costs_begin errand rfl).agenda)
        have hset : Reparks p taken := .of_parks (Nat.le_refl _) rfl
        refine ⟨hset.trans hrest.reparks, hrest.skips, fun hp ↦ ?_⟩
        have htaken : taken.toll r + errand.toll r = p.toll r := by
          simp only [toll, tollAt, taken, updateTurn, h, List.map_cons, List.sum_cons]
          omega
        have hleft := hrest.toll (hset.past hp)
        change (proceed rest (taken.begin errand)).toll r ≤ _
        omega
      next => exact .refl p

theorem pays_revisit {pause : Pause} {others : List Pause} (h : p.Awaits (pause :: others))
    (htick : pause.wait.awaitsTick = false) : Pays r 0 p (p.revisit pause) := by
  refine ⟨reparks_revisit h, ?_, fun hp ↦ ?_⟩ <;> by_cases hf : p.turn.failed = true
  · rw [revisit_failed hf]
  · rw [revisit_eq (by simpa using hf)]
    exact skips_suspend (p := p.aside) _ _ htick
  · rw [revisit_failed hf]
    exact Nat.le_refl _
  · obtain ⟨done, hpauses⟩ := h.resolve_left hf
    have haside : p.aside.toll r + pause.toll r p.session = p.toll r := by
      simp only [toll, tollAt, aside, updateTurn, hpauses, List.cons_append, List.tail_cons,
        List.map_cons, List.sum_cons]
      omega
    have hpast : p.aside.Past := by
      intro id hid
      refine hp id (List.mem_append.mpr ((List.mem_append.mp hid).imp_left fun hid ↦ ?_))
      obtain ⟨x, hx, hid⟩ := List.mem_flatMap.mp hid
      exact List.mem_flatMap.mpr ⟨x, List.mem_of_mem_tail hx, hid⟩
    have hsuspend : (p.aside.suspend pause.wait pause.ending pause.scopes).toll r ≤
        p.aside.toll r + pause.toll r p.session :=
      toll_suspend pause.ending pause.scopes hpast fun park kind auto he ↦
        hp park (park_mem_parks (.inl (by simp [hpauses])) he)
    rw [revisit_eq (by simpa using hf)]
    exact Nat.le_trans hsuspend (Nat.le_of_eq haside)

theorem pays_revisitAll {pauses : List Pause} (h : p.Awaits pauses)
    (htick : ∀ x ∈ pauses, x.wait.awaitsTick = false) :
    Pays r 0 p (pauses.foldl (fun p pause ↦ p.revisit pause) p) := by
  induction pauses generalizing p with
  | nil => exact .refl p
  | cons pause others ih =>
      exact (pays_revisit h (htick pause (by simp))).trans
        (ih (revisit_awaits h) fun x hx ↦ htick x (by simp [hx]))

variable {task : Task}

theorem pays_begun (hnodup : (p.tasks.map Task.id).Nodup) (htask : task ∈ p.tasks)
    (hidle : p.turn = .none) : Pays r 0 p (p.begun task) := by
  refine ⟨reparks_begun hnodup htask hidle, rfl, fun _ ↦ Nat.le_of_eq ?_⟩
  have hsum := sum_modifyTask (g := fun t ↦ { t with agenda := [], pauses := [] })
    (Task.toll r p.session) hnodup htask
  have hempty : Task.toll r p.session { task with agenda := [], pauses := [] } = 0 := rfl
  have htoll : Task.toll r p.session task =
    (task.agenda.map (Errand.toll r)).sum + (task.pauses.map (Pause.toll r p.session)).sum := rfl
  simp only [toll, tollAt, begun, modifyTask, updateTurn, Turn.ofTask, hidle, Turn.none,
    List.map_nil, List.sum_nil] at hsum ⊢
  omega

/-- The stack of parked actions may lose its waiters, and is otherwise as before. -/
theorem fades_abandonAll (pauses : List Pause) :
    p.session.Fades (p.abandonAll pauses).session := by
  unfold abandonAll
  generalize pauses.filterMap Pause.park? = parks
  induction parks generalizing p with
  | nil => exact .refl _
  | cons park rest ih =>
      have hfirst : p.session.Fades (p.session.abandon park) := by
        refine ⟨Nat.le_refl _, Nat.le_refl _, fun id _ hp ↦ ?_⟩
        obtain ⟨t, ht, hid⟩ := List.any_eq_true.mp hp
        obtain ⟨old, hold, rfl⟩ := List.mem_map.mp ht
        refine List.any_eq_true.mpr ⟨old, hold, ?_⟩
        split at hid <;> exact hid
      exact hfirst.trans (ih (p := p.update (.abandon park)))

theorem pays_endTurn (hnodup : (p.tasks.map Task.id).Nodup)
    (hentry : ∃ t ∈ p.tasks, t.id = task.id ∧ t.agenda = [] ∧ t.pauses = []) :
    Pays r 0 p (p.endTurn task) := by
  obtain ⟨entry, hentry, hid, hagenda, hpauses⟩ := hentry
  obtain ⟨⟨taps, hsession⟩, -⟩ := endTurn_session (p := p) task
  refine ⟨reparks_endTurn hnodup (hid ▸ List.mem_map_of_mem hentry), by rw [hsession], fun hp ↦ ?_⟩
  have hended : ∀ outcome,
      ((p.updateTurn (fun _ ↦ .none)).endTask task outcome).tollAt r p.session ≤ p.toll r := by
    intro outcome
    have hsum := sum_filter_le p.tasks (Task.toll r p.session) (fun t ↦ t.id != task.id)
    simp only [toll, tollAt, endTask, removeTask, updateTurn, Turn.none, List.map_nil, List.sum_nil]
    omega
  unfold endTurn
  dsimp only
  split
  · let ended := (p.updateTurn (fun _ ↦ .none)).endTask task .failed
    have hst := abandonAll_stirs (p := ended) p.turn.pauses
    have hpast : ended.Past := by
      intro id hid
      obtain ⟨t, ht, hid⟩ := List.mem_flatMap.mp hid
      exact hp id (List.mem_append_right _
        (List.mem_flatMap.mpr ⟨t, (List.mem_filter.mp ht).1, hid⟩))
    exact Nat.le_trans (toll_le_of_stirs hpast hst (fades_abandonAll p.turn.pauses)) (hended .failed)
  split
  · exact hended _
  · have hback : ((p.updateTurn (fun _ ↦ .none)).modifyTask task.id
        (fun t ↦ { t with agenda := p.turn.agenda, pauses := p.turn.pauses })).tollAt r p.session ≤
          p.toll r := by
      have hsum := sum_modifyTask
        (g := fun t ↦ { t with agenda := p.turn.agenda, pauses := p.turn.pauses })
        (Task.toll r p.session) hnodup hentry
      have hput : Task.toll r p.session { entry with agenda := p.turn.agenda, pauses := p.turn.pauses } =
        (p.turn.agenda.map (Errand.toll r)).sum + (p.turn.pauses.map (Pause.toll r p.session)).sum := rfl
      have hempty : Task.toll r p.session entry = 0 := by simp [Task.toll, hpauses, hagenda]
      rw [hput, hid, hempty] at hsum
      simp only [toll, tollAt, modifyTask, updateTurn, Turn.none, List.map_nil, List.sum_nil]
      omega
    split
    · unfold wake
      split <;> exact hback
    · exact hback

/-- A turn in which no tick is waited for takes none, and adds nothing to the toll. -/
theorem pays_takeTurn {m : Moment} {rest : List Nat} (hr : r.held ≤ r.ahead)
    (ho : p.Orderly m none 0) (hq : p.queue = task.id :: rest) (htask : task ∈ p.tasks)
    (htick : ∀ x ∈ task.pauses, x.wait.awaitsTick = false) :
    Pays r 0 p (takeTurn task { p with queue := rest }) := by
  let left : Playback := { p with queue := rest }
  have hleft : Pays r 0 p left := ⟨.of_parks (Nat.le_refl _) rfl, rfl, fun _ ↦ Nat.le_refl _⟩
  have hbegun : Pays r 0 left (left.begun task) := pays_begun ho.nodup_ids htask (ho.idle rfl)
  have hawaits : (left.begun task).Awaits task.pauses := .inr ⟨[], (List.append_nil _).symm⟩
  have hworked : Pays r 0 (left.begun task) (left.worked task) :=
    (pays_revisitAll hawaits htick).trans (pays_proceed hr (revisitAll_agenda task.pauses))
  have howorked : (left.worked task).Orderly m (some task.id) 0 :=
    ((ho.beginTurn hq htask).revisitAll task.pauses (ho.punctual task htask)).proceed task.agenda
  obtain ⟨entry, hentry, hid⟩ := List.mem_map.mp (howorked.running_mem task.id rfl)
  obtain ⟨hpauses, hagenda⟩ := howorked.empty entry hentry (congrArg some hid)
  rw [takeTurn_eq]
  exact ((hleft.trans hbegun).trans hworked).trans
    (pays_endTurn howorked.nodup_ids ⟨entry, hentry, hid, hagenda, hpauses⟩)

end Playback

end Storyline
