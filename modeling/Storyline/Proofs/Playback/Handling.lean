import Mathlib.Logic.Relation
import Storyline.Proofs.Playback.Casting
import Storyline.Proofs.Playback.Losses
import Storyline.Proofs.Playback.Pace
import Storyline.Proofs.Playback.Rooms

/-!
# Handling tickets

Whatever happens in a session, its counts and the tickets that are out change together,
by single operations: a scope is entered and a ticket given out, a ticket is released,
all scopes are reset, a scope is opened.  Only with a task that fails or is aborted are
tickets lost without a release.  After any operations the counts of each scope are those
of the tickets that are out and of those that have been lost; so wherever a ticket is
released within its epoch, the count is not zero.
-/

namespace Storyline

open Relation

/-- What is asserted when a count is released: within the epoch it is not zero. -/
def Counter.Covers (epoch : Nat) (c : Counter) : Prop := c.epoch = epoch → 0 < c.pending

namespace Session

/-- What is asserted when a ticket is released, of its tap, if it has one, and of its action. -/
structure Covers (t : Ticket) (s : Session) : Prop where
  actions : ∀ sc ∈ s.scopes, sc.id = t.scope → sc.actions.Covers t.epoch
  taps : ∀ sc ∈ s.scopes, sc.id = t.scope → ∀ epoch, t.tapEpoch = some epoch → sc.taps.Covers epoch

/-- A single operation on a session and on the tickets that are out; whether tickets may
be lost is given. -/
inductive Handling (loses : Prop) : Session × List Ticket → Session × List Ticket → Prop
  /-- What has nothing to do with the scopes. -/
  | apart {s s' : Session} {ts : List Ticket} (scopes : s'.scopes = s.scopes)
    (serial : s.serial ≤ s'.serial) : Handling loses (s, ts) (s', ts)
  | order {s : Session} {ts ts' : List Ticket} (h : ts.Perm ts') : Handling loses (s, ts) (s, ts')
  | enter {p : Playback} {scope : Nat} {ts : List Ticket} (tapBlocking : Bool)
    (hscope : scope ∈ p.session.scopes.map Scope.id) :
    Handling loses (p.session, ts)
      ((p.enter scope tapBlocking).session, p.session.ticket scope tapBlocking :: ts)
  | release {p : Playback} {t : Ticket} {ts : List Ticket} :
    Handling loses (p.session, t :: ts) ((p.release t).session, ts)
  | reset {s : Session} {ts : List Ticket} : Handling loses (s, ts) (s.resetScopes, ts)
  | opens {s : Session} {ts : List Ticket} (parent : Option Nat) :
    Handling loses (s, ts) ((s.openScope parent).2, ts)
  | lose {s : Session} {t : Ticket} {ts : List Ticket} (h : loses) :
    Handling loses (s, t :: ts) (s, ts)

variable {s s' : Session} {t : Ticket} {ts ts' : List Ticket} {loses : Prop}

/-! ## The books for the tickets alone -/

/-- The books for the tickets, whatever else has come about in the session. -/
def Reckons (ts : List Ticket) (s : Session) : Prop :=
  ∃ k, ({ s with cancelled := false, taps := [], skips := k + 1 } : Session).Books ts []

/-- Whoever keeps the books reckons with the tickets. -/
theorem Books.reckons {parks : List Nat} (h : s.Books ts parks) : s.Reckons ts :=
  ⟨0, { h with
    running := rfl
    numbered := ⟨h.numbered.nodup, h.numbered.lt⟩
    balanced := h.balanced
    issued := h.issued
    unreset := fun hskips ↦ by cases hskips
    parks_nodup := .nil
    parks_lt := by simp
    taps_nodup := .nil
    taps_subset := List.nil_subset _ }⟩

namespace Reckons

theorem numbered (h : s.Reckons ts) : s.Numbered := by
  obtain ⟨k, hk⟩ := h
  exact ⟨hk.numbered.nodup, hk.numbered.lt⟩

theorem perm (h : s.Reckons ts) (hts : ts.Perm ts') : s.Reckons ts' :=
  h.imp fun _ hk ↦ hk.perm hts (.refl _)

theorem apart (h : s.Reckons ts) (scopes : s'.scopes = s.scopes) (serial : s.serial ≤ s'.serial) :
    s'.Reckons ts :=
  h.imp fun _ hk ↦ hk.carry rfl scopes rfl serial (List.Sublist.refl _)

theorem enter {p : Playback} {scope : Nat} (h : p.session.Reckons ts)
    (hscope : scope ∈ p.session.scopes.map Scope.id) (tapBlocking : Bool) :
    (p.enter scope tapBlocking).session.Reckons (p.session.ticket scope tapBlocking :: ts) := by
  rw [Playback.enter_eq_touch, Playback.touch_session]
  exact h.imp fun _ hk ↦ hk.enter hscope tapBlocking

theorem release {p : Playback} (h : p.session.Reckons (t :: ts)) :
    (p.release t).session.Reckons ts := by
  rw [Playback.release_session h.numbered]
  exact h.imp fun _ hk ↦ hk.release

theorem reset (h : s.Reckons ts) : s.resetScopes.Reckons ts := by
  obtain ⟨k, hk⟩ := h
  exact ⟨k + 1, hk.reset⟩

theorem opens (h : s.Reckons ts) (parent : Option Nat) : (s.openScope parent).2.Reckons ts :=
  h.imp fun _ hk ↦ hk.openScope parent

/-- A ticket that is out is covered: it is one of those that its scope counts. -/
theorem covers (h : s.Reckons ts) (ht : t ∈ ts) : s.Covers t := by
  obtain ⟨k, hk⟩ := h
  have hbalanced : ∀ sc ∈ s.scopes, sc.Balanced ts := hk.balanced
  constructor
  · intro sc hsc hid hepoch
    rw [(hbalanced sc hsc).actions, List.countP_pos_iff]
    exact ⟨t, ht, by simp [Ticket.standing, hid, hepoch]⟩
  · intro sc hsc hid epoch htap hepoch
    obtain ⟨-, -, -, -, heven⟩ := hk.issued t ht
    have hlevel := (hbalanced sc hsc).level
    have hpast := heven epoch htap
    rw [(hbalanced sc hsc).taps, List.countP_pos_iff]
    refine ⟨t, ht, ?_⟩
    simp [Ticket.tappable, Ticket.standing, hid, htap, ← hlevel, hepoch, hpast]

end Reckons

/-- The scopes count the tickets that are out and those that have been lost. -/
def Solvent (x : Session × List Ticket) : Prop := ∃ lost, x.1.Reckons (lost ++ x.2)

/-- So they do after every operation. -/
theorem Handling.solvent {x y : Session × List Ticket} (h : Handling loses x y) (hx : Solvent x) :
    Solvent y := by
  obtain ⟨lost, hlost⟩ := hx
  cases h with
  | apart scopes serial => exact ⟨lost, hlost.apart scopes serial⟩
  | order h => exact ⟨lost, hlost.perm (h.append_left lost)⟩
  | enter tapBlocking hscope =>
    exact ⟨lost, (hlost.enter hscope tapBlocking).perm List.perm_middle.symm⟩
  | release => exact ⟨lost, (hlost.perm List.perm_middle).release⟩
  | reset => exact ⟨lost, hlost.reset⟩
  | opens parent => exact ⟨lost, hlost.opens parent⟩
  | @lose s t ts => exact ⟨lost ++ [t], by simpa using hlost⟩

theorem solvent_of_handling {x y : Session × List Ticket} (h : ReflTransGen (Handling loses) x y)
    (hx : Solvent x) : Solvent y := by
  induction h with
  | refl => exact hx
  | tail _ hstep ih => exact hstep.solvent ih

theorem Solvent.covers (h : Solvent (s, ts)) (ht : t ∈ ts) : s.Covers t := by
  obtain ⟨lost, hlost⟩ := h
  exact hlost.covers (List.mem_append_right lost ht)

theorem Handling.mono {loses' : Prop} {x y : Session × List Ticket} (h : Handling loses x y)
    (himp : loses → loses') : Handling loses' x y := by
  cases h with
  | apart scopes serial => exact .apart scopes serial
  | order h => exact .order h
  | enter tapBlocking hscope => exact .enter tapBlocking hscope
  | release => exact .release
  | reset => exact .reset
  | opens parent => exact .opens parent
  | lose h => exact .lose (himp h)

/-- A scope stays. -/
theorem Handling.scopes {x y : Session × List Ticket} (h : Handling loses x y) :
    x.1.scopes.map Scope.id ⊆ y.1.scopes.map Scope.id := by
  cases h with
  | apart scopes => rw [scopes]; exact List.Subset.refl _
  | enter => exact (Playback.stirs_enter _ _ _).scopes
  | release => exact (Playback.stirs_release _ _).scopes
  | @reset s => simp [resetScopes, Function.comp_def, Scope.reset]
  | opens => simp [openScope]
  | order | lose => exact List.Subset.refl _

/-- Tickets are lost one after the other. -/
theorem handling_lose (h : loses) (lost : List Ticket) :
    ReflTransGen (Handling loses) (s, lost ++ ts) (s, ts) := by
  induction lost with
  | nil => exact .refl
  | cons t rest ih => exact ih.head (.lose h)

end Session

namespace Playback

open Session (Handling)

/-- The session and the tickets have been taken on by operations; `hand` and `hand'` are
the tickets in hand before and afterwards, which no pause and no errand holds. -/
def Handles (loses : Prop) (hand hand' : List Ticket) (p q : Playback) : Prop :=
  ReflTransGen (Handling loses) (p.session, hand ++ p.tickets) (q.session, hand' ++ q.tickets)

variable {loses : Prop} {hand hand' hand'' : List Ticket} {p q r : Playback}

theorem Stirs.tickets (h : p.Stirs q) : q.tickets = p.tickets := by
  simp only [Playback.tickets, h.pauses, h.agenda, h.tasks]

namespace Handles

theorem refl (hand : List Ticket) (p : Playback) : Handles loses hand hand p p := ReflTransGen.refl

theorem trans (h : Handles loses hand hand' p q) (h' : Handles loses hand' hand'' q r) :
    Handles loses hand hand'' p r := ReflTransGen.trans h h'

theorem mono {loses' : Prop} (h : Handles loses hand hand' p q) (himp : loses → loses') :
    Handles loses' hand hand' p q := by
  have hsub : Handling loses ≤ Handling loses' := fun _ _ hop ↦ hop.mono himp
  exact ReflTransGen.mono hsub _ _ h

/-- The tickets are held by others than before. -/
theorem of_perm (hscopes : q.session.scopes = p.session.scopes)
    (hserial : p.session.serial ≤ q.session.serial)
    (htickets : (hand ++ p.tickets).Perm (hand' ++ q.tickets)) : Handles loses hand hand' p q :=
  (ReflTransGen.single (.apart hscopes hserial)).tail (.order htickets)

theorem scopes (h : Handles loses hand hand' p q) :
    p.session.scopes.map Scope.id ⊆ q.session.scopes.map Scope.id := by
  have hsub (x y : Session × List Ticket) (h : ReflTransGen (Handling loses) x y) :
      x.1.scopes.map Scope.id ⊆ y.1.scopes.map Scope.id := by
    induction h with
    | refl => exact List.Subset.refl _
    | tail _ hop ih => exact List.Subset.trans ih hop.scopes
  exact hsub _ _ h

/-- A stir that leaves the scopes alone. -/
theorem of_stirs (hst : p.Stirs q) (h : q.session.rooms = p.session.rooms) :
    Handles loses hand hand p q := by
  apply of_perm (Prod.mk.inj h).1 hst.serial
  rw [hst.tickets]

end Handles

/-! ## Looks and endings -/

theorem handles_enter {scope : Nat} (tapBlocking : Bool)
    (hscope : scope ∈ p.session.scopes.map Scope.id) :
    Handles loses hand (p.session.ticket scope tapBlocking :: hand) p (p.enter scope tapBlocking) := by
  apply ReflTransGen.single
  rw [(p.stirs_enter scope tapBlocking).tickets]
  exact .enter tapBlocking hscope

theorem handles_release (t : Ticket) : Handles loses (t :: hand) hand p (p.release t) := by
  apply ReflTransGen.single
  rw [(p.stirs_release t).tickets]
  exact .release

theorem handles_arm : Handles loses hand hand p p.arm := .of_stirs p.stirs_arm rfl

theorem handles_present (f : Stage → Stage) : Handles loses hand hand p (p.update (.present f)) :=
  .of_stirs (p.stirs_present f) (Session.rooms_present f)

theorem handles_presentIf (f : Stage → Option Stage) :
    Handles loses hand hand p (p.update (.presentIf f)) :=
  .of_stirs (p.stirs_presentIf f) (Session.rooms_presentIf f)

theorem handles_unpark (id : Nat) : Handles loses hand hand p (p.unpark id) := by
  refine .of_stirs (p.stirs_unpark id) ?_
  rw [unpark_eq_touch, touch_session]
  rfl

/-- A tick of fast-forward resets all scopes. -/
theorem handles_fastForwardTick : Handles loses hand hand p p.fastForwardTick := by
  have hreset : ReflTransGen (Handling loses) (p.session, hand ++ p.tickets)
      (p.session.resetScopes, hand ++ p.tickets) := .single .reset
  rw [Handles, p.stirs_fastForwardTick.tickets, fastForwardTick_session]
  exact hreset.tail (.apart rfl (Nat.le_refl _))

theorem Looked.handles (h : p.Looked q) : Handles loses hand hand p q := by
  have hsway (n : Nat) (f : Stage → Option Stage) : Handles loses hand hand p
      (p.update fun s ↦ Session.presentIf f { s with draws := n }) :=
    .of_stirs (p.stirs_sway n f) (Session.rooms_presentIf f)
  cases h with
  | still => exact .refl hand p
  | arms => exact handles_arm
  | movesOn park => exact handles_unpark park
  | dwells park => exact handles_arm.trans (handles_unpark park)
  | sways n => exact hsway n _
  | swaysOn n => exact (hsway n _).trans handles_arm
  | ticks => exact handles_fastForwardTick.trans handles_arm

/-- At the end of a wait its ticket is released. -/
theorem handles_finish (ending : Ending) :
    Handles loses (ending.ticket?.toList ++ hand) hand p (p.finish ending) := by
  cases ending with
  | nothing => exact .refl hand p
  | release ticket => exact handles_release ticket
  | clearTelop text ticket => exact (handles_presentIf _).trans (handles_release ticket)
  | coverShown cover stamp ticket => exact (handles_presentIf _).trans (handles_release ticket)
  | background path => exact handles_present _
  | completed =>
    refine .of_stirs (p.stirs_finish .completed) ?_
    rw [finish]
    split <;> rfl

theorem handles_leave (pause : Pause) :
    Handles loses (pause.tickets ++ hand) hand p (p.leave pause) := by
  refine .of_perm rfl (Nat.le_refl _) (List.perm_iff_count.mpr fun t ↦ ?_)
  simp only [tickets, leave, updateTurn, List.flatMap_append, List.flatMap_singleton,
    List.count_append]
  omega

/-- While the session goes on, a wait holds its ticket until it releases it; at the end of the
session tickets may be lost. -/
theorem handles_suspend (hgoes : p.session.cancelled = true → loses) (wait : Wait) (ending : Ending)
    (scopes : List Nat) :
    Handles loses ((⟨wait, ending, scopes⟩ : Pause).tickets ++ hand) hand p
      (p.suspend wait ending scopes) := by
  have hlooked : Handles loses (ending.ticket?.toList ++ hand) (ending.ticket?.toList ++ hand) p
      (p.look wait).1 := (p.looked_look wait).handles
  rw [suspend]
  split
  next q w hlook =>
    rw [hlook] at hlooked
    exact hlooked.trans (handles_leave ⟨w, ending, scopes⟩)
  next q ran hlook =>
    rw [hlook] at hlooked
    split
    · exact hlooked.trans (handles_finish ending)
    next hcut =>
      have hloses : loses := hgoes <| by
        by_contra hc
        exact hcut (look_ran (Bool.eq_false_iff.mpr hc) hlook)
      refine hlooked.trans ?_
      rw [Handles, List.append_assoc]
      exact Session.handling_lose hloses ending.ticket?.toList
  next q hlook =>
    rw [hlook] at hlooked
    exact hlooked.trans ((handles_leave ⟨wait, ending, scopes⟩).trans
      (.of_perm rfl (Nat.le_refl _) (.refl _)))

theorem handles_sleep (hgoes : p.session.cancelled = true → loses) (d : Duration) (ending : Ending)
    (scopes : List Nat) :
    Handles loses (ending.ticket?.toList ++ hand) hand p (p.sleep d ending scopes) :=
  handles_arm.trans (handles_suspend (p := p.arm) hgoes _ ending scopes)

theorem handles_park (hgoes : p.session.cancelled = true → loses) (dwell : Dwell) (ending : Ending)
    (scopes : List Nat) :
    Handles loses (ending.ticket?.toList ++ hand) hand p (p.park dwell ending scopes) := by
  have hparked : Handles loses (ending.ticket?.toList ++ hand) (ending.ticket?.toList ++ hand) p
      (p.update fun s ↦ s.park.2) := .of_stirs p.stirs_park rfl
  exact hparked.trans (handles_suspend (p := p.update fun s ↦ s.park.2) hgoes _ ending scopes)

/-! ## Performing -/

/-- A task that is added takes the tickets of its errands along. -/
theorem handles_spawn (hgoes : p.session.cancelled = true → loses) (scope : Option Nat)
    (agenda : List Errand) :
    Handles loses (agenda.flatMap Errand.tickets ++ hand) hand p (p.spawn scope agenda) := by
  rw [spawn]
  split
  next hc =>
    rw [Handles, List.append_assoc]
    exact Session.handling_lose (hgoes hc) (agenda.flatMap Errand.tickets)
  refine .of_perm rfl (Nat.le_refl _) (List.perm_iff_count.mpr fun t ↦ ?_)
  simp only [tickets, addTask, List.flatMap_append, List.flatMap_singleton, Task.tickets,
    List.flatMap_nil, List.nil_append, List.count_append]
  omega

theorem handles_spawn_nil {agenda : List Errand} (h : agenda.flatMap Errand.tickets = [])
    (scope : Option Nat) : Handles loses hand hand p (p.spawn scope agenda) := by
  cases hc : p.session.cancelled with
  | true =>
    rw [spawn, if_pos hc]
    exact .refl hand p
  | false =>
    have hspawned : Handles loses (agenda.flatMap Errand.tickets ++ hand) hand p (p.spawn scope agenda) :=
      handles_spawn (by simp [hc]) scope agenda
    rwa [h] at hspawned

theorem handles_note (action : Action) (scope : Nat) (step : Option Nat) :
    Handles loses hand hand p (p.note action scope step) := by
  rw [note]
  split
  · exact .refl hand p
  · exact .of_perm rfl (Nat.le_refl _) (.refl _)

theorem handles_announce (step : Option Nat) : Handles loses hand hand p (p.announce step) := by
  cases step with
  | none => exact .refl hand p
  | some n => exact handles_present _

theorem handles_speak (line : Line) : Handles loses hand hand p (p.speak line) := by
  refine .of_stirs (p.stirs_speak line) ?_
  rw [speak]
  split
  · exact Session.rooms_playVoice _
  · rfl

theorem handles_tell (line : Line) : Handles loses hand hand p
    (p.update fun s ↦ (s.present (Stage.setTalk line)).pushBacklog line) :=
  .of_stirs (p.stirs_tell line) (Session.rooms_present _)

theorem handles_number (f : Stage → Stage) :
    Handles loses hand hand p (p.update fun s ↦ s.nextSerial.2.present f) :=
  .of_stirs (p.stirs_number f) (Session.rooms_present f)

theorem handles_changeScenery (scenery : Scenery) (path : String) (t : Ticket) :
    Handles loses (t :: hand) hand p (p.changeScenery scenery path t) := by
  have hshown (q : Playback) (f : Stage → Stage) : Handles loses (t :: hand) hand q
      ((q.update (.present f)).release t) := (handles_present f).trans (handles_release t)
  cases scenery with
  | background => exact hshown p _
  | bgm =>
    refine .trans (.of_stirs (.of_update ((Session.carries_stopSound _).trans
      (Session.carries_playSound _ _ _))) ?_) (hshown _ _)
    exact (Session.rooms_playSound _ _ _).trans (Session.rooms_stopSound _)
  | se =>
    refine .trans (.of_stirs (.of_update (Session.carries_playSound _ _ _)) ?_) (hshown _ _)
    exact Session.rooms_playSound _ _ _

theorem goes_number (hgoes : p.session.cancelled = true → loses) (f : Stage → Stage) :
    (p.update fun s ↦ s.nextSerial.2.present f).session.cancelled = true → loses :=
  fun hc ↦ hgoes ((congrArg Pace.cancelled (p.smooth_number f).level.pace).symm.trans hc)

theorem handles_coverScreen (hgoes : p.session.cancelled = true → loses) (cover : Cover) (visible : Bool)
    (d : Duration) (t : Ticket) (scopes : List Nat) :
    Handles loses (t :: hand) hand p (p.coverScreen cover visible d t scopes) := by
  cases visible with
  | true =>
    exact (handles_number _).trans
      (handles_sleep (goes_number hgoes _) d (.coverShown cover p.session.serial t) scopes)
  | false =>
    exact (handles_number _).trans (handles_sleep (goes_number hgoes _) d (.release t) scopes)

theorem handles_shakeTarget (hgoes : p.session.cancelled = true → loses) (shake : Shake) (d : Duration)
    (t : Ticket) (scopes : List Nat) :
    Handles loses (t :: hand) hand p (p.shakeTarget shake d t scopes) := by
  have hslept (q : Playback) (hq : q.session.cancelled = true → loses) (agenda : List Errand) :
      Handles loses (t :: hand) hand (q.spawn none agenda)
        ((q.spawn none agenda).sleep d (.release t) scopes) := by
    refine handles_sleep ?_ d (.release t) scopes
    rwa [spawn_session]
  have hspawned (q : Playback) : Handles loses (t :: hand) (t :: hand) q
      (q.spawn none [.animate shake p.session.serial d]) := handles_spawn_nil rfl none
  exact (handles_number _).trans
    ((hspawned _).trans (hslept _ (goes_number hgoes _) _))

/-- A cue takes a ticket, and holds or releases it. -/
theorem handles_performCue {scope : Nat} (hscope : scope ∈ p.session.scopes.map Scope.id) (cue : Cue)
    (scopes : List Nat) (step : Option Nat) :
    Handles loses hand hand p (p.performCue cue scope scopes step) := by
  rw [performCue]
  split
  · exact .refl hand p
  next hover =>
    have hgoes {q : Playback} (h : p.Smooth q) (hc : q.session.cancelled = true) : loses := by
      have hsame : q.session.cancelled = p.session.cancelled := congrArg Pace.cancelled h.level.pace
      exact absurd hc (by cases hp : p.session.cancelled <;> simp_all [isOver])
    have hentered := (p.smooth_announce step).trans (smooth_enter _ scope cue.isTapBlocking)
    refine ((handles_announce step).trans (handles_enter cue.isTapBlocking
      ((p.stirs_announce step).scopes hscope))).trans ?_
    cases cue with
    | talk line =>
      have htold := hentered.trans ((smooth_tell _ line).trans (smooth_speak _ line))
      exact ((handles_tell line).trans (handles_speak line)).trans
        (handles_park (hgoes htold) _ (.release _) scopes)
    | telop text =>
      have hshown := hentered.trans (smooth_present _ (Stage.setTelop text))
      exact (handles_present _).trans (handles_park (hgoes hshown) _ (.clearTelop text _) scopes)
    | model change =>
      have hchanged := hentered.trans (smooth_presentIf _ change.apply)
      exact (handles_presentIf _).trans (handles_spawn (hgoes hchanged) none [.sleep _ (.release _) _])
    | tremble axis character => exact handles_release _
    | cover cover visible seconds => exact handles_coverScreen (hgoes hentered) cover visible _ _ scopes
    | shake shake seconds => exact handles_shakeTarget (hgoes hentered) shake _ _ scopes
    | scenery scenery path => exact handles_changeScenery scenery path _
    | delay seconds => exact handles_sleep (hgoes hentered) _ (.release _) scopes
    | waitForAll | waitForTap =>
      exact (handles_release _).trans
        (handles_suspend (hgoes (hentered.trans (smooth_release _ _))) _ .nothing scopes)

/-- A block or a fork takes a ticket for a moment only, and opens a scope. -/
theorem handles_openWithin {scope : Nat} (hscope : scope ∈ p.session.scopes.map Scope.id)
    (step : Option Nat) : Handles loses hand hand p (p.openWithin scope step) := by
  have hpassed : Handles loses hand hand p (((p.announce step).enter scope false).release
      ((p.announce step).session.ticket scope false)) :=
    ((handles_announce step).trans (handles_enter false
      ((p.stirs_announce step).scopes hscope))).trans (handles_release _)
  exact hpassed.trans (.single (.opens (some scope)))

/-! ## Turns -/

theorem handles_begin (hgoes : p.session.cancelled = true → loses) {errand : Errand}
    (hother : ∀ action scope step, errand ≠ .perform action scope step)
    (hdrain : ∀ scope tally guarded ending, errand = .drain scope tally guarded ending →
      ending.ticket? = none) :
    Handles loses (errand.tickets ++ hand) hand p (p.begin errand) := by
  cases errand with
  | perform action scope step => exact absurd rfl (hother action scope step)
  | sleep d ending scopes => exact handles_sleep hgoes d ending scopes
  | drain scope tally guarded ending =>
    have hsuspend : Handles loses (ending.ticket?.toList ++ hand) hand p
        (p.suspend (.drained scope tally guarded) ending [scope]) := handles_suspend hgoes _ ending _
    rwa [hdrain scope tally guarded ending rfl] at hsuspend
  | awaitEnd => exact handles_suspend hgoes _ .nothing []
  | animate shake stamp d =>
    exact handles_arm.trans (handles_suspend (p := p.arm) hgoes _ .nothing [])
  | fastForward => exact handles_suspend hgoes _ .nothing []

/-- A look takes a pause in hand and puts it back, if it goes on. -/
theorem handles_revisit (hgoes : p.session.cancelled = true → loses) {pause : Pause} {others : List Pause}
    (h : p.Awaits (pause :: others)) : Handles loses hand hand p (p.revisit pause) := by
  by_cases hf : p.turn.failed = true
  · rw [revisit_failed hf]
    exact .refl hand p
  obtain ⟨done, hpauses⟩ := h.resolve_left hf
  rw [revisit_eq (by simpa using hf)]
  have haside : Handles loses hand (pause.tickets ++ hand) p p.aside := by
    refine .of_perm rfl (Nat.le_refl _) (List.perm_iff_count.mpr fun t ↦ ?_)
    simp only [tickets, aside, updateTurn, hpauses, List.cons_append, List.tail_cons,
      List.flatMap_cons, List.count_append]
    omega
  exact haside.trans (handles_suspend (p := p.aside) hgoes _ _ _)

/-- The running task takes along what it holds. -/
theorem handles_begun {task : Task} (hnodup : (p.tasks.map Task.id).Nodup) (htask : task ∈ p.tasks)
    (hidle : p.turn = .none) : Handles loses hand hand p (p.begun task) := by
  refine .of_perm rfl (Nat.le_refl _) (List.perm_iff_count.mpr fun t ↦ ?_)
  have hcount := count_modifyTask (p := p) (g := fun t ↦ { t with agenda := [], pauses := [] })
    Task.tickets t hnodup htask
  have hnone : (Task.tickets { task with agenda := [], pauses := [] }).count t = 0 := rfl
  rw [hnone] at hcount
  simp only [tickets, begun, updateTurn, Turn.ofTask, hidle, Turn.none, List.flatMap_nil,
    List.nil_append, List.count_append]
  have hsplit : task.tickets.count t = (task.pauses.flatMap Pause.tickets).count t +
      (task.agenda.flatMap Errand.tickets).count t := by rw [Task.tickets, List.count_append]
  omega

end Playback

end Storyline
