import Storyline.Proofs.Playback.Holders
import Storyline.Proofs.Playback.Turns

/-!
# The ledger of a playback

Every ticket that is out is held by exactly one pause or errand, and every
parked action is waited for by one pause.  The ledger keeps the books of the
session for these; within a turn some tickets and parked actions may be in hand.
-/

namespace Storyline

namespace Playback

def tickets (p : Playback) : List Ticket :=
  p.turn.pauses.flatMap Pause.tickets ++ p.turn.agenda.flatMap Errand.tickets ++
    p.tasks.flatMap Task.tickets

def parks (p : Playback) : List Nat :=
  p.turn.pauses.flatMap Pause.parks ++ p.tasks.flatMap Task.parks

/-- The books are kept for the tickets in hand and those that are held, while a
task of the given kind has its turn. -/
structure Ledger (kind : Kind) (ids : List Nat) (hand : List Ticket) (parking : List Nat)
    (p : Playback) : Prop where
  books : p.session.Books (hand ++ p.tickets) (parking ++ p.parks)
  known : ids ⊆ p.session.scopes.map Scope.id
  failed : p.turn.failed = true →
    kind = .ticker ∨ p.session.config.voicePoll.period.tickFrom p.session.now 1 = none
  pauses : ∀ q ∈ p.turn.pauses, q.Fits kind
  agenda : ∀ e ∈ p.turn.agenda, e.Fits kind p.session
  whole : ∀ t ∈ p.tasks, t.aborted = false
  tasks : ∀ t ∈ p.tasks, ∃ kind, t.Fits kind p.session

namespace Ledger

variable {kind : Kind} {ids : List Nat} {hand hand' : List Ticket} {parking parking' : List Nat} {p q : Playback}

/-- What stirs a playback keeps the ledger, if it keeps the books. -/
theorem stirs (h : p.Ledger kind ids hand parking) (hst : p.Stirs q)
    (hb : q.session.Books (hand' ++ p.tickets) (parking' ++ p.parks)) :
    q.Ledger kind ids hand' parking' where
  books := by
    have htickets : q.tickets = p.tickets := by
      simp only [Playback.tickets, hst.pauses, hst.agenda, hst.tasks]
    have hparks : q.parks = p.parks := by
      simp only [Playback.parks, hst.pauses, hst.tasks]
    rwa [htickets, hparks]
  known := List.Subset.trans h.known hst.scopes
  failed := by
    rw [hst.failed, hst.config, hst.now]
    exact h.failed
  pauses := hst.pauses ▸ h.pauses
  agenda := fun e he ↦ (h.agenda e (hst.agenda ▸ he)).carry hst.scopes
  whole := hst.tasks ▸ h.whole
  tasks := by
    intro t ht
    obtain ⟨kind, hfits⟩ := h.tasks t (hst.tasks ▸ ht)
    exact ⟨kind, hfits.carry hst.scopes⟩

/-- The clock is no concern of the ledger. -/
theorem later {time : Nat} (h : p.Ledger kind ids hand parking) (hturn : p.turn = .none)
    (hsession : q.session = { p.session with now := time }) (htasks : q.tasks = p.tasks)
    (hsame : q.turn = p.turn) : q.Ledger kind ids hand parking := by
  have hfits : ∀ kind (e : Errand), e.Fits kind p.session → e.Fits kind q.session := by
    intro kind e he
    exact he.carry (by rw [hsession]; exact List.Subset.refl _)
  have htickets : q.tickets = p.tickets := by
    simp only [Playback.tickets, hsame, htasks]
  have hparks : q.parks = p.parks := by
    simp only [Playback.parks, hsame, htasks]
  refine ⟨?_, ?_, ?_, hsame ▸ h.pauses, ?_, htasks ▸ h.whole, ?_⟩
  · rw [htickets, hparks, hsession]
    exact h.books.carry rfl rfl rfl (Nat.le_refl _) (List.Sublist.refl _)
  · rw [hsession]
    exact h.known
  · rw [hsame, hturn]
    simp [Turn.none]
  · rw [hsame]
    exact fun e he ↦ hfits _ e (h.agenda e he)
  · rw [htasks]
    intro t ht
    obtain ⟨kind, ht⟩ := h.tasks t ht
    exact ⟨kind, { ht with agenda := fun e he ↦ hfits _ e (ht.agenda e he) }⟩

theorem carry {f : Session → Session} (h : p.Ledger kind ids hand parking) (hst : p.Stirs (p.update f))
    (running : (f p.session).cancelled = p.session.cancelled)
    (scopes : (f p.session).scopes = p.session.scopes) (skips : (f p.session).skips = p.session.skips)
    (serial : p.session.serial ≤ (f p.session).serial)
    (taps : (f p.session).taps.Sublist p.session.taps) : (p.update f).Ledger kind ids hand parking :=
  h.stirs hst (h.books.carry running scopes skips serial taps)

theorem arm (h : p.Ledger kind ids hand parking) : p.arm.Ledger kind ids hand parking :=
  h.carry p.stirs_arm rfl rfl rfl (Nat.le_refl _) (List.Sublist.refl _)

theorem present (h : p.Ledger kind ids hand parking) (f : Stage → Stage) :
    (p.update (.present f)).Ledger kind ids hand parking := by
  refine h.carry (p.stirs_present f) ?_ ?_ ?_ ?_ ?_ <;> simp [Session.present, h.books.running]

theorem presentIf (h : p.Ledger kind ids hand parking) (f : Stage → Option Stage) :
    (p.update (.presentIf f)).Ledger kind ids hand parking := by
  refine h.carry (p.stirs_presentIf f) ?_ ?_ ?_ ?_ ?_ <;> unfold Session.presentIf <;> split <;>
    first | simp | (split <;> simp)

theorem enter {scope : Nat} (h : p.Ledger kind ids hand parking) (hscope : scope ∈ ids)
    (tapBlocking : Bool) :
    (p.enter scope tapBlocking).Ledger kind ids (p.session.ticket scope tapBlocking :: hand) parking := by
  refine h.stirs (p.stirs_enter scope tapBlocking) ?_
  rw [enter_eq_touch, touch_session]
  exact h.books.enter (h.known hscope) tapBlocking

theorem release {ticket : Ticket} (h : p.Ledger kind ids (ticket :: hand) parking) :
    (p.release ticket).Ledger kind ids hand parking := by
  refine h.stirs (p.stirs_release ticket) ?_
  rw [release_session h.books.numbered]
  exact h.books.release

/-! ## Waiting -/

/-- At the end of a wait its ticket is released. -/
theorem finish {ending : Ending} (h : p.Ledger kind ids (ending.ticket?.toList ++ hand) parking) :
    (p.finish ending).Ledger kind ids hand parking := by
  cases ending with
  | nothing => exact h
  | release ticket => exact release h
  | clearTelop text ticket => exact release (h.presentIf _)
  | coverShown cover stamp ticket => exact release (h.presentIf _)
  | background path => exact h.present _
  | completed =>
      have hsession : (p.finish .completed).session = p.session := by
        simp only [Playback.finish]
        split <;> rfl
      refine h.stirs (p.stirs_finish .completed) ?_
      rw [hsession]
      exact h.books

theorem leave {pause : Pause} (h : p.Ledger kind ids (pause.tickets ++ hand) (pause.parks ++ parking))
    (hfits : pause.Fits kind) : (p.leave pause).Ledger kind ids hand parking := by
  refine { h with books := h.books.perm ?_ ?_, pauses := ?_ }
  · refine List.perm_iff_count.mpr fun t ↦ ?_
    simp only [Playback.tickets, Playback.leave, updateTurn, List.flatMap_append,
      List.flatMap_singleton, List.count_append]
    omega
  · refine List.perm_iff_count.mpr fun t ↦ ?_
    simp only [Playback.parks, Playback.leave, updateTurn, List.flatMap_append,
      List.flatMap_singleton, List.count_append]
    omega
  · intro x hx
    rcases List.mem_append.mp hx with hx | hx
    · exact h.pauses x hx
    · rwa [List.mem_singleton.mp hx]

theorem vacate {gone : List Nat} (h : p.Ledger kind ids hand (gone ++ parking))
    (hgone : ∀ id ∈ gone, p.session.isParked id = false) : p.Ledger kind ids hand parking := by
  induction gone with
  | nil => exact h
  | cons id rest ih =>
      exact ih { h with books := h.books.vacate (hgone id (by simp)) } fun x hx ↦ hgone x (by simp [hx])

/-- A wait takes its ticket and its parked action from the hand, and holds them
while it goes on. -/
theorem suspend {wait : Wait} {ending : Ending} {scopes : List Nat}
    (h : p.Ledger kind ids ((⟨wait, ending, scopes⟩ : Pause).tickets ++ hand)
      ((⟨wait, ending, scopes⟩ : Pause).parks ++ parking))
    (hfits : Pause.Fits kind ⟨wait, ending, scopes⟩) :
    (p.suspend wait ending scopes).Ledger kind ids hand parking := by
  have hlooked : (p.look wait).1.Ledger kind ids ((⟨wait, ending, scopes⟩ : Pause).tickets ++ hand)
      ((⟨wait, ending, scopes⟩ : Pause).parks ++ parking) :=
    h.stirs (p.stirs_look wait) ((p.looked_look wait).books h.books)
  unfold Playback.suspend
  split
  next q w hlook =>
    rw [hlook] at hlooked
    obtain ⟨hfits', hparks⟩ := look_waits_fits hlook hfits
    rw [← hparks] at hlooked
    exact hlooked.leave hfits'
  next q ran hlook =>
    rw [hlook] at hlooked
    rw [look_ran h.books.running hlook, if_pos rfl]
    exact (hlooked.vacate (look_ends_park h.books.running hlook)).finish
  next q hlook =>
    rw [hlook] at hlooked
    obtain rfl := look_fails hlook
    have hleft := hlooked.leave hfits
    have hfailed := look_fails_kind hlook hfits
    exact { hleft with failed := fun _ ↦ hfailed }

theorem sleep {ending : Ending} {ticket : Ticket} {scopes : List Nat} (d : Duration)
    (h : p.Ledger .timeline ids (ticket :: hand) parking) (hending : ending.ticket? = some ticket)
    (htap : ticket.tapEpoch = none) (hscope : ticket.scope ∈ scopes) :
    (p.sleep d ending scopes).Ledger .timeline ids hand parking := by
  refine suspend ?_ ⟨ticket, hending, htap, hscope⟩
  simp only [Pause.tickets, Pause.parks, Pause.park?, hending, Option.toList_some,
    Option.toList_none, List.singleton_append, List.nil_append]
  exact h.arm

theorem park {ending : Ending} {ticket : Ticket} {scopes : List Nat} (dwelling : Dwell)
    (h : p.Ledger .timeline ids (ticket :: hand) parking) (hending : ending.ticket? = some ticket)
    (htap : ticket.tapEpoch.isSome = true) (hscope : ticket.scope ∈ scopes) :
    (p.park dwelling ending scopes).Ledger .timeline ids hand parking := by
  refine suspend ?_ ⟨ticket, hending, htap, hscope⟩
  simp only [Pause.tickets, Pause.parks, Pause.park?, hending, Option.toList_some,
    List.singleton_append]
  exact h.stirs p.stirs_park h.books.park

/-! ## Performing -/

theorem spawn {agenda : List Errand} (scope : Option Nat)
    (h : p.Ledger kind ids (agenda.flatMap Errand.tickets ++ hand) parking)
    (hagenda : ∃ kind, ∀ e ∈ agenda, e.Fits kind p.session)
    (hlater : ∀ e ∈ agenda.tail, e.tickets = []) :
    (p.spawn scope agenda).Ledger kind ids hand parking := by
  unfold Playback.spawn
  rw [if_neg (by simp [h.books.running])]
  refine { h with books := h.books.perm ?_ ?_, whole := ?_, tasks := ?_ }
  · refine List.perm_iff_count.mpr fun t ↦ ?_
    simp only [Playback.tickets, addTask, List.flatMap_append, List.flatMap_singleton,
      Task.tickets, List.flatMap_nil, List.nil_append, List.count_append]
    omega
  · simp [Playback.parks, addTask, Task.parks]
  · intro t ht
    rcases List.mem_append.mp ht with ht | ht
    · exact h.whole t ht
    · rw [List.mem_singleton.mp ht]
  · intro t ht
    rcases List.mem_append.mp ht with ht | ht
    · exact h.tasks t ht
    · obtain ⟨kind, hfits⟩ := hagenda
      rw [List.mem_singleton.mp ht]
      exact ⟨kind, by simp, hfits, hlater, by simp⟩

theorem note (h : p.Ledger kind ids hand parking) (action : Action) (scope : Nat) (step : Option Nat) :
    (p.note action scope step).Ledger kind ids hand parking := by
  unfold Playback.note
  split
  · exact h
  · exact { h with }

theorem announce (h : p.Ledger kind ids hand parking) (step : Option Nat) :
    (p.announce step).Ledger kind ids hand parking := by
  cases step with
  | none => exact h
  | some n => exact h.present _

/-- Sound is no concern of the ledger. -/
theorem sound {f : Session → Session} (h : p.Ledger kind ids hand parking)
    (hf : ∃ calls voiceEnd, f p.session = { p.session with calls := calls, voiceEnd := voiceEnd })
    (hst : p.Stirs (p.update f)) : (p.update f).Ledger kind ids hand parking := by
  obtain ⟨calls, voiceEnd, hf⟩ := hf
  have hserial : p.session.serial ≤ (f p.session).serial := hf ▸ Nat.le_refl _
  have htaps : (f p.session).taps.Sublist p.session.taps := hf ▸ List.Sublist.refl _
  exact h.carry hst (by rw [hf]) (by rw [hf]) (by rw [hf]) hserial htaps

theorem stopAndPlay (channel : Channel) (sound : Sound) (looping : Bool) (s : Session) :
    ∃ calls voiceEnd, (s.stopSound channel).playSound channel sound looping =
      { s with calls := calls, voiceEnd := voiceEnd } := by
  obtain ⟨calls, voiceEnd, h⟩ := s.stopSound_eq channel
  obtain ⟨calls', voiceEnd', h'⟩ := (s.stopSound channel).playSound_eq channel sound looping
  exact ⟨calls', voiceEnd', by rw [h', h]⟩

theorem speak (h : p.Ledger kind ids hand parking) (line : Line) :
    (p.speak line).Ledger kind ids hand parking := by
  have hst := p.stirs_speak line
  unfold Playback.speak at hst ⊢
  split
  next path hpath =>
    rw [hpath] at hst
    refine h.sound ?_ hst
    unfold Session.playVoice
    split
    next blob _ => exact stopAndPlay .voice (.blob blob) false p.session
    next => exact ⟨p.session.calls, p.session.voiceEnd, rfl⟩
  next => exact h

section cues

variable {ticket : Ticket} {scopes : List Nat}

theorem talk (line : Line) (h : p.Ledger .timeline ids (ticket :: hand) parking)
    (htap : ticket.tapEpoch.isSome = true) (hscope : ticket.scope ∈ scopes) :
    (p.talk line ticket scopes).Ledger .timeline ids hand parking := by
  have htold : (p.update (fun s ↦ (s.present (Stage.setTalk line)).pushBacklog line)).Ledger
      .timeline ids (ticket :: hand) parking := by
    refine h.carry (p.stirs_tell line) ?_ ?_ ?_ ?_ ?_ <;>
      simp [Session.pushBacklog, Session.present, h.books.running]
  exact park _ (htold.speak line) rfl htap hscope

theorem telop (text : String) (h : p.Ledger .timeline ids (ticket :: hand) parking)
    (htap : ticket.tapEpoch.isSome = true) (hscope : ticket.scope ∈ scopes) :
    (p.telop text ticket scopes).Ledger .timeline ids hand parking :=
  park _ (h.present _) rfl htap hscope

theorem changeModel (change : ModelChange) (h : p.Ledger .timeline ids (ticket :: hand) parking)
    (htap : ticket.tapEpoch = none) : (p.changeModel change ticket).Ledger .timeline ids hand parking :=
  spawn none (h.presentIf _) ⟨.timeline, by simp [Errand.Fits, Ending.ticket?, htap]⟩
    (by simp)

theorem number (f : Stage → Stage) (h : p.Ledger kind ids hand parking) :
    (p.update (fun s ↦ s.nextSerial.2.present f)).Ledger kind ids hand parking := by
  refine h.carry (p.stirs_number f) ?_ ?_ ?_ ?_ ?_ <;>
    simp [Session.nextSerial, Session.present, h.books.running]

theorem coverScreen (cover : Cover) (visible : Bool) (d : Duration)
    (h : p.Ledger .timeline ids (ticket :: hand) parking) (htap : ticket.tapEpoch = none)
    (hscope : ticket.scope ∈ scopes) :
    (p.coverScreen cover visible d ticket scopes).Ledger .timeline ids hand parking := by
  unfold Playback.coverScreen
  refine sleep d (h.number _) ?_ htap hscope
  cases visible <;> rfl

theorem shakeTarget (shake : Shake) (d : Duration)
    (h : p.Ledger .timeline ids (ticket :: hand) parking) (htap : ticket.tapEpoch = none)
    (hscope : ticket.scope ∈ scopes) :
    (p.shakeTarget shake d ticket scopes).Ledger .timeline ids hand parking := by
  unfold Playback.shakeTarget
  refine sleep d (spawn none (h.number _) ⟨.ticker, ?_⟩ (by simp)) rfl htap hscope
  simp [Errand.Fits]

theorem changeScenery (scenery : Scenery) (path : String)
    (h : p.Ledger .timeline ids (ticket :: hand) parking) :
    (p.changeScenery scenery path ticket).Ledger .timeline ids hand parking := by
  unfold Playback.changeScenery
  refine release (present ?_ _)
  cases scenery with
  | background => exact h
  | bgm =>
      exact h.sound (stopAndPlay _ _ _ p.session)
        (.of_update ((Session.carries_stopSound _).trans (Session.carries_playSound _ _ _)))
  | se =>
      exact h.sound (p.session.playSound_eq _ _ _) (.of_update (Session.carries_playSound _ _ _))

end cues

theorem performCue (cue : Cue) {scope : Nat} {scopes : List Nat} (step : Option Nat)
    (h : p.Ledger .timeline ids hand parking) (hscope : scope ∈ ids) (hmem : scope ∈ scopes) :
    (p.performCue cue scope scopes step).Ledger .timeline ids hand parking := by
  unfold Playback.performCue
  split
  · exact h
  have hannounced := h.announce step
  have htap := Session.ticket_tapEpoch hannounced.books.numbered (hannounced.known hscope)
    cue.isTapBlocking
  have hticket := (p.announce step).session.ticket_scope scope cue.isTapBlocking
  have hentered := hannounced.enter hscope cue.isTapBlocking
  rw [← hticket] at hmem
  have hnone : cue.isTapBlocking = false →
      ((p.announce step).session.ticket scope cue.isTapBlocking).tapEpoch = none := by
    intro hfalse
    rw [hfalse] at htap ⊢
    simpa using htap
  cases cue with
  | talk line => exact hentered.talk line htap hmem
  | telop text => exact hentered.telop text htap hmem
  | model change => exact hentered.changeModel change (hnone rfl)
  | tremble axis character => exact hentered.release
  | cover cover visible seconds => exact hentered.coverScreen cover visible _ (hnone rfl) hmem
  | shake shake seconds => exact hentered.shakeTarget shake _ (hnone rfl) hmem
  | scenery scenery path => exact hentered.changeScenery scenery path
  | delay seconds => exact hentered.sleep _ rfl (hnone rfl) hmem
  | waitForAll => exact suspend hentered.release rfl
  | waitForTap => exact suspend hentered.release rfl

/-- A block or fork takes a ticket for a moment only, and opens a scope. -/
theorem openWithin {scope : Nat} (step : Option Nat) (h : p.Ledger kind ids hand parking)
    (hscope : scope ∈ ids) :
    (p.openWithin scope step).Ledger kind (p.session.serial :: ids) hand parking := by
  have hentered := (h.announce step).enter hscope false
  have hreleased := hentered.release
  have hserial := serial_passed (p := p) scope step ((p.announce step).session.ticket scope false)
  have hopened : (p.openWithin scope step).Ledger kind ids hand parking := by
    unfold Playback.openWithin
    exact hreleased.stirs (.of_update (Session.carries_openScope (some scope)))
      (hreleased.books.openScope (some scope))
  refine { hopened with known := List.cons_subset.mpr ⟨?_, hopened.known⟩ }
  rw [← hserial]
  simp [Playback.openWithin, update, Session.openScope, Scope.fresh]

theorem weaken {id : Nat} (h : p.Ledger kind (id :: ids) hand parking) :
    p.Ledger kind ids hand parking :=
  { h with known := (List.cons_subset.mp h.known).2 }

mutual

theorem perform (action : Action) {scope : Nat} {scopes ids : List Nat} (step : Option Nat)
    {p : Playback} (h : p.Ledger .timeline ids hand parking) (hscope : scope ∈ ids)
    (hmem : scope ∈ scopes) :
    (Playback.perform action scope scopes step p).Ledger .timeline ids hand parking := by
  cases action with
  | cue cue => exact (h.note _ _ _).performCue cue step hscope hmem
  | block parts =>
      simp only [Playback.perform]
      split
      · exact h
      · have hopened := (h.note (.block parts) scope step).openWithin step hscope
        rw [note_session] at hopened
        have hparts := performAll parts hopened List.mem_cons_self
          (List.mem_cons_self (l := scopes))
        exact (hparts.performCue _ none List.mem_cons_self List.mem_cons_self).weaken
  | fork parts =>
      simp only [Playback.perform]
      split
      · exact h
      · have hopened := (h.note (.fork parts) scope step).openWithin step hscope
        rw [note_session] at hopened
        have hnone : ∀ e ∈ walk p.session.serial false parts,
            e.tickets = [] ∧ e.Fits .timeline
              ((p.note (.fork parts) scope step).openWithin scope step).session := by
          intro e he
          obtain ⟨a, -, rfl⟩ := List.mem_map.mp he
          exact ⟨rfl, hopened.known List.mem_cons_self⟩
        refine spawn _ ?_ ⟨.timeline, fun e he ↦ (hnone e he).2⟩
          fun e he ↦ (hnone e (List.mem_of_mem_tail he)).1
        rw [List.flatMap_eq_nil_iff.mpr fun e he ↦ (hnone e he).1]
        exact hopened.weaken

theorem performAll (parts : List Action) {scope : Nat} {scopes ids : List Nat} {p : Playback}
    (h : p.Ledger .timeline ids hand parking) (hscope : scope ∈ ids) (hmem : scope ∈ scopes) :
    (Playback.performAll parts scope scopes p).Ledger .timeline ids hand parking := by
  cases parts with
  | nil => exact h
  | cons part rest => exact performAll rest (perform part none h hscope hmem) hscope hmem

end

/-! ## Turns -/

theorem begin {errand : Errand} (h : p.Ledger kind ids (errand.tickets ++ hand) parking)
    (hfits : errand.Fits kind p.session) : (p.begin errand).Ledger kind ids hand parking := by
  cases errand with
  | perform action scope step =>
      cases kind with
      | ticker => exact hfits.elim
      | timeline =>
          have hknown : p.Ledger .timeline (scope :: ids) hand parking :=
            { h with known := List.cons_subset.mpr ⟨hfits, h.known⟩ }
          exact (perform action step hknown List.mem_cons_self List.mem_cons_self).weaken
  | sleep d ending scopes =>
      cases kind with
      | ticker => exact hfits.elim
      | timeline =>
          obtain ⟨ticket, hticket, htap, hscope⟩ := hfits
          rw [Errand.tickets, hticket] at h
          exact sleep d h hticket htap hscope
  | drain scope tally guarded ending =>
      cases kind with
      | ticker => exact hfits.elim
      | timeline =>
          have hnone : ending.ticket? = none := hfits
          refine suspend ?_ hnone
          simpa [Pause.tickets, Pause.parks, Pause.park?, Errand.tickets, hnone] using h
  | awaitEnd => cases kind <;> exact hfits.elim
  | animate shake stamp d =>
      cases kind with
      | timeline => exact hfits.elim
      | ticker => exact suspend h.arm ⟨rfl, rfl⟩
  | fastForward =>
      cases kind with
      | timeline => exact hfits.elim
      | ticker => exact suspend h ⟨rfl, rfl⟩

theorem proceed {agenda : List Errand} (h : p.Ledger kind ids hand parking)
    (hagenda : p.turn.agenda = agenda) : (Playback.proceed agenda p).Ledger kind ids hand parking := by
  induction agenda generalizing p with
  | nil => exact h
  | cons errand rest ih =>
      simp only [Playback.proceed]
      split
      next =>
        have htaken : (p.updateTurn (fun t ↦ { t with agenda := rest })).Ledger kind ids
            (errand.tickets ++ hand) parking := by
          refine { h with books := h.books.perm ?_ (.refl _), agenda := ?_ }
          · refine List.perm_iff_count.mpr fun t ↦ ?_
            simp only [Playback.tickets, updateTurn, hagenda, List.flatMap_cons, List.count_append]
            omega
          · exact fun e he ↦ h.agenda e (hagenda ▸ List.mem_cons_of_mem _ he)
        have hfits := h.agenda errand (hagenda ▸ List.mem_cons_self)
        exact ih (htaken.begin hfits) (costs_begin errand rfl).agenda
      next => exact h

theorem revisit {pause : Pause} {rest : List Pause} (h : p.Ledger kind ids hand parking)
    (hawaits : p.Awaits (pause :: rest)) : (p.revisit pause).Ledger kind ids hand parking := by
  unfold Playback.revisit
  split
  · exact h
  next hf =>
    obtain ⟨done, hdone⟩ := hawaits.resolve_left hf
    obtain ⟨wait, ending, scopes⟩ := pause
    refine suspend { h with books := h.books.perm ?_ ?_, pauses := ?_ }
      (h.pauses _ (by simp [hdone]))
    · refine List.perm_iff_count.mpr fun t ↦ ?_
      simp only [Playback.tickets, updateTurn, hdone, List.cons_append, List.tail_cons,
        List.flatMap_cons, List.count_append]
      omega
    · refine List.perm_iff_count.mpr fun t ↦ ?_
      simp only [Playback.parks, updateTurn, hdone, List.cons_append, List.tail_cons,
        List.flatMap_cons, List.count_append]
      omega
    · exact fun x hx ↦ h.pauses x (List.mem_of_mem_tail hx)

theorem revisitAll {pauses : List Pause} (h : p.Ledger kind ids hand parking)
    (hawaits : p.Awaits pauses) :
    (pauses.foldl (fun p pause ↦ p.revisit pause) p).Ledger kind ids hand parking := by
  induction pauses generalizing p with
  | nil => exact h
  | cons pause rest ih => exact ih (h.revisit hawaits) (revisit_awaits hawaits)

/-- The running task takes along what it holds; its entry in the table is empty. -/
theorem beginTurn {task : Task} (queue : List Nat) (h : p.Ledger kind ids hand parking)
    (hturn : p.turn = .none) (hnodup : (p.tasks.map Task.id).Nodup) (htask : task ∈ p.tasks) :
    ∃ kind, (({ p with queue := queue }.modifyTask task.id
        (fun t ↦ { t with agenda := [], pauses := [] })).updateTurn
      (fun _ ↦ .ofTask task)).Ledger kind ids hand parking := by
  obtain ⟨kind', hfits⟩ := h.tasks task htask
  have hmem : ∀ t ∈ (p.modifyTask task.id (fun t ↦ { t with agenda := [], pauses := [] })).tasks,
      t ∈ p.tasks ∨ ∃ old ∈ p.tasks, t = { old with agenda := [], pauses := [] } := by
    intro t ht
    rcases mem_modifyTask ht with ⟨old, hold, -, rfl⟩ | ⟨hold, -⟩
    · exact .inr ⟨old, hold, rfl⟩
    · exact .inl hold
  refine ⟨kind', h.books.perm ?_ ?_, h.known, by simp [updateTurn, Turn.ofTask],
    hfits.pauses, hfits.agenda, ?_, ?_⟩
  · refine List.perm_iff_count.mpr fun t ↦ ?_
    have hcount := count_modifyTask (g := fun t ↦ { t with agenda := [], pauses := [] })
      Task.tickets t hnodup htask
    simp only [Playback.tickets, updateTurn, Turn.ofTask, hturn, Turn.none, Task.tickets,
      modifyTask, List.flatMap_nil, List.nil_append, List.count_append, List.append_nil,
      List.count_nil] at hcount ⊢
    omega
  · refine List.perm_iff_count.mpr fun t ↦ ?_
    have hcount := count_modifyTask (g := fun t ↦ { t with agenda := [], pauses := [] })
      Task.parks t hnodup htask
    simp only [Playback.parks, updateTurn, Turn.ofTask, hturn, Turn.none, Task.parks,
      modifyTask, List.flatMap_nil, List.nil_append, List.count_append, List.count_nil] at hcount ⊢
    omega
  · intro t ht
    rcases hmem t ht with hold | ⟨old, hold, rfl⟩
    · exact h.whole t hold
    · exact h.whole old hold
  · intro t ht
    rcases hmem t ht with hold | ⟨old, hold, rfl⟩
    · exact h.tasks t hold
    · exact ⟨.timeline, by simp, by simp, by simp, by simp⟩

/-- The entry of a task that ends holds nothing, and neither does its turn. -/
theorem endTask {task : Task} (outcome : Outcome) (h : p.Ledger kind ids hand parking)
    (hturn : p.turn = .none)
    (hempty : ∀ t ∈ p.tasks, t.id = task.id → t.pauses = [] ∧ t.agenda = []) :
    (p.endTask task outcome).Ledger .timeline ids hand parking := by
  have htickets : (p.endTask task outcome).tickets = p.tickets := by
    unfold Playback.tickets
    rw [flatMap_endTask Task.tickets fun t ht he ↦ by simp [Task.tickets, hempty t ht he]]
    rfl
  have hparks : (p.endTask task outcome).parks = p.parks := by
    unfold Playback.parks
    rw [flatMap_endTask Task.parks fun t ht he ↦ by simp [Task.parks, hempty t ht he]]
    rfl
  have hnone : (p.endTask task outcome).turn = .none := hturn
  refine ⟨?_, h.known, by simp [hnone, Turn.none], by simp [hnone, Turn.none],
    by simp [hnone, Turn.none], ?_, ?_⟩
  · rw [htickets, hparks]
    exact h.books
  · exact fun t ht ↦ h.whole t (List.mem_filter.mp ht).1
  · exact fun t ht ↦ h.tasks t (List.mem_filter.mp ht).1

theorem endTurn {m : Moment} {task : Task} (h : p.Ledger kind ids hand parking)
    (ho : p.Orderly m (some task.id) 0) (hfailed : p.turn.failed = true → kind = .ticker)
    (hfree : p.turn.isFree = true → p.turn.agenda = [])
    (hspent : ∀ e ∈ p.turn.agenda, e.tickets = []) :
    (p.endTurn task).Ledger .timeline ids hand parking := by
  have hempty : ∀ t ∈ p.tasks, t.id = task.id → t.pauses = [] ∧ t.agenda = [] :=
    fun t ht he ↦ ho.empty t ht (by rw [he])
  -- a turn that holds nothing may be dropped
  have hdropped : p.turn.pauses.flatMap Pause.tickets = [] → p.turn.pauses.flatMap Pause.parks = [] →
      p.turn.agenda.flatMap Errand.tickets = [] → ∀ outcome,
        ((p.updateTurn (fun _ ↦ .none)).endTask task outcome).Ledger .timeline ids hand parking := by
    intro htickets hparks hagenda outcome
    have hnone : (p.updateTurn (fun _ ↦ .none)).Ledger .timeline ids hand parking := by
      refine ⟨?_, h.known, by simp [updateTurn, Turn.none], by simp [updateTurn, Turn.none],
        by simp [updateTurn, Turn.none], h.whole, h.tasks⟩
      have hbooks := h.books
      simp only [Playback.tickets, Playback.parks, htickets, hparks, hagenda] at hbooks
      simpa [Playback.tickets, Playback.parks, updateTurn, Turn.none] using hbooks
    exact hnone.endTask outcome rfl hempty
  unfold Playback.endTurn
  dsimp only
  split
  next hf =>
    obtain rfl := hfailed hf
    have hticker : p.turn.pauses.flatMap Pause.parks = [] :=
      List.flatMap_eq_nil_iff.mpr fun q hq ↦ (h.pauses q hq).ticker.2
    have hparks : p.turn.pauses.filterMap Pause.park? = [] := by
      refine List.filterMap_eq_nil_iff.mpr fun q hq ↦ ?_
      simpa [Pause.parks] using (h.pauses q hq).ticker.2
    unfold Playback.abandonAll
    rw [hparks]
    exact hdropped (List.flatMap_eq_nil_iff.mpr fun q hq ↦ (h.pauses q hq).ticker.1) hticker
      (List.flatMap_eq_nil_iff.mpr fun e he ↦ (h.agenda e he).ticker) _
  next hf =>
    split
    next hnil =>
      have hagenda := hfree (by simp [Turn.isFree, hnil, hf])
      have hnil : p.turn.pauses = [] := by simpa using hnil
      exact hdropped (by simp [hnil]) (by simp [hnil]) (by simp [hagenda]) _
    next hnil =>
      obtain ⟨entry, hentry, hid⟩ := List.mem_map.mp (ho.running_mem task.id rfl)
      obtain ⟨hpauses, hagenda⟩ := hempty entry hentry hid
      have hback : ((p.updateTurn (fun _ ↦ .none)).modifyTask task.id
          (fun t ↦ { t with agenda := p.turn.agenda, pauses := p.turn.pauses })).Ledger .timeline
            ids hand parking := by
        refine ⟨h.books.perm ?_ ?_, h.known, by simp [modifyTask, updateTurn, Turn.none],
          by simp [modifyTask, updateTurn, Turn.none], by simp [modifyTask, updateTurn, Turn.none],
          ?_, ?_⟩
        · refine List.perm_iff_count.mpr fun t ↦ ?_
          have hcount := count_modifyTask (p := p.updateTurn (fun _ ↦ .none))
            (g := fun t ↦ { t with agenda := p.turn.agenda, pauses := p.turn.pauses })
            Task.tickets t ho.nodup_ids hentry
          rw [hid] at hcount
          simp only [Playback.tickets, updateTurn, Turn.none, Task.tickets, hpauses, hagenda,
            modifyTask, List.flatMap_nil, List.nil_append, List.count_append, List.append_nil,
            List.count_nil] at hcount ⊢
          omega
        · refine List.perm_iff_count.mpr fun t ↦ ?_
          have hcount := count_modifyTask (p := p.updateTurn (fun _ ↦ .none))
            (g := fun t ↦ { t with agenda := p.turn.agenda, pauses := p.turn.pauses })
            Task.parks t ho.nodup_ids hentry
          rw [hid] at hcount
          simp only [Playback.parks, updateTurn, Turn.none, Task.parks, hpauses, modifyTask,
            List.flatMap_nil, List.nil_append, List.count_append, List.count_nil] at hcount ⊢
          omega
        · intro t ht
          rcases mem_modifyTask ht with ⟨old, hold, -, rfl⟩ | ⟨hold, -⟩
          · exact h.whole old hold
          · exact h.whole t hold
        · intro t ht
          rcases mem_modifyTask ht with ⟨old, hold, -, rfl⟩ | ⟨hold, -⟩
          · exact ⟨kind, h.pauses, h.agenda, fun e he ↦ hspent e (List.mem_of_mem_tail he),
              fun _ ↦ hspent⟩
          · exact h.tasks t hold
      split
      · unfold wake
        split
        · exact hback
        · exact { hback with }
      · exact hback

/-- Up to its end a turn keeps the ledger, and the playback in order. -/
theorem worked_of_begun {m : Moment} {task : Task} {rest : List Nat} {kind' : Kind}
    (ho : p.Orderly m none 0) (hq : p.queue = task.id :: rest) (htask : task ∈ p.tasks)
    (hbegun : (begun task { p with queue := rest }).Ledger kind' ids hand parking) :
    (worked task { p with queue := rest }).Ledger kind' ids hand parking ∧
      (worked task { p with queue := rest }).Orderly m (some task.id) 0 := by
  have hawaits : (begun task { p with queue := rest }).Awaits task.pauses :=
    .inr ⟨[], (List.append_nil _).symm⟩
  exact ⟨(Ledger.revisitAll hbegun hawaits).proceed (revisitAll_agenda task.pauses),
    ((ho.beginTurn hq htask).revisitAll task.pauses (ho.punctual task htask)).proceed task.agenda⟩

/-- A whole turn keeps the ledger, if what is done before its end does not fail. -/
theorem takeTurn_of_begun {m : Moment} {task : Task} {rest : List Nat} {kind' : Kind}
    (h : p.Ledger kind ids hand parking) (ho : p.Orderly m none 0) (hq : p.queue = task.id :: rest)
    (htask : task ∈ p.tasks)
    (hbegun : (begun task { p with queue := rest }).Ledger kind' ids hand parking)
    (hfailed : (worked task { p with queue := rest }).turn.failed = true → kind' = .ticker) :
    (Playback.takeTurn task { p with queue := rest }).Ledger .timeline ids hand parking := by
  have hturn : (begun task { p with queue := rest }).turn = .ofTask task := rfl
  have hagenda : (task.pauses.foldl (fun p pause ↦ p.revisit pause)
      (begun task { p with queue := rest })).turn.agenda = task.agenda :=
    (revisitAll_agenda task.pauses).trans (congrArg Turn.agenda hturn)
  obtain ⟨hworked, howorked⟩ := worked_of_begun ho hq htask hbegun
  rw [takeTurn_eq]
  -- what holds a ticket is taken up as soon as the task has nothing to wait for
  obtain ⟨_, hfits⟩ := h.tasks task htask
  obtain ⟨hsubset, htail⟩ := proceed_subset hagenda
  refine hworked.endTurn howorked hfailed (proceed_agenda hagenda) fun e he ↦ ?_
  by_cases hnil : task.pauses = []
  · refine hfits.later e (htail ?_ he)
    simp [hnil, hturn, Turn.ofTask, Turn.isFree]
  · exact hfits.spent hnil e (hsubset he)

theorem takeTurn {m : Moment} {task : Task} {rest : List Nat} (h : p.Ledger kind ids hand parking)
    (ho : p.Orderly m none 0) (hq : p.queue = task.id :: rest) (htask : task ∈ p.tasks)
    (hpoll : (m.config.voicePoll.period.tickFrom m.now 1).isSome = true) :
    (Playback.takeTurn task { p with queue := rest }).Ledger .timeline ids hand parking := by
  obtain ⟨kind', hbegun⟩ := h.beginTurn rest (ho.idle rfl) ho.nodup_ids htask
  refine h.takeTurn_of_begun ho hq htask hbegun fun hf ↦ ?_
  obtain ⟨hworked, howorked⟩ := worked_of_begun ho hq htask hbegun
  rw [← howorked.moment] at hpoll
  refine (hworked.failed hf).resolve_right fun hnone ↦ ?_
  simp [Session.moment, hnone] at hpoll

theorem runTask {m : Moment} {id : Nat} {rest : List Nat} (h : p.Ledger kind ids hand parking)
    (ho : p.Orderly m none 0) (hq : p.queue = id :: rest)
    (hpoll : (m.config.voicePoll.period.tickFrom m.now 1).isSome = true) :
    (Playback.runTask id { p with queue := rest }).Ledger .timeline ids hand parking := by
  unfold Playback.runTask
  split
  next hnone =>
    obtain ⟨t, ht, he⟩ := List.mem_map.mp (ho.queued id (by simp [hq])).1
    have := List.find?_eq_none.mp hnone t ht
    simp [he] at this
  next task hsome =>
    obtain ⟨htask, rfl⟩ := Orderly.task?_eq (p := { p with queue := rest }) hsome
    rw [if_neg (by simp [h.whole task htask])]
    exact h.takeTurn ho hq htask hpoll

end Ledger

end Playback

end Storyline
