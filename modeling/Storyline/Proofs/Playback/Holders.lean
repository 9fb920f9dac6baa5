import Storyline.Proofs.Playback.Books
import Storyline.Proofs.Playback.Quiet

/-!
# Who holds the tickets

The pauses and errands of the timeline hold the tickets of the actions that have
not ended; those of the tickers hold none.  A look at a wait neither takes a
ticket nor gives one, and does not fail where a ticket is held, as long as the
clock can show when the voice is to be looked at.
-/

namespace Storyline

/-- What a task is for: the timeline of the story, whose parts hold tickets, or
ticking beside it, for shakes and fast-forward. -/
inductive Kind where
  | timeline
  | ticker
deriving DecidableEq

/-- The ticket that is released at the end of a wait. -/
def Ending.ticket? : Ending → Option Ticket
  | release ticket | clearTelop _ ticket | coverShown _ _ ticket => some ticket
  | _ => none

def Pause.tickets (q : Pause) : List Ticket := q.ending.ticket?.toList

/-- The parked actions that a pause waits for, at most one. -/
def Pause.parks (q : Pause) : List Nat := q.park?.toList

/-- The waits for a tap or a timer hold a ticket, those for a count hold none, and
so do those of tickers. -/
def Pause.Fits (kind : Kind) (q : Pause) : Prop :=
  match kind, q.wait with
  | .timeline, .tap .. =>
    ∃ t, q.ending.ticket? = some t ∧ t.tapEpoch.isSome = true ∧ t.scope ∈ q.scopes
  | .timeline, .sleep .. => ∃ t, q.ending.ticket? = some t ∧ t.tapEpoch = none ∧ t.scope ∈ q.scopes
  | .timeline, .drained .. => q.ending.ticket? = none
  | .ticker, .frame .. | .ticker, .forward _ => q.ending = .nothing ∧ q.scopes = []
  | _, _ => False

def Errand.tickets : Errand → List Ticket
  | sleep _ ending _ => ending.ticket?.toList
  | _ => []

/-- An errand that leaves behind what fits. -/
def Errand.Fits (kind : Kind) (s : Session) (e : Errand) : Prop :=
  match kind, e with
  | .timeline, .perform _ scope _ => scope ∈ s.scopes.map Scope.id
  | .timeline, .sleep _ ending scopes =>
    ∃ t, ending.ticket? = some t ∧ t.tapEpoch = none ∧ t.scope ∈ scopes
  | .timeline, .drain _ _ _ ending => ending.ticket? = none
  | .ticker, .animate .. | .ticker, .fastForward => True
  | _, _ => False

def Task.tickets (t : Task) : List Ticket :=
  t.pauses.flatMap Pause.tickets ++ t.agenda.flatMap Errand.tickets

def Task.parks (t : Task) : List Nat := t.pauses.flatMap Pause.parks

/-- Whatever a task has of one kind; only the first errand of a new task may hold
a ticket. -/
structure Task.Fits (kind : Kind) (s : Session) (t : Task) : Prop where
  pauses : ∀ q ∈ t.pauses, q.Fits kind
  agenda : ∀ e ∈ t.agenda, e.Fits kind s
  later : ∀ e ∈ t.agenda.tail, e.tickets = []
  spent : t.pauses ≠ [] → ∀ e ∈ t.agenda, e.tickets = []

theorem Errand.Fits.carry {kind : Kind} {s s' : Session} {e : Errand} (h : e.Fits kind s)
    (hscopes : s.scopes.map Scope.id ⊆ s'.scopes.map Scope.id) : e.Fits kind s' := by
  cases kind <;> cases e <;> first | exact h | exact hscopes h

theorem Task.Fits.carry {kind : Kind} {s s' : Session} {t : Task} (h : t.Fits kind s)
    (hscopes : s.scopes.map Scope.id ⊆ s'.scopes.map Scope.id) : t.Fits kind s' :=
  { h with agenda := fun e he ↦ (h.agenda e he).carry hscopes }

/-- A ticker holds no tickets. -/
theorem Pause.Fits.ticker {q : Pause} (h : q.Fits .ticker) : q.tickets = [] ∧ q.parks = [] := by
  obtain ⟨wait, ending, scopes⟩ := q
  cases wait <;> simp_all [Pause.Fits, Pause.tickets, Pause.parks, Pause.park?, Ending.ticket?]

theorem Errand.Fits.ticker {s : Session} {e : Errand} (h : e.Fits .ticker s) : e.tickets = [] := by
  cases e <;> first | rfl | cases h

namespace Playback

/-! ## Looks -/

section look

variable {p q : Playback} {wait w : Wait} {kind : Kind} {ending : Ending} {scopes : List Nat}

theorem dwell_kind {park : Nat} {dwelling : Dwell} {d : Duration}
    (h : p.dwell park dwelling d = (q, .waits w)) : ∃ auto, w = .tap park dwelling auto := by
  unfold dwell moveOn at h
  dsimp only at h
  split at h
  · cases (Prod.mk.inj h).2
  · exact ⟨_, (Verdict.waits.inj (Prod.mk.inj h).2).symm⟩

theorem lookAtTap_kind {park : Nat} {dwelling : Dwell} {auto : Lingering}
    (h : p.lookAtTap park dwelling auto = (q, .waits w)) : ∃ kind auto, w = .tap park kind auto := by
  unfold lookAtTap at h
  split at h
  · cases (Prod.mk.inj h).2
  split at h
  · cases (Prod.mk.inj h).2
  split at h
  · exact ⟨_, _, (Verdict.waits.inj (Prod.mk.inj h).2).symm⟩
  cases auto with
  | off =>
      cases dwelling with
      | fixed d => exact ⟨_, dwell_kind h⟩
      | voice =>
          simp only [beginLingering] at h
          split at h
          · exact ⟨_, _, (Verdict.waits.inj (Prod.mk.inj h).2).symm⟩
          · cases (Prod.mk.inj h).2
  | listening start ticks timer =>
      dsimp only at h
      split at h
      · exact ⟨_, _, (Verdict.waits.inj (Prod.mk.inj h).2).symm⟩
      split at h
      · exact ⟨_, _, (Verdict.waits.inj (Prod.mk.inj h).2).symm⟩
      · exact ⟨_, dwell_kind h⟩
  | dwelling timer =>
      dsimp only at h
      split at h
      · cases (Prod.mk.inj h).2
      · exact ⟨_, _, (Verdict.waits.inj (Prod.mk.inj h).2).symm⟩

/-- A wait that goes on is for the same thing. -/
theorem look_waits_fits (h : p.look wait = (q, .waits w))
    (hfits : Pause.Fits kind ⟨wait, ending, scopes⟩) :
    Pause.Fits kind ⟨w, ending, scopes⟩ ∧
      (⟨w, ending, scopes⟩ : Pause).parks = (⟨wait, ending, scopes⟩ : Pause).parks := by
  cases wait with
  | tap park dwelling auto =>
      obtain ⟨_, _, rfl⟩ := lookAtTap_kind h
      cases kind <;> exact ⟨hfits, rfl⟩
  | sleep timer skips =>
      simp only [look, lookAtSleep] at h
      split at h
      · cases (Prod.mk.inj h).2
      split at h
      · cases (Prod.mk.inj h).2
      · rw [← Verdict.waits.inj (Prod.mk.inj h).2]
        exact ⟨hfits, rfl⟩
  | drained scope tally guarded =>
      simp only [look, lookAtCount] at h
      split at h
      · cases (Prod.mk.inj h).2
      split at h
      · cases (Prod.mk.inj h).2
      · rw [← Verdict.waits.inj (Prod.mk.inj h).2]
        exact ⟨hfits, rfl⟩
  | cancelled => cases kind <;> exact hfits.elim
  | frame shake stamp d start ticks timer =>
      rcases p.lookAtFrame_cases shake stamp d start ticks timer with
        ⟨-, h'⟩ | ⟨-, h' | ⟨n, finished, offset, h' | h'⟩⟩ <;> rw [look, h'] at h
      · rw [← Verdict.waits.inj (Prod.mk.inj h).2]
        exact ⟨hfits, rfl⟩
      · cases (Prod.mk.inj h).2
      · cases (Prod.mk.inj h).2
      · rw [← Verdict.waits.inj (Prod.mk.inj h).2]
        cases kind <;> exact ⟨hfits, rfl⟩
  | forward ticker =>
      have hforward : ∃ ticker', w = .forward ticker' := by
        simp only [look, lookAtForward] at h
        split at h
        · exact ⟨_, (Verdict.waits.inj (Prod.mk.inj h).2).symm⟩
        split at h
        · split at h
          · exact ⟨_, (Verdict.waits.inj (Prod.mk.inj h).2).symm⟩
          · cases (Prod.mk.inj h).2
        · split at h
          · exact ⟨_, (Verdict.waits.inj (Prod.mk.inj h).2).symm⟩
          · exact ⟨_, (Verdict.waits.inj (Prod.mk.inj h).2).symm⟩
      obtain ⟨_, rfl⟩ := hforward
      cases kind <;> exact ⟨hfits, rfl⟩

theorem isParked_unpark_self (p : Playback) (id : Nat) :
    (p.unpark id).session.isParked id = false := by
  rw [unpark_eq_touch, touch_session]
  refine List.any_eq_false.mpr fun t ht ↦ ?_
  have := (List.mem_filter.mp ht).2
  simpa using this

theorem dwell_ends {park : Nat} {dwelling : Dwell} {d : Duration} {ran : Bool}
    (h : p.dwell park dwelling d = (q, .ends ran)) : q.session.isParked park = false := by
  unfold dwell moveOn at h
  dsimp only at h
  split at h
  · rw [← (Prod.mk.inj h).1]
    exact isParked_unpark_self _ park
  · cases (Prod.mk.inj h).2

/-- An action whose wait for a tap has ended is no longer parked. -/
theorem look_ends_park {ran : Bool} (hc : p.session.cancelled = false)
    (h : p.look wait = (q, .ends ran)) :
    ∀ id ∈ (⟨wait, ending, scopes⟩ : Pause).parks, q.session.isParked id = false := by
  intro id hid
  cases wait with
  | tap park dwelling auto =>
      obtain rfl : id = park := by simpa [Pause.parks, Pause.park?] using hid
      simp only [look, lookAtTap, hc, Bool.false_eq_true, if_false] at h
      split at h
      next hparked =>
        rw [← (Prod.mk.inj h).1]
        simpa using hparked
      split at h
      · cases (Prod.mk.inj h).2
      cases auto with
      | off =>
          cases dwelling with
          | fixed d => exact dwell_ends h
          | voice =>
              simp only [beginLingering] at h
              split at h <;> cases (Prod.mk.inj h).2
      | listening start ticks timer =>
          dsimp only at h
          split at h
          · cases (Prod.mk.inj h).2
          split at h
          · cases (Prod.mk.inj h).2
          · exact dwell_ends h
      | dwelling timer =>
          dsimp only at h
          split at h
          · rw [← (Prod.mk.inj h).1]
            exact isParked_unpark_self _ id
          · cases (Prod.mk.inj h).2
  | _ => simp [Pause.parks, Pause.park?] at hid

/-- A wait of the timeline fails only if the clock cannot show when the voice is
to be looked at. -/
theorem look_fails_kind (h : p.look wait = (q, .fails))
    (hfits : Pause.Fits kind ⟨wait, ending, scopes⟩) :
    kind = .ticker ∨ p.session.config.voicePoll.period.tickFrom p.session.now 1 = none := by
  cases kind with
  | ticker => exact .inl rfl
  | timeline =>
      right
      cases wait with
      | tap park dwelling auto =>
          simp only [look, lookAtTap] at h
          split at h
          · cases (Prod.mk.inj h).2
          split at h
          · cases (Prod.mk.inj h).2
          split at h
          · cases (Prod.mk.inj h).2
          cases auto with
          | off =>
              cases dwelling with
              | fixed d => exact absurd (congrArg Prod.snd h) dwell_ne_fails
              | voice =>
                  simp only [beginLingering] at h
                  split at h
                  · cases (Prod.mk.inj h).2
                  next hnone => exact hnone
          | listening start ticks timer =>
              dsimp only at h
              split at h
              · cases (Prod.mk.inj h).2
              split at h
              · cases (Prod.mk.inj h).2
              · exact absurd (congrArg Prod.snd h) dwell_ne_fails
          | dwelling timer =>
              dsimp only at h
              split at h <;> cases (Prod.mk.inj h).2
      | sleep timer skips =>
          simp only [look, lookAtSleep] at h
          split at h
          · cases (Prod.mk.inj h).2
          split at h <;> cases (Prod.mk.inj h).2
      | drained scope tally guarded =>
          simp only [look, lookAtCount] at h
          split at h
          · cases (Prod.mk.inj h).2
          split at h <;> cases (Prod.mk.inj h).2
      | _ => exact hfits.elim

/-- A look keeps the books. -/
theorem Looked.books {ts : List Ticket} {parks : List Nat} (hq : p.Looked q)
    (h : p.session.Books ts parks) : q.session.Books ts parks := by
  have harm : ∀ p : Playback, p.session.Books ts parks → p.arm.session.Books ts parks :=
    fun p hp ↦ hp.carry rfl rfl rfl (Nat.le_refl _) (List.Sublist.refl _)
  have hunpark : ∀ (p : Playback) (id : Nat), p.session.Books ts parks →
      (p.unpark id).session.Books ts parks := by
    intro p id hp
    rw [unpark_eq_touch, touch_session]
    exact hp.carry rfl rfl rfl (Nat.le_refl _) List.filter_sublist
  have hsway : ∀ (s : Session) (n : Nat) (f : Stage → Option Stage), s.Books ts parks →
      (Session.presentIf f { s with draws := n }).Books ts parks := by
    intro s n f hs
    unfold Session.presentIf
    split
    · exact hs.carry rfl rfl rfl (Nat.le_refl _) (List.Sublist.refl _)
    · split <;> exact hs.carry rfl rfl rfl (Nat.le_refl _) (List.Sublist.refl _)
  cases hq with
  | still => exact h
  | arms => exact harm p h
  | movesOn park => exact hunpark p park h
  | dwells park => exact hunpark _ park (harm p h)
  | sways n shake stamp finished offset => exact hsway _ n _ h
  | swaysOn n shake stamp finished offset => exact harm _ (hsway _ n _ h)
  | ticks =>
      refine harm _ ?_
      rw [fastForwardTick_session]
      exact h.reset.takeTap

end look

end Playback

end Storyline
