import Storyline.Proofs.Forks.Naming

/-!
# Wrapped actions

An action that holds up its timeline is wrapped if a block with nothing else in it
takes its place.  A story with wrapped actions is played together with the story
itself.  The block has a scope of its own, so the two playbacks number their scopes,
parked actions and stamps differently.  While a wrapped action is suspended its
ticket counts in the scope of the block and not in the one around it; the ticket has
taken a detour.
-/

namespace Storyline

/-- Whether a cue holds up its timeline. -/
def Cue.holdsUp : Cue → Bool
  | .talk _ | .telop _ | .cover .. | .shake .. | .delay _ => true
  | _ => false

/-- Whether a cue may be wrapped: it holds up its timeline, or trembles. -/
def Cue.isWrappable : Cue → Bool
  | .tremble .. => true
  | c => c.holdsUp

namespace Action

mutual

/-- The first action is the second one with some cues wrapped.  A cue may be wrapped
where it is walked through, in the main list or in that of a fork. -/
inductive Wraps : Bool → Action → Action → Prop
  | cue (walked : Bool) (c : Cue) : Wraps walked (.cue c) (.cue c)
  | wrap {c : Cue} (h : c.isWrappable = true) : Wraps true (.block [.cue c]) (.cue c)
  | block (walked : Bool) {parts' parts : List Action} (h : WrapsAll false parts' parts) :
    Wraps walked (.block parts') (.block parts)
  | fork (walked : Bool) {parts' parts : List Action} (h : WrapsAll true parts' parts) :
    Wraps walked (.fork parts') (.fork parts)

inductive WrapsAll : Bool → List Action → List Action → Prop
  | nil (walked : Bool) : WrapsAll walked [] []
  | cons {walked : Bool} {part' part : Action} {rest' rest : List Action}
    (h : Wraps walked part' part) (hrest : WrapsAll walked rest' rest) :
    WrapsAll walked (part' :: rest') (part :: rest)

end

theorem WrapsAll.forall₂ {walked : Bool} {parts' parts : List Action}
    (h : WrapsAll walked parts' parts) : List.Forall₂ (Wraps walked) parts' parts := by
  induction parts generalizing parts' with
  | nil =>
      cases h
      exact .nil
  | cons part rest ih =>
      obtain _ | ⟨hpart, hrest⟩ := h
      exact .cons hpart (ih hrest)

end Action

/-- A ticket from before the first reset. -/
structure Ticket.IsFirst (t : Ticket) : Prop where
  epoch : t.epoch = 0
  tapped : ∀ epoch, t.tapEpoch = some epoch → epoch = 0

/-- What an action adds to the counts of its scope. -/
def Tally.share (tapBlocking : Bool) : Tally → Nat
  | .actions => 1
  | .taps => if tapBlocking then 1 else 0

def Ticket.share (t : Ticket) (tally : Tally) : Nat := tally.share t.tapEpoch.isSome

/-- The ticket of a wrapped action, and the scope of the block in which it counts. -/
structure Detour where
  inner : Nat
  ticket : Ticket

namespace Detour

/-- What is missing in a scope around the block. -/
def missing (d : Detour) (scope : Nat) (tally : Tally) : Nat :=
  if d.ticket.scope = scope then d.ticket.share tally else 0

/-- The ticket in the scope of the block. -/
def taken (d : Detour) : Ticket := ⟨d.inner, 0, d.ticket.tapEpoch⟩

end Detour

/-- The detours of the tasks, each of which takes at most one at a time. -/
abbrev Detours := Nat → Option Detour

namespace Detours

def none : Detours := fun _ ↦ .none

/-- What is missing in a scope that a task works in. -/
def missing (D : Detours) (home scope : Nat) (tally : Tally) : Nat :=
  match D home with
  | some d => d.missing scope tally
  | .none => 0

theorem missing_of_none {D : Detours} {home : Nat} (h : D home = .none) (scope : Nat)
    (tally : Tally) : D.missing home scope tally = 0 := by
  rw [missing, h]

theorem missing_update (D : Detours) (home : Nat) (d : Detour) (scope : Nat) (tally : Tally) :
    missing (Function.update D home (some d)) home scope tally = d.missing scope tally := by
  rw [missing, Function.update_self]

theorem missing_update_ne {D : Detours} {home other : Nat} (hne : other ≠ home) (d : Option Detour) :
    missing (Function.update D home d) other = D.missing other := by
  funext scope tally
  rw [missing, Function.update_of_ne hne, missing]

end Detours

/-- The numbers that stand for each other in a story with wrapped actions and in the
story itself, the scopes of the blocks around them, and for every scope of the story
the task that works in it. -/
structure Wrapping where
  /-- Scopes, parked actions and stamps, which are numbered together. -/
  ids : List (Nat × Nat)
  inners : List Nat
  homes : List (Nat × Nat)

namespace Wrapping

/-- A wrapping only ever learns new names. -/
structure Extends (N M : Wrapping) : Prop where
  ids : N.ids ⊆ M.ids
  inners : N.inners ⊆ M.inners
  homes : N.homes ⊆ M.homes

instance : Preorder Wrapping where
  le := Extends
  le_refl _ := ⟨fun _ h ↦ h, fun _ h ↦ h, fun _ h ↦ h⟩
  le_trans _ _ _ h h' :=
    ⟨fun _ hx ↦ h'.ids (h.ids hx), fun _ hx ↦ h'.inners (h.inners hx),
      fun _ hx ↦ h'.homes (h.homes hx)⟩

variable {N M : Wrapping} {D E : Detours} {o : Nat} {T S : Ticket → Ticket → Prop}

/-! ## The same up to names -/

/-- Scopes that stand for each other, the latter one with its task. -/
structure SameRoom (N : Wrapping) (o scope' scope : Nat) : Prop where
  id : (scope', scope) ∈ N.ids
  home : (scope, o) ∈ N.homes

/-- Tickets of scopes that have never been reset. -/
structure SameTicket (N : Wrapping) (o : Nat) (t' t : Ticket) : Prop where
  room : N.SameRoom o t'.scope t.scope
  first' : t'.IsFirst
  first : t.IsFirst
  tapEpoch : t'.tapEpoch = t.tapEpoch

/-- The tickets of a detour. -/
def Swapped (d : Detour) (t' t : Ticket) : Prop := t' = d.taken ∧ t = d.ticket

/-- A settling may release its ticket in the scope of any task. -/
def Settles (N : Wrapping) (t' t : Ticket) : Prop :=
  (∃ o, N.SameTicket o t' t) ∧ t.tapEpoch = none

/-- Endings that release a ticket. -/
inductive SameRelease (N : Wrapping) (T : Ticket → Ticket → Prop) : Ending → Ending → Prop
  | release {t' t : Ticket} (h : T t' t) : SameRelease N T (.release t') (.release t)
  | clearTelop (text : String) {t' t : Ticket} (h : T t' t) :
    SameRelease N T (.clearTelop text t') (.clearTelop text t)
  | coverShown (cover : Cover) {stamp' stamp : Nat} (hstamp : (stamp', stamp) ∈ N.ids)
    {t' t : Ticket} (h : T t' t) :
    SameRelease N T (.coverShown cover stamp' t') (.coverShown cover stamp t)

inductive SameEnding (N : Wrapping) (o : Nat) : Ending → Ending → Prop
  | nothing : SameEnding N o .nothing .nothing
  | releases {e' e : Ending} (h : N.SameRelease (N.SameTicket o) e' e) : SameEnding N o e' e
  | completed : SameEnding N o .completed .completed

/-- The waits for a tap, for a time and for fast-forward, while that is off. -/
inductive SameHold (N : Wrapping) : Wait → Wait → Prop
  | tap {park' park : Nat} (h : (park', park) ∈ N.ids) (dwell : Dwell) (auto : Lingering) :
    SameHold N (.tap park' dwell auto) (.tap park dwell auto)
  | sleep (timer : Timer) (skips : Nat) : SameHold N (.sleep timer skips) (.sleep timer skips)
  | frame (shake : Shake) {stamp' stamp : Nat} (h : (stamp', stamp) ∈ N.ids) (d : Duration)
    (start ticks : Nat) (timer : Timer) :
    SameHold N (.frame shake stamp' d start ticks timer) (.frame shake stamp d start ticks timer)
  | unlit : SameHold N (.forward none) (.forward none)

inductive SameWait (N : Wrapping) (o : Nat) : Wait → Wait → Prop
  | hold {w' w : Wait} (h : N.SameHold w' w) : SameWait N o w' w
  | drained {scope' scope : Nat} (h : N.SameRoom o scope' scope) (tally : Tally) (guarded : Bool) :
    SameWait N o (.drained scope' tally guarded) (.drained scope tally guarded)

structure SamePause (N : Wrapping) (o : Nat) (x' x : Pause) : Prop where
  wait : N.SameWait o x'.wait x.wait
  ending : N.SameEnding o x'.ending x.ending

inductive SameErrand (N : Wrapping) (o : Nat) : Errand → Errand → Prop
  | perform {action' action : Action} (hwraps : Action.Wraps true action' action)
    {scope' scope : Nat} (h : N.SameRoom o scope' scope) (step : Option Nat) :
    SameErrand N o (.perform action' scope' step) (.perform action scope step)
  | drain {scope' scope : Nat} (h : N.SameRoom o scope' scope) (tally : Tally) (guarded : Bool)
    {e' e : Ending} (he : N.SameEnding o e' e) :
    SameErrand N o (.drain scope' tally guarded e') (.drain scope tally guarded e)
  | animate (shake : Shake) {stamp' stamp : Nat} (h : (stamp', stamp) ∈ N.ids) (d : Duration) :
    SameErrand N o (.animate shake stamp' d) (.animate shake stamp d)
  | fastForward : SameErrand N o .fastForward .fastForward

/-- What two tasks have before them: the same but for names, or a wrapped action and the
action itself. -/
inductive SameWork (N : Wrapping) (D : Detours) (o : Nat) (agenda' agenda : List Errand)
    (pauses' pauses : List Pause) : Prop
  | plain (hD : D o = none) (hagenda : List.Forall₂ (N.SameErrand o) agenda' agenda)
    (hpauses : List.Forall₂ (N.SamePause o) pauses' pauses)
  | wrapped {d : Detour} (hD : D o = some d)
    (hagenda : List.Forall₂ (N.SameErrand o) agenda' agenda) {w' w : Wait}
    (hw : N.SameHold w' w) {e' e : Ending} (he : N.SameRelease (Swapped d) e' e)
    (scopes' scopes inners : List Nat)
    (hpauses' : pauses' = [⟨w', e', scopes'⟩, ⟨.drained d.inner .actions true, .nothing, inners⟩])
    (hpauses : pauses = [⟨w, e, scopes⟩])

/-- The settling of a change releases its ticket after a while, and does nothing else. -/
inductive SameDuty (N : Wrapping) (D : Detours) (o : Nat) (agenda' agenda : List Errand)
    (pauses' pauses : List Pause) : Prop
  | works (h : N.SameWork D o agenda' agenda pauses' pauses)
  | settling (d : Duration) {ticket' ticket : Ticket} (h : N.Settles ticket' ticket)
    (scopes' scopes : List Nat) (hagenda' : agenda' = [.sleep d (.release ticket') scopes'])
    (hagenda : agenda = [.sleep d (.release ticket) scopes]) (hpauses' : pauses' = [])
    (hpauses : pauses = [])
  | settles (timer : Timer) (skips : Nat) {ticket' ticket : Ticket} (h : N.Settles ticket' ticket)
    (scopes' scopes : List Nat) (hagenda' : agenda' = []) (hagenda : agenda = [])
    (hpauses' : pauses' = [⟨.sleep timer skips, .release ticket', scopes'⟩])
    (hpauses : pauses = [⟨.sleep timer skips, .release ticket, scopes⟩])

/-- Two tasks with the same number; what the running one has before it is not in the table. -/
structure SameTask (N : Wrapping) (D : Detours) (running : Option Nat) (t' t : Task) : Prop where
  id : t'.id = t.id
  owned' : t'.owned = true
  owned : t.owned = true
  whole' : t'.aborted = false
  whole : t.aborted = false
  duty : some t.id ≠ running → N.SameDuty D t.id t'.agenda t.agenda t'.pauses t.pauses

/-- A look finds no wait cut short before the end of the session. -/
inductive SameVerdict (W : Wait → Wait → Prop) : Verdict → Verdict → Prop
  | waits {w' w : Wait} (h : W w' w) : SameVerdict W (.waits w') (.waits w)
  | ends : SameVerdict W (.ends true) (.ends true)
  | fails : SameVerdict W .fails .fails

structure SamePark (N : Wrapping) (t' t : Parked) : Prop where
  id : (t'.id, t.id) ∈ N.ids
  live : t'.live = t.live

/-! ## New names change nothing -/

theorem SameRoom.mono {scope' scope : Nat} (h : N.SameRoom o scope' scope) (hle : N ≤ M) :
    M.SameRoom o scope' scope :=
  ⟨hle.ids h.id, hle.homes h.home⟩

theorem SameTicket.mono {t' t : Ticket} (h : N.SameTicket o t' t) (hle : N ≤ M) :
    M.SameTicket o t' t :=
  { h with room := h.room.mono hle }

theorem Settles.mono {t' t : Ticket} (h : N.Settles t' t) (hle : N ≤ M) : M.Settles t' t :=
  h.imp_left fun ⟨o, ht⟩ ↦ ⟨o, ht.mono hle⟩

theorem SameRelease.mono {e' e : Ending} (h : N.SameRelease T e' e) (hle : N ≤ M)
    (hT : ∀ {t' t}, T t' t → S t' t) : M.SameRelease S e' e := by
  cases h with
  | release h => exact .release (hT h)
  | clearTelop text h => exact .clearTelop text (hT h)
  | coverShown cover hstamp h => exact .coverShown cover (hle.ids hstamp) (hT h)

theorem SameEnding.mono {e' e : Ending} (h : N.SameEnding o e' e) (hle : N ≤ M) :
    M.SameEnding o e' e := by
  cases h with
  | nothing => exact .nothing
  | releases h => exact .releases (h.mono hle fun ht ↦ ht.mono hle)
  | completed => exact .completed

theorem SameHold.mono {w' w : Wait} (h : N.SameHold w' w) (hle : N ≤ M) : M.SameHold w' w := by
  cases h with
  | tap h dwell auto => exact .tap (hle.ids h) dwell auto
  | sleep timer skips => exact .sleep timer skips
  | frame shake h d start ticks timer => exact .frame shake (hle.ids h) d start ticks timer
  | unlit => exact .unlit

theorem SameWait.mono {w' w : Wait} (h : N.SameWait o w' w) (hle : N ≤ M) : M.SameWait o w' w := by
  cases h with
  | hold h => exact .hold (h.mono hle)
  | drained h tally guarded => exact .drained (h.mono hle) tally guarded

theorem SamePause.mono {x' x : Pause} (h : N.SamePause o x' x) (hle : N ≤ M) : M.SamePause o x' x :=
  ⟨h.wait.mono hle, h.ending.mono hle⟩

theorem SameErrand.mono {e' e : Errand} (h : N.SameErrand o e' e) (hle : N ≤ M) :
    M.SameErrand o e' e := by
  cases h with
  | perform hwraps h step => exact .perform hwraps (h.mono hle) step
  | drain h tally guarded he => exact .drain (h.mono hle) tally guarded (he.mono hle)
  | animate shake h d => exact .animate shake (hle.ids h) d
  | fastForward => exact .fastForward

/-- Neither do the detours of other tasks. -/
theorem SameWork.mono {agenda' agenda : List Errand} {pauses' pauses : List Pause}
    (h : N.SameWork D o agenda' agenda pauses' pauses) (hle : N ≤ M) (hsame : E o = D o) :
    M.SameWork E o agenda' agenda pauses' pauses := by
  cases h with
  | plain hD hagenda hpauses =>
      exact .plain (hsame.trans hD) (hagenda.imp fun _ _ he ↦ he.mono hle)
        (hpauses.imp fun _ _ hx ↦ hx.mono hle)
  | wrapped hD hagenda hw he scopes' scopes inners hpauses' hpauses =>
      exact .wrapped (hsame.trans hD) (hagenda.imp fun _ _ he ↦ he.mono hle) (hw.mono hle)
        (he.mono hle fun ht ↦ ht) scopes' scopes inners hpauses' hpauses

theorem SameDuty.mono {agenda' agenda : List Errand} {pauses' pauses : List Pause}
    (h : N.SameDuty D o agenda' agenda pauses' pauses) (hle : N ≤ M) (hsame : E o = D o) :
    M.SameDuty E o agenda' agenda pauses' pauses := by
  cases h with
  | works h => exact .works (h.mono hle hsame)
  | settling d h scopes' scopes hagenda' hagenda hpauses' hpauses =>
      exact .settling d (h.mono hle) scopes' scopes hagenda' hagenda hpauses' hpauses
  | settles timer skips h scopes' scopes hagenda' hagenda hpauses' hpauses =>
      exact .settles timer skips (h.mono hle) scopes' scopes hagenda' hagenda hpauses' hpauses

theorem SameTask.mono {running : Option Nat} {t' t : Task} (h : N.SameTask D running t' t)
    (hle : N ≤ M) (hsame : some t.id ≠ running → E t.id = D t.id) : M.SameTask E running t' t :=
  { h with duty := fun hne ↦ (h.duty hne).mono hle (hsame hne) }

theorem SamePark.mono {t' t : Parked} (h : N.SamePark t' t) (hle : N ≤ M) : M.SamePark t' t :=
  { h with id := hle.ids h.id }

end Wrapping

end Storyline
