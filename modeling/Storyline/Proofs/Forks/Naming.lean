import Mathlib.Data.List.Forall2
import Mathlib.Order.Basic
import Storyline.Playback.Run

/-!
# Stories without their forks

A fork takes a step of the main timeline and no more, and so do a cover and a
shake but for the time they take.  A story is played together with its *solo*,
in which nothing else is left of them.  The two playbacks number their scopes,
parked actions, timers and tasks differently; a naming says which numbers stand
for each other, and which are strays that the solo has no counterpart of.
-/

namespace Storyline

def Cue.solo : Cue → Cue
  | .cover _ _ seconds | .shake _ seconds => .delay seconds
  | c => c

namespace Action

mutual

/-- Whether no fork in an action has a line or a title in it. -/
def forksTapless : Action → Bool
  | cue _ => true
  | block parts => allForksTapless parts
  | fork parts => (cuesOfList parts).all fun c ↦ !c.isTapBlocking

def allForksTapless : List Action → Bool
  | [] => true
  | part :: rest => forksTapless part && allForksTapless rest

end

mutual

/-- An action with empty outermost forks. -/
def hollow : Action → Action
  | cue c => cue c
  | block parts => block (hollowAll parts)
  | fork _ => fork []

def hollowAll : List Action → List Action
  | [] => []
  | part :: rest => hollow part :: hollowAll rest

end

mutual

/-- What the timeline of an action sees of it. -/
def solo : Action → Action
  | cue c => cue c.solo
  | block parts => block (soloAll parts)
  | fork _ => cue (.tremble .horizontal 0)

def soloAll : List Action → List Action
  | [] => []
  | part :: rest => solo part :: soloAll rest

end

mutual

theorem solo_hollow (action : Action) : action.hollow.solo = action.solo := by
  cases action with
  | cue c => rfl
  | block parts => exact congrArg block (soloAll_hollowAll parts)
  | fork parts => rfl

theorem soloAll_hollowAll (parts : List Action) : soloAll (hollowAll parts) = soloAll parts := by
  cases parts with
  | nil => rfl
  | cons part rest => exact congrArg₂ List.cons (solo_hollow part) (soloAll_hollowAll rest)

end

mutual

theorem forksTapless_hollow (action : Action) (h : action.forksTapless = true) :
    action.hollow.forksTapless = true := by
  cases action with
  | cue c => rfl
  | block parts => exact allForksTapless_hollowAll parts h
  | fork parts => rfl

theorem allForksTapless_hollowAll (parts : List Action) (h : allForksTapless parts = true) :
    allForksTapless (hollowAll parts) = true := by
  cases parts with
  | nil => rfl
  | cons part rest =>
      obtain ⟨hpart, hrest⟩ := Bool.and_eq_true_iff.mp h
      exact Bool.and_eq_true_iff.mpr
        ⟨forksTapless_hollow part hpart, allForksTapless_hollowAll rest hrest⟩

end

end Action

/-! ## Names -/

/-- The numbers that stand for each other in two playbacks, and the strays of
the first one. -/
structure Naming where
  /-- Scopes and parked actions, which are numbered together. -/
  ids : List (Nat × Nat)
  timers : List (Nat × Nat)
  tasks : List (Nat × Nat)
  strayScopes : List Nat
  strayTasks : List Nat

namespace Naming

/-- A naming only ever learns new names. -/
structure Extends (N M : Naming) : Prop where
  ids : N.ids ⊆ M.ids
  timers : N.timers ⊆ M.timers
  tasks : N.tasks ⊆ M.tasks
  strayScopes : N.strayScopes ⊆ M.strayScopes
  strayTasks : N.strayTasks ⊆ M.strayTasks

instance : Preorder Naming where
  le := Extends
  le_refl _ := ⟨fun _ h ↦ h, fun _ h ↦ h, fun _ h ↦ h, fun _ h ↦ h, fun _ h ↦ h⟩
  le_trans _ _ _ h h' :=
    ⟨fun _ hx ↦ h'.ids (h.ids hx), fun _ hx ↦ h'.timers (h.timers hx),
      fun _ hx ↦ h'.tasks (h.tasks hx), fun _ hx ↦ h'.strayScopes (h.strayScopes hx),
      fun _ hx ↦ h'.strayTasks (h.strayTasks hx)⟩

/-- Numbers that stand for each other have been given in the same order, and
from two counters that are past them. -/
structure Paired (l : List (Nat × Nat)) (m n : Nat) : Prop where
  ascending : l.Pairwise fun x y ↦ x.1 < y.1 ∧ x.2 < y.2
  lt : ∀ x ∈ l, x.1 < m ∧ x.2 < n

/-- Strays are past numbers and stand for nothing. -/
def Apart (strays : List Nat) (l : List (Nat × Nat)) (m : Nat) : Prop :=
  ∀ b ∈ strays, b < m ∧ ∀ x ∈ l, x.1 ≠ b

section paired

variable {l : List (Nat × Nat)} {strays : List Nat} {m n m' n' a b c d : Nat}

theorem Paired.mono (h : Paired l m n) (hm : m ≤ m') (hn : n ≤ n') : Paired l m' n' where
  ascending := h.ascending
  lt := fun x hx ↦ ⟨Nat.lt_of_lt_of_le (h.lt x hx).1 hm, Nat.lt_of_lt_of_le (h.lt x hx).2 hn⟩

/-- The next numbers of both counters come to stand for each other. -/
theorem Paired.next (h : Paired l m n) : Paired (l ++ [(m, n)]) (m + 1) (n + 1) where
  ascending := List.pairwise_append.mpr
    ⟨h.ascending, List.pairwise_singleton _ _, fun x hx y hy ↦ List.mem_singleton.mp hy ▸ h.lt x hx⟩
  lt := by
    intro x hx
    rcases List.mem_append.mp hx with hx | hx
    · exact (h.mono (Nat.le_succ m) (Nat.le_succ n)).lt x hx
    · exact List.mem_singleton.mp hx ▸ ⟨Nat.lt_succ_self m, Nat.lt_succ_self n⟩

theorem Paired.compare (h : Paired l m n) (hab : (a, b) ∈ l) (hcd : (c, d) ∈ l) :
    a < c ∧ b < d ∨ a = c ∧ b = d ∨ c < a ∧ d < b := by
  obtain ⟨i, hi, hia⟩ := List.getElem_of_mem hab
  obtain ⟨j, hj, hjc⟩ := List.getElem_of_mem hcd
  have hlt := List.pairwise_iff_getElem.mp h.ascending
  rcases Nat.lt_trichotomy i j with hij | rfl | hij
  · exact .inl (by simpa [hia, hjc] using hlt i j hi hj hij)
  · exact .inr (.inl (by simpa using hia.symm.trans hjc))
  · exact .inr (.inr (by simpa [hia, hjc] using hlt j i hj hi hij))

theorem Paired.eq_iff (h : Paired l m n) (hab : (a, b) ∈ l) (hcd : (c, d) ∈ l) :
    a = c ↔ b = d := by
  have := h.compare hab hcd
  omega

theorem Paired.lt_iff (h : Paired l m n) (hab : (a, b) ∈ l) (hcd : (c, d) ∈ l) :
    a < c ↔ b < d := by
  have := h.compare hab hcd
  omega

theorem Apart.ne (h : Apart strays l m) (hab : (a, b) ∈ l) (hc : c ∈ strays) : a ≠ c :=
  (h c hc).2 (a, b) hab

theorem Apart.mono (h : Apart strays l m) (hm : m ≤ m') : Apart strays l m' :=
  fun b hb ↦ ⟨Nat.lt_of_lt_of_le (h b hb).1 hm, (h b hb).2⟩

/-- A new pair is none of the strays. -/
theorem Apart.next (h : Apart strays l m) (n : Nat) : Apart strays (l ++ [(m, n)]) (m + 1) := by
  intro b hb
  obtain ⟨hlt, hne⟩ := h b hb
  refine ⟨Nat.lt_succ_of_lt hlt, fun x hx ↦ ?_⟩
  rcases List.mem_append.mp hx with hx | hx
  · exact hne x hx
  · rw [List.mem_singleton.mp hx]
    exact Nat.ne_of_gt hlt

/-- A new stray stands for nothing. -/
theorem Apart.stray (h : Apart strays l m) (hl : ∀ x ∈ l, x.1 < m) :
    Apart (strays ++ [m]) l (m + 1) := by
  intro b hb
  rcases List.mem_append.mp hb with hb | hb
  · exact h.mono (Nat.le_succ m) b hb
  · rw [List.mem_singleton.mp hb]
    exact ⟨Nat.lt_succ_self m, fun x hx ↦ Nat.ne_of_lt (hl x hx)⟩

end paired

variable {N M : Naming}

/-! ## The same up to names -/

structure SameTicket (N : Naming) (t t' : Ticket) : Prop where
  scope : (t.scope, t'.scope) ∈ N.ids
  epoch : t.epoch = t'.epoch
  tapEpoch : t.tapEpoch = t'.tapEpoch

structure SameTimer (N : Naming) (t t' : Timer) : Prop where
  due : t.due = t'.due
  order : (t.order, t'.order) ∈ N.timers

/-- In the solo nothing is left of a cover but its release. -/
inductive SameEnding (N : Naming) : Ending → Ending → Prop
  | nothing : SameEnding N .nothing .nothing
  | release {t t' : Ticket} (h : N.SameTicket t t') : SameEnding N (.release t) (.release t')
  | clearTelop (text : String) {t t' : Ticket} (h : N.SameTicket t t') :
    SameEnding N (.clearTelop text t) (.clearTelop text t')
  | coverShown (cover : Cover) (stamp : Nat) {t t' : Ticket} (h : N.SameTicket t t') :
    SameEnding N (.coverShown cover stamp t) (.release t')
  | completed : SameEnding N .completed .completed

inductive SameLingering (N : Naming) : Lingering → Lingering → Prop
  | off : SameLingering N .off .off
  | listening (start ticks : Nat) {t t' : Timer} (h : N.SameTimer t t') :
    SameLingering N (.listening start ticks t) (.listening start ticks t')
  | dwelling {t t' : Timer} (h : N.SameTimer t t') : SameLingering N (.dwelling t) (.dwelling t')

/-- The waits of a main timeline, of what settles after it, and of the ticker. -/
inductive SameWait (N : Naming) : Wait → Wait → Prop
  | tap {park park' : Nat} (h : (park, park') ∈ N.ids) (dwell : Dwell) {auto auto' : Lingering}
    (hauto : N.SameLingering auto auto') : SameWait N (.tap park dwell auto) (.tap park' dwell auto')
  | sleep {t t' : Timer} (h : N.SameTimer t t') (skips : Nat) :
    SameWait N (.sleep t skips) (.sleep t' skips)
  | drained {scope scope' : Nat} (h : (scope, scope') ∈ N.ids) (tally : Tally) (guarded : Bool) :
    SameWait N (.drained scope tally guarded) (.drained scope' tally guarded)
  | unlit : SameWait N (.forward none) (.forward none)
  | ticks (start ticks : Nat) {t t' : Timer} (h : N.SameTimer t t') :
    SameWait N (.forward (some (start, ticks, t))) (.forward (some (start, ticks, t')))

structure SamePause (N : Naming) (x x' : Pause) : Prop where
  wait : N.SameWait x.wait x'.wait
  ending : N.SameEnding x.ending x'.ending

inductive SameErrand (N : Naming) : Errand → Errand → Prop
  | perform {action : Action} (htapless : action.forksTapless = true) {scope scope' : Nat}
    (h : (scope, scope') ∈ N.ids) (step : Option Nat) :
    SameErrand N (.perform action scope step) (.perform action.solo scope' step)
  | sleep (d : Duration) {e e' : Ending} (h : N.SameEnding e e') (scopes scopes' : List Nat) :
    SameErrand N (.sleep d e scopes) (.sleep d e' scopes')
  | drain {scope scope' : Nat} (h : (scope, scope') ∈ N.ids) (tally : Tally) (guarded : Bool)
    {e e' : Ending} (he : N.SameEnding e e') :
    SameErrand N (.drain scope tally guarded e) (.drain scope' tally guarded e')
  | fastForward : SameErrand N .fastForward .fastForward

structure SameTask (N : Naming) (t t' : Task) : Prop where
  id : (t.id, t'.id) ∈ N.tasks
  owned : t.owned = t'.owned
  asks : t.asks = t'.asks
  aborted : t.aborted = t'.aborted
  agenda : List.Forall₂ N.SameErrand t.agenda t'.agenda
  pauses : List.Forall₂ N.SamePause t.pauses t'.pauses

structure SameTurn (N : Naming) (t t' : Turn) : Prop where
  agenda : List.Forall₂ N.SameErrand t.agenda t'.agenda
  pauses : List.Forall₂ N.SamePause t.pauses t'.pauses
  again : t.again = t'.again
  failed : t.failed = t'.failed

inductive SameVerdict (N : Naming) : Verdict → Verdict → Prop
  | waits {w w' : Wait} (h : N.SameWait w w') : SameVerdict N (.waits w) (.waits w')
  | ends (ran : Bool) : SameVerdict N (.ends ran) (.ends ran)
  | fails : SameVerdict N .fails .fails

inductive SameSignal (N : Naming) : Signal → Signal → Prop
  | counter {scope scope' : Nat} (h : (scope, scope') ∈ N.ids) (tally : Tally) :
    SameSignal N (.counter scope tally) (.counter scope' tally)
  | tap {park park' : Nat} (h : (park, park') ∈ N.ids) : SameSignal N (.tap park) (.tap park')
  | skip : SameSignal N .skip .skip
  | autoPlay : SameSignal N .autoPlay .autoPlay
  | fastForward : SameSignal N .fastForward .fastForward
  | cancel : SameSignal N .cancel .cancel

structure SameScope (N : Naming) (sc sc' : Scope) : Prop where
  id : (sc.id, sc'.id) ∈ N.ids
  actions : sc.actions = sc'.actions
  taps : sc.taps = sc'.taps

structure SamePark (N : Naming) (t t' : Parked) : Prop where
  id : (t.id, t'.id) ∈ N.ids
  live : t.live = t'.live

/-! ## Strays -/

/-- What a stray may do in the end: release its tickets and cover the screen. -/
inductive StrayEnding (N : Naming) : Ending → Prop
  | nothing : StrayEnding N .nothing
  | release {t : Ticket} (h : t.scope ∈ N.strayScopes) : StrayEnding N (.release t)
  | coverShown (cover : Cover) (stamp : Nat) {t : Ticket} (h : t.scope ∈ N.strayScopes) :
    StrayEnding N (.coverShown cover stamp t)

/-- No stray waits for a tap or for fast-forward. -/
inductive StrayWait (N : Naming) : Wait → Prop
  | sleep (timer : Timer) (skips : Nat) : StrayWait N (.sleep timer skips)
  | drained {scope : Nat} (h : scope ∈ N.strayScopes) (tally : Tally) (guarded : Bool) :
    StrayWait N (.drained scope tally guarded)
  | frame (shake : Shake) (stamp : Nat) (d : Duration) (start ticks : Nat) (timer : Timer) :
    StrayWait N (.frame shake stamp d start ticks timer)

structure StrayPause (N : Naming) (x : Pause) : Prop where
  wait : N.StrayWait x.wait
  ending : N.StrayEnding x.ending

inductive StrayErrand (N : Naming) : Errand → Prop
  | perform {action : Action} (htapless : ∀ c ∈ action.cues, c.isTapBlocking = false) {scope : Nat}
    (h : scope ∈ N.strayScopes) : StrayErrand N (.perform action scope none)
  | sleep (d : Duration) {e : Ending} (h : N.StrayEnding e) (scopes : List Nat) :
    StrayErrand N (.sleep d e scopes)
  | animate (shake : Shake) (stamp : Nat) (d : Duration) : StrayErrand N (.animate shake stamp d)

structure StrayTask (N : Naming) (t : Task) : Prop where
  id : t.id ∈ N.strayTasks
  agenda : ∀ e ∈ t.agenda, N.StrayErrand e
  pauses : ∀ x ∈ t.pauses, N.StrayPause x

structure StrayTurn (N : Naming) (t : Turn) : Prop where
  agenda : ∀ e ∈ t.agenda, N.StrayErrand e
  pauses : ∀ x ∈ t.pauses, N.StrayPause x

inductive StraySignal (N : Naming) : Signal → Prop
  | counter {scope : Nat} (h : scope ∈ N.strayScopes) (tally : Tally) :
    StraySignal N (.counter scope tally)

/-! ## New names change nothing -/

theorem SameTicket.mono {t t' : Ticket} (h : N.SameTicket t t') (hle : N ≤ M) : M.SameTicket t t' :=
  { h with scope := hle.ids h.scope }

theorem SameTimer.mono {t t' : Timer} (h : N.SameTimer t t') (hle : N ≤ M) : M.SameTimer t t' :=
  { h with order := hle.timers h.order }

theorem SameEnding.mono {e e' : Ending} (h : N.SameEnding e e') (hle : N ≤ M) :
    M.SameEnding e e' := by
  cases h with
  | nothing => exact .nothing
  | release h => exact .release (h.mono hle)
  | clearTelop text h => exact .clearTelop text (h.mono hle)
  | coverShown cover stamp h => exact .coverShown cover stamp (h.mono hle)
  | completed => exact .completed

theorem SameLingering.mono {auto auto' : Lingering} (h : N.SameLingering auto auto') (hle : N ≤ M) :
    M.SameLingering auto auto' := by
  cases h with
  | off => exact .off
  | listening start ticks h => exact .listening start ticks (h.mono hle)
  | dwelling h => exact .dwelling (h.mono hle)

theorem SameWait.mono {w w' : Wait} (h : N.SameWait w w') (hle : N ≤ M) : M.SameWait w w' := by
  cases h with
  | tap h dwell hauto => exact .tap (hle.ids h) dwell (hauto.mono hle)
  | sleep h skips => exact .sleep (h.mono hle) skips
  | drained h tally guarded => exact .drained (hle.ids h) tally guarded
  | unlit => exact .unlit
  | ticks start ticks h => exact .ticks start ticks (h.mono hle)

theorem SamePause.mono {x x' : Pause} (h : N.SamePause x x') (hle : N ≤ M) : M.SamePause x x' :=
  ⟨h.wait.mono hle, h.ending.mono hle⟩

theorem SameErrand.mono {e e' : Errand} (h : N.SameErrand e e') (hle : N ≤ M) :
    M.SameErrand e e' := by
  cases h with
  | perform htapless h step => exact .perform htapless (hle.ids h) step
  | sleep d h scopes scopes' => exact .sleep d (h.mono hle) scopes scopes'
  | drain h tally guarded he => exact .drain (hle.ids h) tally guarded (he.mono hle)
  | fastForward => exact .fastForward

theorem SameTask.mono {t t' : Task} (h : N.SameTask t t') (hle : N ≤ M) : M.SameTask t t' :=
  { h with
    id := hle.tasks h.id
    agenda := h.agenda.imp fun _ _ he ↦ he.mono hle
    pauses := h.pauses.imp fun _ _ hx ↦ hx.mono hle }

theorem SameTurn.mono {t t' : Turn} (h : N.SameTurn t t') (hle : N ≤ M) : M.SameTurn t t' :=
  { h with
    agenda := h.agenda.imp fun _ _ he ↦ he.mono hle
    pauses := h.pauses.imp fun _ _ hx ↦ hx.mono hle }

theorem SameScope.mono {sc sc' : Scope} (h : N.SameScope sc sc') (hle : N ≤ M) :
    M.SameScope sc sc' :=
  { h with id := hle.ids h.id }

theorem SamePark.mono {t t' : Parked} (h : N.SamePark t t') (hle : N ≤ M) : M.SamePark t t' :=
  { h with id := hle.ids h.id }

theorem StrayEnding.mono {e : Ending} (h : N.StrayEnding e) (hle : N ≤ M) : M.StrayEnding e := by
  cases h with
  | nothing => exact .nothing
  | release h => exact .release (hle.strayScopes h)
  | coverShown cover stamp h => exact .coverShown cover stamp (hle.strayScopes h)

theorem StrayWait.mono {w : Wait} (h : N.StrayWait w) (hle : N ≤ M) : M.StrayWait w := by
  cases h with
  | sleep timer skips => exact .sleep timer skips
  | drained h tally guarded => exact .drained (hle.strayScopes h) tally guarded
  | frame shake stamp d start ticks timer => exact .frame shake stamp d start ticks timer

theorem StrayPause.mono {x : Pause} (h : N.StrayPause x) (hle : N ≤ M) : M.StrayPause x :=
  ⟨h.wait.mono hle, h.ending.mono hle⟩

theorem StrayErrand.mono {e : Errand} (h : N.StrayErrand e) (hle : N ≤ M) : M.StrayErrand e := by
  cases h with
  | perform htapless h => exact .perform htapless (hle.strayScopes h)
  | sleep d h scopes => exact .sleep d (h.mono hle) scopes
  | animate shake stamp d => exact .animate shake stamp d

theorem StrayTask.mono {t : Task} (h : N.StrayTask t) (hle : N ≤ M) : M.StrayTask t :=
  ⟨hle.strayTasks h.id, fun e he ↦ (h.agenda e he).mono hle, fun x hx ↦ (h.pauses x hx).mono hle⟩

theorem StrayTurn.mono {t : Turn} (h : N.StrayTurn t) (hle : N ≤ M) : M.StrayTurn t :=
  ⟨fun e he ↦ (h.agenda e he).mono hle, fun x hx ↦ (h.pauses x hx).mono hle⟩

end Naming

end Storyline
