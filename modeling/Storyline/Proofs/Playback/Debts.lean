import Storyline.Proofs.Playback.Ledger
import Storyline.Proofs.Timetable

/-!
# Debts

A held ticket is a debt that is paid when the timer of its holder is due.  What
the debts say about the counts of the scopes says when the waits of a task will
be over, and so what is still ahead of it.
-/

namespace Storyline

open Timetable

/-- When the timer of a holder is due. -/
def Wait.due : Wait → Option Nat
  | .tap _ _ (.dwelling timer) | .sleep timer _ => timer.due
  | _ => none

def Pause.debts (q : Pause) : List (Ticket × Option Nat) := q.tickets.map (fun t ↦ (t, q.wait.due))

def Errand.debts (now : Nat) : Errand → List (Ticket × Option Nat)
  | .sleep d ending _ => ending.ticket?.toList.map (fun t ↦ (t, d.endFrom now))
  | _ => []

def Task.debts (now : Nat) (t : Task) : List (Ticket × Option Nat) :=
  t.pauses.flatMap Pause.debts ++ t.agenda.flatMap (Errand.debts now)

/-- Whether a count takes a ticket into account. -/
def Tally.regards : Tally → Ticket → Bool
  | .actions, _ => true
  | .taps, t => t.tapEpoch.isSome

/-- When the counts of the scopes will be zero. -/
abbrev Clearing := Nat → Tally → Option Nat

/-- The counts are zero when all debts are paid. -/
def clears (now : Nat) (debts : List (Ticket × Option Nat)) : Clearing := fun x tally ↦
  latest now ((debts.filter (fun d ↦ d.1.scope == x && tally.regards d.1)).map Prod.snd)

theorem come_clears {n now x : Nat} {tally : Tally} {debts : List (Ticket × Option Nat)} :
    Come n (clears now debts x tally) ↔
      now ≤ n ∧ ∀ d ∈ debts, d.1.scope = x → tally.regards d.1 = true → Come n d.2 := by
  unfold clears
  rw [come_latest]
  refine and_congr_right fun _ ↦ ?_
  simp only [List.mem_map, List.mem_filter, Bool.and_eq_true, beq_iff_eq]
  constructor
  · exact fun h d hd hx hr ↦ h d.2 ⟨d, ⟨hd, hx, hr⟩, rfl⟩
  · rintro h y ⟨d, ⟨hd, hx, hr⟩, rfl⟩
    exact h d hd hx hr

/-- When a wait will be over. -/
def Wait.past (X : Clearing) (now : Nat) : Wait → Option Nat
  | .tap _ _ (.dwelling timer) | .sleep timer _ => later (some now) timer.due
  | .drained x tally _ => X x tally
  | _ => some now

/-- When all of some pauses will be over. -/
def waitEnd (X : Clearing) (now : Nat) (pauses : List Pause) : Option Nat :=
  latest now (pauses.map (fun q ↦ q.wait.past X now))

theorem come_waitEnd {n now : Nat} {X : Clearing} {pauses : List Pause} :
    Come n (waitEnd X now pauses) ↔ now ≤ n ∧ ∀ q ∈ pauses, Come n (q.wait.past X now) := by
  rw [waitEnd, come_latest, List.forall_mem_map]

def Errand.action? : Errand → Option Action
  | perform action _ _ => some action
  | _ => none

/-- The actions that an agenda still has to take up. -/
def actionsOf (agenda : List Errand) : List Action := agenda.filterMap Errand.action?

/-- What is ahead of a task: the actions that it and what comes of it will take up,
and when its walk will be over. -/
def prospect (c : Config) (X : Clearing) (now s : Nat) (pauses : List Pause)
    (agenda : List Errand) : List (Nat × Action) × Option Nat :=
  match waitEnd X now pauses with
  | some u => (walkEvents c (actionsOf agenda) u (X s .actions),
      walkEnd c (actionsOf agenda) u (X s .actions))
  | none => ([], none)

/-- The scope of a task that walks. -/
def Task.home (t : Task) : Nat := t.scope.getD 0

/-- The scopes whose counts matter to a wait, or are up to it to bring to zero. -/
def Pause.minds (q : Pause) : List Nat :=
  match q.wait with
  | .tap .. => q.tickets.map Ticket.scope
  | .drained x _ _ => [x]
  | _ => []

def Task.minds (t : Task) : List Nat := t.scope.toList ++ t.pauses.flatMap Pause.minds

/-- The scopes that the waits of a task are for. -/
theorem past_congr {X Y : Clearing} {now : Nat} {q : Pause}
    (h : ∀ x ∈ q.minds, X x = Y x) : q.wait.past X now = q.wait.past Y now := by
  obtain ⟨wait, ending, scopes⟩ := q
  cases wait with
  | drained x tally guarded => exact congrFun (h x (by simp [Pause.minds])) tally
  | tap park kind auto => cases auto <;> rfl
  | _ => rfl

theorem waitEnd_congr {X Y : Clearing} {now : Nat} {pauses : List Pause}
    (h : ∀ x ∈ pauses.flatMap Pause.minds, X x = Y x) : waitEnd X now pauses = waitEnd Y now pauses := by
  unfold waitEnd
  congr 1
  refine List.map_congr_left fun q hq ↦ past_congr fun x hx ↦ h x ?_
  exact List.mem_flatMap.mpr ⟨q, hq, hx⟩

theorem prospect_congr {c : Config} {X Y : Clearing} {now s : Nat} {pauses : List Pause}
    {agenda : List Errand} (hs : X s = Y s) (h : ∀ x ∈ pauses.flatMap Pause.minds, X x = Y x) :
    prospect c X now s pauses agenda = prospect c Y now s pauses agenda := by
  unfold prospect
  rw [waitEnd_congr h, hs]

/-- A task without actions ahead takes up nothing. -/
theorem prospect_idle {c : Config} {X : Clearing} {now s : Nat} {pauses : List Pause}
    {agenda : List Errand} (h : actionsOf agenda = []) :
    (prospect c X now s pauses agenda).1 = [] := by
  unfold prospect
  split
  · rw [h]
    rfl
  · rfl

theorem Pause.map_debts (q : Pause) : q.debts.map Prod.fst = q.tickets := by
  simp [Pause.debts, Function.comp_def]

theorem Errand.map_debts (now : Nat) (e : Errand) : (e.debts now).map Prod.fst = e.tickets := by
  cases e <;> simp [Errand.debts, Errand.tickets, Function.comp_def]

theorem Task.map_debts (now : Nat) (t : Task) : (t.debts now).map Prod.fst = t.tickets := by
  simp only [Task.debts, Task.tickets, List.map_append, List.map_flatMap, Pause.map_debts,
    Errand.map_debts]

namespace Playback

/-- In a session without resets a count is zero if and only if it takes no ticket
into account that is out. -/
theorem Ledger.pending_eq_zero {kind : Kind} {ids parking : List Nat} {p : Playback}
    (h : p.Ledger kind ids [] parking) (hskips : p.session.skips = 0) {x : Nat} {tally : Tally} :
    p.session.pending x tally = 0 ↔
      ∀ t ∈ p.tickets, t.scope = x → tally.regards t = false := by
  have hbooks := h.books
  rw [List.nil_append] at hbooks
  have hpending : ∀ sc ∈ p.session.scopes, sc.id = x →
      p.session.pending x tally =
        p.tickets.countP (fun t ↦ t.standing sc && tally.regards t) := by
    intro sc hsc hid
    have hbalanced := hbooks.balanced sc hsc
    rw [Session.pending, ← hid, Session.scope?_eq hbooks.numbered hsc]
    cases tally with
    | actions => simpa [Scope.counter, Tally.regards] using hbalanced.actions
    | taps => exact hbalanced.taps
  constructor
  · intro hzero t ht hx
    obtain ⟨sc, hsc, hid, hpast, -⟩ := hbooks.issued t ht
    have hepoch := hbooks.unreset hskips sc hsc
    rw [hpending sc hsc (hid.trans hx), List.countP_eq_zero] at hzero
    have hstanding : t.standing sc = true := by
      simp only [Ticket.standing, Bool.and_eq_true, beq_iff_eq]
      exact ⟨hid.symm, by omega⟩
    simpa [hstanding] using hzero t ht
  · intro hnone
    cases hs : p.session.scope? x with
    | none => simp [Session.pending, hs]
    | some sc =>
        have hid : sc.id = x := by simpa using List.find?_some hs
        rw [hpending sc (List.mem_of_find?_eq_some hs) hid, List.countP_eq_zero]
        intro t ht hcount
        simp only [Ticket.standing, Bool.and_eq_true, beq_iff_eq] at hcount
        exact absurd hcount.2 (by simp [hnone t ht (hcount.1.1.trans hid)])

end Playback

end Storyline
