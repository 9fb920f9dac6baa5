/-!
# Scopes

A scope counts the actions that have been entered and not yet released, and
among them those that a tap has to release.  A reset brings both counts to zero
and begins a new epoch, in which the tickets of former epochs count no more.
-/

namespace Storyline

/-- A count of tickets that are out, within the present epoch. -/
structure Counter where
  pending : Nat
  epoch : Nat
deriving DecidableEq, Repr, Inhabited

namespace Counter

def zero : Counter := ⟨0, 0⟩

def acquire (c : Counter) : Counter := { c with pending := c.pending + 1 }

/-- Whether a release in the given epoch counts. -/
def counts (epoch : Nat) (c : Counter) : Bool := c.epoch == epoch && 0 < c.pending

def release (epoch : Nat) (c : Counter) : Counter :=
  if c.counts epoch then { c with pending := c.pending - 1 } else c

def reset (c : Counter) : Counter := ⟨0, c.epoch + 1⟩

end Counter

/-- The two counts of a scope. -/
inductive Tally where
  | actions
  | taps
deriving DecidableEq, Repr

structure Scope where
  id : Nat
  parent : Option Nat
  actions : Counter
  taps : Counter
deriving DecidableEq, Repr, Inhabited

/-- The right to release an action, and its tap, once. -/
structure Ticket where
  scope : Nat
  epoch : Nat
  tapEpoch : Option Nat
deriving DecidableEq, Repr, Inhabited

namespace Scope

def fresh (id : Nat) (parent : Option Nat) : Scope := ⟨id, parent, .zero, .zero⟩

def counter (s : Scope) : Tally → Counter
  | .actions => s.actions
  | .taps => s.taps

def modify (tally : Tally) (f : Counter → Counter) (s : Scope) : Scope :=
  match tally with
  | .actions => { s with actions := f s.actions }
  | .taps => { s with taps := f s.taps }

def outstanding (s : Scope) : Nat := s.actions.pending

def outstandingTaps (s : Scope) : Nat := s.taps.pending

/-- The ticket that an action gets on entering now. -/
def ticket (tapBlocking : Bool) (s : Scope) : Ticket :=
  ⟨s.id, s.actions.epoch, if tapBlocking then some s.taps.epoch else none⟩

def enter (tapBlocking : Bool) (s : Scope) : Scope :=
  let s := s.modify .actions .acquire
  if tapBlocking then s.modify .taps .acquire else s

/-- Releases a ticket: its tap first, if it has one, and then its action. -/
def release (t : Ticket) (s : Scope) : Scope :=
  let s := match t.tapEpoch with
    | some epoch => s.modify .taps (.release epoch)
    | none => s
  s.modify .actions (.release t.epoch)

def reset (s : Scope) : Scope := { s with actions := s.actions.reset, taps := s.taps.reset }

end Scope

end Storyline
