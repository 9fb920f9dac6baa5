import Storyline.Session

/-!
# Tasks and what they wait for

A playback runs tasks over a session.  A task works off its agenda, one errand
after the other; an errand may leave pauses behind, and the next one begins when
none is left.  A pause waits for one thing and has something to do at its end.
Ready tasks stand in a queue; a signal puts every task there that has a pause
heeding it.
-/

namespace Storyline

/-- A timer is due at a millisecond or never; timers set earlier come first. -/
structure Timer where
  due : Option Nat
  order : Nat
deriving DecidableEq, Repr

def Timer.isDue (now : Nat) (t : Timer) : Bool :=
  match t.due with
  | some due => due ≤ now
  | none => false

/-- How long a line or title stays when playing by itself: for a fixed time, or
until its voice has ended and a moment more. -/
inductive Dwell where
  | fixed (d : Duration)
  | voice
deriving DecidableEq, Repr

/-- How far playing by itself has got: not on, listening to the voice, or
waiting out the last timer. -/
inductive Lingering where
  | off
  | listening (start ticks : Nat) (timer : Timer)
  | dwelling (timer : Timer)
deriving DecidableEq, Repr

inductive Wait where
  /-- For a tap, or for playing by itself to move on. -/
  | tap (park : Nat) (dwell : Dwell) (auto : Lingering)
  /-- For a timer, or for a skip after the given number of skips. -/
  | sleep (timer : Timer) (skips : Nat)
  /-- For a count to be zero, or also for the end of the session. -/
  | drained (scope : Nat) (tally : Tally) (guarded : Bool)
  /-- For the end of the session. -/
  | cancelled
  /-- For the next frame of a shake. -/
  | frame (shake : Shake) (stamp : Nat) (duration : Duration) (start ticks : Nat) (timer : Timer)
  /-- For fast-forward to be on, and then for its next tick. -/
  | forward (ticker : Option (Nat × Nat × Timer))
deriving DecidableEq, Repr

/-- What follows a wait that was not cut short. -/
inductive Ending where
  | nothing
  | release (ticket : Ticket)
  | clearTelop (text : String) (ticket : Ticket)
  | coverShown (cover : Cover) (stamp : Nat) (ticket : Ticket)
  | background (path : String)
  | completed
deriving DecidableEq, Repr

/-- A suspended step, and the scopes that it keeps alive. -/
structure Pause where
  wait : Wait
  ending : Ending
  scopes : List Nat
deriving DecidableEq, Repr

/-- One thing that a task does in its turn. -/
inductive Errand where
  | perform (action : Action) (scope : Nat) (step : Option Nat)
  | sleep (d : Duration) (ending : Ending) (scopes : List Nat)
  | drain (scope : Nat) (tally : Tally) (guarded : Bool) (ending : Ending)
  | awaitEnd
  | animate (shake : Shake) (stamp : Nat) (d : Duration)
  | fastForward
deriving Repr

structure Task where
  id : Nat
  /-- Whether the session aborts it when it ends. -/
  owned : Bool
  /-- Whether its outcome tells if it ran to its end. -/
  asks : Bool
  /-- The scope that it works in, which lives as long as the task. -/
  scope : Option Nat
  aborted : Bool
  agenda : List Errand
  pauses : List Pause
deriving Repr

inductive Status where
  | notStarted
  | playing
  | completed
  | stopped
deriving DecidableEq, Repr

namespace Status

def all : List Status := [notStarted, playing, completed, stopped]

def name : Status → String
  | notStarted => "NotStarted"
  | playing => "Playing"
  | completed => "Completed"
  | stopped => "Stopped"

def ofName? (s : String) : Option Status := all.find? (fun t ↦ t.name == s)

def isFinal : Status → Bool
  | completed | stopped => true
  | _ => false

end Status

/-- How a task has ended; tasks that are asked say whether they ran to their end. -/
inductive Outcome where
  | done
  | answer (ran : Bool)
  | failed
deriving DecidableEq, Repr

/-- An action that has been taken up: when, in which scope, and at which step of
the main timeline. -/
structure Dispatch where
  time : Nat
  scope : Nat
  step : Option Nat
  action : Action
deriving Repr

/-- The turn of a task: what it still has on its agenda, its pauses so far,
whether it has to run again, and whether it has failed. -/
structure Turn where
  agenda : List Errand
  pauses : List Pause
  again : Bool
  failed : Bool
deriving Repr

namespace Turn

def none : Turn := ⟨[], [], false, false⟩

def ofTask (t : Task) : Turn := ⟨t.agenda, t.pauses, false, false⟩

/-- Whether the next errand may begin. -/
def isFree (t : Turn) : Bool := t.pauses.isEmpty && !t.failed

end Turn

structure Playback where
  session : Session
  status : Status
  tasks : List Task
  /-- How many tasks there have been. -/
  spawned : Nat
  /-- The tasks that are ready to run, without repetition. -/
  queue : List Nat
  outcomes : List (Nat × Outcome)
  /-- The actions of the story that have been taken up, in this order. -/
  dispatches : List Dispatch
  /-- The turn of the task that is running; empty between turns. -/
  turn : Turn

inductive Signal where
  | counter (scope : Nat) (tally : Tally)
  | tap (park : Nat)
  | skip
  | autoPlay
  | fastForward
  | cancel
deriving DecidableEq, Repr

/-- Whether a signal makes it worth looking at a wait again. -/
def Wait.heeds : Wait → Signal → Bool
  | tap park _ _, .tap id => park == id
  | tap .., .autoPlay => true
  | tap .., .cancel => true
  | sleep .., .skip => true
  | sleep .., .cancel => true
  | drained scope tally _, .counter id t => scope == id && tally == t
  | drained _ _ guarded, .cancel => guarded
  | cancelled, .cancel => true
  | forward _, .fastForward => true
  | _, _ => false

def Wait.timer? : Wait → Option Timer
  | tap _ _ (.listening _ _ timer) => some timer
  | tap _ _ (.dwelling timer) => some timer
  | sleep timer _ => some timer
  | frame _ _ _ _ _ timer => some timer
  | forward (some (_, _, timer)) => some timer
  | _ => none

def Pause.heeds (p : Pause) (signal : Signal) : Bool := p.wait.heeds signal

def Task.heeds (t : Task) (signal : Signal) : Bool := t.pauses.any (fun p ↦ p.heeds signal)

namespace Playback

def new (session : Session) : Playback :=
  ⟨session, .notStarted, [], 0, [], [], [], .none⟩

def task? (p : Playback) (id : Nat) : Option Task := p.tasks.find? (fun t ↦ t.id == id)

def modifyTask (id : Nat) (f : Task → Task) (p : Playback) : Playback :=
  { p with tasks := p.tasks.map (fun t ↦ if t.id == id then f t else t) }

def removeTask (id : Nat) (p : Playback) : Playback :=
  { p with tasks := p.tasks.filter (fun t ↦ t.id != id) }

def update (f : Session → Session) (p : Playback) : Playback :=
  { p with session := f p.session }

def updateTurn (f : Turn → Turn) (p : Playback) : Playback := { p with turn := f p.turn }

/-! ## Waking -/

/-- Puts a task at the end of the queue, unless it is in it. -/
def wake (p : Playback) (id : Nat) : Playback :=
  if p.queue.contains id then p else { p with queue := p.queue ++ [id] }

def wakeAll (p : Playback) (ids : List Nat) : Playback := ids.foldl wake p

/-- Wakes the tasks that heed a signal; the running task runs again after its
turn, if it does. -/
def raise (signal : Signal) (p : Playback) : Playback :=
  let again := p.turn.again || p.turn.pauses.any (fun q ↦ q.heeds signal)
  (p.updateTurn (fun t ↦ { t with again := again })).wakeAll
    ((p.tasks.filter (fun t ↦ t.heeds signal)).map Task.id)

/-! ## Tasks -/

/-- Adds a task to the end of the queue. -/
def addTask (owned asks : Bool) (scope : Option Nat) (agenda : List Errand) (p : Playback) :
    Playback :=
  { p with
    tasks := p.tasks ++ [⟨p.spawned, owned, asks, scope, false, agenda, []⟩]
    spawned := p.spawned + 1
    queue := p.queue ++ [p.spawned] }

/-- Adds a task that the session owns; an ended session takes none. -/
def spawn (scope : Option Nat) (agenda : List Errand) (p : Playback) : Playback :=
  if p.session.cancelled then p else p.addTask true false scope agenda

/-! ## Scopes -/

/-- Enters a scope. -/
def enter (scope : Nat) (tapBlocking : Bool) (p : Playback) : Playback :=
  let p := (p.update (.modifyScope scope (.enter tapBlocking))).raise (.counter scope .actions)
  if tapBlocking then p.raise (.counter scope .taps) else p

/-- Releases one count of a ticket, if it still counts. -/
def releaseCount (scope : Nat) (tally : Tally) (epoch : Nat) (p : Playback) : Playback :=
  match p.session.scope? scope with
  | none => p
  | some sc =>
    if (sc.counter tally).counts epoch then
      (p.update (.modifyScope scope (.modify tally (.release epoch)))).raise
        (.counter scope tally)
    else p

def release (t : Ticket) (p : Playback) : Playback :=
  let p := match t.tapEpoch with
    | some epoch => p.releaseCount t.scope .taps epoch
    | none => p
  p.releaseCount t.scope .actions t.epoch

def raiseReset (scope : Nat) (p : Playback) : Playback :=
  (p.raise (.counter scope .actions)).raise (.counter scope .taps)

def resetScope (scope : Nat) (p : Playback) : Playback :=
  (p.update (.modifyScope scope Scope.reset)).raiseReset scope

def resetScopes (p : Playback) : Playback :=
  (p.session.scopes.map Scope.id).foldl (fun p id ↦ p.raiseReset id) (p.update .resetScopes)

/-! ## Taps, skips and flags -/

def tapped (p : Playback) : Bool := p.session.nextTap.isSome

/-- Resumes the latest parked action.  Nobody waits for the dead ones that leave
the stack with it. -/
def tap (p : Playback) : Playback :=
  let gone := p.session.taps.drop p.session.takeTap.taps.length
  gone.foldl (fun p t ↦ p.raise (.tap t.id)) (p.update .takeTap)

def unpark (id : Nat) (p : Playback) : Playback := (p.update (.unpark id)).raise (.tap id)

def skip (p : Playback) : Playback := (p.update .skip).raise .skip

def setAutoPlay (on : Bool) (p : Playback) : Playback :=
  if p.session.cancelled then p else (p.update (.setAutoPlay on)).raise .autoPlay

def setFastForward (on : Bool) (p : Playback) : Playback :=
  if p.session.cancelled then p else (p.update (.setFastForward on)).raise .fastForward

/-! ## Timers -/

/-- A timer set now. -/
def timer (due : Option Nat) (p : Playback) : Timer := ⟨due, p.session.armed⟩

/-- Counts a timer that has been set. -/
def arm (p : Playback) : Playback := p.update (fun s ↦ { s with armed := s.armed + 1 })

end Playback

end Storyline
