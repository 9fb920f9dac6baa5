import Storyline.Playback.Perform
import Storyline.SortBy

/-!
# Running a playback

Ready tasks have their turns one after the other.  In its turn a task looks at
all its pauses and, while none is left, begins its next errand.  Time moves on
only when no task is ready, from one due timer to the next.
-/

namespace Storyline

/-- The parked action that a pause waits for. -/
def Pause.park? (pause : Pause) : Option Nat :=
  match pause.wait with
  | .tap park _ _ => some park
  | _ => none

/-- Room for the pauses and tasks that an errand can leave behind. -/
def Errand.weight : Errand → Nat
  | .perform action _ _ => 6 * action.size
  | _ => 3

def Pause.weight (now : Nat) (pause : Pause) : Nat :=
  match pause.wait.timer? with
  | some timer => if timer.isDue now then 2 else 1
  | none => 1

def Task.weight (now : Nat) (t : Task) : Nat :=
  (t.agenda.map Errand.weight).sum + (t.pauses.map (Pause.weight now)).sum

def Errand.scopes : Errand → List Nat
  | .perform _ scope _ => [scope]
  | .sleep _ _ scopes => scopes
  | .drain scope _ _ _ => [scope]
  | _ => []

def Task.scopes (t : Task) : List Nat :=
  t.scope.toList ++ t.agenda.flatMap Errand.scopes ++ t.pauses.flatMap Pause.scopes

namespace Playback

def begin (errand : Errand) (p : Playback) : Playback :=
  match errand with
  | .perform action scope step => perform action scope [scope] step p
  | .sleep d ending scopes => p.sleep d ending scopes
  | .drain scope tally guarded ending =>
    p.suspend (.drained scope tally guarded) ending [scope]
  | .awaitEnd => p.suspend .cancelled .nothing []
  | .animate shake stamp d =>
    let now := p.session.now
    p.arm.suspend (.frame shake stamp d now 0 (p.timer (some now))) .nothing []
  | .fastForward => p.suspend (.forward none) .nothing []

/-- Begins the errands of the agenda until one leaves a pause behind. -/
def proceed : List Errand → Playback → Playback
  | [], p => p
  | errand :: rest, p =>
    if p.turn.isFree then
      proceed rest ((p.updateTurn (fun t ↦ { t with agenda := rest })).begin errand)
    else p

/-- Takes the first pause of the turn and looks at it; if it goes on, it
becomes the last one. -/
def revisit (pause : Pause) (p : Playback) : Playback :=
  if p.turn.failed then p
  else
    (p.updateTurn (fun t ↦ { t with pauses := t.pauses.tail })).suspend pause.wait pause.ending
      pause.scopes

/-- Nobody waits any more for the parked actions of a failed task. -/
def abandonAll (pauses : List Pause) (p : Playback) : Playback :=
  (pauses.filterMap Pause.park?).foldl (fun p park ↦ p.update (.abandon park)) p

def outcomeOf (asks : Bool) (p : Playback) : Outcome :=
  if asks then .answer (!p.session.cancelled) else .done

/-- Takes out a task that has ended, and notes how. -/
def endTask (task : Task) (outcome : Outcome) (p : Playback) : Playback :=
  { p.removeTask task.id with outcomes := p.outcomes ++ [(task.id, outcome)] }

/-- Puts a task back after its turn, or takes it out if it has ended. -/
def endTurn (task : Task) (p : Playback) : Playback :=
  let turn := p.turn
  let p := p.updateTurn (fun _ ↦ .none)
  if turn.failed then (p.endTask task .failed).abandonAll turn.pauses
  else if turn.pauses.isEmpty then p.endTask task (p.outcomeOf task.asks)
  else
    let p := p.modifyTask task.id
      (fun t ↦ { t with agenda := turn.agenda, pauses := turn.pauses })
    if turn.again then p.wake task.id else p

/-- The turn of a task.  While it runs, its entry in the table is empty. -/
def takeTurn (task : Task) (p : Playback) : Playback :=
  let p := p.modifyTask task.id (fun t ↦ { t with agenda := [], pauses := [] })
  let p := p.updateTurn (fun _ ↦ .ofTask task)
  let p := task.pauses.foldl (fun p pause ↦ p.revisit pause) p
  (p.proceed task.agenda).endTurn task

def runTask (id : Nat) (p : Playback) : Playback :=
  match p.task? id with
  | none => p
  | some task => if task.aborted then p.removeTask id else p.takeTurn task

/-! ## Until nothing is ready -/

/-- How much work can still be done at the present time: every turn that wakes
a task does some of it. -/
def work (p : Playback) : Nat := (p.tasks.map (Task.weight p.session.now)).sum

/-- A bound on the turns until nothing is ready. -/
def turnBound (p : Playback) : Nat :=
  (p.work + 1) * (p.work + p.tasks.length + 2) + p.queue.length

def runReady : Nat → Playback → Playback
  | 0, p => p
  | bound + 1, p =>
    match p.queue with
    | [] => p
    | id :: rest => runReady bound (runTask id { p with queue := rest })

/-- Runs the ready tasks until none is left. -/
def settle (p : Playback) : Playback := runReady p.turnBound p

/-! ## Time -/

def timers (p : Playback) : List (Timer × Nat) :=
  p.tasks.flatMap (fun t ↦ t.pauses.filterMap
    (fun q ↦ q.wait.timer?.map (fun timer ↦ (timer, t.id))))

/-- The next time at which a timer is due. -/
def nextDue (p : Playback) : Option Nat :=
  (p.timers.filterMap (fun t ↦ t.1.due.filter (fun due ↦ p.session.now < due))).min?

/-- Wakes the tasks whose timers are due at a time, in the order in which the
timers were set, and moves the clock there. -/
def moveTo (time : Nat) (p : Playback) : Playback :=
  let due := sortBy (fun t ↦ t.1.order) (p.timers.filter (fun t ↦ t.1.due == some time))
  (p.update (fun s ↦ { s with now := time })).wakeAll (due.map Prod.snd)

/-- Lets time pass up to `target`; every step takes at least a millisecond. -/
def passTime (target : Nat) : Nat → Playback → Playback
  | 0, p => p.update (fun s ↦ { s with now := target })
  | bound + 1, p =>
    match p.nextDue with
    | some due =>
      if due ≤ target then passTime target bound (p.moveTo due).settle
      else p.update (fun s ↦ { s with now := target })
    | none => p.update (fun s ↦ { s with now := target })

def advance (ms : Nat) (p : Playback) : Playback :=
  let p := p.settle
  passTime (p.session.now + ms) ms p

/-! ## The end of the session -/

def abortOwned (p : Playback) : Playback :=
  let owned := (p.tasks.filter Task.owned).map Task.id
  wakeAll { p with tasks := p.tasks.map (fun t ↦ { t with aborted := t.aborted || t.owned }) }
    owned

/-- Ends the session, once. -/
def shutdown (p : Playback) : Playback :=
  if p.session.cancelled then p
  else
    let parked := p.session.taps.map Parked.id
    let scopes := p.session.scopes.map Scope.id
    let p := (p.update .cancel).raise .cancel
    let p := parked.foldl (fun p id ↦ p.raise (.tap id)) p
    (scopes.foldl (fun p id ↦ p.raiseReset id) p).abortOwned

/-! ## Scopes in use -/

/-- The scopes in use by tasks or by others, in the order of their opening. -/
def liveScopes (others : List Nat) (p : Playback) : List Scope :=
  let used := others ++ p.tasks.flatMap Task.scopes
  p.session.scopes.filter (fun sc ↦ used.contains sc.id)

/-- The parent of a scope, if it is still in use. -/
def liveParent (others : List Nat) (sc : Scope) (p : Playback) : Option Nat :=
  sc.parent.filter (fun id ↦ (p.liveScopes others).any (fun other ↦ other.id == id))

end Playback

end Storyline
