import Storyline.Playback.Run
import Storyline.Stage.Command

/-!
# The bench

A bench works a session by hand, without a player: it opens scopes, takes and
releases tickets, parks actions, and starts tasks that wait, perform or walk.
What it holds is numbered in the order in which it was taken.
-/

namespace Storyline

/-- What has become of an action that the bench parked. -/
inductive ParkState where
  | parked
  | resumed
  | closed
  | dropped
deriving DecidableEq, Repr

def ParkState.name : ParkState → String
  | parked => "parked"
  | resumed => "resumed"
  | closed => "closed"
  | dropped => "dropped"

structure Park where
  id : Nat
  state : ParkState
deriving DecidableEq, Repr

structure Bench where
  playback : Playback
  /-- The scopes taken; those given back are gone. -/
  scopes : List (Option Nat)
  tickets : List (Option Ticket)
  parks : List Park
  /-- The tasks started by the bench. -/
  tasks : List Nat

namespace Bench

inductive Request where
  | scope (parent : Option Nat)
  | dropScope (scope : Nat)
  | enter (scope : Nat) (tapBlocking : Bool)
  | release (ticket : Nat)
  | dropTicket (ticket : Nat)
  | reset (scope : Nat)
  | resetScopes
  | drained (scope : Nat) (tally : Tally)
  | untilDrained (scope : Nat)
  | sleep (d : Duration)
  | cancelled
  | perform (scope : Nat) (action : Action) (step : Option Nat)
  | walk (scope : Nat) (actions : List Action) (indexed : Bool)
  | spawn (d : Duration) (path : String)
  | skip
  | serial
  | park
  | unpark (park : Nat)
  | unparkId (id : Nat)
  | dropPark (park : Nat)
  | next
  | present (command : StageCommand)
  | presentIf (command : StageCommand)
  | backlog (line : Line)
  | playVoice (path : String)
  | voice (path : String)
  | autoPlay (on : Bool)
  | fastForward (on : Bool)
  | advance (ms : Nat)
  | shutdown
deriving Repr

inductive Response where
  | nothing
  | flag (on : Bool)
  | number (n : Nat)
  | stage (reply : StageReply)
  | backlog (lines : List Line)
  | voice (blob : Option Bytes)
deriving DecidableEq, Repr

/-- What a request names and the bench does not have. -/
inductive Missing where
  | scope
  | park
deriving DecidableEq, Repr

def new (config : Config) (host : Host) (voices : VoiceCache) : Bench :=
  ⟨.new (.new config host voices), [], [], [], []⟩

def session (b : Bench) : Session := b.playback.session

def scopeAt (n : Nat) (b : Bench) : Except Missing Nat :=
  match b.scopes[n]? with
  | some (some id) => .ok id
  | _ => .error .scope

def parkAt (n : Nat) (b : Bench) : Except Missing Park :=
  match b.parks[n]? with
  | some park => .ok park
  | none => .error .park

def ticketAt (n : Nat) (b : Bench) : Option Ticket := (b.tickets[n]?).join

def mapPlayback (f : Playback → Playback) (b : Bench) : Bench :=
  { b with playback := f b.playback }

/-- Notes which parked actions the session no longer has. -/
def notePark (state : ParkState) (b : Bench) : Bench :=
  { b with parks := b.parks.map (fun park ↦
      if park.state = .parked ∧ !b.session.isParked park.id then { park with state := state }
      else park) }

/-- Starts a task that the session does not own. -/
def start (asks : Bool) (scope : Option Nat) (agenda : List Errand) (b : Bench) :
    Bench × Response :=
  let id := b.playback.spawned
  ({ b with
      playback := b.playback.addTask false asks scope agenda
      tasks := b.tasks ++ [id] },
    .number b.tasks.length)

/-- How a task of the bench has ended. -/
def outcome? (id : Nat) (b : Bench) : Option Outcome := b.playback.outcomes.lookup id

def handleScope (parent : Option Nat) (b : Bench) : Bench × Response :=
  let (id, s) := b.session.openScope parent
  ({ b with playback := b.playback.update (fun _ ↦ s), scopes := b.scopes ++ [some id] },
    .number id)

def handleEnter (scope : Nat) (tapBlocking : Bool) (b : Bench) : Bench × Response :=
  let ticket := b.session.ticket scope tapBlocking
  ({ b with
      playback := b.playback.enter scope tapBlocking
      tickets := b.tickets ++ [some ticket] },
    .number b.tickets.length)

/-- Uses up a ticket, releasing it or not. -/
def handleTicket (released : Bool) (n : Nat) (b : Bench) : Bench × Response :=
  match b.ticketAt n with
  | none => (b, .flag false)
  | some ticket =>
    ({ b with
        playback := if released then b.playback.release ticket else b.playback
        tickets := b.tickets.set n none },
      .flag true)

def handlePark (b : Bench) : Bench × Response :=
  let (id, s) := b.session.park
  ({ b with playback := b.playback.update (fun _ ↦ s), parks := b.parks ++ [⟨id, .parked⟩] },
    .number id)

def handleUnpark (id : Nat) (b : Bench) : Bench × Response :=
  ((b.mapPlayback (.unpark id)).notePark .closed, .nothing)

def handleDropPark (n : Nat) (park : Park) (b : Bench) : Bench × Response :=
  if park.state = .parked then
    ({ b with
        playback := b.playback.update (.abandon park.id)
        parks := b.parks.set n { park with state := .dropped } },
      .flag true)
  else (b, .flag false)

def handlePresent (command : StageCommand) (b : Bench) : Bench × Response :=
  (b.mapPlayback (.update (.present command.apply)),
    if b.session.cancelled then .nothing else .stage (command.reply b.session.stage))

/-- Carries out a command, and announces it only if its reply confirms it. -/
def handlePresentIf (command : StageCommand) (b : Bench) : Bench × Response :=
  let announced := !b.session.cancelled && command.isConfirmed b.session.stage
  (b.mapPlayback (.update (if announced then .present command.apply else .amend command.apply)),
    .flag announced)

/-- Carries out a request, without running any task but for passing time. -/
def handle (r : Request) (b : Bench) : Except Missing (Bench × Response) :=
  match r with
  | .scope none => .ok (b.handleScope none)
  | .scope (some n) => do pure (b.handleScope (some (← b.scopeAt n)))
  | .dropScope n => do
    let _ ← b.scopeAt n
    pure ({ b with scopes := b.scopes.set n none }, .nothing)
  | .enter n tapBlocking => do pure (b.handleEnter (← b.scopeAt n) tapBlocking)
  | .release n => .ok (b.handleTicket true n)
  | .dropTicket n => .ok (b.handleTicket false n)
  | .reset n => do
    let scope ← b.scopeAt n
    pure (b.mapPlayback (.resetScope scope), .nothing)
  | .resetScopes => .ok (b.mapPlayback .resetScopes, .nothing)
  | .drained n tally => do
    let scope ← b.scopeAt n
    pure (b.start false (some scope) [.drain scope tally false .nothing])
  | .untilDrained n => do
    let scope ← b.scopeAt n
    pure (b.start true (some scope) [.drain scope .actions true .nothing])
  | .sleep d => .ok (b.start true none [.sleep d .nothing []])
  | .cancelled => .ok (b.start false none [.awaitEnd])
  | .perform n action step => do
    let scope ← b.scopeAt n
    pure (b.start false (some scope) [.perform action scope step])
  | .walk n actions indexed => do
    let scope ← b.scopeAt n
    pure (b.start false (some scope) (Playback.walk scope indexed actions))
  | .spawn d path =>
    .ok (b.mapPlayback (.spawn none [.sleep d (.background path) []]), .nothing)
  | .skip => .ok (b.mapPlayback .skip, .nothing)
  | .serial =>
    .ok (b.mapPlayback (.update fun s ↦ s.nextSerial.2), .number b.session.serial)
  | .park => .ok b.handlePark
  | .unpark n => do pure (b.handleUnpark (← b.parkAt n).id)
  | .unparkId id => .ok (b.handleUnpark id)
  | .dropPark n => do pure (b.handleDropPark n (← b.parkAt n))
  | .next => .ok (b.mapPlayback .tap, .flag b.playback.tapped)
  | .present command => .ok (b.handlePresent command)
  | .presentIf command => .ok (b.handlePresentIf command)
  | .backlog line =>
    .ok (b.mapPlayback (.update (.pushBacklog line)), .backlog (b.session.backlog ++ [line]))
  | .playVoice path =>
    .ok (b.mapPlayback (.update fun s ↦ (s.playVoice path).2),
      .flag (b.session.playVoice path).1)
  | .voice path => .ok (b, .voice (b.session.voices.get? path))
  | .autoPlay on =>
    let b := b.mapPlayback (.setAutoPlay on)
    .ok (b, .flag b.session.autoPlay)
  | .fastForward on =>
    let b := b.mapPlayback (.setFastForward on)
    .ok (b, .flag b.session.fastForward)
  | .advance ms => .ok (b.mapPlayback (.advance ms), .nothing)
  | .shutdown => .ok (b.mapPlayback .shutdown, .nothing)

/-- Carries out a request and, if asked to, runs what is ready. -/
def step (settled : Bool) (r : Request) (b : Bench) : Except Missing (Bench × Response) := do
  let (b, response) ← b.handle r
  let b := if settled then b.mapPlayback .settle else b
  pure (b.notePark .resumed, response)

/-- The scopes in use by the bench, by its tickets or by tasks. -/
def held (b : Bench) : List Nat :=
  b.scopes.filterMap id ++ (b.tickets.filterMap id).map Ticket.scope

end Bench

end Storyline
