import Storyline.Playback.Run

/-!
# The player

A player plays a list of actions, once.  Its main timeline walks through them
in the root scope; the story is completed when the walk is over and nothing of
it is left outstanding.
-/

namespace Storyline

inductive PlayerError where
  | noRuntime
deriving DecidableEq, Repr

def PlayerError.message : PlayerError → String
  | noRuntime => "Player error: Start outside of a tokio runtime"

structure Player where
  actions : List Action
  playback : Playback
  dropped : Bool

namespace Player

/-- The root scope is the first thing that a player's session numbers. -/
def root : Nat := 0

def new (actions : List Action) (config : Config) (host : Host) (voices : VoiceCache) : Player :=
  ⟨actions, .new ((Session.new config host voices).openScope none).2, false⟩

/-- A player with standard settings and without sound. -/
def silent (actions : List Action) (sway : Nat → Binary32 → Binary32) : Player :=
  new actions .standard ⟨true, false, some 100, sway⟩ .empty

def status (p : Player) : Status := p.playback.status

/-- The final status, once there is one. -/
def finished (p : Player) : Option Status := if p.status.isFinal then some p.status else none

def mapPlayback (f : Playback → Playback) (p : Player) : Player :=
  { p with playback := f p.playback }

/-- The errands of the main timeline. -/
def timeline (actions : List Action) : List Errand :=
  Playback.walk root true actions ++ [.drain root .actions true .completed]

/-- Starts the ticker of fast-forward and the main timeline. -/
def launch (actions : List Action) (p : Playback) : Playback :=
  (({ p with status := .playing }).spawn none [.fastForward]).spawn (some root)
    (timeline actions)

def start (p : Player) : Except PlayerError Player :=
  if !p.playback.session.host.canRun then .error .noRuntime
  else if p.status = .notStarted then .ok (p.mapPlayback (launch p.actions))
  else .ok p

def stop (p : Player) : Player :=
  p.mapPlayback fun b ↦
    let b := b.shutdown
    if b.status.isFinal then b else { b with status := .stopped }

def drop (p : Player) : Player := { p.stop with dropped := true }

/-- The scopes in use; the player itself uses the root. -/
def liveScopes (p : Player) : List Scope :=
  p.playback.liveScopes (if p.dropped then [] else [root])

/-! ## Commands -/

inductive Command where
  | start
  | next
  | stop
  | autoPlay (on : Bool)
  | fastForward (on : Bool)
  | advance (ms : Nat)
  | cacheVoice (path : String) (content : Bytes)
  | drop
  | showActions
  | showStage
  | showBacklog
deriving DecidableEq, Repr

/-- Whether a command is for the player, and not for its surroundings. -/
def Command.isForPlayer : Command → Bool
  | advance _ | cacheVoice .. => false
  | _ => true

inductive Response where
  | nothing
  | flag (on : Bool)
  | refused (e : PlayerError)
  | dropped
  | actions (actions : List Action)
  | stage (stage : Stage)
  | backlog (lines : List Line)
deriving Repr

def obeyStart (p : Player) : Player × Response :=
  match p.start with
  | .ok p => (p, .nothing)
  | .error e => (p, .refused e)

/-- Carries out a command, without running any task but for passing time. -/
def obey (c : Command) (p : Player) : Player × Response :=
  if p.dropped && c.isForPlayer then (p, .dropped)
  else
    match c with
    | .start => p.obeyStart
    | .next => (p.mapPlayback .tap, .flag p.playback.tapped)
    | .stop => (p.stop, .nothing)
    | .autoPlay on =>
      let p := p.mapPlayback (.setAutoPlay on)
      (p, .flag p.playback.session.autoPlay)
    | .fastForward on =>
      let p := p.mapPlayback (.setFastForward on)
      (p, .flag p.playback.session.fastForward)
    | .advance ms => (p.mapPlayback (.advance ms), .nothing)
    | .cacheVoice path content =>
      (p.mapPlayback (.update fun s ↦ { s with voices := s.voices.insert path content }),
        .nothing)
    | .drop => (p.drop, .nothing)
    | .showActions => (p, .actions p.actions)
    | .showStage => (p, .stage p.playback.session.stage)
    | .showBacklog => (p, .backlog p.playback.session.backlog)

/-- Carries out a command and, if asked to, runs what is ready. -/
def step (settled : Bool) (c : Command) (p : Player) : Player × Response :=
  let (p, r) := p.obey c
  (if settled then p.mapPlayback .settle else p, r)

/-- Carries out commands, running what is ready after each. -/
def run (cs : List Command) (p : Player) : Player :=
  cs.foldl (fun p c ↦ (p.step true c).1) p

end Player

end Storyline
