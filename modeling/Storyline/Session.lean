import Storyline.Audio
import Storyline.Config
import Storyline.Scope
import Storyline.Stage
import Storyline.Voice.Cache

/-!
# Sessions

A session is what one playback acts on: the clock, the stage, the backlog, the
stack of parked actions that a tap resumes, the scopes, the flags, and the calls
made to the host.  Once it is cancelled, the stage and the flags stay as they
are.  Scopes, parked actions, covers and shakes are numbered from one counter.
-/

namespace Storyline

/-- The surroundings of a session. -/
structure Host where
  /-- Whether tasks can be run. -/
  canRun : Bool
  /-- Whether calls of the sound player are heard. -/
  audible : Bool
  /-- How many milliseconds a byte of voice sounds; without end, if none. -/
  byteSpan : Option Nat
  /-- The offset that the given draw takes between minus and plus a magnitude. -/
  sway : Nat → Binary32 → Binary32

/-- An action that is parked until a tap; it is dead once nobody waits for it. -/
structure Parked where
  id : Nat
  live : Bool
deriving DecidableEq, Repr

structure Session where
  config : Config
  host : Host
  /-- The time in milliseconds. -/
  now : Nat
  /-- How many timers have been set. -/
  armed : Nat
  /-- How many offsets have been drawn. -/
  draws : Nat
  serial : Nat
  scopes : List Scope
  stage : Stage
  /-- How often a change of the stage has been announced. -/
  revision : Nat
  backlog : List Line
  /-- The parked actions, the latest one last. -/
  taps : List Parked
  autoPlay : Bool
  fastForward : Bool
  skips : Nat
  cancelled : Bool
  voices : VoiceCache
  /-- The calls of the sound player, with their times. -/
  calls : List (Nat × AudioCall)
  /-- When the voice on the voice channel ends; it never ends, if none. -/
  voiceEnd : Option Nat

namespace Session

def new (config : Config) (host : Host) (voices : VoiceCache) : Session where
  config := config
  host := host
  now := 0
  armed := 0
  draws := 0
  serial := 0
  scopes := []
  stage := .empty
  revision := 0
  backlog := []
  taps := []
  autoPlay := false
  fastForward := false
  skips := 0
  cancelled := false
  voices := voices
  calls := []
  voiceEnd := some 0

/-- The next number of the session's counter. -/
def nextSerial (s : Session) : Nat × Session := (s.serial, { s with serial := s.serial + 1 })

/-! ## Scopes -/

def scope? (s : Session) (id : Nat) : Option Scope := s.scopes.find? (fun sc ↦ sc.id == id)

/-- The count of a scope; a scope that does not exist counts nothing. -/
def pending (s : Session) (id : Nat) (tally : Tally) : Nat :=
  match s.scope? id with
  | some sc => (sc.counter tally).pending
  | none => 0

def modifyScope (id : Nat) (f : Scope → Scope) (s : Session) : Session :=
  { s with scopes := s.scopes.map (fun sc ↦ if sc.id == id then f sc else sc) }

def openScope (parent : Option Nat) (s : Session) : Nat × Session :=
  (s.serial, { s with serial := s.serial + 1, scopes := s.scopes ++ [Scope.fresh s.serial parent] })

/-- The ticket that an action gets on entering a scope now. -/
def ticket (id : Nat) (tapBlocking : Bool) (s : Session) : Ticket :=
  match s.scope? id with
  | some sc => sc.ticket tapBlocking
  | none => ⟨id, 0, none⟩

def resetScopes (s : Session) : Session := { s with scopes := s.scopes.map Scope.reset }

/-! ## The stage -/

/-- Changes the stage and announces it. -/
def present (f : Stage → Stage) (s : Session) : Session :=
  if s.cancelled then s else { s with stage := f s.stage, revision := s.revision + 1 }

/-- Makes a change without announcing it. -/
def amend (f : Stage → Stage) (s : Session) : Session :=
  if s.cancelled then s else { s with stage := f s.stage }

/-- Whether a change is made, rather than refused. -/
def accepts (f : Stage → Option Stage) (s : Session) : Bool :=
  !s.cancelled && (f s.stage).isSome

/-- Makes a change and announces it, unless it is refused. -/
def presentIf (f : Stage → Option Stage) (s : Session) : Session :=
  if s.cancelled then s
  else
    match f s.stage with
    | some stage => { s with stage := stage, revision := s.revision + 1 }
    | none => s

def pushBacklog (line : Line) (s : Session) : Session := { s with backlog := s.backlog ++ [line] }

/-! ## Sound -/

def call (c : AudioCall) (s : Session) : Session :=
  if s.host.audible then { s with calls := s.calls ++ [(s.now, c)] } else s

/-- When a voice of the given length that starts now ends. -/
def voiceEndOf (length : Nat) (s : Session) : Option Nat :=
  s.host.byteSpan.map (fun span ↦ s.now + length * span)

def stopSound (channel : Channel) (s : Session) : Session :=
  let s := s.call (.stop channel)
  if channel = .voice then { s with voiceEnd := some 0 } else s

def playSound (channel : Channel) (sound : Sound) (looping : Bool) (s : Session) : Session :=
  let s := s.call (.play channel sound looping)
  match channel, sound with
  | .voice, .blob blob =>
    { s with voiceEnd := if s.host.audible then s.voiceEndOf blob.length else some 0 }
  | _, _ => s

/-- Whether a voice is sounding. -/
def isSpeaking (s : Session) : Bool :=
  match s.voiceEnd with
  | some time => s.now < time
  | none => true

/-- Plays a voice that is in the cache. -/
def playVoice (path : String) (s : Session) : Bool × Session :=
  match s.voices.get? path with
  | some blob => (true, (s.stopSound .voice).playSound .voice (.blob blob) false)
  | none => (false, s)

/-! ## Taps -/

def park (s : Session) : Nat × Session :=
  (s.serial, { s with serial := s.serial + 1, taps := s.taps ++ [⟨s.serial, true⟩] })

def isParked (id : Nat) (s : Session) : Bool := s.taps.any (fun t ↦ t.id == id)

def unpark (id : Nat) (s : Session) : Session :=
  { s with taps := s.taps.filter (fun t ↦ t.id != id) }

/-- Nobody waits for a parked action any more. -/
def abandon (id : Nat) (s : Session) : Session :=
  { s with taps := s.taps.map (fun t ↦ if t.id == id then { t with live := false } else t) }

/-- The latest parked action that somebody waits for. -/
def nextTap (s : Session) : Option Nat :=
  (s.taps.reverse.dropWhile (fun t ↦ !t.live)).head?.map Parked.id

/-- Takes the latest live parked action off the stack, and the dead ones above it. -/
def takeTap (s : Session) : Session :=
  { s with taps := (s.taps.reverse.dropWhile (fun t ↦ !t.live)).tail.reverse }

/-! ## Flags and time -/

def setAutoPlay (on : Bool) (s : Session) : Session :=
  if s.cancelled then s else { s with autoPlay := on }

def setFastForward (on : Bool) (s : Session) : Session :=
  if s.cancelled then s else { s with fastForward := on }

def skip (s : Session) : Session := { s with skips := s.skips + 1 }

/-- Ends the session: resumes whatever is parked, forgets all tickets and stops
all sound. -/
def cancel (s : Session) : Session :=
  let s := { s with cancelled := true, taps := [] }
  Channel.all.foldl (fun s channel ↦ s.stopSound channel) s.resetScopes

end Session

end Storyline
