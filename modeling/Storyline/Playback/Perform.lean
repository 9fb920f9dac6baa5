import Storyline.Playback.Wait

/-!
# Performing actions

Performing an action changes the stage and calls the host at once, and leaves
pauses behind for what takes time.  The parts of a block are performed together,
in a scope of their own, and after them a wait for that scope; a fork becomes a
task in a scope of its own.
-/

namespace Storyline

namespace Playback

/-- Whether nothing more is performed. -/
def isOver (p : Playback) : Bool := p.session.cancelled || p.turn.failed

/-- Notes that an action of the story is taken up. -/
def note (action : Action) (scope : Nat) (step : Option Nat) (p : Playback) : Playback :=
  if p.isOver then p
  else { p with dispatches := p.dispatches ++ [⟨p.session.now, scope, step, action⟩] }

/-- Shows the place in the story, on the main timeline. -/
def announce (step : Option Nat) (p : Playback) : Playback :=
  match step with
  | some n => p.update (.present (Stage.setStep n))
  | none => p

/-- Releases the ticket of a finished change after a while, in a task of its own. -/
def settleLater (ticket : Ticket) (d : Duration) (p : Playback) : Playback :=
  p.spawn none [.sleep d (.release ticket) [ticket.scope]]

/-- Parks an action until a tap, and then ends. -/
def park (dwell : Dwell) (ending : Ending) (scopes : List Nat) (p : Playback) : Playback :=
  let park := p.session.park.1
  (p.update (fun s ↦ s.park.2)).suspend (.tap park dwell .off) ending scopes

/-- Plays the voice of a line, if it has one in the cache. -/
def speak (line : Line) (p : Playback) : Playback :=
  match line.voicePath with
  | some path => p.update (fun s ↦ (s.playVoice path).2)
  | none => p

/-- Whether the voice of a line can be played. -/
def isVoiced (line : Line) (p : Playback) : Bool :=
  match line.voicePath with
  | some path => p.session.voices.contains path
  | none => false

def talk (line : Line) (ticket : Ticket) (scopes : List Nat) (p : Playback) : Playback :=
  let dwell := if p.isVoiced line then .voice else .fixed p.session.config.talkDwell
  let p := p.update (fun s ↦ (s.present (Stage.setTalk line)).pushBacklog line)
  (p.speak line).park dwell (.release ticket) scopes

def telop (text : String) (ticket : Ticket) (scopes : List Nat) (p : Playback) : Playback :=
  (p.update (.present (Stage.setTelop text))).park (.fixed p.session.config.telopDwell)
    (.clearTelop text ticket) scopes

/-- How long a change of a model takes to settle. -/
def settleTime (c : Config) : ModelChange → Duration
  | .show .. | .hide .. | .move .. => c.layoutSettle
  | .act .. | .express .. => c.motionSettle

def changeModel (change : ModelChange) (ticket : Ticket) (p : Playback) : Playback :=
  (p.update (.presentIf change.apply)).settleLater ticket (settleTime p.session.config change)

def coverScreen (cover : Cover) (visible : Bool) (d : Duration) (ticket : Ticket)
    (scopes : List Nat) (p : Playback) : Playback :=
  let stamp := p.session.serial
  let p := p.update (fun s ↦ s.nextSerial.2.present (Stage.startCover cover visible d stamp))
  p.sleep d (if visible then .coverShown cover stamp ticket else .release ticket) scopes

def shakeTarget (shake : Shake) (d : Duration) (ticket : Ticket) (scopes : List Nat)
    (p : Playback) : Playback :=
  let stamp := p.session.serial
  let p := p.update (fun s ↦ s.nextSerial.2.present (Stage.startShake shake d stamp))
  (p.spawn none [.animate shake stamp d]).sleep d (.release ticket) scopes

/-- Music loops and takes the place of other music; a sound effect does neither. -/
def changeScenery (scenery : Scenery) (path : String) (ticket : Ticket) (p : Playback) :
    Playback :=
  let p := match scenery with
    | .background => p
    | .bgm => p.update (fun s ↦ (s.stopSound .bgm).playSound .bgm (.path path) true)
    | .se => p.update (.playSound .se (.path path) false)
  (p.update (.present (Stage.setScenery path scenery))).release ticket

/-- Performs a cue in a scope, `scopes` being this scope and those around it
that the task has opened. -/
def performCue (cue : Cue) (scope : Nat) (scopes : List Nat) (step : Option Nat)
    (p : Playback) : Playback :=
  if p.isOver then p
  else
    let p := p.announce step
    let ticket := p.session.ticket scope cue.isTapBlocking
    let p := p.enter scope cue.isTapBlocking
    match cue with
    | .talk line => p.talk line ticket scopes
    | .telop text => p.telop text ticket scopes
    | .model change => p.changeModel change ticket
    | .tremble _ _ => p.release ticket
    | .cover cover visible seconds =>
      p.coverScreen cover visible (.ofSeconds seconds) ticket scopes
    | .shake shake seconds => p.shakeTarget shake (.ofSeconds seconds) ticket scopes
    | .scenery scenery path => p.changeScenery scenery path ticket
    | .delay seconds => p.sleep (.ofSeconds seconds) (.release ticket) scopes
    | .waitForAll => (p.release ticket).suspend (.drained scope .actions true) .nothing scopes
    | .waitForTap => (p.release ticket).suspend (.drained scope .taps true) .nothing scopes

/-- Enters and leaves a scope at once and opens a scope in it; the new scope
takes the next number of the session's counter. -/
def openWithin (scope : Nat) (step : Option Nat) (p : Playback) : Playback :=
  let p := p.announce step
  let ticket := p.session.ticket scope false
  ((p.enter scope false).release ticket).update (fun s ↦ (s.openScope (some scope)).2)

/-- The walk through a list of actions in a scope. -/
def walk (scope : Nat) (indexed : Bool) (actions : List Action) : List Errand :=
  actions.zipIdx.map (fun a ↦ .perform a.1 scope (if indexed then some a.2 else none))

mutual

def perform : Action → Nat → List Nat → Option Nat → Playback → Playback
  | .cue cue, scope, scopes, step, p =>
    (p.note (.cue cue) scope step).performCue cue scope scopes step
  | .block parts, scope, scopes, step, p =>
    if p.isOver then p
    else
      let inner := p.session.serial
      let p := (p.note (.block parts) scope step).openWithin scope step
      (performAll parts inner (inner :: scopes) p).performCue .waitForAll inner (inner :: scopes)
        none
  | .fork parts, scope, _, step, p =>
    if p.isOver then p
    else
      let inner := p.session.serial
      let p := (p.note (.fork parts) scope step).openWithin scope step
      p.spawn (some inner) (walk inner false parts)

/-- Performs the parts of a block, one after the other. -/
def performAll : List Action → Nat → List Nat → Playback → Playback
  | [], _, _, p => p
  | part :: rest, scope, scopes, p =>
    performAll rest scope scopes (perform part scope scopes none p)

end

end Playback

end Storyline
