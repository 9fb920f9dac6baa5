import Storyline.Position

/-!
# Actions

A story is a list of actions.  A *cue* is an action without parts: a line of
dialogue, a title, a change of the picture or the sound, a pause.  A block runs
its parts together and waits for them; a fork starts a timeline of its own.
-/

namespace Storyline

/-- Characters are numbered; numbers are below `2 ^ 16`. -/
abbrev CharacterId := Nat

/-- A line of dialogue, as shown and as kept in the backlog. -/
structure Line where
  text : String
  characterIds : List CharacterId
  characterNames : List String
  voicePath : Option String
deriving DecidableEq, Repr, Inhabited

/-- A change to one model on the stage. -/
inductive ModelChange where
  | «show» (character : CharacterId) (model : String) (position : Position)
  | hide (character : CharacterId)
  | move (character : CharacterId) (position : Position)
  | act (character : CharacterId) (motion : String)
  | express (character : CharacterId) (expression : String)
deriving DecidableEq, Repr

inductive Axis where
  | horizontal
  | vertical
deriving DecidableEq, Repr

inductive Cover where
  | black
  | white
deriving DecidableEq, Repr

namespace Cover

def all : List Cover := [black, white]

def other : Cover → Cover
  | black => white
  | white => black

def name : Cover → String
  | black => "Black"
  | white => "White"

end Cover

inductive Shake where
  | screen
  | dialogBox
deriving DecidableEq, Repr

namespace Shake

def all : List Shake := [screen, dialogBox]

def name : Shake → String
  | screen => "Screen"
  | dialogBox => "DialogBox"

end Shake

/-- What a cue that changes the scenery replaces. -/
inductive Scenery where
  | background
  | bgm
  | se
deriving DecidableEq, Repr

/-- An action without parts.  Durations are in seconds. -/
inductive Cue where
  | talk (line : Line)
  | telop (text : String)
  | model (change : ModelChange)
  | tremble (axis : Axis) (character : CharacterId)
  | cover (cover : Cover) (visible : Bool) (seconds : Binary64)
  | shake (shake : Shake) (seconds : Binary64)
  | scenery (scenery : Scenery) (path : String)
  | delay (seconds : Binary64)
  | waitForAll
  | waitForTap
deriving DecidableEq, Repr

inductive Action where
  | cue (cue : Cue)
  | block (parts : List Action)
  | fork (parts : List Action)
deriving Repr, Inhabited

/-- Whether a cue holds the timeline until it is tapped on. -/
def Cue.isTapBlocking : Cue → Bool
  | .talk _ | .telop _ => true
  | _ => false

/-- The character that a change is about. -/
def ModelChange.character : ModelChange → CharacterId
  | .show character .. | .hide character | .move character _ | .act character _
  | .express character _ => character

def ModelChange.kind : ModelChange → String
  | .show .. => "showModel"
  | .hide .. => "hideModel"
  | .move .. => "moveModel"
  | .act .. => "act"
  | .express .. => "express"

def Cue.kind : Cue → String
  | .talk _ => "talk"
  | .telop _ => "telop"
  | .model change => change.kind
  | .tremble .horizontal _ => "horizontalShake"
  | .tremble .vertical _ => "verticalShake"
  | .cover .black true _ => "showBlackCover"
  | .cover .black false _ => "hideBlackCover"
  | .cover .white true _ => "showWhiteCover"
  | .cover .white false _ => "hideWhiteCover"
  | .shake .screen _ => "shakeScreen"
  | .shake .dialogBox _ => "shakeDialogBox"
  | .scenery .background _ => "changeBackground"
  | .scenery .bgm _ => "changeBgm"
  | .scenery .se _ => "changeSe"
  | .delay _ => "delay"
  | .waitForAll => "waitForAll"
  | .waitForTap => "waitForTap"

/-- The voice that a cue speaks with. -/
def Cue.voicePath : Cue → Option String
  | .talk line => line.voicePath
  | _ => none

namespace Action

def isTapBlocking : Action → Bool
  | cue c => c.isTapBlocking
  | _ => false

def kind : Action → String
  | cue c => c.kind
  | block _ => "blocking"
  | fork _ => "forkTask"

/-- The kinds of all actions, in the order in which the format lists them. -/
def kinds : List String :=
  ["talk", "telop", "showModel", "hideModel", "moveModel", "act", "express", "horizontalShake",
    "verticalShake", "showBlackCover", "hideBlackCover", "showWhiteCover", "hideWhiteCover",
    "shakeScreen", "shakeDialogBox", "changeBackground", "changeBgm", "changeSe", "blocking",
    "delay", "forkTask", "waitForAll", "waitForTap"]

def parts : Action → List Action
  | cue _ => []
  | block as | fork as => as

mutual

/-- The cues of an action in the order of the document. -/
def cues : Action → List Cue
  | cue c => [c]
  | block as => cuesOfList as
  | fork as => cuesOfList as

def cuesOfList : List Action → List Cue
  | [] => []
  | a :: as => cues a ++ cuesOfList as

end

/-- The voices of an action in the order of the document, repetitions included. -/
def voicePaths (a : Action) : List String :=
  a.cues.filterMap Cue.voicePath

mutual

/-- The number of actions in an action, itself included. -/
def size : Action → Nat
  | cue _ => 1
  | block as => sizeOfList as + 1
  | fork as => sizeOfList as + 1

def sizeOfList : List Action → Nat
  | [] => 0
  | a :: as => size a + sizeOfList as

end

end Action

end Storyline
