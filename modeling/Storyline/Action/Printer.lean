import Storyline.Action.Reader
import Storyline.Json.Printer

/-!
# Printing actions

An action is printed as an object with its tag first and every field present.
-/

namespace Storyline

namespace Json

def ofWord (n : Nat) : Json := .number (.whole n)

def ofFloat (x : Binary64) : Json := .number (.real x)

def ofOption {α : Type} (write : α → Json) : Option α → Json
  | none => .null
  | some a => write a

end Json

open Json

def Line.members (line : Line) : Members :=
  [("text", .string line.text), ("characterIds", .array (line.characterIds.map ofWord)),
    ("characterNames", .array (line.characterNames.map .string)),
    ("voicePath", ofOption .string line.voicePath)]

def ModelChange.members : ModelChange → Members
  | .show character model position =>
    [("characterId", ofWord character), ("modelPath", .string model),
      ("position", .string position.name)]
  | .hide character => [("characterId", ofWord character)]
  | .move character position =>
    [("characterId", ofWord character), ("position", .string position.name)]
  | .act character motion =>
    [("characterId", ofWord character), ("motionName", .string motion)]
  | .express character expression =>
    [("characterId", ofWord character), ("expressionName", .string expression)]

def Cue.members : Cue → Members
  | .talk line => line.members
  | .telop text => [("text", .string text)]
  | .model change => change.members
  | .tremble _ character => [("characterId", ofWord character)]
  | .cover _ _ seconds => [("duration", ofFloat seconds)]
  | .shake _ seconds => [("duration", ofFloat seconds)]
  | .scenery _ path => [("path", .string path)]
  | .delay seconds => [("seconds", ofFloat seconds)]
  | .waitForAll | .waitForTap => []

namespace Action

mutual

def toJson : Action → Json
  | .cue c => .object (("type", .string c.kind) :: c.members)
  | .block as => .object [("type", .string "blocking"), ("actions", .array (listToJson as))]
  | .fork as => .object [("type", .string "forkTask"), ("actions", .array (listToJson as))]

def listToJson : List Action → List Json
  | [] => []
  | a :: as => toJson a :: listToJson as

end

def print (a : Action) : Bytes := a.toJson.print

def printList (as : List Action) : Bytes := (Json.array (listToJson as)).print

mutual

/-- Whether two actions are the same. -/
def same : Action → Action → Bool
  | .cue c, .cue d => c == d
  | .block as, .block bs => sameList as bs
  | .fork as, .fork bs => sameList as bs
  | _, _ => false

def sameList : List Action → List Action → Bool
  | [], [] => true
  | a :: as, b :: bs => same a b && sameList as bs
  | _, _ => false

end

/-- Whether the printed action reads back as itself. -/
def readsBack (a : Action) : Bool :=
  match read a.print with
  | .ok b => same a b
  | .error _ => false

end Action

end Storyline
