import Storyline.Action.Basic
import Storyline.Json.Reader
import Storyline.Json.Record

/-!
# Reading actions

An action is a record tagged by `type`.  The outermost tag has to be a name;
the tags of parts may also be the place of the kind in the list of kinds.
Straight from text, an action whose tag is repeated, ill-formed or unknown is
refused at the tag, before the rest of its text is looked at.
-/

namespace Storyline

open Json

def Position.ofJson (j : Json) : Option Position :=
  asChoice j >>= Position.ofName?

def Line.fields : List String := ["text", "characterIds", "characterNames", "voicePath"]

def Line.ofJson (j : Json) : Option Line := do
  let r ← record Line.fields j
  let text ← (r "text").required asString
  let characterIds ← (r "characterIds").withDefault [] (asList asWord)
  let characterNames ← (r "characterNames").withDefault [] (asList asString)
  let voicePath ← (r "voicePath").withDefault none (nullable asString)
  pure ⟨text, characterIds, characterNames, voicePath⟩

namespace Cue

def ofCharacter (make : CharacterId → Cue) (j : Json) : Option Cue := do
  let r ← record ["characterId"] j
  make <$> (r "characterId").required asWord

def ofDuration (make : Binary64 → Cue) (j : Json) : Option Cue := do
  let r ← record ["duration"] j
  make <$> (r "duration").required asFloat

def ofPath (scenery : Scenery) (j : Json) : Option Cue := do
  let r ← record ["path"] j
  .scenery scenery <$> (r "path").required asString

def ofNothing (c : Cue) (j : Json) : Option Cue :=
  if noFields j then some c else none

def showModelOfJson (j : Json) : Option Cue := do
  let r ← record ["characterId", "modelPath", "position"] j
  let character ← (r "characterId").required asWord
  let model ← (r "modelPath").required asString
  let position ← (r "position").withDefault Position.standard Position.ofJson
  pure (.model (.show character model position))

def moveModelOfJson (j : Json) : Option Cue := do
  let r ← record ["characterId", "position"] j
  let character ← (r "characterId").required asWord
  let position ← (r "position").required Position.ofJson
  pure (.model (.move character position))

def actOfJson (j : Json) : Option Cue := do
  let r ← record ["characterId", "motionName"] j
  let character ← (r "characterId").required asWord
  let motion ← (r "motionName").required asString
  pure (.model (.act character motion))

def expressOfJson (j : Json) : Option Cue := do
  let r ← record ["characterId", "expressionName"] j
  let character ← (r "characterId").required asWord
  let expression ← (r "expressionName").required asString
  pure (.model (.express character expression))

def telopOfJson (j : Json) : Option Cue := do
  let r ← record ["text"] j
  .telop <$> (r "text").required asString

def delayOfJson (j : Json) : Option Cue := do
  let r ← record ["seconds"] j
  .delay <$> (r "seconds").required asFloat

/-- The cue of a kind, from what is left without the tag. -/
def ofKind (kind : String) (j : Json) : Option Cue :=
  match kind with
  | "talk" => .talk <$> Line.ofJson j
  | "telop" => telopOfJson j
  | "showModel" => showModelOfJson j
  | "hideModel" => ofCharacter (fun c ↦ .model (.hide c)) j
  | "moveModel" => moveModelOfJson j
  | "act" => actOfJson j
  | "express" => expressOfJson j
  | "horizontalShake" => ofCharacter (.tremble .horizontal) j
  | "verticalShake" => ofCharacter (.tremble .vertical) j
  | "showBlackCover" => ofDuration (.cover .black true) j
  | "hideBlackCover" => ofDuration (.cover .black false) j
  | "showWhiteCover" => ofDuration (.cover .white true) j
  | "hideWhiteCover" => ofDuration (.cover .white false) j
  | "shakeScreen" => ofDuration (.shake .screen) j
  | "shakeDialogBox" => ofDuration (.shake .dialogBox) j
  | "changeBackground" => ofPath .background j
  | "changeBgm" => ofPath .bgm j
  | "changeSe" => ofPath .se j
  | "delay" => delayOfJson j
  | "waitForAll" => ofNothing .waitForAll j
  | "waitForTap" => ofNothing .waitForTap j
  | _ => none

end Cue

namespace Action

/-- The parts of a composite action. -/
def partsOfJson (part : Json → Option Action) (j : Json) : Option (List Action) := do
  let r ← record ["actions"] j
  (r "actions").required (asList part)

def ofKind (part : Json → Option Action) (kind : String) (j : Json) : Option Action :=
  match kind with
  | "blocking" => .block <$> partsOfJson part j
  | "forkTask" => .fork <$> partsOfJson part j
  | other => .cue <$> Cue.ofKind other j

/-- An action whose parts nest less deep than the bound. -/
def ofJsonWithin (style : TagStyle) : Nat → Json → Option Action
  | 0, _ => none
  | bound + 1, j => do
    match ← tagged style "type" kinds j with
    | (.known kind, rest) => ofKind (ofJsonWithin .numbered bound) kind rest
    | (.unknown, _) => none

/-- The action that a value denotes. -/
def ofJson (style : TagStyle) (j : Json) : Option Action :=
  ofJsonWithin style (depth j) j

end Action

namespace Reader

/-- The name of a variant, refused at once unless `accepts` admits it. -/
def tagName (accepts : String → Bool) : Reader Json := do
  let name ← string
  if accepts name then pure (.string name) else fail .mismatched

/-- The members of a tagged object: the tag is checked where it stands. -/
def taggedMember (tag : String) (accepts : String → Bool) (depth : Nat) (seen : List String)
    (name : String) : Reader Json :=
  if name == tag then
    if seen.contains tag then fail .mismatched else tagName accepts
  else value depth

/-- A tagged value, its tag checked on the way; the fields are checked later. -/
def taggedValue (tag : String) (accepts : String → Bool) : Nat → Reader Json
  | 0 => value 0
  | depth + 1 => do
    let b ← peekToken
    if b == 0x5b then
      advance
      if (← peekToken) == 0x5d then fail .mismatched
      else
        let first ← tagName accepts
        let b ← peekToken
        advance
        if b == 0x5d then pure (.array [first])
        else if b == 0x2c then
          let rest ← items (value depth) (← get)
          pure (.array (first :: rest))
        else fail .malformed
    else if b == 0x7b then
      advance
      .object <$> objectRest (taggedMember tag accepts depth)
    else scalar b

/-- An action straight from text. -/
def action (depth : Nat) : Reader Action := do
  let j ← taggedValue "type" (fun kind ↦ Action.kinds.contains kind) depth
  ofOption .mismatched (Action.ofJson .named j)

end Reader

def Action.read (document : Bytes) : Except Fault Action :=
  Reader.run (Reader.action nestingLimit) document

/-- A list of actions straight from text. -/
def Action.readList (document : Bytes) : Except Fault (List Action) :=
  Reader.run (Reader.arrayOf Reader.action nestingLimit) document

end Storyline
