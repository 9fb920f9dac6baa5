import Storyline.Action.Reader
import Storyline.Json.Skip
import Storyline.Script.Basic

/-!
# Reading scripts

A script is read straight from text.  Its unknown members are skipped; inside
entries and addresses every member is read, and the unknown ones are dropped.
Effects, motions, sides and address targets lie flat among the members of the
object that has them, so such objects cannot be written as arrays.
-/

namespace Storyline

open Json

def choiceOf {α : Type} (ofKey : String → Option α) (j : Json) : Option α :=
  asChoice j >>= ofKey

/-- The members whose names are not listed. -/
def without (names : List String) (members : Members) : Members :=
  members.filter (fun m ↦ !names.contains m.1)

def asWait (r : Record) : Option Bool := (r "wait").withDefault false asBool

def asDelay (r : Record) : Option Binary64 := (r "delay").withDefault .zero asFloat

def Motion.fields : List String := ["delay", "character", "motion", "expression"]

def Motion.ofRecord (r : Record) : Option Motion := do
  let delay ← asDelay r
  let character ← (r "character").required asWord
  let motion ← (r "motion").withDefault "" asString
  let expression ← (r "expression").withDefault "" asString
  pure ⟨delay, character, motion, expression⟩

def Motion.ofJson (j : Json) : Option Motion :=
  record Motion.fields j >>= Motion.ofRecord

namespace AddressTarget

def urlOfMembers (members : Members) : Option AddressTarget := do
  let r ← fieldsOf ["url"] members
  url <$> (r "url").required asString

/-- The file may also be called a sound effect. -/
def fileName (name : String) : String := if name == "se" then "file" else name

def fileOfMembers (members : Members) : Option AddressTarget := do
  let r ← fieldsOf ["file", "bundle"] (members.map (fun m ↦ (fileName m.1, m.2)))
  let name ← (r "file").required asString
  let bundle ← (r "bundle").optional asString
  pure (file name bundle)

/-- What has a well-formed address is one, and else it is a file. -/
def ofMembers (members : Members) : Option AddressTarget :=
  urlOfMembers members <|> fileOfMembers members

end AddressTarget

def Address.ofJson : Json → Option Address
  | .object members => do
    let r ← fieldsOf ["type"] members
    let kind ← (r "type").withDefault .bandori (choiceOf AddressKind.ofKey?)
    let target ← AddressTarget.ofMembers (without ["type"] members)
    pure ⟨kind, target⟩
  | _ => none

def Voice.ofJson (j : Json) : Option Voice := do
  let r ← record ["character", "voiceId"] j
  let character ← (r "character").required asWord
  let voiceId ← (r "voiceId").required asString
  pure ⟨character, voiceId⟩

def TalkEntry.ofJson (j : Json) : Option TalkEntry := do
  let r ← record ["wait", "delay", "name", "body", "motions", "characters", "voices"] j
  let wait ← asWait r
  let delay ← asDelay r
  let name ← (r "name").required asString
  let text ← (r "body").required asString
  let motions ← (r "motions").withDefault [] (asList Motion.ofJson)
  let characters ← (r "characters").withDefault [] (asList asWord)
  let voices ← (r "voices").withDefault [] (asList Voice.ofJson)
  pure ⟨wait, delay, name, text, motions, characters, voices⟩

def SoundEntry.ofJson (j : Json) : Option SoundEntry := do
  let r ← record ["wait", "delay", "bgm", "se"] j
  let wait ← asWait r
  let delay ← asDelay r
  let bgm ← (r "bgm").optional Address.ofJson
  let se ← (r "se").optional Address.ofJson
  pure ⟨wait, delay, bgm, se⟩

namespace Effect

def ofImage (field : String) (make : Address → Effect) (j : Json) : Option Effect := do
  let r ← record [field] j
  make <$> (r field).required Address.ofJson

def ofNothing (effect : Effect) (j : Json) : Option Effect :=
  if noFields j then some effect else none

def telopOfJson (j : Json) : Option Effect := do
  let r ← record ["text"] j
  telop <$> (r "text").required asString

def ofKind (kind : String) (j : Json) : Option Effect :=
  match kind with
  | "changeBackground" => ofImage "background" .changeBackground j
  | "changeCardStill" => ofImage "cardStill" .changeCardStill j
  | "telop" => telopOfJson j
  | "blackIn" => ofNothing .blackIn j
  | "blackOut" => ofNothing .blackOut j
  | "whiteIn" => ofNothing .whiteIn j
  | "whiteOut" => ofNothing .whiteOut j
  | "shakeScreen" => ofNothing .shakeScreen j
  | "shakeWindow" => ofNothing .shakeWindow j
  | _ => ofNothing .unknown j

def ofJson (j : Json) : Option Effect := do
  match ← tagged .numbered "effectType" kinds j with
  | (.known kind, rest) => ofKind kind rest
  | (.unknown, rest) => ofNothing .unknown rest

end Effect

def EffectEntry.ofJson : Json → Option EffectEntry
  | .object members => do
    let r ← fieldsOf ["wait", "delay"] members
    let wait ← asWait r
    let delay ← asDelay r
    let effect ← Effect.ofJson (.object (without ["wait", "delay"] members))
    pure ⟨wait, delay, effect⟩
  | _ => none

def Side.ofJson : Json → Option Side := choiceOf (fun key ↦ some (Side.ofKey key))

def LayoutEntry.fields : List String :=
  ["wait", "layoutType", "costume", "sideFrom", "sideTo"] ++ Motion.fields

def LayoutEntry.ofJson : Json → Option LayoutEntry
  | .object members => do
    let r ← fieldsOf LayoutEntry.fields members
    let wait ← asWait r
    let kind ← (r "layoutType").required (choiceOf LayoutKind.ofKey?)
    let model ← (r "costume").withDefault "" asString
    let motion ← Motion.ofRecord r
    let sideFrom ← (r "sideFrom").required Side.ofJson
    let sideTo ← (r "sideTo").required Side.ofJson
    pure ⟨wait, kind, model, motion, sideFrom, sideTo⟩
  | _ => none

def MotionEntry.ofJson : Json → Option MotionEntry
  | .object members => do
    let r ← fieldsOf ("wait" :: Motion.fields) members
    let wait ← asWait r
    let motion ← Motion.ofRecord r
    pure ⟨wait, motion⟩
  | _ => none

namespace Entry

def kinds : List String := ["talk", "sound", "effect", "layout", "motion"]

def ofKind (kind : String) (j : Json) : Option Entry :=
  match kind with
  | "talk" => talk <$> TalkEntry.ofJson j
  | "sound" => sound <$> SoundEntry.ofJson j
  | "effect" => effect <$> EffectEntry.ofJson j
  | "layout" => layout <$> LayoutEntry.ofJson j
  | "motion" => motion <$> MotionEntry.ofJson j
  | _ => if noFields j then some unknown else none

def ofJson (j : Json) : Option Entry := do
  match ← tagged .named "type" kinds j with
  | (.known kind, rest) => ofKind kind rest
  | (.unknown, rest) => if noFields rest then some unknown else none

end Entry

/-! ## Straight from text -/

namespace Reader

/-- A plain choice: a name, or an object whose one member has the name and is
`null`. -/
def choice (accepts : String → Bool) (depth : Nat) : Reader Json := do
  let b ← peekToken
  if b == 0x22 then tagName accepts
  else if b == 0x7b && 0 < depth then
    advance
    let name ← tagName accepts
    token 0x3a
    if (← peekToken) == 0x6e then
      advance
      literal nullRest
      token 0x7d
      pure name
    else mismatch
  else fail .malformed

def addressMember (depth : Nat) (seen : List String) (name : String) : Reader Json :=
  if name == "type" then
    if seen.contains "type" then fail .mismatched
    else choice (fun key ↦ (AddressKind.ofKey? key).isSome) depth
  else value depth

def address : Nat → Reader Address
  | 0 => do
    if (← peekToken) == 0x7b then fail .malformed else mismatch
  | depth + 1 => do
    if (← peekToken) == 0x7b then
      advance
      let members ← objectRest (addressMember depth)
      ofOption .mismatched (Address.ofJson (.object members))
    else mismatch

def entry (depth : Nat) : Reader Entry := do
  let j ← taggedValue "type" (fun _ ↦ true) depth
  ofOption .mismatched (Entry.ofJson j)

/-- A member of the script object. -/
inductive ScriptField where
  | bgm (address : Option Address)
  | background (address : Option Address)
  | entries (entries : List Entry)
  | other

def scriptFields : List String := ["bgm", "background", "actions"]

def scriptField (depth : Nat) (name : String) : Reader ScriptField :=
  match name with
  | "bgm" => .bgm <$> nullable (address depth)
  | "background" => .background <$> nullable (address depth)
  | "actions" => .entries <$> arrayOf entry depth
  | _ => (fun _ ↦ .other) <$> skip

def scriptMember (depth : Nat) (seen : List String) (name : String) : Reader ScriptField :=
  if scriptFields.contains name && seen.contains name then fail .mismatched
  else scriptField depth name

def ScriptField.bgm? : ScriptField → Option Address
  | bgm address => address
  | _ => none

def ScriptField.background? : ScriptField → Option Address
  | background address => address
  | _ => none

def ScriptField.entries? : ScriptField → Option (List Entry)
  | entries es => some es
  | _ => none

/-- The script with the given members; only the addresses may be missing. -/
def scriptOf (fields : List ScriptField) : Option Script := do
  let es ← fields.findSome? ScriptField.entries?
  pure ⟨fields.findSome? ScriptField.bgm?, fields.findSome? ScriptField.background?, es⟩

def script : Nat → Reader Script
  | 0 => value 0 *> fail .mismatched
  | depth + 1 => do
    let b ← peekToken
    if b == 0x7b then
      advance
      let members ← objectRest (scriptMember depth)
      ofOption .mismatched (scriptOf (members.map Prod.snd))
    else if b == 0x5b then
      advance
      let fields ← placesRest true (scriptFields.map (scriptField depth))
      ofOption .mismatched (scriptOf fields)
    else mismatch

end Reader

/-- A script straight from text. -/
def Script.read (document : Bytes) : Except Fault Script :=
  Reader.run (Reader.script nestingLimit) document

end Storyline
