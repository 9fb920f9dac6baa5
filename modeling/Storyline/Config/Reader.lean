import Storyline.Config
import Storyline.Json.Printer
import Storyline.Json.Skip

/-!
# Settings files

A settings file is an object, or an array with the fields in order; durations
are in seconds and every field may be missing.
-/

namespace Storyline

namespace Config

/-- The durations of a configuration, by name, in the order of the file; the
magnitude of shakes stands between `shakeFrame` and `coverDuration`. -/
inductive Field where
  | layoutSettle (d : Duration)
  | motionSettle (d : Duration)
  | talkDwell (d : Duration)
  | telopDwell (d : Duration)
  | voicePoll (d : Duration)
  | voiceTail (d : Duration)
  | fastForwardInterval (d : Duration)
  | shakeFrame (d : Duration)
  | shakeMagnitude (m : Binary32)
  | coverDuration (d : Duration)
  | shakeDuration (d : Duration)
  | other

def put (c : Config) : Field → Config
  | .layoutSettle d => { c with layoutSettle := d }
  | .motionSettle d => { c with motionSettle := d }
  | .talkDwell d => { c with talkDwell := d }
  | .telopDwell d => { c with telopDwell := d }
  | .voicePoll d => { c with voicePoll := d }
  | .voiceTail d => { c with voiceTail := d }
  | .fastForwardInterval d => { c with fastForwardInterval := d }
  | .shakeFrame d => { c with shakeFrame := d }
  | .shakeMagnitude m => { c with shakeMagnitude := m }
  | .coverDuration d => { c with coverDuration := d }
  | .shakeDuration d => { c with shakeDuration := d }
  | .other => c

def ofFields (fields : List Field) : Config := fields.foldl put standard

def fieldNames : List String :=
  ["layoutSettle", "motionSettle", "talkDwell", "telopDwell", "voicePoll", "voiceTail",
    "fastForwardInterval", "shakeFrame", "shakeMagnitude", "coverDuration", "shakeDuration"]

end Config

namespace Reader

open Config

def duration : Reader Duration := do
  let n ← numeric
  ofOption .mismatched (Duration.ofWrittenSeconds? n.toBinary64)

def configField (name : String) : Reader Config.Field :=
  match name with
  | "layoutSettle" => .layoutSettle <$> duration
  | "motionSettle" => .motionSettle <$> duration
  | "talkDwell" => .talkDwell <$> duration
  | "telopDwell" => .telopDwell <$> duration
  | "voicePoll" => .voicePoll <$> duration
  | "voiceTail" => .voiceTail <$> duration
  | "fastForwardInterval" => .fastForwardInterval <$> duration
  | "shakeFrame" => .shakeFrame <$> duration
  | "shakeMagnitude" => (fun n ↦ .shakeMagnitude n.toBinary32) <$> numeric
  | "coverDuration" => .coverDuration <$> duration
  | "shakeDuration" => .shakeDuration <$> duration
  | _ => (fun _ ↦ .other) <$> skip

def configMember (seen : List String) (name : String) : Reader Config.Field :=
  if fieldNames.contains name && seen.contains name then fail .mismatched else configField name

def config : Reader Config := do
  let b ← peekToken
  if b == 0x7b then
    advance
    let members ← objectRest configMember
    pure (ofFields (members.map Prod.snd))
  else if b == 0x5b then
    advance
    ofFields <$> placesRest true (fieldNames.map configField)
  else mismatch

end Reader

namespace Config

def read (document : Bytes) : Except Fault Config :=
  Reader.run Reader.config document

def secondsJson (d : Duration) : Json := .number (.real d.toSeconds)

/-- The settings as a value; the magnitude is written as a wide float. -/
def toJson (c : Config) : Json :=
  .object
    [("layoutSettle", secondsJson c.layoutSettle), ("motionSettle", secondsJson c.motionSettle),
      ("talkDwell", secondsJson c.talkDwell), ("telopDwell", secondsJson c.telopDwell),
      ("voicePoll", secondsJson c.voicePoll), ("voiceTail", secondsJson c.voiceTail),
      ("fastForwardInterval", secondsJson c.fastForwardInterval),
      ("shakeFrame", secondsJson c.shakeFrame),
      ("shakeMagnitude", .number (.real c.shakeMagnitude.widen)),
      ("coverDuration", secondsJson c.coverDuration),
      ("shakeDuration", secondsJson c.shakeDuration)]

def print (c : Config) : Bytes := c.toJson.print

end Config

end Storyline
