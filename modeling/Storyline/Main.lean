import Storyline.Config.Reader
import Storyline.Story
import Storyline.Terminal
import Storyline.Voice.Prefetch

/-!
# The terminal program

Asks for a story, plays it in real time, shows what changes on the stage, and
takes what is typed.
-/

namespace Storyline.Terminal

def settingsPath : String := "./assets/player.json"

/-- The time between two looks at the clock and the keyboard, in milliseconds. -/
def beat : UInt32 := 10

def ask (question : String) : IO String := do
  (← IO.getStdout).putStr question
  (← IO.getStdout).flush
  pure (Text.trim (← (← IO.getStdin).getLine))

def fileBytes (path : String) : IO Bytes := do
  pure (← IO.FS.readBinFile path).toList

/-- The settings of the file, or the standard ones. -/
def loadSettings : IO Config := do
  try
    match Config.read (← fileBytes settingsPath) with
    | .ok c => pure c
    | .error _ => pure .standard
  catch _ => pure .standard

/-- A voice read from a folder. -/
def readVoice (root path : String) : IO (String × Reply) := do
  try
    match ← fileBytes (root ++ "/" ++ path) with
    | [] => pure (path, ⟨some 0, .error ⟨.empty, none⟩⟩)
    | content => pure (path, ⟨some 0, .ok content⟩)
  catch e => pure (path, ⟨some 0, .error ⟨.file (toString e), none⟩⟩)

def fetchVoices (root : String) (actions : List Action) : IO VoiceCache := do
  let replies ← (Prefetch.missing .empty actions).mapM (readVoice root)
  let fetch : Fetcher := fun path ↦ (replies.lookup path).getD ⟨none, .ok []⟩
  let run := Prefetch.run fetch .empty actions
  IO.println ("prefetched " ++ toString run.count ++ " voices")
  let (errors, cache) := run.cache.takeErrors
  for e in errors do
    IO.println ("  " ++ e.message)
  pure cache

/-- A host without a sound player. -/
def host : Host := ⟨true, false, none, fun _ magnitude ↦ magnitude⟩

/-- Reads lines until the input ends, and leaves them to the player. -/
partial def listen (lines : IO.Ref (List String)) (closed : IO.Ref Bool) : IO Unit := do
  let line ← (← IO.getStdin).getLine
  if line.isEmpty then closed.set true
  else
    lines.modify (· ++ [line])
    listen lines closed

def typedAll : List String → Player → IO (Player × Bool)
  | [], p => pure (p, true)
  | text :: rest, p => do
    let (p, shown, goesOn) := typed text p
    shown.forM IO.println
    if goesOn then typedAll rest p else pure (p, false)

partial def play (lines : IO.Ref (List String)) (closed : IO.Ref Bool) (time : Nat) (last : Stage)
    (p : Player) : IO Player := do
  let now ← IO.monoMsNow
  let p := (p.step true (.advance (now - time))).1
  let stage := p.playback.session.stage
  (changes last stage).forM IO.println
  match p.finished with
  | some status =>
    IO.println ("\n" ++ status.name)
    pure p
  | none =>
    let ended ← closed.get
    let (p, goesOn) ← typedAll (← lines.modifyGet (fun ls ↦ (ls, []))) p
    if goesOn && !ended then
      IO.sleep beat
      play lines closed now stage p
    else pure p

def perform (actions : List Action) (config : Config) (voices : VoiceCache) : IO Unit := do
  IO.println ("\n" ++ help ++ "\n")
  match (Player.new actions config host voices).start with
  | .error e => IO.eprintln e.message
  | .ok p =>
    let lines ← IO.mkRef []
    let closed ← IO.mkRef false
    let _ ← IO.asTask (listen lines closed)
    let p ← play lines closed (← IO.monoMsNow) .empty (p.mapPlayback .settle)
    let _ := p.stop
    pure ()

end Storyline.Terminal

open Storyline Terminal in
def main : IO UInt32 := do
  IO.println "story player\n"
  let story ← ask "story file: "
  let root ← ask "voice root (empty to skip): "
  let config ← loadSettings
  match Story.load (.ofConfig config) (← fileBytes story) with
  | .error e =>
    IO.eprintln e.message
    pure 1
  | .ok actions =>
    let voices ← if root.isEmpty then pure .empty else fetchVoices root actions
    perform actions config voices
    pure 0
