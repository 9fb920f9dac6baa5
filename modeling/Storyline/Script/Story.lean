import Storyline.Action.Basic
import Storyline.Duration
import Storyline.Script.Basic
import Storyline.Text.Blank

/-!
# Scripts as actions

Each entry of a script becomes a step: its delay, if positive, and its cues.  A
step that the story does not wait for becomes a fork.  Talk and titles stay on
the main timeline, and the motions of a talk become forks in front of it.
Entries without cues become nothing.
-/

namespace Storyline

/-- Seconds that a script's covers and shakes take. -/
structure Pacing where
  cover : Binary64
  shake : Binary64
deriving DecidableEq, Repr

def Pacing.ofDurations (cover shake : Duration) : Pacing :=
  ⟨cover.toSeconds, shake.toSeconds⟩

namespace Motion

/-- The motion and the expression of a character, as far as they are named. -/
def cues (m : Motion) : List Cue :=
  (if m.motion.isEmpty then [] else [.model (.act m.character m.motion)]) ++
    (if m.expression.isEmpty then [] else [.model (.express m.character m.expression)])

end Motion

/-- The delay in front of a step, if there is one. -/
def delayCues (delay : Binary64) : List Cue :=
  if delay.isPositive then [.delay delay] else []

def Cue.actions (cues : List Cue) : List Action := cues.map .cue

/-- A step on the main timeline or in a fork; without cues there is no step. -/
def step (wait : Bool) (delay : Binary64) (body : List Cue) : List Action :=
  if body.isEmpty then []
  else
    let actions := Cue.actions (delayCues delay ++ body)
    if wait then actions else [.fork actions]

/-- The place that a side of a layout stands for; unknown sides are the center. -/
def Side.position : Side → Position
  | leftInside => .leftInside
  | leftOver => .leftOutside
  | center => .center
  | rightInside => .rightInside
  | rightOver => .rightOutside
  | unknown => .center

namespace TalkEntry

/-- The line that a talk shows: text and name are trimmed, a blank name is no
name, and the first voice speaks. -/
def line (talk : TalkEntry) : Line :=
  let name := Text.trim talk.name
  ⟨Text.trim talk.text, talk.characters, if name.isEmpty then [] else [name],
    talk.voices.head?.map Voice.voiceId⟩

def steps (talk : TalkEntry) : List Action :=
  Cue.actions (delayCues talk.delay) ++
    (talk.motions.flatMap (fun m ↦ step false m.delay m.cues) ++ [.cue (.talk talk.line)])

end TalkEntry

def SoundEntry.cues (sound : SoundEntry) : List Cue :=
  (sound.bgm.map (fun a ↦ Cue.scenery .bgm a.path)).toList ++
    (sound.se.map (fun a ↦ Cue.scenery .se a.path)).toList

/-- The cue of an effect; black and white come in when their cover is taken away. -/
def Effect.cues (pacing : Pacing) : Effect → List Cue
  | changeBackground image => [.scenery .background image.path]
  | changeCardStill image => [.scenery .background image.path]
  | telop text => [.telop text]
  | blackIn => [.cover .black false pacing.cover]
  | blackOut => [.cover .black true pacing.cover]
  | whiteIn => [.cover .white false pacing.cover]
  | whiteOut => [.cover .white true pacing.cover]
  | shakeScreen => [.shake .screen pacing.shake]
  | shakeWindow => [.shake .dialogBox pacing.shake]
  | unknown => []

/-- A title holds the story whether or not it is told to wait for it. -/
def EffectEntry.steps (pacing : Pacing) (entry : EffectEntry) : List Action :=
  let wait := match entry.effect with
    | .telop _ => true
    | _ => entry.wait
  step wait entry.delay (entry.effect.cues pacing)

def LayoutEntry.cues (layout : LayoutEntry) : List Cue :=
  let character := layout.motion.character
  let position := layout.sideTo.position
  match layout.kind with
  | .appear => .model (.show character layout.model position) :: layout.motion.cues
  | .hide => [.model (.hide character)]
  | .move => .model (.move character position) :: layout.motion.cues

def Entry.steps (pacing : Pacing) : Entry → List Action
  | talk t => t.steps
  | sound s => step s.wait s.delay s.cues
  | effect e => e.steps pacing
  | layout l => step l.wait l.motion.delay l.cues
  | motion m => step m.wait m.motion.delay m.motion.cues
  | unknown => []

/-- The story that a script tells. -/
def Script.story (pacing : Pacing) (s : Script) : List Action :=
  s.allEntries.flatMap (Entry.steps pacing)

end Storyline
