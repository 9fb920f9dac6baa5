import Storyline.Duration

/-!
# Settings

How long the parts of a playback last.  The standard settings are those of a
player without a settings file.
-/

namespace Storyline

structure Config where
  /-- How long a model takes to appear, leave or move. -/
  layoutSettle : Duration
  /-- How long a motion or an expression takes. -/
  motionSettle : Duration
  /-- How long a line without a voice stays when playing by itself. -/
  talkDwell : Duration
  telopDwell : Duration
  /-- How often a voice is asked whether it still speaks. -/
  voicePoll : Duration
  /-- How long a line stays after its voice has ended. -/
  voiceTail : Duration
  fastForwardInterval : Duration
  shakeFrame : Duration
  shakeMagnitude : Binary32
  /-- How long the covers and shakes of a script take. -/
  coverDuration : Duration
  shakeDuration : Duration
deriving DecidableEq, Repr

def Config.standard : Config where
  layoutSettle := .ofMillis 300
  motionSettle := .ofMillis 500
  talkDwell := .ofMillis 5000
  telopDwell := .ofMillis 2000
  voicePoll := .ofMillis 500
  voiceTail := .ofMillis 1000
  fastForwardInterval := .ofMillis 200
  shakeFrame := ⟨33333333⟩
  shakeMagnitude := .ofNat 8
  coverDuration := .ofMillis 1000
  shakeDuration := .ofMillis 500

instance : Inhabited Config := ⟨Config.standard⟩

end Storyline
