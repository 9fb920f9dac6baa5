import Storyline.Json.Reader

/-!
# Sound

The channels of the host's sound player and the calls it receives.  A new sound
on a channel takes the place of the one before.
-/

namespace Storyline

inductive Channel where
  | voice
  | bgm
  | se
deriving DecidableEq, Repr

namespace Channel

def all : List Channel := [voice, bgm, se]

def name : Channel → String
  | voice => "voice"
  | bgm => "bgm"
  | se => "se"

end Channel

/-- A sound is found by the host under its path, or handed over as bytes. -/
inductive Sound where
  | path (path : String)
  | blob (blob : Bytes)
deriving DecidableEq, Repr

inductive AudioCall where
  | stop (channel : Channel)
  | play (channel : Channel) (sound : Sound) (looping : Bool)
deriving DecidableEq, Repr

end Storyline
