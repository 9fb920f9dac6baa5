import Storyline.Binary

/-!
# Scripts

A script is the authored form of a story: entries for talk, sound, effects,
layout and motion, each with its delay and the choice whether the story waits
for it.  Entries and effects of kinds not listed here are kept as unknown.
-/

namespace Storyline

/-- A motion and an expression of a character's model; empty names mean none. -/
structure Motion where
  delay : Binary64
  character : Nat
  motion : String
  expression : String
deriving DecidableEq, Repr

inductive AddressKind where
  | bandori
  | custom
  | common
deriving DecidableEq, Repr

inductive AddressTarget where
  | url (url : String)
  | file (file : String) (bundle : Option String)
deriving DecidableEq, Repr

/-- Where a resource is found. -/
structure Address where
  kind : AddressKind
  target : AddressTarget
deriving DecidableEq, Repr

namespace AddressKind

def all : List AddressKind := [bandori, custom, common]

def key : AddressKind → String
  | bandori => "bandori"
  | custom => "custom"
  | common => "common"

def name : AddressKind → String
  | bandori => "Bandori"
  | custom => "Custom"
  | common => "Common"

def ofKey? (s : String) : Option AddressKind := all.find? (fun k ↦ k.key == s)

end AddressKind

def AddressTarget.isUrl : AddressTarget → Bool
  | url _ => true
  | file .. => false

/-- The path that the host resolves: the address itself, or the file within its
bundle. -/
def Address.path (a : Address) : String :=
  match a.target with
  | .url url => url
  | .file file (some bundle) => bundle ++ "/" ++ file
  | .file file none => file

structure Voice where
  character : Nat
  voiceId : String
deriving DecidableEq, Repr

inductive Effect where
  | changeBackground (image : Address)
  | changeCardStill (image : Address)
  | telop (text : String)
  | blackIn
  | blackOut
  | whiteIn
  | whiteOut
  | shakeScreen
  | shakeWindow
  | unknown
deriving DecidableEq, Repr

inductive LayoutKind where
  | appear
  | hide
  | move
deriving DecidableEq, Repr

inductive Side where
  | leftInside
  | leftOver
  | center
  | rightInside
  | rightOver
  | unknown
deriving DecidableEq, Repr

namespace Effect

/-- The kinds of effects, in the order in which the format lists them. -/
def kinds : List String :=
  ["changeBackground", "changeCardStill", "telop", "blackIn", "blackOut", "whiteIn", "whiteOut",
    "shakeScreen", "shakeWindow"]

def kind : Effect → String
  | changeBackground _ => "changeBackground"
  | changeCardStill _ => "changeCardStill"
  | telop _ => "telop"
  | blackIn => "blackIn"
  | blackOut => "blackOut"
  | whiteIn => "whiteIn"
  | whiteOut => "whiteOut"
  | shakeScreen => "shakeScreen"
  | shakeWindow => "shakeWindow"
  | unknown => "unknown"

end Effect

namespace LayoutKind

def name : LayoutKind → String
  | appear => "Appear"
  | hide => "Hide"
  | move => "Move"

def ofKey? : String → Option LayoutKind
  | "appear" => some appear
  | "hide" => some hide
  | "move" => some move
  | _ => none

end LayoutKind

namespace Side

def name : Side → String
  | leftInside => "LeftInside"
  | leftOver => "LeftOver"
  | center => "Center"
  | rightInside => "RightInside"
  | rightOver => "RightOver"
  | unknown => "Unknown"

def ofKey : String → Side
  | "leftInside" => leftInside
  | "leftOver" => leftOver
  | "center" => center
  | "rightInside" => rightInside
  | "rightOver" => rightOver
  | _ => unknown

end Side

structure TalkEntry where
  wait : Bool
  delay : Binary64
  name : String
  text : String
  motions : List Motion
  characters : List Nat
  voices : List Voice
deriving DecidableEq, Repr

structure SoundEntry where
  wait : Bool
  delay : Binary64
  bgm : Option Address
  se : Option Address
deriving DecidableEq, Repr

structure EffectEntry where
  wait : Bool
  delay : Binary64
  effect : Effect
deriving DecidableEq, Repr

structure LayoutEntry where
  wait : Bool
  kind : LayoutKind
  model : String
  motion : Motion
  sideFrom : Side
  sideTo : Side
deriving DecidableEq, Repr

structure MotionEntry where
  wait : Bool
  motion : Motion
deriving DecidableEq, Repr

inductive Entry where
  | talk (talk : TalkEntry)
  | sound (sound : SoundEntry)
  | effect (effect : EffectEntry)
  | layout (layout : LayoutEntry)
  | motion (motion : MotionEntry)
  | unknown
deriving DecidableEq, Repr

/-- A script as written: the scene it opens with, and its entries. -/
structure Script where
  bgm : Option Address
  background : Option Address
  entries : List Entry
deriving DecidableEq, Repr

namespace Script

/-- The entry that sets the opening background; the story waits for it. -/
def openingBackground (image : Address) : Entry :=
  .effect ⟨true, .zero, .changeBackground image⟩

/-- The entry that starts the opening music; the story waits for it. -/
def openingMusic (bgm : Address) : Entry :=
  .sound ⟨true, .zero, some bgm, none⟩

/-- All entries: the opening background, then the opening music, then the rest. -/
def allEntries (s : Script) : List Entry :=
  (s.background.map openingBackground).toList ++
    ((s.bgm.map openingMusic).toList ++ s.entries)

end Script

end Storyline
