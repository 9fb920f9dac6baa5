import Storyline.Action.Basic
import Storyline.Duration

/-!
# The stage

What an audience sees: scenery, models, the line and the title on screen, the
covers and the shakes.  Models are listed in the order of their appearance, one
for each character.  A change that finds no model to change is refused, and the
stage stays as it is.
-/

namespace Storyline

/-- A model on the stage. -/
structure Layout where
  character : CharacterId
  model : String
  position : Position
  motion : Option String
  expression : Option String
deriving DecidableEq, Repr

/-- A cover over the whole screen; the stamp is that of its last showing. -/
structure CoverState where
  visible : Bool
  transition : Duration
  stamp : Nat
deriving DecidableEq, Repr

/-- A shake; without duration it is at rest. -/
structure ShakeState where
  duration : Duration
  offset : Binary32 × Binary32
  stamp : Nat
deriving DecidableEq, Repr

structure Stage where
  step : Option Nat
  background : Option String
  bgm : Option String
  se : Option String
  layouts : List Layout
  talk : Option Line
  telop : Option String
  blackCover : CoverState
  whiteCover : CoverState
  screenShake : ShakeState
  dialogShake : ShakeState
deriving DecidableEq, Repr

namespace Layout

def fresh (character : CharacterId) (model : String) (position : Position) : Layout :=
  ⟨character, model, position, none, none⟩

/-- Shows a model of the same character; another model forgets what the former
one was doing. -/
def reshow (model : String) (position : Position) (l : Layout) : Layout :=
  if l.model == model then { l with position := position }
  else fresh l.character model position

end Layout

namespace Stage

def restingCover : CoverState := ⟨false, .zero, 0⟩

def still : Binary32 × Binary32 := (.zero, .zero)

def restingShake : ShakeState := ⟨.zero, still, 0⟩

def empty : Stage :=
  ⟨none, none, none, none, [], none, none, restingCover, restingCover, restingShake, restingShake⟩

instance : Inhabited Stage := ⟨empty⟩

/-! ## Models -/

def layout? (s : Stage) (c : CharacterId) : Option Layout :=
  s.layouts.find? (fun l ↦ l.character == c)

/-- Changes the first layout of a character. -/
def modifyFirst (c : CharacterId) (f : Layout → Layout) : List Layout → List Layout
  | [] => []
  | l :: rest => if l.character == c then f l :: rest else l :: modifyFirst c f rest

/-- Changes the model of a character, if there is one. -/
def modifyLayout (c : CharacterId) (f : Layout → Layout) (s : Stage) : Option Stage :=
  if (s.layout? c).isSome then some { s with layouts := modifyFirst c f s.layouts } else none

def showModel (c : CharacterId) (model : String) (position : Position) (s : Stage) : Stage :=
  if (s.layout? c).isSome then
    { s with layouts := modifyFirst c (Layout.reshow model position) s.layouts }
  else { s with layouts := s.layouts ++ [Layout.fresh c model position] }

def hideModel (c : CharacterId) (s : Stage) : Option Stage :=
  let kept := s.layouts.filter (fun l ↦ l.character != c)
  if kept.length = s.layouts.length then none else some { s with layouts := kept }

def moveModel (c : CharacterId) (position : Position) : Stage → Option Stage :=
  modifyLayout c (fun l ↦ { l with position := position })

def act (c : CharacterId) (motion : String) : Stage → Option Stage :=
  modifyLayout c (fun l ↦ { l with motion := some motion })

def express (c : CharacterId) (expression : String) : Stage → Option Stage :=
  modifyLayout c (fun l ↦ { l with expression := some expression })

/-! ## Covers and shakes -/

def cover (s : Stage) : Cover → CoverState
  | .black => s.blackCover
  | .white => s.whiteCover

def setCover (c : Cover) (state : CoverState) (s : Stage) : Stage :=
  match c with
  | .black => { s with blackCover := state }
  | .white => { s with whiteCover := state }

def shake (s : Stage) : Shake → ShakeState
  | .screen => s.screenShake
  | .dialogBox => s.dialogShake

def setShake (k : Shake) (state : ShakeState) (s : Stage) : Stage :=
  match k with
  | .screen => { s with screenShake := state }
  | .dialogBox => { s with dialogShake := state }

/-- Starts to show or hide a cover; only a showing takes the stamp. -/
def startCover (c : Cover) (visible : Bool) (transition : Duration) (stamp : Nat) (s : Stage) :
    Stage :=
  s.setCover c ⟨visible, transition, if visible then stamp else (s.cover c).stamp⟩

/-- Once a cover is shown, the other one disappears if it was shown before. -/
def coverShown (c : Cover) (stamp : Nat) (s : Stage) : Option Stage :=
  let other := s.cover c.other
  if other.visible && decide (other.stamp < stamp) then
    some (s.setCover c.other { other with visible := false })
  else none

def startShake (k : Shake) (duration : Duration) (stamp : Nat) (s : Stage) : Stage :=
  s.setShake k { s.shake k with duration := duration, stamp := stamp }

/-- Moves a shaken target, unless another shake has taken it over. -/
def sway (k : Shake) (stamp : Nat) (finished : Bool) (offset : Binary32 × Binary32) (s : Stage) :
    Option Stage :=
  let target := s.shake k
  if target.stamp = stamp then
    some (s.setShake k
      { target with offset := offset, duration := if finished then .zero else target.duration })
  else none

/-! ## The line, the title and the scenery -/

def setStep (step : Nat) (s : Stage) : Stage := { s with step := some step }

def setTalk (line : Line) (s : Stage) : Stage := { s with talk := some line }

def setTelop (text : String) (s : Stage) : Stage := { s with telop := some text }

/-- Takes a title away, if it is still the one on screen. -/
def clearTelop (text : String) (s : Stage) : Option Stage :=
  if s.telop = some text then some { s with telop := none } else none

def setScenery (path : String) : Scenery → Stage → Stage
  | .background, s => { s with background := some path }
  | .bgm, s => { s with bgm := some path }
  | .se, s => { s with se := some path }

end Stage

/-- What a change of a model makes of the stage. -/
def ModelChange.apply : ModelChange → Stage → Option Stage
  | .show c model position, s => some (s.showModel c model position)
  | .hide c, s => s.hideModel c
  | .move c position, s => s.moveModel c position
  | .act c motion, s => s.act c motion
  | .express c expression, s => s.express c expression

end Storyline
