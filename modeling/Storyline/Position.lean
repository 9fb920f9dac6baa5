import Storyline.Binary

/-!
# Places on the stage

The places where a model can stand, their names, and their anchors as fractions
of the screen.
-/

namespace Storyline

inductive Position where
  | left
  | leftOutside
  | leftInside
  | center
  | centerBottom
  | right
  | rightOutside
  | rightInside
  | leftBottom
  | leftInsideBottom
  | rightBottom
  | rightInsideBottom
deriving DecidableEq, Repr, Inhabited

namespace Position

def all : List Position :=
  [left, leftOutside, leftInside, center, centerBottom, right, rightOutside, rightInside,
    leftBottom, leftInsideBottom, rightBottom, rightInsideBottom]

def standard : Position := center

def name : Position → String
  | left => "left"
  | leftOutside => "leftOutside"
  | leftInside => "leftInside"
  | center => "center"
  | centerBottom => "centerBottom"
  | right => "right"
  | rightOutside => "rightOutside"
  | rightInside => "rightInside"
  | leftBottom => "leftBottom"
  | leftInsideBottom => "leftInsideBottom"
  | rightBottom => "rightBottom"
  | rightInsideBottom => "rightInsideBottom"

def ofName? (s : String) : Option Position :=
  all.find? (fun p ↦ p.name == s)

/-- The horizontal anchor in hundredths of the screen's width; the outer places
lie beyond its edges. -/
def hundredths : Position → Int
  | leftOutside => -25
  | left | leftBottom => 25
  | leftInside | leftInsideBottom => 35
  | center | centerBottom => 50
  | rightInside | rightInsideBottom => 65
  | right | rightBottom => 75
  | rightOutside => 125

def isBottom : Position → Bool
  | centerBottom | leftBottom | leftInsideBottom | rightBottom | rightInsideBottom => true
  | _ => false

/-- The anchor: a fraction of the width, and the fifth of the height by which
models at the bottom sink. -/
def anchor (p : Position) : Binary32 × Binary32 :=
  (.ofRatio (decide (p.hundredths < 0)) p.hundredths.natAbs 100,
    if p.isBottom then .ofRatio false 1 5 else .zero)

/-- The anchor in pixels of a screen. -/
def offset (p : Position) (width height : Binary32) : Binary32 × Binary32 :=
  (p.anchor.1.mul width, p.anchor.2.mul height)

end Position

end Storyline
