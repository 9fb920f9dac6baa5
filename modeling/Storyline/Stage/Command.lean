import Storyline.Stage

/-!
# Working the stage by hand

Changes of the stage and questions about it, each with its reply.
-/

namespace Storyline

inductive StageCommand where
  | change (change : ModelChange)
  | layout (character : CharacterId)
  | offset (character : CharacterId) (width height : Binary32)
  | cover (cover : Cover) (visible : Bool) (transition : Duration)
  | shake (shake : Shake) (duration : Duration)
  | background (path : String)
deriving DecidableEq, Repr

inductive StageReply where
  | nothing
  | flag (on : Bool)
  | layout (layout : Option Layout)
  | offset (offset : Option (Binary32 × Binary32))
  | otherVisible (visible : Bool)
  | duration (d : Duration)
deriving DecidableEq, Repr

namespace StageCommand

/-- The stage after a command; a refused change leaves it as it is. -/
def apply (c : StageCommand) (s : Stage) : Stage :=
  match c with
  | change m => (m.apply s).getD s
  | layout _ | offset .. => s
  | cover c visible transition =>
    s.setCover c { s.cover c with visible := visible, transition := transition }
  | shake k d => s.setShake k { s.shake k with duration := d }
  | background path => s.setScenery path .background

/-- The reply to a command given to a stage. -/
def reply (c : StageCommand) (s : Stage) : StageReply :=
  match c with
  | change (.show ..) => .nothing
  | change m => .flag (m.apply s).isSome
  | layout character => .layout (s.layout? character)
  | offset character width height =>
    .offset ((s.layout? character).map (fun l ↦ l.position.offset width height))
  | cover c _ _ => .otherVisible (s.cover c.other).visible
  | shake _ d => .duration d
  | background _ => .nothing

/-- Whether the reply to a command confirms that it changed the stage. -/
def isConfirmed (c : StageCommand) (s : Stage) : Bool := decide (c.reply s = .flag true)

end StageCommand

end Storyline
