import Storyline.Action.Printer
import Storyline.Config
import Storyline.Script.Reader
import Storyline.Script.Story

/-!
# Loading stories

A story file is either a list of actions or a script.  The text is read as a
value first, and what kind of value it is decides how the file is understood.
-/

namespace Storyline

inductive LoadError where
  | json (fault : Fault)
  | neither
deriving DecidableEq, Repr

def LoadError.message : LoadError → String
  | json _ => "Story is not well formed"
  | neither => "Script error: Story must be an action array or a bestdori script object"

def Pacing.ofConfig (c : Config) : Pacing := .ofDurations c.coverDuration c.shakeDuration

def Pacing.standard : Pacing := .ofConfig .standard

namespace Story

/-- The actions that a script file stands for. -/
def loadScript (pacing : Pacing) (document : Bytes) : Except LoadError (List Action) :=
  match Script.read document with
  | .ok script => .ok (script.story pacing)
  | .error fault => .error (.json fault)

/-- The actions of a list of values; of repeated members the last one counts. -/
def ofValues (values : List Json) : Except LoadError (List Action) :=
  match (Json.mergedItems values).mapM (Action.ofJson .named) with
  | some actions => .ok actions
  | none => .error (.json .mismatched)

def load (pacing : Pacing) (document : Bytes) : Except LoadError (List Action) :=
  match Json.read document with
  | .error fault => .error (.json fault)
  | .ok (.array values) => ofValues values
  | .ok (.object _) => loadScript pacing document
  | .ok _ => .error .neither

end Story

end Storyline
