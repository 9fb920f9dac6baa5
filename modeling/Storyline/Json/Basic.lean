import Storyline.Binary

/-!
# Data values

A document is read into a value.  Objects keep their members in the order of
the document, repeated names included; `Json.merged` keeps the last member of
each name, which is what a reader that stores members by name sees.
-/

namespace Storyline

/-- Why a document is refused: it is no well-formed text, it ends too early, or
it is well formed and of another shape than asked for. -/
inductive Fault where
  | malformed
  | truncated
  | mismatched
deriving DecidableEq, Repr

/-- Whole numbers within 64 bits are kept exactly, all other numbers as floats. -/
inductive Number where
  | whole (n : Int)
  | real (x : Binary64)
deriving DecidableEq, Repr

def Number.toBinary64 : Number → Binary64
  | .whole n => .ofInt n
  | .real x => x

def Number.toBinary32 : Number → Binary32
  | .whole n => .ofInt n
  | .real x => x.narrow

inductive Json where
  | null
  | bool (b : Bool)
  | number (n : Number)
  | string (s : String)
  | array (items : List Json)
  | object (members : List (String × Json))
deriving Repr

namespace Json

abbrev Members := List (String × Json)

/-- Adds a member unless a later one has its name. -/
def keepLast (name : String) (value : Json) (later : Members) : Members :=
  if later.any (fun m ↦ m.1 == name) then later else (name, value) :: later

mutual

/-- Keeps the last member of each name, at every depth. -/
def merged : Json → Json
  | .array items => .array (mergedItems items)
  | .object members => .object (mergedMembers members)
  | other => other

def mergedItems : List Json → List Json
  | [] => []
  | item :: rest => merged item :: mergedItems rest

def mergedMembers : List (String × Json) → Members
  | [] => []
  | (name, value) :: rest => keepLast name (merged value) (mergedMembers rest)

end

mutual

/-- How many brackets enclose the deepest value. -/
def depth : Json → Nat
  | .array items => depthItems items + 1
  | .object members => depthMembers members + 1
  | _ => 0

def depthItems : List Json → Nat
  | [] => 0
  | item :: rest => max (depth item) (depthItems rest)

def depthMembers : List (String × Json) → Nat
  | [] => 0
  | (_, value) :: rest => max (depth value) (depthMembers rest)

end

end Json

end Storyline
