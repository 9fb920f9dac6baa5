import Storyline.Json.Basic

/-!
# Records, variants and scalars in values

A record is an object with named fields or an array with the fields in order.
A variant is marked by a tag, which is a member of the object or the first item
of the array; what is left without the tag holds the fields of the variant.
Every refusal in this module is one of shape.
-/

namespace Storyline

/-- What a value holds for a field: a value, nothing in an object, or nothing
because the array ends before the field. -/
inductive Slot where
  | given (value : Json)
  | omitted
  | cut

abbrev Record := String → Slot

namespace Slot

def required {α : Type} (read : Json → Option α) : Slot → Option α
  | given value => read value
  | _ => none

def withDefault {α : Type} (default : α) (read : Json → Option α) : Slot → Option α
  | given value => read value
  | _ => some default

end Slot

namespace Json

def nullable {α : Type} (read : Json → Option α) : Json → Option (Option α)
  | null => some none
  | value => some <$> read value

end Json

/-- A field that may be absent from an object or `null`, but not cut off an array. -/
def Slot.optional {α : Type} (read : Json → Option α) : Slot → Option (Option α)
  | given value => Json.nullable read value
  | omitted => some none
  | cut => none

namespace Json

/-! ## Scalars -/

def asBool : Json → Option Bool
  | bool b => some b
  | _ => none

def asString : Json → Option String
  | string s => some s
  | _ => none

def asFloat : Json → Option Binary64
  | number n => some n.toBinary64
  | _ => none

def asWord : Json → Option Nat
  | number (.whole n) => if 0 ≤ n ∧ n < 65536 then some n.toNat else none
  | _ => none

def asList {α : Type} (read : Json → Option α) : Json → Option (List α)
  | array items => items.mapM read
  | _ => none

/-- The name of a plain choice: a string, or an object whose one member has the
name and holds nothing. -/
def asChoice : Json → Option String
  | string s => some s
  | object [(name, null)] => some name
  | object [(name, object [])] => some name
  | _ => none

/-! ## Records -/

def count (name : String) (members : Members) : Nat :=
  members.countP (fun m ↦ m.1 == name)

/-- The fields of an object; a field that is given twice is refused. -/
def fieldsOf (names : List String) (members : Members) : Option Record :=
  if names.all (fun name ↦ decide (count name members ≤ 1)) then
    some fun name ↦
      match members.lookup name with
      | some value => .given value
      | none => .omitted
  else none

def itemsOf (names : List String) (items : List Json) : Option Record :=
  if items.length ≤ names.length then
    some fun name ↦
      match (names.zip items).lookup name with
      | some value => .given value
      | none => .cut
  else none

def record (names : List String) : Json → Option Record
  | object members => fieldsOf names members
  | array items => itemsOf names items
  | _ => none

/-! ## Variants -/

/-- How a tag may be written: as a name, or also as the place of the name in the
list of variants. -/
inductive TagStyle where
  | named
  | numbered
deriving DecidableEq, Repr

/-- The variant that a tag names, if it is one of `variants`. -/
inductive Tag where
  | known (name : String)
  | unknown
deriving DecidableEq, Repr

def Tag.ofName (variants : List String) (name : String) : Tag :=
  if name ∈ variants then known name else unknown

def asTag (style : TagStyle) (variants : List String) : Json → Option Tag
  | string s => some (Tag.ofName variants s)
  | number (.whole n) =>
    if style = .numbered ∧ 0 ≤ n then
      some (match variants[n.toNat]? with
        | some name => .known name
        | none => .unknown)
    else none
  | _ => none

/-- Splits the tag named `tag` off an object or an array. -/
def tagged (style : TagStyle) (tag : String) (variants : List String) :
    Json → Option (Tag × Json)
  | object members =>
    match members.filter (fun m ↦ m.1 == tag) with
    | [(_, value)] => do
      let t ← asTag style variants value
      pure (t, object (members.filter (fun m ↦ m.1 != tag)))
    | _ => none
  | array (value :: rest) => do
    let t ← asTag style variants value
    pure (t, array rest)
  | _ => none

/-- What is left of a variant without fields: any object, or nothing. -/
def noFields : Json → Bool
  | object _ => true
  | array [] => true
  | _ => false

end Json

end Storyline
