import Storyline.Json.Basic

/-!
# Reading values from text

A reader consumes bytes from the front and reports the first fault that it
meets.  Brackets may nest `nestingLimit` deep.  Loops over the text carry the
bytes left at their start as a bound; every round consumes at least one.
-/

namespace Storyline

abbrev Bytes := List UInt8

abbrev Reader := StateT Bytes (Except Fault)

def nestingLimit : Nat := 127

namespace Reader

def fail {α : Type} (fault : Fault) : Reader α := fun _ ↦ .error fault

def ofOption {α : Type} (fault : Fault) : Option α → Reader α
  | some a => pure a
  | none => fail fault

def isSpace (b : UInt8) : Bool := b == 0x20 || b == 0x0a || b == 0x09 || b == 0x0d

def isDigit (b : UInt8) : Bool := 0x30 ≤ b && b ≤ 0x39

def digitValue (b : UInt8) : Nat := (b - 0x30).toNat

def skipBlank : Reader Unit := fun s ↦ .ok ((), s.dropWhile isSpace)

/-- The next byte, left in place. -/
def peek : Reader (Option UInt8) := fun s ↦ .ok (s.head?, s)

def advance : Reader Unit := fun s ↦ .ok ((), s.tail)

/-- Consumes the next byte. -/
def next : Reader UInt8
  | [] => .error .truncated
  | b :: rest => .ok (b, rest)

/-- The next byte after blanks, left in place. -/
def peekToken : Reader UInt8 := do
  skipBlank
  match ← peek with
  | some b => pure b
  | none => fail .truncated

/-- Consumes blanks and then the given byte. -/
def token (b : UInt8) : Reader Unit := do
  if (← peekToken) == b then advance else fail .malformed

/-- Consumes the rest of a literal name. -/
def literal : Bytes → Reader Unit
  | [] => pure ()
  | b :: rest => do
    if (← next) == b then literal rest else fail .malformed

def nullRest : Bytes := [0x75, 0x6c, 0x6c]

def trueRest : Bytes := [0x72, 0x75, 0x65]

def falseRest : Bytes := [0x61, 0x6c, 0x73, 0x65]

/-! ## Numbers -/

def digits : Reader Bytes := fun s ↦ .ok (s.takeWhile isDigit, s.dropWhile isDigit)

def valueOfDigits (ds : Bytes) : Nat :=
  ds.foldl (fun n d ↦ 10 * n + digitValue d) 0

/-- At least one digit. -/
def someDigits : Reader Bytes := do
  match ← peek with
  | none => fail .truncated
  | some b => if isDigit b then digits else fail .malformed

/-- The digits before the point: a lone zero, or digits that start with another. -/
def leadingDigits : Reader Bytes := do
  let ds ← someDigits
  match ds with
  | 0x30 :: _ :: _ => fail .malformed
  | _ => pure ds

def fractionPart : Reader (Option Bytes) := do
  if (← peek) == some 0x2e then
    advance
    some <$> someDigits
  else pure none

def exponentSign : Reader Bool := do
  match ← peek with
  | some 0x2b => advance; pure false
  | some 0x2d => advance; pure true
  | _ => pure false

def exponentPart : Reader (Option Int) := do
  match ← peek with
  | some 0x65 | some 0x45 =>
    advance
    let negative ← exponentSign
    let n := valueOfDigits (← someDigits)
    pure (some (if negative then -(n : Int) else (n : Int)))
  | _ => pure none

/-- The value of a number's text.  A whole number that does not fit in 64 bits
and a negative zero become floats; a number that rounds to infinity is refused. -/
def numberOf (negative : Bool) (ds : Bytes) (fraction : Option Bytes) (exponent : Option Int) :
    Option Number :=
  let whole := valueOfDigits ds
  if fraction.isNone && exponent.isNone && !negative && decide (whole < 2 ^ 64) then
    some (.whole whole)
  else if fraction.isNone && exponent.isNone && negative && decide (0 < whole ∧ whole ≤ 2 ^ 63) then
    some (.whole (-(whole : Int)))
  else
    let places := fraction.getD []
    let x : Binary64 :=
      .ofDecimal negative (valueOfDigits (ds ++ places)) (exponent.getD 0 - places.length)
    if x.isFinite then some (.real x) else none

/-- A number whose sign has been consumed. -/
def unsignedNumber (negative : Bool) : Reader Number := do
  let ds ← leadingDigits
  let fraction ← fractionPart
  let exponent ← exponentPart
  ofOption .malformed (numberOf negative ds fraction exponent)

/-- A number whose first byte, a digit or a minus sign, is next. -/
def number : Reader Number := do
  if (← peek) == some 0x2d then
    advance
    unsignedNumber true
  else unsignedNumber false

/-! ## Strings -/

def hexValue (b : UInt8) : Option Nat :=
  if isDigit b then some (digitValue b)
  else if 0x41 ≤ b && b ≤ 0x46 then some ((b - 0x41).toNat + 10)
  else if 0x61 ≤ b && b ≤ 0x66 then some ((b - 0x61).toNat + 10)
  else none

def hexFour (a b c d : UInt8) : Option Nat := do
  let a ← hexValue a
  let b ← hexValue b
  let c ← hexValue c
  let d ← hexValue d
  pure (((a * 16 + b) * 16 + c) * 16 + d)

/-- The four hexadecimal digits of an escape. -/
def hexUnit : Reader Nat := do
  let a ← next
  let b ← next
  let c ← next
  let d ← next
  ofOption .malformed (hexFour a b c d)

def isLeading (n : Nat) : Bool := 0xd800 ≤ n && n < 0xdc00

def isTrailing (n : Nat) : Bool := 0xdc00 ≤ n && n < 0xe000

/-- The character of an escape with hexadecimal digits; two surrogates in a row
make one character and none may stand alone. -/
def unicodeEscape : Reader Bytes := do
  let n ← hexUnit
  if isTrailing n then fail .malformed
  else if isLeading n then
    if (← next) != 0x5c then fail .malformed
    else if (← next) != 0x75 then fail .malformed
    else
      let m ← hexUnit
      if isTrailing m then
        pure (String.utf8EncodeChar (Char.ofNat (0x10000 + (n - 0xd800) * 0x400 + (m - 0xdc00))))
      else fail .malformed
  else pure (String.utf8EncodeChar (Char.ofNat n))

/-- What a single letter stands for after a backslash. -/
def shortEscape (b : UInt8) : Option UInt8 :=
  if b == 0x22 || b == 0x5c || b == 0x2f then some b
  else if b == 0x62 then some 0x08
  else if b == 0x66 then some 0x0c
  else if b == 0x6e then some 0x0a
  else if b == 0x72 then some 0x0d
  else if b == 0x74 then some 0x09
  else none

def escape : Reader Bytes := do
  let b ← next
  if b == 0x75 then unicodeEscape
  else (fun c ↦ [c]) <$> ofOption .malformed (shortEscape b)

/-- The bytes up to the closing quote. -/
def stringBytes : Bytes → Reader Bytes
  | [] => fail .truncated
  | _ :: bound => do
    let b ← next
    if b == 0x22 then pure []
    else if b == 0x5c then
      let cs ← escape
      (cs ++ ·) <$> stringBytes bound
    else if b < 0x20 then fail .malformed
    else (b :: ·) <$> stringBytes bound

/-- A string whose opening quote has been consumed. -/
def stringRest : Reader String := do
  let bytes ← stringBytes (← get)
  ofOption .malformed (String.fromUTF8? bytes.toByteArray)

/-! ## Brackets -/

/-- Items separated by commas, up to the closing bracket; the first one follows. -/
def items {α : Type} (item : Reader α) : Bytes → Reader (List α)
  | [] => fail .truncated
  | _ :: bound => do
    let x ← item
    let b ← peekToken
    advance
    if b == 0x5d then pure [x]
    else if b == 0x2c then (x :: ·) <$> items item bound
    else fail .malformed

/-- The items of an array whose opening bracket has been consumed. -/
def arrayRest {α : Type} (item : Reader α) : Reader (List α) := do
  if (← peekToken) == 0x5d then
    advance
    pure []
  else items item (← get)

/-- Members separated by commas, up to the closing bracket; the first one
follows.  The reader of a member's value is told the names before it and its own. -/
def memberList {α : Type} (member : List String → String → Reader α) :
    Bytes → List String → Reader (List (String × α))
  | [], _ => fail .truncated
  | _ :: bound, seen => do
    token 0x22
    let name ← stringRest
    token 0x3a
    let x ← member seen name
    let b ← peekToken
    advance
    if b == 0x7d then pure [(name, x)]
    else if b == 0x2c then ((name, x) :: ·) <$> memberList member bound (name :: seen)
    else fail .malformed

/-- The members of an object whose opening bracket has been consumed. -/
def objectRest {α : Type} (member : List String → String → Reader α) :
    Reader (List (String × α)) := do
  if (← peekToken) == 0x7d then
    advance
    pure []
  else memberList member (← get) []

/-- Items of fixed places, up to the closing bracket; fewer may be there. -/
def placesRest {α : Type} (first : Bool) : List (Reader α) → Reader (List α)
  | [] => do
    token 0x5d
    pure []
  | place :: rest => do
    let b ← peekToken
    if b == 0x5d then
      advance
      pure []
    else if first then
      let x ← place
      (x :: ·) <$> placesRest false rest
    else if b == 0x2c then
      advance
      if (← peekToken) == 0x5d then fail .malformed
      else
        let x ← place
        (x :: ·) <$> placesRest false rest
    else fail .malformed

/-! ## Values -/

/-- A value that is neither an array nor an object, from its first byte on. -/
def scalar (b : UInt8) : Reader Json :=
  if b == 0x6e then do
    advance
    literal nullRest
    pure .null
  else if b == 0x74 then do
    advance
    literal trueRest
    pure (.bool true)
  else if b == 0x66 then do
    advance
    literal falseRest
    pure (.bool false)
  else if b == 0x22 then do
    advance
    .string <$> stringRest
  else if b == 0x2d || isDigit b then .number <$> number
  else fail .malformed

/-- A value in which brackets nest at most as deep as given. -/
def value : Nat → Reader Json
  | 0 => do
    let b ← peekToken
    if b == 0x5b || b == 0x7b then fail .malformed else scalar b
  | depth + 1 => do
    let b ← peekToken
    if b == 0x5b then
      advance
      .array <$> arrayRest (value depth)
    else if b == 0x7b then
      advance
      .object <$> objectRest (fun _ _ ↦ value depth)
    else scalar b

/-- Refuses a value of the wrong shape.  A scalar is read first, so that a fault
in its text is reported before its shape. -/
def mismatch {α : Type} : Reader α := do
  let b ← peekToken
  if b == 0x5b || b == 0x7b then fail .mismatched
  else
    let _ ← scalar b
    fail .mismatched

def string : Reader String := do
  if (← peekToken) == 0x22 then
    advance
    stringRest
  else mismatch

def numeric : Reader Number := do
  let b ← peekToken
  if b == 0x2d || isDigit b then number else mismatch

/-- The value that `read` gives, or none for `null`. -/
def nullable {α : Type} (read : Reader α) : Reader (Option α) := do
  if (← peekToken) == 0x6e then
    advance
    literal nullRest
    pure none
  else some <$> read

/-- An array read item by item, at a depth that still admits it. -/
def arrayOf {α : Type} (item : Nat → Reader α) : Nat → Reader (List α)
  | 0 => do
    if (← peekToken) == 0x5b then fail .malformed else mismatch
  | depth + 1 => do
    if (← peekToken) == 0x5b then
      advance
      arrayRest (item depth)
    else mismatch

/-- Runs a reader on a whole document. -/
def run {α : Type} (read : Reader α) (document : Bytes) : Except Fault α := do
  let (a, rest) ← StateT.run read document
  if rest.all isSpace then pure a else throw .malformed

end Reader

/-- The value of a document. -/
def Json.read (document : Bytes) : Except Fault Json :=
  Reader.run (Reader.value nestingLimit) document

end Storyline
