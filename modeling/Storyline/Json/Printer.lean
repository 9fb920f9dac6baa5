import Storyline.Json.Reader

/-!
# Printing values

A value is printed without blanks.  A float is printed as its exact decimal
expansion, so that reading it back needs no rounding.
-/

namespace Storyline

def Bytes.ofString (s : String) : Bytes := s.toByteArray.toList

namespace Json

def digitBytes (n : Nat) : Bytes :=
  (Nat.toDigits 10 n).map (fun c ↦ UInt8.ofNat c.toNat)

def hexDigit (n : Nat) : UInt8 :=
  UInt8.ofNat (if n < 10 then 0x30 + n else 0x57 + n)

/-- A byte of a string; quotes, backslashes and controls are escaped. -/
def printByte (b : UInt8) : Bytes :=
  if b == 0x22 || b == 0x5c then [0x5c, b]
  else if b < 0x20 then
    [0x5c, 0x75, 0x30, 0x30, hexDigit (b.toNat / 16), hexDigit (b.toNat % 16)]
  else [b]

def printString (s : String) : Bytes :=
  0x22 :: (Bytes.ofString s).flatMap printByte ++ [0x22]

/-- Takes out of the fraction `n / 2 ^ places` as many twos as divide both. -/
def reduceTwos (n : Nat) : Nat → Nat × Nat
  | 0 => (n, 0)
  | places + 1 => if n % 2 = 0 then reduceTwos (n / 2) places else (n, places + 1)

/-- The exact decimal expansion of a finite float: `n / 2 ^ k` is `n * 5 ^ k`
moved `k` decimal places. -/
def printFloat (x : Binary64) : Bytes :=
  let sign : Bytes := if x.negative then [0x2d] else []
  match reduceTwos x.units (Nat.log2 BinaryFormat.double.one) with
  | (n, 0) => sign ++ digitBytes n ++ [0x2e, 0x30]
  | (n, places) => sign ++ digitBytes (n * 5 ^ places) ++ [0x65, 0x2d] ++ digitBytes places

/-- A number; what is not finite has no text and is printed as `null`. -/
def printNumber : Number → Bytes
  | .whole n => (if n < 0 then [0x2d] else []) ++ digitBytes n.natAbs
  | .real x => if x.isFinite then printFloat x else 0x6e :: Reader.nullRest

def commaJoin : List Bytes → Bytes
  | [] => []
  | [text] => text
  | text :: rest => text ++ 0x2c :: commaJoin rest

mutual

def print : Json → Bytes
  | .null => 0x6e :: Reader.nullRest
  | .bool true => 0x74 :: Reader.trueRest
  | .bool false => 0x66 :: Reader.falseRest
  | .number n => printNumber n
  | .string s => printString s
  | .array items => 0x5b :: commaJoin (printItems items) ++ [0x5d]
  | .object members => 0x7b :: commaJoin (printMembers members) ++ [0x7d]

def printItems : List Json → List Bytes
  | [] => []
  | item :: rest => print item :: printItems rest

def printMembers : List (String × Json) → List Bytes
  | [] => []
  | (name, value) :: rest => (printString name ++ 0x3a :: print value) :: printMembers rest

end

end Json

end Storyline
