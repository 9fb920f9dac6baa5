import Storyline.Json.Reader

/-!
# Skipping values

A value that nobody asks for is only scanned: its brackets, commas, literals,
escapes and digits have to be in place, but it may nest at any depth, its
numbers may have any size, and its strings may hold any bytes.
-/

namespace Storyline.Reader

/-- Digits, at least one; their absence is a fault of the text even at its end. -/
def scanDigits : Reader Unit := do
  match ← digits with
  | [] => fail .malformed
  | _ => pure ()

def scanExponent : Reader Unit := do
  match ← peek with
  | some 0x65 | some 0x45 =>
    advance
    let _ ← exponentSign
    scanDigits
  | _ => pure ()

def scanNumber : Reader Unit := do
  match ← digits with
  | [] => fail .malformed
  | 0x30 :: _ :: _ => fail .malformed
  | _ =>
    if (← peek) == some 0x2e then
      advance
      scanDigits
    scanExponent

def scanEscape : Reader Unit := do
  let b ← next
  if b == 0x75 then
    let _ ← hexUnit
    pure ()
  else
    let _ ← ofOption .malformed (shortEscape b)
    pure ()

/-- The rest of a string, up to the closing quote. -/
def scanString : Bytes → Reader Unit
  | [] => fail .truncated
  | _ :: bound => do
    let b ← next
    if b == 0x22 then pure ()
    else if b == 0x5c then
      scanEscape
      scanString bound
    else if b < 0x20 then fail .malformed
    else scanString bound

def scanScalar (b : UInt8) : Reader Unit := do
  advance
  if b == 0x6e then literal nullRest
  else if b == 0x74 then literal trueRest
  else if b == 0x66 then literal falseRest
  else if b == 0x22 then scanString (← get)
  else if b == 0x2d then scanNumber
  else fail .malformed

/-- Scanned members separated by commas, up to the closing bracket. -/
def scanMembers (scan : Reader Unit) : Bytes → Reader Unit
  | [] => fail .truncated
  | _ :: bound => do
    token 0x22
    scanString (← get)
    token 0x3a
    scan
    let b ← peekToken
    advance
    if b == 0x7d then pure ()
    else if b == 0x2c then scanMembers scan bound
    else fail .malformed

/-- Scans a value; the bound is at least as long as the text left. -/
def scanValue : Bytes → Reader Unit
  | [] => fail .truncated
  | _ :: bound => do
    let b ← peekToken
    if b == 0x5b then
      advance
      let _ ← arrayRest (scanValue bound)
      pure ()
    else if b == 0x7b then
      advance
      if (← peekToken) == 0x7d then advance
      else scanMembers (scanValue bound) (← get)
    else if isDigit b then scanNumber
    else scanScalar b

/-- Skips one value. -/
def skip : Reader Unit := do
  scanValue (← get)

end Storyline.Reader
