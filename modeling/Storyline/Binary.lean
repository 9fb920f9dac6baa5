/-!
# Binary floating point

A binary format stores a sign and a magnitude.  Below the magnitude of
infinity, every magnitude denotes a whole number of *units*, the unit being the
smallest positive number of the format, and larger magnitudes denote larger
numbers.  Exact results are rounded to the nearest number, halves to the even
neighbour, so each operation here is an exact one followed by `nearest`.
-/

namespace Storyline

-- powers and sums of whole numbers are those of the core library, whatever is imported
@[default_instance high]
instance (priority := high) corePow : Pow Nat Nat := instPowNat

instance (priority := high) coreZero : Zero Nat := Zero.ofOfNat0

/-- The quotient `n / d` rounded to the nearest whole number, a half going to
the even neighbour. -/
def roundHalfEven (n d : Nat) : Nat :=
  let quotient := n / d
  let rest := n % d
  if 2 * rest < d ∨ (2 * rest = d ∧ quotient % 2 = 0) then quotient else quotient + 1

/-- The width of the fraction field and the exponent bias of a format. -/
structure BinaryFormat where
  fraction : Nat
  bias : Nat
deriving DecidableEq, Repr

namespace BinaryFormat

def double : BinaryFormat := ⟨52, 1023⟩

def single : BinaryFormat := ⟨23, 127⟩

/-- The magnitude of infinity; every larger magnitude is not a number. -/
def infinity (f : BinaryFormat) : Nat :=
  (2 * f.bias + 1) * 2 ^ f.fraction

/-- How many units make one. -/
def one (f : BinaryFormat) : Nat :=
  2 ^ (f.bias + f.fraction - 1)

/-- The number of units that a magnitude below infinity denotes. -/
def units (f : BinaryFormat) (magnitude : Nat) : Nat :=
  let exponent := magnitude / 2 ^ f.fraction
  if exponent = 0 then magnitude
  else (2 ^ f.fraction + magnitude % 2 ^ f.fraction) * 2 ^ (exponent - 1)

/-- The magnitude nearest to `n / d`, infinity standing for everything that
rounds beyond the largest number. -/
def nearest (f : BinaryFormat) (n d : Nat) : Nat :=
  let shift := Nat.log2 (n * f.one / d) - f.fraction
  min (shift * 2 ^ f.fraction + roundHalfEven (n * f.one) (d * 2 ^ shift)) f.infinity

end BinaryFormat

structure Binary (f : BinaryFormat) where
  negative : Bool
  magnitude : Nat
deriving DecidableEq, Repr

abbrev Binary64 := Binary .double

abbrev Binary32 := Binary .single

namespace Binary

variable {f g : BinaryFormat}

def zero : Binary f := ⟨false, 0⟩

instance : Inhabited (Binary f) := ⟨zero⟩

def infinite (negative : Bool) : Binary f := ⟨negative, f.infinity⟩

/-- The indefinite result, as processors give it for zero times infinity. -/
def indefinite : Binary f := ⟨true, f.infinity + 2 ^ (f.fraction - 1)⟩

def isFinite (x : Binary f) : Bool := x.magnitude < f.infinity

def isInfinite (x : Binary f) : Bool := x.magnitude == f.infinity

def isNaN (x : Binary f) : Bool := f.infinity < x.magnitude

def isZero (x : Binary f) : Bool := x.magnitude == 0

/-- The number of units of the absolute value. -/
def units (x : Binary f) : Nat := f.units x.magnitude

def ofRatio (negative : Bool) (n d : Nat) : Binary f := ⟨negative, f.nearest n d⟩

def ofNat (n : Nat) : Binary f := ofRatio false n 1

def ofInt (n : Int) : Binary f := ofRatio (decide (n < 0)) n.natAbs 1

/-- The number `significand * 10 ^ exponent`.  Exponents whose result is
certainly infinite or zero are settled without building the power. -/
def ofDecimal (negative : Bool) (significand : Nat) (exponent : Int) : Binary f :=
  if significand = 0 then ⟨negative, 0⟩
  else if 0 ≤ exponent then
    if 400 < exponent then infinite negative
    else ofRatio negative (significand * 10 ^ exponent.toNat) 1
  else
    let places := (-exponent).toNat
    if 400 + Nat.log2 significand < places then ⟨negative, 0⟩
    else ofRatio negative significand (10 ^ places)

/-- Turns a signalling not-a-number into the quiet one with the same payload. -/
def quiet (x : Binary f) : Binary f :=
  if x.magnitude / 2 ^ (f.fraction - 1) % 2 = 1 then x
  else ⟨x.negative, x.magnitude + 2 ^ (f.fraction - 1)⟩

def abs (x : Binary f) : Binary f := ⟨false, x.magnitude⟩

def neg (x : Binary f) : Binary f := ⟨!x.negative, x.magnitude⟩

def mul (x y : Binary f) : Binary f :=
  let negative := x.negative != y.negative
  if x.isNaN then x.quiet
  else if y.isNaN then y.quiet
  else if x.isInfinite || y.isInfinite then
    if x.isZero || y.isZero then indefinite else infinite negative
  else ofRatio negative (x.units * y.units) (f.one * f.one)

/-- The sum of two absolute values. -/
def addAbs (x y : Binary f) : Binary f :=
  if x.isFinite && y.isFinite then ofRatio false (x.units + y.units) f.one
  else infinite false

/-- The nearest number of a format no wider than that of `x`. -/
def narrow (x : Binary f) : Binary g :=
  if x.isNaN then
    quiet ⟨x.negative,
      g.infinity + (x.magnitude - f.infinity) / 2 ^ (f.fraction - g.fraction)⟩
  else if x.isInfinite then infinite x.negative
  else ofRatio x.negative x.units f.one

/-- The number of a format at least as wide as that of `x`. -/
def widen (x : Binary f) : Binary g :=
  if x.isNaN then
    quiet ⟨x.negative,
      g.infinity + (x.magnitude - f.infinity) * 2 ^ (g.fraction - f.fraction)⟩
  else if x.isInfinite then infinite x.negative
  else ofRatio x.negative x.units f.one

/-- Whether `x` is a number above zero. -/
def isPositive (x : Binary f) : Bool :=
  !x.negative && !x.isZero && !x.isNaN

/-- Whether the absolute value of `x` is at most that of `y`. -/
def absLe (x y : Binary f) : Bool :=
  !x.isNaN && !y.isNaN && decide (x.magnitude ≤ y.magnitude)

/-- The bit pattern, the sign in the topmost of `width` bits. -/
def toBits (width : Nat) (x : Binary f) : Nat :=
  (if x.negative then 2 ^ (width - 1) else 0) + x.magnitude

def ofBits (width bits : Nat) : Binary f :=
  ⟨decide (2 ^ (width - 1) ≤ bits), bits % 2 ^ (width - 1)⟩

end Binary

end Storyline
