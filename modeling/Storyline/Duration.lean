import Storyline.Binary

/-!
# Durations and the millisecond clock

A duration is a whole number of nanoseconds below `2 ^ 64` seconds.  The clock
counts whole milliseconds; a span that starts on the clock ends at the first
millisecond that is not before its exact end, and never if that end lies beyond
`2 ^ 63` seconds.
-/

namespace Storyline

structure Duration where
  nanos : Nat
deriving DecidableEq, Repr, Inhabited

namespace Duration

def nanosPerSecond : Nat := 1000000000

def nanosPerMilli : Nat := 1000000

/-- The number of nanoseconds that durations stay below. -/
def bound : Nat := 2 ^ 64 * nanosPerSecond

def zero : Duration := ⟨0⟩

def max : Duration := ⟨bound - 1⟩

def ofParts (seconds nanos : Nat) : Duration := ⟨seconds * nanosPerSecond + nanos⟩

def ofMillis (ms : Nat) : Duration := ⟨nanosPerMilli * ms⟩

def wholeSeconds (d : Duration) : Nat := d.nanos / nanosPerSecond

def subsecNanos (d : Duration) : Nat := d.nanos % nanosPerSecond

def atLeast (least d : Duration) : Duration := ⟨Nat.max least.nanos d.nanos⟩

/-- A number of seconds as a duration, to the nearest nanosecond.  Numbers that
are not positive count as zero and numbers too large as the longest duration. -/
def ofSeconds (x : Binary64) : Duration :=
  if x.isNaN || x.negative then zero
  else if x.isInfinite || decide (2 ^ 64 * BinaryFormat.double.one ≤ x.units) then max
  else ⟨roundHalfEven (x.units * nanosPerSecond) BinaryFormat.double.one⟩

/-- A number of seconds as written in a configuration: the product with the
number of nanoseconds in a second is rounded to a float and its fraction cut
off.  Negative and too large products are refused. -/
def ofWrittenSeconds? (x : Binary64) : Option Duration :=
  let product := x.mul (.ofNat nanosPerSecond)
  if !product.isFinite || (product.negative && !product.isZero) then none
  else
    let nanos := product.units / BinaryFormat.double.one
    if nanos < bound then some ⟨nanos⟩ else none

/-- The duration as a number of seconds: the whole seconds and the fraction are
rounded to floats one by one, and so is their sum. -/
def toSeconds (d : Duration) : Binary64 :=
  .addAbs (.ofNat d.wholeSeconds) (.ofRatio false d.subsecNanos nanosPerSecond)

/-- The millisecond at which a span that starts `nanos` after the origin of the
clock is over, if the clock can show it. -/
def clockAt (nanos : Nat) : Option Nat :=
  if nanos / nanosPerSecond < 2 ^ 63 then some ((nanos + (nanosPerMilli - 1)) / nanosPerMilli)
  else none

/-- The end of a span that starts at millisecond `start`. -/
def endFrom (d : Duration) (start : Nat) : Option Nat :=
  clockAt (nanosPerMilli * start + d.nanos)

/-- The `k`-th of the ticks that follow `start` with period `d`. -/
def tickFrom (d : Duration) (start k : Nat) : Option Nat :=
  clockAt (nanosPerMilli * start + k * d.nanos)

/-- Periods of tickers are at least a millisecond. -/
def period (d : Duration) : Duration := (ofMillis 1).atLeast d

end Duration

end Storyline
