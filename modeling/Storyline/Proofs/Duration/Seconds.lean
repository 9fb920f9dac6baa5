import Mathlib.Algebra.Order.Ring.WithTop
import Storyline.Proofs.Binary.Nearest

/-!
# Seconds to the nearest nanosecond

A float stands for a rational, for an infinity, or for no number at all.  As a number of
seconds it becomes the duration that is nearest to it, within the bounds of durations.
-/

namespace Storyline

namespace Binary

variable {f : BinaryFormat} {x y : Binary f}

/-- The rational that a float with a finite magnitude denotes: a full fraction times a power of
two, or at the least exponent the fraction alone. -/
def value (x : Binary f) : ℚ :=
  let exponent := x.magnitude / 2 ^ f.fraction
  let fraction := x.magnitude % 2 ^ f.fraction
  (if x.negative then -1 else 1) *
    if exponent = 0 then (fraction : ℚ) * 2 ^ (1 - f.bias - f.fraction : ℤ)
    else (2 ^ f.fraction + fraction : ℚ) * 2 ^ (exponent - f.bias - f.fraction : ℤ)

/-- What a float stands for; nothing, if it is not a number. -/
def number? (x : Binary f) : Option (WithBot (WithTop ℚ)) :=
  if x.isNaN then none
  else if x.isInfinite then some (if x.negative then ⊥ else ⊤)
  else some (x.value : WithTop ℚ)

/-- A float denotes its units. -/
theorem value_eq (hf : 0 < f.bias) (x : Binary f) :
    x.value = (if x.negative then -1 else 1) * ((x.units : ℚ) / f.one) := by
  have hone : (f.one : ℚ) = 2 ^ (f.bias + f.fraction - 1 : ℤ) := by
    rw [BinaryFormat.one, Nat.cast_pow, ← zpow_natCast]
    congr 1
    omega
  have hscale (k : ℕ) : (2 : ℚ) ^ (k + 1 - f.bias - f.fraction : ℤ) = 2 ^ k / f.one := by
    rw [hone, eq_div_iff (zpow_ne_zero _ two_ne_zero), ← zpow_add₀ two_ne_zero, ← zpow_natCast]
    congr 1
    ring
  unfold value units BinaryFormat.units
  dsimp only
  congr 1
  split
  next hzero =>
    have hsmall : x.magnitude % 2 ^ f.fraction = x.magnitude :=
      Nat.mod_eq_of_lt (Nat.lt_of_div_eq_zero (Nat.two_pow_pos _) hzero)
    have hleast := hscale 0
    rw [Nat.cast_zero, zero_add, pow_zero] at hleast
    rw [hsmall, hleast, mul_one_div]
  next hexponent =>
    obtain ⟨k, hk⟩ := Nat.exists_eq_add_one_of_ne_zero hexponent
    rw [hk, Nat.cast_add, Nat.cast_one, hscale, Nat.add_sub_cancel]
    push_cast
    ring

/-- A float that is not negative denotes the share of its units in one. -/
theorem value_of_nonneg {x : Binary64} (h : x.negative = false) :
    x.value = (x.units : ℚ) / BinaryFormat.double.one := by
  rw [value_eq (f := .double) (by decide), h, if_neg Bool.false_ne_true, one_mul]

theorem value_nonpos_iff {x : Binary64} : x.value ≤ 0 ↔ x.negative = true ∨ x.units = 0 := by
  have hone : (0 : ℚ) < BinaryFormat.double.one := by exact_mod_cast BinaryFormat.one_pos
  cases hsign : x.negative with
  | true =>
    have hle : x.value ≤ 0 := by
      rw [value_eq (f := .double) (by decide), hsign, if_pos rfl, neg_one_mul]
      exact neg_nonpos.mpr (div_nonneg (Nat.cast_nonneg _) hone.le)
    exact iff_of_true hle (.inl rfl)
  | false =>
    rw [value_of_nonneg hsign, div_le_iff₀ hone, zero_mul, Nat.cast_nonpos]
    exact (or_iff_right Bool.false_ne_true).symm

/-- The floats below `2 ^ 64` stay below it by a step. -/
theorem units_le_of_lt {x : Binary64} (h : x.units < 2 ^ 64 * BinaryFormat.double.one) :
    x.units ≤ (2 ^ 64 - 2 ^ 11) * BinaryFormat.double.one := by
  -- the last magnitude before that of `2 ^ 64` has the same exponent as `2 ^ 63`
  have hlast := BinaryFormat.units_shifted (f := .double) (k := 1085) (q := 2 * 2 ^ 52 - 1)
    (.inl (by decide)) (by decide)
  have hnext := BinaryFormat.units_shifted (f := .double) (k := 1085) (q := 2 * 2 ^ 52)
    (.inl (by decide)) (by decide)
  have hpow : (2 : ℕ) ^ 1085 = 2 ^ 11 * BinaryFormat.double.one := by
    rw [BinaryFormat.one_double, ← Nat.pow_add]
  rw [hpow] at hlast hnext
  have hlt : x.magnitude < 1085 * 2 ^ BinaryFormat.double.fraction + 2 * 2 ^ 52 := by
    rw [← BinaryFormat.units_strictMono.lt_iff_lt (f := BinaryFormat.double.units), hnext]
    refine Nat.lt_of_lt_of_eq h ?_
    ring
  have hle : x.units ≤ (2 * 2 ^ 52 - 1) * (2 ^ 11 * BinaryFormat.double.one) := by
    rw [← hlast]
    exact BinaryFormat.units_strictMono.monotone (by omega)
  rwa [← Nat.mul_assoc, show (2 * 2 ^ 52 - 1) * 2 ^ 11 = 2 ^ 64 - 2 ^ 11 by decide] at hle

end Binary

namespace Duration

open Binary

variable {x y : Binary64} {a b : WithBot (WithTop ℚ)}

/-- A number of seconds becomes a duration: within the bounds of durations the one whose
nanoseconds are nearest, and beyond them the bound. -/
structure Renders (a : WithBot (WithTop ℚ)) (d : Duration) : Prop where
  least : a ≤ 0 → d = zero
  between : ∀ q : ℚ, a = (q : WithTop ℚ) → 0 < q → q < 2 ^ 64 →
    IsNearestEven (q * nanosPerSecond) d.nanos
  greatest : ((2 ^ 64 : ℚ) : WithTop ℚ) ≤ a → d = max

theorem ofSeconds_of_nan (h : x.isNaN = true) : ofSeconds x = zero := by
  simp [ofSeconds, h]

theorem ofSeconds_of_negative (h : x.negative = true) : ofSeconds x = zero := by
  simp [ofSeconds, h]

theorem ofSeconds_of_large (hnumber : x.isNaN = false) (hsign : x.negative = false)
    (h : x.isInfinite = true ∨ 2 ^ 64 * BinaryFormat.double.one ≤ x.units) : ofSeconds x = max := by
  rw [ofSeconds, if_neg (by simp [hnumber, hsign]), if_pos (by simpa using h)]

theorem nanos_ofSeconds (hnumber : x.isNaN = false) (hsign : x.negative = false)
    (hbounded : x.isInfinite = false) (h : x.units < 2 ^ 64 * BinaryFormat.double.one) :
    (ofSeconds x).nanos = roundHalfEven (x.units * nanosPerSecond) BinaryFormat.double.one := by
  rw [ofSeconds, if_neg (by simp [hnumber, hsign]), if_neg]
  rw [hbounded, Bool.false_or, decide_eq_true_eq]
  exact Nat.not_le.mpr h

/-- The units of a number of seconds and those of its nanoseconds. -/
theorem value_mul_nanos (hsign : x.negative = false) : x.value * nanosPerSecond =
    ((x.units * nanosPerSecond : ℕ) : ℚ) / BinaryFormat.double.one := by
  rw [value_of_nonneg hsign, Nat.cast_mul]
  ring

theorem value_lt_iff (hsign : x.negative = false) (k : ℕ) :
    x.value < k ↔ x.units < k * BinaryFormat.double.one := by
  have hone : (0 : ℚ) < BinaryFormat.double.one := by exact_mod_cast BinaryFormat.one_pos
  rw [value_of_nonneg hsign, div_lt_iff₀ hone, ← Nat.cast_mul, Nat.cast_lt]

/-- Rounding leaves the floats below the bound of durations below it. -/
theorem roundHalfEven_lt_bound (h : x.units < 2 ^ 64 * BinaryFormat.double.one) :
    roundHalfEven (x.units * nanosPerSecond) BinaryFormat.double.one < bound := by
  have hpos : 0 < BinaryFormat.double.one := BinaryFormat.one_pos
  have hle := units_le_of_lt h
  generalize BinaryFormat.double.one = one at hpos hle
  have hround : roundHalfEven (x.units * nanosPerSecond) one ≤
      roundHalfEven ((2 ^ 64 - 2 ^ 11) * nanosPerSecond * one) one := by
    refine roundHalfEven_mono hpos hpos (Nat.mul_le_mul_right _ ?_)
    rw [Nat.mul_right_comm]
    exact Nat.mul_le_mul_right _ hle
  rw [roundHalfEven_mul _ hpos] at hround
  exact Nat.lt_of_le_of_lt hround (by decide)

/-- Whatever the number, it becomes a duration below the bound of durations. -/
theorem ofSeconds_lt_bound (x : Binary64) : (ofSeconds x).nanos < bound := by
  cases hnumber : x.isNaN with
  | true => rw [ofSeconds_of_nan hnumber]; decide
  | false =>
    cases hsign : x.negative with
    | true => rw [ofSeconds_of_negative hsign]; decide
    | false =>
      by_cases hlarge : x.isInfinite = true ∨ 2 ^ 64 * BinaryFormat.double.one ≤ x.units
      · rw [ofSeconds_of_large hnumber hsign hlarge]
        decide
      · rw [not_or, Bool.not_eq_true, Nat.not_le] at hlarge
        rw [nanos_ofSeconds hnumber hsign hlarge.1 hlarge.2]
        exact roundHalfEven_lt_bound hlarge.2

/-- What a float stands for, if it is a number. -/
theorem number?_cases {f : BinaryFormat} {x : Binary f} (h : x.number? = some a) :
    x.isNaN = false ∧ (x.isInfinite = true ∧ a = (if x.negative then ⊥ else ⊤) ∨
      x.isInfinite = false ∧ a = (x.value : WithTop ℚ)) := by
  unfold number? at h
  split at h
  next => cases h
  next hnumber =>
    refine ⟨by simpa using hnumber, ?_⟩
    split at h
    next hinfinite => exact .inl ⟨hinfinite, (Option.some.inj h).symm⟩
    next hbounded => exact .inr ⟨by simpa using hbounded, (Option.some.inj h).symm⟩

theorem value_lt_bound_iff (hsign : x.negative = false) :
    x.value < 2 ^ 64 ↔ x.units < 2 ^ 64 * BinaryFormat.double.one := by
  have hiff := value_lt_iff hsign (2 ^ 64)
  rwa [Nat.cast_pow, Nat.cast_ofNat] at hiff

theorem renders_ofSeconds (h : x.number? = some a) : Renders a (ofSeconds x) := by
  obtain ⟨hnumber, hcases⟩ := number?_cases h
  cases hsign : x.negative with
  | true =>
    have hle : a ≤ 0 := by
      rcases hcases with ⟨-, rfl⟩ | ⟨-, rfl⟩
      · simp [hsign]
      · exact_mod_cast value_nonpos_iff.mpr (.inl hsign)
    refine ⟨fun _ ↦ ofSeconds_of_negative hsign, ?_, fun hlarge ↦ ?_⟩
    · rintro q rfl hpos -
      exact absurd (by exact_mod_cast hle) (not_le.mpr hpos)
    · have hlt : ((2 ^ 64 : ℚ) : WithTop ℚ) ≤ (0 : WithBot (WithTop ℚ)) := hlarge.trans hle
      exact absurd (by exact_mod_cast hlt) (not_le.mpr (show (0 : ℚ) < 2 ^ 64 by positivity))
  | false =>
    rcases hcases with ⟨hinfinite, rfl⟩ | ⟨hbounded, rfl⟩
    · simp only [hsign, Bool.false_eq_true, if_false] at h ⊢
      refine ⟨fun hle ↦ ?_, fun q hq ↦ absurd hq (by simp),
        fun _ ↦ ofSeconds_of_large hnumber hsign (.inl hinfinite)⟩
      exact absurd (WithBot.coe_injective (top_le_iff.mp hle)) WithTop.zero_ne_top
    · constructor
      case least =>
        intro hle
        have hzero : x.units = 0 :=
          (value_nonpos_iff.mp (by exact_mod_cast hle)).resolve_left (by simp [hsign])
        have hlt : x.units < 2 ^ 64 * BinaryFormat.double.one := by
          rw [hzero]
          exact Nat.mul_pos (by decide) BinaryFormat.one_pos
        have hnanos : (ofSeconds x).nanos = 0 := by
          rw [nanos_ofSeconds hnumber hsign hbounded hlt, hzero, Nat.zero_mul]
          exact (congrArg (roundHalfEven · _) (Nat.zero_mul _).symm).trans
            (roundHalfEven_mul 0 BinaryFormat.one_pos)
        exact congrArg Duration.mk hnanos
      case between =>
        intro q hq hpos hlt
        obtain rfl : x.value = q := by exact_mod_cast hq
        rw [value_mul_nanos hsign, nanos_ofSeconds hnumber hsign hbounded ((value_lt_bound_iff hsign).mp hlt)]
        exact isNearestEven_roundHalfEven BinaryFormat.one_pos
      case greatest =>
        intro hle
        refine ofSeconds_of_large hnumber hsign (.inr (Nat.le_of_not_lt fun hlt ↦ ?_))
        exact absurd ((value_lt_bound_iff hsign).mpr hlt) (not_lt.mpr (by exact_mod_cast hle))

/-- What is positive and below the bound is a rational. -/
theorem exists_rat (hpos : 0 < a) (hlt : a < ((2 ^ 64 : ℚ) : WithTop ℚ)) :
    ∃ q : ℚ, a = (q : WithTop ℚ) := by
  obtain ⟨c, rfl⟩ := WithBot.ne_bot_iff_exists.mp hpos.ne_bot
  obtain ⟨q, rfl⟩ := WithTop.ne_top_iff_exists.mp (WithBot.coe_lt_coe.mp hlt).ne_top
  exact ⟨q, rfl⟩

theorem isNaN_of_number? {f : BinaryFormat} {x : Binary f} (h : x.number? = none) : x.isNaN = true := by
  unfold number? at h
  split at h
  next hnan => exact hnan
  next => split at h <;> cases h

/-- A larger number of seconds becomes a duration that is not shorter. -/
theorem nanos_mono (hx : Renders a (ofSeconds x)) (hy : Renders b (ofSeconds y)) (h : a ≤ b) :
    (ofSeconds x).nanos ≤ (ofSeconds y).nanos := by
  by_cases hpos : a ≤ 0
  · rw [hx.least hpos]
    exact Nat.zero_le _
  by_cases hlarge : ((2 ^ 64 : ℚ) : WithTop ℚ) ≤ b
  · rw [hy.greatest hlarge]
    exact Nat.le_pred_of_lt (ofSeconds_lt_bound x)
  -- both stand for rationals within the bounds
  rw [not_le] at hpos hlarge
  obtain ⟨q, rfl⟩ := exists_rat hpos (h.trans_lt hlarge)
  obtain ⟨r, rfl⟩ := exists_rat (hpos.trans_le h) hlarge
  norm_cast at hpos hlarge h
  exact (hx.between q rfl hpos (h.trans_lt hlarge)).mono (hy.between r rfl (hpos.trans_le h) hlarge)
    (mul_le_mul_of_nonneg_right h (by positivity))

/-- **Seconds are exact and monotone.**  What is not a number becomes no time.  A number becomes no
time if it is not positive, the longest duration if it is `2 ^ 64` or more, and otherwise exactly
the nearest number of nanoseconds, of two that are equally near the even one.  The result is
always a duration, of whole seconds below `2 ^ 64` and nanoseconds below a second; and a
larger number never becomes a shorter one. -/
theorem ofSeconds_exact (x y : Binary64) :
    (x.number? = none → ofSeconds x = zero) ∧
    (∀ a, x.number? = some a → Renders a (ofSeconds x)) ∧
    ((ofSeconds x).wholeSeconds < 2 ^ 64 ∧ (ofSeconds x).subsecNanos < nanosPerSecond ∧
      ofParts (ofSeconds x).wholeSeconds (ofSeconds x).subsecNanos = ofSeconds x) ∧
    (∀ a b, x.number? = some a → y.number? = some b → a ≤ b →
      (ofSeconds x).nanos ≤ (ofSeconds y).nanos) := by
  refine ⟨fun hnone ↦ ofSeconds_of_nan (isNaN_of_number? hnone), fun a ↦ renders_ofSeconds, ⟨?_, ?_, ?_⟩, fun a b hx hy ↦ ?_⟩
  · exact Nat.div_lt_of_lt_mul (Nat.mul_comm .. ▸ ofSeconds_lt_bound x)
  · exact Nat.mod_lt _ (by decide)
  · exact congrArg Duration.mk (Nat.div_add_mod' _ _)
  · exact nanos_mono (renders_ofSeconds hx) (renders_ofSeconds hy)

end Duration

end Storyline
