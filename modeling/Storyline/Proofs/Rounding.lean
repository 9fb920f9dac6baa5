import Storyline.Duration

/-!
# Exact and bounded results of rounding

A ratio that a format denotes exactly is rounded to itself, and a ratio of moderate
size is not rounded to infinity.
-/

namespace Storyline

theorem roundHalfEven_mul (q : Nat) {d : Nat} (hd : 0 < d) : roundHalfEven (q * d) d = q := by
  unfold roundHalfEven
  rw [Nat.mul_div_cancel q hd, Nat.mul_mod_left]
  simp [hd]

theorem roundHalfEven_le (n d : Nat) : roundHalfEven n d ≤ n / d + 1 := by
  unfold roundHalfEven
  dsimp only
  split
  · exact Nat.le_succ _
  · exact Nat.le_refl _

theorem two_pow_mul_lt {a b c : Nat} (h : a + b < c) : 2 ^ a * 2 ^ b < 2 ^ c := by
  rw [← Nat.pow_add]
  exact Nat.pow_lt_pow_right (by decide) h

namespace BinaryFormat

variable {f : BinaryFormat}

theorem one_pos : 0 < f.one := Nat.two_pow_pos _

theorem one_double : double.one = 2 ^ 1074 := by
  unfold one
  exact congrArg (2 ^ ·) (show double.bias + double.fraction - 1 = 1074 from rfl)

theorem units_of_lt {m : Nat} (h : m < 2 ^ f.fraction) : f.units m = m := by
  simp [units, Nat.div_eq_of_lt h]

theorem units_of_le {m : Nat} (h : 2 ^ f.fraction ≤ m) :
    f.units m = (2 ^ f.fraction + m % 2 ^ f.fraction) * 2 ^ (m / 2 ^ f.fraction - 1) := by
  have hne : m / 2 ^ f.fraction ≠ 0 := by
    have := Nat.div_pos h (Nat.two_pow_pos f.fraction)
    omega
  simp [units, hne]

/-- How far the units of a magnitude are shifted against its fraction. -/
theorem log2_units {m : Nat} (h : 2 ^ f.fraction ≤ m) :
    Nat.log2 (f.units m) = f.fraction + (m / 2 ^ f.fraction - 1) := by
  have hpos := Nat.two_pow_pos f.fraction
  have hmod := Nat.mod_lt m hpos
  rw [units_of_le h, Nat.log2_eq_iff (Nat.mul_ne_zero (by omega) (Nat.ne_of_gt (Nat.two_pow_pos _)))]
  constructor
  · rw [Nat.pow_add]
    exact Nat.mul_le_mul_right _ (Nat.le_add_right _ _)
  · rw [show f.fraction + (m / 2 ^ f.fraction - 1) + 1 =
      (f.fraction + 1) + (m / 2 ^ f.fraction - 1) by omega, Nat.pow_add]
    refine Nat.mul_lt_mul_of_pos_right ?_ (Nat.two_pow_pos _)
    rw [Nat.pow_succ]
    omega

theorem eq_zero_of_units {m : Nat} (h : f.units m = 0) : m = 0 := by
  by_cases hsmall : m < 2 ^ f.fraction
  · rwa [units_of_lt hsmall] at h
  · rw [units_of_le (Nat.le_of_not_lt hsmall)] at h
    have := Nat.two_pow_pos f.fraction
    exact absurd h (Nat.mul_ne_zero (by omega) (Nat.ne_of_gt (Nat.two_pow_pos _)))

/-- What the format denotes is its own rounding. -/
theorem nearest_exact {n d m : Nat} (hd : 0 < d) (hm : m < f.infinity)
    (h : n * f.one = f.units m * d) : f.nearest n d = m := by
  unfold nearest
  rw [h, Nat.mul_div_cancel _ hd]
  by_cases hsmall : m < 2 ^ f.fraction
  · have hshift : Nat.log2 (f.units m) - f.fraction = 0 := by
      rw [units_of_lt hsmall]
      by_cases hzero : m = 0
      · simp [hzero, Nat.log2_zero]
      · have := (Nat.log2_lt hzero).mpr hsmall
        omega
    simp only [hshift]
    rw [units_of_lt hsmall, Nat.pow_zero, Nat.mul_one, roundHalfEven_mul m hd]
    omega
  · have hle := Nat.le_of_not_lt hsmall
    have hpos := Nat.two_pow_pos f.fraction
    have hexponent := Nat.div_pos hle hpos
    have hshift : Nat.log2 (f.units m) - f.fraction = m / 2 ^ f.fraction - 1 := by
      rw [log2_units hle]
      omega
    simp only [hshift]
    rw [units_of_le hle, Nat.mul_assoc, Nat.mul_comm (2 ^ (m / 2 ^ f.fraction - 1)) d,
      roundHalfEven_mul _ (Nat.mul_pos hd (Nat.two_pow_pos _))]
    have hdiv := Nat.div_add_mod m (2 ^ f.fraction)
    have hpred : (m / 2 ^ f.fraction - 1) * 2 ^ f.fraction + 2 ^ f.fraction =
        2 ^ f.fraction * (m / 2 ^ f.fraction) := by
      rw [← Nat.succ_mul, Nat.mul_comm, Nat.succ_eq_add_one, Nat.sub_add_cancel hexponent]
    omega

theorem nearest_le {n d k : Nat} (h : n * f.one / d < 2 ^ (f.fraction + k + 1)) :
    f.nearest n d ≤ (k + 2) * 2 ^ f.fraction := by
  unfold nearest
  have hround := roundHalfEven_le (n * f.one) (d * 2 ^ (Nat.log2 (n * f.one / d) - f.fraction))
  rw [← Nat.div_div_eq_div_mul] at hround
  generalize n * f.one / d = q at h hround
  refine Nat.le_trans (Nat.min_le_left _ _) ?_
  have hshift : Nat.log2 q - f.fraction ≤ k := by
    by_cases hzero : q = 0
    · simp [hzero, Nat.log2_zero]
    · have := (Nat.log2_lt hzero).mpr h
      omega
  have hquotient : q / 2 ^ (Nat.log2 q - f.fraction) < 2 ^ (f.fraction + 1) := by
    rw [Nat.div_lt_iff_lt_mul (Nat.two_pow_pos _), ← Nat.pow_add]
    refine Nat.lt_of_lt_of_le Nat.lt_log2_self (Nat.pow_le_pow_right (by decide) ?_)
    omega
  generalize Nat.log2 q - f.fraction = shift at *
  have hmul := Nat.mul_le_mul_right (2 ^ f.fraction) hshift
  rw [Nat.pow_succ] at hquotient
  rw [Nat.add_mul]
  omega

theorem units_le {m k : Nat} (h : m ≤ k * 2 ^ f.fraction) : f.units m ≤ 2 ^ (f.fraction + 1 + k) := by
  have hpos := Nat.two_pow_pos f.fraction
  by_cases hsmall : m < 2 ^ f.fraction
  · rw [units_of_lt hsmall]
    exact Nat.le_trans (Nat.le_of_lt hsmall) (Nat.pow_le_pow_right (by decide) (by omega))
  · have hle := Nat.le_of_not_lt hsmall
    have hmod := Nat.mod_lt m hpos
    have hk : m / 2 ^ f.fraction ≤ k := by
      rw [← Nat.mul_div_cancel k hpos]
      exact Nat.div_le_div_right h
    rw [units_of_le hle, Nat.pow_add]
    refine Nat.mul_le_mul ?_ (Nat.pow_le_pow_right (by decide) (by omega))
    rw [Nat.pow_succ]
    omega

end BinaryFormat

open BinaryFormat (nearest_le units_le)

namespace Binary

theorem isFinite_of_le {x : Binary64} {k : Nat} (h : x.magnitude ≤ k * 2 ^ 52) (hk : k < 2047) :
    x.isFinite = true := by
  have hlt : k * 2 ^ 52 < 2047 * 2 ^ 52 := Nat.mul_lt_mul_of_pos_right hk (by decide)
  exact decide_eq_true (Nat.lt_of_le_of_lt h hlt)

theorem ofNat_magnitude_le {n : Nat} (h : n ≤ 2 ^ 64) (negative : Bool) :
    (ofRatio negative n 1 : Binary64).magnitude ≤ 1090 * 2 ^ 52 := by
  refine nearest_le (f := .double) (k := 1088) ?_
  rw [Nat.div_one, BinaryFormat.one_double]
  refine Nat.lt_of_le_of_lt (Nat.mul_le_mul_right _ h) ?_
  exact two_pow_mul_lt (by decide)

theorem isFinite_ofInt {n : Int} (h : n.natAbs ≤ 2 ^ 64) : (ofInt n : Binary64).isFinite = true :=
  isFinite_of_le (ofNat_magnitude_le h _) (by decide)

end Binary

theorem Duration.isFinite_toSeconds {d : Duration} (h : d.nanos < Duration.bound) :
    d.toSeconds.isFinite = true := by
  have hwhole : (Binary.ofNat d.wholeSeconds : Binary64).magnitude ≤ 1090 * 2 ^ 52 :=
    Binary.ofNat_magnitude_le (Nat.le_of_lt (Nat.div_lt_of_lt_mul (Nat.mul_comm .. ▸ h))) false
  have hrest : (Binary.ofRatio false d.subsecNanos nanosPerSecond : Binary64).magnitude ≤
      1090 * 2 ^ 52 := by
    refine nearest_le (f := .double) (k := 1088) ?_
    have hlt : d.subsecNanos < nanosPerSecond := Nat.mod_lt _ (by decide)
    rw [Nat.div_lt_iff_lt_mul (by decide), BinaryFormat.one_double, Nat.mul_comm]
    refine Nat.mul_lt_mul_of_le_of_lt ?_ hlt (Nat.two_pow_pos _)
    rw [Nat.pow_le_pow_iff_right (by decide)]
    decide
  unfold toSeconds Binary.addAbs
  rw [Binary.isFinite_of_le hwhole (by decide), Binary.isFinite_of_le hrest (by decide)]
  refine Binary.isFinite_of_le (k := 1200) (nearest_le (f := .double) (k := 1198) ?_) (by decide)
  rw [Nat.mul_div_cancel _ BinaryFormat.one_pos]
  refine Nat.lt_of_le_of_lt (Nat.add_le_add (units_le (f := .double) hwhole)
    (units_le (f := .double) hrest)) ?_
  rw [← Nat.two_mul, ← Nat.pow_succ', Nat.pow_lt_pow_iff_right (by decide)]
  decide

end Storyline
