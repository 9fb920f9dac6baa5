import Mathlib.Data.Rat.Floor
import Storyline.Proofs.Duration.Seconds

/-!
# Seconds written and read back

A duration is written as a number of seconds, rounded to floats on the way, and read back
with its fraction of a nanosecond cut off.  Up to `2 ^ 20` seconds the errors of the floats
stay below a nanosecond, so that no more than one is lost; and none is lost if what is
written is not below the duration.
-/

namespace Storyline

namespace BinaryFormat

/-- What fits the fraction is denoted at any number of places. -/
theorem exists_units (f : BinaryFormat) {q : ℕ} (hq : q ≤ 2 * 2 ^ f.fraction) (k : ℕ) :
    ∃ m ≤ (k + 2) * 2 ^ f.fraction, f.units m = q * 2 ^ k := by
  induction k generalizing q with
  | zero => exact ⟨q, by omega, by simpa using units_shifted (f := f) (k := 0) (.inr rfl) hq⟩
  | succ k ih =>
    by_cases hfull : 2 ^ f.fraction ≤ q
    · refine ⟨(k + 1) * 2 ^ f.fraction + q, ?_, units_shifted (.inl hfull) hq⟩
      rw [Nat.add_mul (k + 1)]
      exact Nat.add_le_add_left hq _
    · obtain ⟨m, hm, hunits⟩ := ih (q := 2 * q) (by omega)
      refine ⟨m, hm.trans (Nat.mul_le_mul_right _ (by omega)), ?_⟩
      rw [hunits, Nat.pow_succ]
      ring

end BinaryFormat

namespace Binary

variable {n d : ℕ} {q : ℚ}

/-- A ratio of moderate size is not rounded to infinity. -/
theorem isFinite_ofRatio (hd : 0 < d) (h : n < 2 ^ 64 * d) (negative : Bool) :
    (ofRatio negative n d : Binary64).isFinite = true := by
  refine isFinite_of_le (k := 1087) (BinaryFormat.nearest_le (f := .double) (k := 1085) ?_) (by decide)
  rw [Nat.div_lt_iff_lt_mul hd]
  refine Nat.lt_of_lt_of_eq (Nat.mul_lt_mul_of_pos_right h BinaryFormat.one_pos) ?_
  rw [BinaryFormat.one_double, Nat.mul_right_comm, ← Nat.pow_add,
    show 64 + 1074 = BinaryFormat.double.fraction + 1085 + 1 from rfl]

/-- A ratio with a short numerator and a power of two below it is denoted exactly. -/
theorem value_ofRatio_exact {k : ℕ} (hd : 0 < d) (hk : k ≤ 1074) {p : ℕ} (hp : p ≤ 2 ^ 53)
    (h : n * 2 ^ k = p * d) : (ofRatio false n d : Binary64).value = n / d := by
  have hd' : (d : ℚ) ≠ 0 := by exact_mod_cast hd.ne'
  have hone : (BinaryFormat.double.one : ℚ) ≠ 0 := by exact_mod_cast BinaryFormat.one_pos.ne'
  have hsplit : BinaryFormat.double.one = 2 ^ k * 2 ^ (1074 - k) := by
    rw [BinaryFormat.one_double, ← Nat.pow_add, Nat.add_sub_cancel' hk]
  obtain ⟨m, hm, hunits⟩ := BinaryFormat.exists_units .double (q := p) hp (1074 - k)
  have hratio : n * BinaryFormat.double.one = BinaryFormat.double.units m * d := by
    rw [hunits, hsplit, ← Nat.mul_assoc, h]
    exact Nat.mul_right_comm _ _ _
  have hbelow : m < BinaryFormat.double.infinity :=
    of_decide_eq_true (isFinite_of_le (x := ⟨false, m⟩) hm (by omega))
  rw [value_of_nonneg rfl, units, ofRatio, BinaryFormat.nearest_exact hd hbelow hratio,
    div_eq_div_iff hone hd']
  exact_mod_cast hratio.symm

/-- A ratio of moderate size is rounded by at most half a step of its size. -/
theorem abs_value_ofRatio_sub_le (hd : 0 < d) (hq : (n : ℚ) / d = q) (hlow : q = 0 ∨ 1 / 2 ^ 64 ≤ q)
    (hhigh : q < 2 ^ 64) : |(ofRatio false n d : Binary64).value - q| ≤ q / 2 ^ 53 := by
  have hd' : (0 : ℚ) < d := by exact_mod_cast hd
  have hone : (0 : ℚ) < BinaryFormat.double.one := by exact_mod_cast BinaryFormat.one_pos
  rcases hlow with rfl | hlow
  · obtain rfl : n = 0 := by
      simpa [hd'.ne'] using hq
    rw [value_ofRatio_exact (k := 0) (p := 0) hd (by decide) (by decide) (by simp), hq]
    simp
  · have hfinite : (ofRatio false n d : Binary64).isFinite = true := by
      refine isFinite_ofRatio hd ?_ false
      rw [← hq, div_lt_iff₀ hd'] at hhigh
      exact_mod_cast hhigh
    have hfull : 2 ^ BinaryFormat.double.fraction ≤ n * BinaryFormat.double.one / d := by
      have hle : d ≤ 2 ^ 64 * n := by
        rw [← hq, div_le_div_iff₀ (by positivity) hd', one_mul, mul_comm] at hlow
        exact_mod_cast hlow
      have hwide : 2 ^ 116 ≤ BinaryFormat.double.one := by
        rw [BinaryFormat.one_double, Nat.pow_le_pow_iff_right (by decide)]
        decide
      rw [Nat.le_div_iff_mul_le hd]
      refine (Nat.mul_le_mul_left _ hle).trans ?_
      rw [← Nat.mul_assoc, ← Nat.pow_add, Nat.mul_comm]
      exact Nat.mul_le_mul_left n hwide
    have herror := BinaryFormat.abs_units_nearest_sub_le hd (of_decide_eq_true hfinite) hfull
    have hscale : (n : ℚ) * BinaryFormat.double.one / d = q * BinaryFormat.double.one := by
      rw [← hq]
      ring
    rw [hscale] at herror
    rw [value_of_nonneg rfl, ← mul_le_mul_iff_of_pos_right hone, ← abs_of_pos hone, ← abs_mul,
      abs_of_pos hone, sub_mul, div_mul_cancel₀ _ hone.ne']
    refine herror.trans (le_of_eq ?_)
    rw [show BinaryFormat.double.fraction + 1 = 53 from rfl]
    ring

/-- Sums of finite floats are rounded once. -/
theorem addAbs_eq {x y : Binary64} (hx : x.isFinite = true) (hy : y.isFinite = true) :
    addAbs x y = ofRatio false (x.units + y.units) BinaryFormat.double.one := by
  rw [addAbs, hx, hy, Bool.and_self, if_pos rfl]

theorem isNaN_of_isFinite {f : BinaryFormat} {x : Binary f} (h : x.isFinite = true) : x.isNaN = false := by
  unfold isFinite isNaN at *
  rw [decide_eq_true_eq] at h
  exact decide_eq_false (Nat.lt_asymm h)

theorem isInfinite_of_isFinite {f : BinaryFormat} {x : Binary f} (h : x.isFinite = true) :
    x.isInfinite = false := by
  unfold isFinite isInfinite at *
  rw [decide_eq_true_eq] at h
  exact beq_eq_false_iff_ne.mpr (Nat.ne_of_lt h)

/-- Products of finite floats are rounded once. -/
theorem mul_eq {x y : Binary64} (hx : x.isFinite = true) (hy : y.isFinite = true) :
    x.mul y = ofRatio (x.negative != y.negative) (x.units * y.units)
      (BinaryFormat.double.one * BinaryFormat.double.one) := by
  simp only [mul, isNaN_of_isFinite hx, isNaN_of_isFinite hy, isInfinite_of_isFinite hx,
    isInfinite_of_isFinite hy, Bool.or_self, Bool.false_eq_true, if_false]

end Binary

namespace Duration

open Binary

variable {d e : Duration}

/-! ## What is written -/

/-- The whole seconds are written exactly. -/
theorem value_wholeSeconds (h : d.nanos < 2 ^ 20 * nanosPerSecond) :
    (Binary.ofNat d.wholeSeconds : Binary64).value = d.wholeSeconds := by
  have hlt : d.wholeSeconds < 2 ^ 20 := Nat.div_lt_of_lt_mul (Nat.mul_comm .. ▸ h)
  rw [Binary.ofNat, value_ofRatio_exact (k := 0) (p := d.wholeSeconds) Nat.one_pos (by decide) (by omega) rfl,
    Nat.cast_one, div_one]

theorem wholeSeconds_add_subsecNanos (d : Duration) :
    (d.wholeSeconds : ℚ) + (d.subsecNanos : ℚ) / nanosPerSecond = (d.nanos : ℚ) / nanosPerSecond := by
  have hsplit : (nanosPerSecond : ℚ) * d.wholeSeconds + d.subsecNanos = d.nanos := by
    exact_mod_cast Nat.div_add_mod d.nanos nanosPerSecond
  rw [← hsplit, nanosPerSecond]
  push_cast
  ring

/-- What is written for a fraction of a second is within half a step of it. -/
theorem abs_value_subsecNanos_sub_le (d : Duration) :
    |(ofRatio false d.subsecNanos nanosPerSecond : Binary64).value -
      (d.subsecNanos : ℚ) / nanosPerSecond| ≤ (d.subsecNanos : ℚ) / nanosPerSecond / 2 ^ 53 := by
  have hlt : (d.subsecNanos : ℚ) < nanosPerSecond := by
    exact_mod_cast Nat.mod_lt d.nanos (by decide : 0 < nanosPerSecond)
  refine abs_value_ofRatio_sub_le (by decide) rfl ?_ ?_
  · rcases Nat.eq_zero_or_pos d.subsecNanos with hzero | hpos
    · left
      rw [hzero, Nat.cast_zero, zero_div]
    · right
      have hone : (1 : ℚ) ≤ d.subsecNanos := by exact_mod_cast hpos
      rw [le_div_iff₀ (by norm_num [nanosPerSecond])]
      norm_num [nanosPerSecond]
      linarith
  · rw [div_lt_iff₀ (by norm_num [nanosPerSecond])]
    refine hlt.trans_le ?_
    norm_num [nanosPerSecond]

/-- What is written is the sum of the whole seconds and of the rounded fraction, rounded. -/
theorem toSeconds_eq (h : d.nanos < 2 ^ 20 * nanosPerSecond) : ∃ n : ℕ,
    d.toSeconds = ofRatio false n BinaryFormat.double.one ∧ (n : ℚ) / BinaryFormat.double.one =
      d.wholeSeconds + (ofRatio false d.subsecNanos nanosPerSecond : Binary64).value := by
  have hlt : d.wholeSeconds < 2 ^ 20 := Nat.div_lt_of_lt_mul (Nat.mul_comm .. ▸ h)
  have hwhole : (Binary.ofNat d.wholeSeconds : Binary64).isFinite = true :=
    isFinite_ofRatio Nat.one_pos (by omega) false
  have hrest : (ofRatio false d.subsecNanos nanosPerSecond : Binary64).isFinite = true :=
    isFinite_ofRatio (by decide) (Nat.lt_of_lt_of_le (Nat.mod_lt _ (by decide)) (by decide)) false
  refine ⟨_, addAbs_eq hwhole hrest, ?_⟩
  rw [Nat.cast_add, add_div, ← value_of_nonneg rfl, ← value_of_nonneg rfl, value_wholeSeconds h]

/-- What is written is a float that is within three half steps of the duration. -/
theorem abs_value_toSeconds_sub_le (h : d.nanos < 2 ^ 20 * nanosPerSecond) :
    |d.toSeconds.value - (d.nanos : ℚ) / nanosPerSecond| ≤ 3 * ((d.nanos : ℚ) / nanosPerSecond) / 2 ^ 53 := by
  obtain ⟨n, hwritten, hn⟩ := toSeconds_eq h
  have hrest := abs_value_subsecNanos_sub_le d
  have hwhole : (d.wholeSeconds : ℚ) < 2 ^ 20 := by
    exact_mod_cast Nat.div_lt_of_lt_mul (Nat.mul_comm .. ▸ h)
  have hfraction : (d.subsecNanos : ℚ) / nanosPerSecond < 1 := by
    rw [div_lt_one (by norm_num [nanosPerSecond])]
    exact_mod_cast Nat.mod_lt d.nanos (by decide : 0 < nanosPerSecond)
  have hsmall : (d.subsecNanos : ℚ) / nanosPerSecond = 0 ∨ 1 / 10 ^ 9 ≤ (d.subsecNanos : ℚ) / nanosPerSecond := by
    rcases Nat.eq_zero_or_pos d.subsecNanos with hzero | hpos
    · exact .inl (by rw [hzero, Nat.cast_zero, zero_div])
    · right
      rw [nanosPerSecond, div_le_div_iff₀ (by norm_num) (by norm_num)]
      exact_mod_cast Nat.mul_le_mul_right 1000000000 hpos
  have hwhole' : (d.wholeSeconds : ℚ) = 0 ∨ 1 ≤ (d.wholeSeconds : ℚ) := by
    rcases Nat.eq_zero_or_pos d.wholeSeconds with hzero | hpos
    · exact .inl (by rw [hzero, Nat.cast_zero])
    · exact .inr (by exact_mod_cast hpos)
  rw [← wholeSeconds_add_subsecNanos, hwritten]
  generalize (ofRatio false d.subsecNanos nanosPerSecond : Binary64).value = b at hn hrest
  generalize (d.subsecNanos : ℚ) / nanosPerSecond = f at *
  generalize (d.wholeSeconds : ℚ) = s at *
  rw [abs_le] at hrest
  have hnonneg : 0 ≤ f ∧ 0 ≤ s := by
    constructor
    · rcases hsmall with rfl | hf <;> linarith
    · rcases hwhole' with rfl | hs <;> linarith
  have hlow : s + b = 0 ∨ 1 / 2 ^ 64 ≤ s + b := by
    rcases hsmall with rfl | hf
    · rcases hwhole' with rfl | hs
      · exact .inl (by linarith)
      · exact .inr (by linarith)
    · exact .inr (by linarith)
  have hround := abs_value_ofRatio_sub_le BinaryFormat.one_pos hn hlow (by linarith)
  rw [abs_le] at hround ⊢
  constructor <;> linarith

/-! ## What is read back -/

/-- The number of nanoseconds that is computed from what is written for a duration. -/
def product (d : Duration) : Binary64 := d.toSeconds.mul (.ofNat nanosPerSecond)

theorem negative_toSeconds (h : d.nanos < 2 ^ 20 * nanosPerSecond) : d.toSeconds.negative = false := by
  obtain ⟨n, hwritten, -⟩ := toSeconds_eq h
  rw [hwritten]
  rfl

theorem value_nonneg {x : Binary64} (h : x.negative = false) : 0 ≤ x.value := by
  rw [value_of_nonneg h]
  positivity

theorem nanos_lt (h : d.nanos < 2 ^ 20 * nanosPerSecond) : (d.nanos : ℚ) < 2 ^ 50 := by
  exact_mod_cast h.trans (by decide)

/-- What is written, in nanoseconds. -/
theorem abs_scaled_sub_le (h : d.nanos < 2 ^ 20 * nanosPerSecond) :
    |d.toSeconds.value * nanosPerSecond - d.nanos| ≤ 3 * d.nanos / 2 ^ 53 := by
  have hpos : (0 : ℚ) < nanosPerSecond := by norm_num [nanosPerSecond]
  calc |d.toSeconds.value * nanosPerSecond - d.nanos|
      = |d.toSeconds.value - (d.nanos : ℚ) / nanosPerSecond| * nanosPerSecond := by
        rw [← abs_of_pos hpos, ← abs_mul, abs_of_pos hpos, sub_mul, div_mul_cancel₀ _ hpos.ne']
    _ ≤ 3 * ((d.nanos : ℚ) / nanosPerSecond) / 2 ^ 53 * nanosPerSecond :=
        mul_le_mul_of_nonneg_right (abs_value_toSeconds_sub_le h) hpos.le
    _ = 3 * d.nanos / 2 ^ 53 := by field_simp

/-- The number of nanoseconds is computed with one more rounding. -/
theorem product_eq (h : d.nanos < 2 ^ 20 * nanosPerSecond) : ∃ n : ℕ,
    d.product = ofRatio false n (BinaryFormat.double.one * BinaryFormat.double.one) ∧
      (n : ℚ) / (BinaryFormat.double.one * BinaryFormat.double.one : ℕ) =
        d.toSeconds.value * nanosPerSecond := by
  have hfinite : d.toSeconds.isFinite = true :=
    isFinite_toSeconds (Nat.lt_of_lt_of_le h (Nat.mul_le_mul_right _ (by decide)))
  have hbillion : (Binary.ofNat nanosPerSecond : Binary64).isFinite = true :=
    isFinite_ofRatio Nat.one_pos (by decide) false
  have hvalue : (Binary.ofNat nanosPerSecond : Binary64).value = nanosPerSecond := by
    rw [Binary.ofNat, value_ofRatio_exact (k := 0) (p := nanosPerSecond) Nat.one_pos (by decide) (by decide) rfl,
      Nat.cast_one, div_one]
  refine ⟨d.toSeconds.units * (Binary.ofNat nanosPerSecond : Binary64).units, ?_, ?_⟩
  · rw [product, mul_eq hfinite hbillion, negative_toSeconds h]
    rfl
  · rw [Nat.cast_mul, Nat.cast_mul, mul_div_mul_comm, ← value_of_nonneg (negative_toSeconds h),
      ← value_of_nonneg rfl, hvalue]

theorem negative_product (h : d.nanos < 2 ^ 20 * nanosPerSecond) : d.product.negative = false := by
  obtain ⟨n, hproduct, -⟩ := product_eq h
  rw [hproduct]
  rfl

theorem isFinite_product (h : d.nanos < 2 ^ 20 * nanosPerSecond) : d.product.isFinite = true := by
  obtain ⟨n, hproduct, hn⟩ := product_eq h
  have hpos : 0 < BinaryFormat.double.one * BinaryFormat.double.one :=
    Nat.mul_pos BinaryFormat.one_pos BinaryFormat.one_pos
  have hscaled := abs_le.mp (abs_scaled_sub_le h)
  have hlt : (n : ℚ) / (BinaryFormat.double.one * BinaryFormat.double.one : ℕ) < (2 ^ 64 : ℕ) := by
    rw [hn, Nat.cast_pow, Nat.cast_ofNat]
    linarith [nanos_lt h]
  rw [div_lt_iff₀ (by exact_mod_cast hpos), ← Nat.cast_mul, Nat.cast_lt] at hlt
  rw [hproduct]
  exact isFinite_ofRatio hpos hlt false

/-- The number of nanoseconds that is computed is less than one away from the duration. -/
theorem abs_value_product_sub_lt (h : d.nanos < 2 ^ 20 * nanosPerSecond) :
    |d.product.value - d.nanos| < 1 := by
  obtain ⟨n, hproduct, hn⟩ := product_eq h
  have hlt := nanos_lt h
  have hcases : (d.nanos : ℚ) = 0 ∨ (1 : ℚ) ≤ d.nanos := by
    rcases Nat.eq_zero_or_pos d.nanos with hzero | hpos
    · exact .inl (by rw [hzero, Nat.cast_zero])
    · exact .inr (by exact_mod_cast hpos)
  have hscaled := abs_scaled_sub_le h
  rw [hproduct]
  generalize d.toSeconds.value * nanosPerSecond = q at *
  generalize (d.nanos : ℚ) = k at *
  rw [abs_le] at hscaled
  have hlow : q = 0 ∨ 1 / 2 ^ 64 ≤ q := by
    rcases hcases with rfl | hk
    · exact .inl (by linarith)
    · exact .inr (by linarith)
  have hround := abs_value_ofRatio_sub_le (Nat.mul_pos BinaryFormat.one_pos BinaryFormat.one_pos) hn hlow
    (by linarith)
  rw [abs_le] at hround
  rw [abs_lt]
  constructor <;> linarith

/-- If what is written is not below the duration, neither is what is computed from it. -/
theorem le_value_product (h : d.nanos < 2 ^ 20 * nanosPerSecond)
    (hle : (d.nanos : ℚ) ≤ d.toSeconds.value * nanosPerSecond) : (d.nanos : ℚ) ≤ d.product.value := by
  obtain ⟨n, hproduct, hn⟩ := product_eq h
  have hpos : 0 < BinaryFormat.double.one * BinaryFormat.double.one :=
    Nat.mul_pos BinaryFormat.one_pos BinaryFormat.one_pos
  have hself : (ofRatio false d.nanos 1 : Binary64).value = d.nanos := by
    rw [value_ofRatio_exact (k := 0) (p := d.nanos) Nat.one_pos (by decide)
      (by rw [nanosPerSecond] at h; omega) rfl, Nat.cast_one, div_one]
  have hratio : d.nanos * (BinaryFormat.double.one * BinaryFormat.double.one) ≤ n * 1 := by
    rw [← hn, le_div_iff₀ (by exact_mod_cast hpos)] at hle
    rw [Nat.mul_one]
    exact_mod_cast hle
  rw [← hself, hproduct, value_of_nonneg rfl, value_of_nonneg rfl]
  refine div_le_div_of_nonneg_right ?_ (Nat.cast_nonneg _)
  exact_mod_cast BinaryFormat.units_strictMono.monotone (BinaryFormat.nearest_mono Nat.one_pos hpos hratio)

/-- What is read back is the number of nanoseconds that is computed, its fraction cut off. -/
def reread (d : Duration) : Duration := ⟨d.product.units / BinaryFormat.double.one⟩

theorem reread_lt_iff (h : d.nanos < 2 ^ 20 * nanosPerSecond) (k : ℕ) :
    d.reread.nanos < k ↔ d.product.value < k := by
  rw [value_lt_iff (negative_product h), reread, Nat.div_lt_iff_lt_mul BinaryFormat.one_pos]

theorem ofWrittenSeconds_toSeconds (h : d.nanos < 2 ^ 20 * nanosPerSecond) :
    ofWrittenSeconds? d.toSeconds = some d.reread := by
  have hnear := abs_lt.mp (abs_value_product_sub_lt h)
  have hlt := nanos_lt h
  have hbound : d.reread.nanos < bound := by
    rw [reread_lt_iff h]
    refine lt_of_lt_of_le (b := 2 ^ 51) (by linarith) ?_
    exact_mod_cast (by decide : 2 ^ 51 ≤ bound)
  have hif : ofWrittenSeconds? d.toSeconds =
      if !d.product.isFinite || (d.product.negative && !d.product.isZero) then none
      else if d.reread.nanos < bound then some d.reread else none := rfl
  rw [hif, isFinite_product h, negative_product h, if_neg (by simp), if_pos hbound]

/-- A duration is read back as it is or one nanosecond shorter. -/
theorem reread_cases (h : d.nanos < 2 ^ 20 * nanosPerSecond) :
    d.reread = d ∨ d.reread.nanos + 1 = d.nanos := by
  have hnear := abs_lt.mp (abs_value_product_sub_lt h)
  have hupper : d.reread.nanos < d.nanos + 1 := by
    rw [reread_lt_iff h, Nat.cast_add, Nat.cast_one]
    linarith
  have hlower : ¬d.reread.nanos < d.nanos - 1 := by
    rw [reread_lt_iff h, not_lt]
    rcases Nat.eq_zero_or_pos d.nanos with hzero | hpos
    · rw [hzero]
      exact value_nonneg (negative_product h)
    · rw [Nat.cast_sub hpos, Nat.cast_one]
      linarith
  rcases Nat.lt_or_ge d.reread.nanos d.nanos with hlt | hge
  · right
    omega
  · left
    exact congrArg Duration.mk (show d.reread.nanos = d.nanos by omega)

/-- It is read back as it is if what is written is not below it. -/
theorem reread_of_le (h : d.nanos < 2 ^ 20 * nanosPerSecond)
    (hle : (d.nanos : ℚ) ≤ d.toSeconds.value * nanosPerSecond) : d.reread = d := by
  refine (reread_cases h).resolve_right fun hshort ↦ ?_
  have hlt : d.reread.nanos < d.nanos := by omega
  rw [reread_lt_iff h] at hlt
  exact absurd (le_value_product h hle) (not_le.mpr hlt)

/-- Whole numbers of the five-hundred-and-twelfth parts of a second are written exactly. -/
theorem toSeconds_exact (h : d.nanos < 2 ^ 20 * nanosPerSecond) (hdvd : 1953125 ∣ d.nanos) :
    d.toSeconds.value * nanosPerSecond = d.nanos := by
  obtain ⟨n, hwritten, hn⟩ := toSeconds_eq h
  obtain ⟨p, hp⟩ := hdvd
  have hsecond : nanosPerSecond = 1953125 * 2 ^ 9 := by decide
  have hone : (BinaryFormat.double.one : ℚ) ≠ 0 := by exact_mod_cast BinaryFormat.one_pos.ne'
  have hrest : (ofRatio false d.subsecNanos nanosPerSecond : Binary64).value =
      (d.subsecNanos : ℚ) / nanosPerSecond := by
    have hsub : d.subsecNanos = 1953125 * (p % 2 ^ 9) := by
      rw [subsecNanos, hp, hsecond, Nat.mul_mod_mul_left]
    have hlt := Nat.mod_lt p (Nat.two_pow_pos 9)
    refine value_ofRatio_exact (k := 9) (p := p % 2 ^ 9) (by decide) (by decide) (by omega) ?_
    rw [hsub, hsecond]
    ring
  rw [hrest, wholeSeconds_add_subsecNanos] at hn
  have hratio : n * 2 ^ 9 = p * BinaryFormat.double.one := by
    rw [hp, hsecond, div_eq_div_iff hone (by norm_num)] at hn
    have hnat : n * (1953125 * 2 ^ 9) = 1953125 * p * BinaryFormat.double.one := by exact_mod_cast hn
    refine Nat.eq_of_mul_eq_mul_left (show 0 < 1953125 by decide) ?_
    rw [Nat.mul_left_comm, hnat, Nat.mul_assoc]
  rw [hwritten, value_ofRatio_exact (k := 9) (p := p) BinaryFormat.one_pos (by decide) ?_ hratio, hn]
  · exact div_mul_cancel₀ _ (by norm_num [nanosPerSecond])
  · rw [hp, hsecond] at h
    omega

theorem reread_of_dvd (h : d.nanos < 2 ^ 20 * nanosPerSecond) (hdvd : 1953125 ∣ d.nanos) : d.reread = d :=
  reread_of_le h (toSeconds_exact h hdvd).ge

/-- It is read back as it is if and only if what is computed is not below it. -/
theorem reread_eq_iff (h : d.nanos < 2 ^ 20 * nanosPerSecond) :
    d.reread = d ↔ (d.nanos : ℚ) ≤ d.product.value := by
  rw [← not_lt, ← reread_lt_iff h]
  constructor
  · intro heq
    rw [heq]
    exact Nat.lt_irrefl _
  · intro hge
    exact (reread_cases h).resolve_right fun hshort ↦ hge (by omega)

theorem nanos_reread_le (h : d.nanos < 2 ^ 20 * nanosPerSecond) : d.reread.nanos ≤ d.nanos := by
  rcases reread_cases h with heq | hshort
  · rw [heq]
  · omega

/-! ## Written and read back again and again -/

/-- A duration never becomes longer. -/
theorem nanos_iterate_reread_le (h : d.nanos < 2 ^ 20 * nanosPerSecond) (i : ℕ) :
    (reread^[i] d).nanos ≤ d.nanos := by
  induction i with
  | zero => exact Nat.le_refl _
  | succ i ih =>
    rw [Function.iterate_succ_apply']
    exact (nanos_reread_le (ih.trans_lt h)).trans ih

/-- It never falls below the last five-hundred-and-twelfth part of a second, which is read
back as it is. -/
theorem le_nanos_iterate_reread (h : d.nanos < 2 ^ 20 * nanosPerSecond) (i : ℕ) :
    d.nanos ≤ (reread^[i] d).nanos + d.nanos % 1953125 := by
  induction i with
  | zero => exact Nat.le_add_right _ _
  | succ i ih =>
    have hi := (nanos_iterate_reread_le h i).trans_lt h
    rw [Function.iterate_succ_apply']
    rcases reread_cases hi with heq | hshort
    · rwa [heq]
    · by_contra hbelow
      have hlast : (reread^[i] d).nanos = 1953125 * (d.nanos / 1953125) := by omega
      rw [reread_of_dvd hi ⟨_, hlast⟩] at hshort
      omega

/-- As long as it changes, it becomes one nanosecond shorter each time. -/
theorem iterate_reread_cases (h : d.nanos < 2 ^ 20 * nanosPerSecond) (i : ℕ) :
    reread^[i + 1] d = reread^[i] d ∨ (reread^[i + 1] d).nanos + (i + 1) = d.nanos := by
  induction i with
  | zero => exact reread_cases h
  | succ i ih =>
    rcases ih with heq | hshort
    · left
      rw [Function.iterate_succ_apply', heq, ← Function.iterate_succ_apply' reread, heq]
    · rw [Function.iterate_succ_apply' reread (i + 1)]
      refine (reread_cases ((nanos_iterate_reread_le h (i + 1)).trans_lt h)).imp_right fun hnext ↦ ?_
      omega

/-- So it settles. -/
theorem iterate_reread_settles (h : d.nanos < 2 ^ 20 * nanosPerSecond) {i : ℕ} (hi : 1953124 ≤ i) :
    reread^[i + 1] d = reread^[i] d := by
  refine (iterate_reread_cases h i).resolve_right fun hshort ↦ ?_
  have hlower := le_nanos_iterate_reread h (i + 1)
  have hmod := Nat.mod_lt d.nanos (show 0 < 1953125 by decide)
  omega

end Duration

end Storyline
