import Mathlib.Algebra.Order.Field.Basic
import Mathlib.Algebra.Order.Floor.Ring
import Mathlib.Data.Rat.Cast.Order
import Mathlib.Tactic.FieldSimp
import Mathlib.Tactic.Linarith
import Mathlib.Tactic.Positivity
import Mathlib.Tactic.Ring
import Storyline.Proofs.Rounding

/-!
# Rounding to the nearest

A ratio is rounded to the nearest whole number, of two that are equally near to the even
one.  Rounding to a binary format does the same in steps that grow with the ratio; so it
keeps the order of ratios and errs by at most half a step.
-/

namespace Storyline

/-! ## Rounding to whole numbers -/

/-- The whole number nearest to `q`, the even one if two are equally near. -/
structure IsNearestEven (q : ℚ) (n : ℕ) : Prop where
  nearest : ∀ k : ℕ, |q - n| ≤ |q - k|
  even : ∀ k : ℕ, k ≠ n → |q - k| = |q - n| → n % 2 = 0

/-- There is only one. -/
theorem IsNearestEven.unique {q : ℚ} {n m : ℕ} (hn : IsNearestEven q n) (hm : IsNearestEven q m) :
    n = m := by
  by_contra hne
  have hsame : |q - m| = |q - n| := le_antisymm (hm.nearest n) (hn.nearest m)
  have hn2 := hn.even m (Ne.symm hne) hsame
  have hm2 := hm.even n hne hsame.symm
  -- both lie at the same distance from `q`, so `q` is half way between them
  have hmid : q - m = -(q - n) :=
    (abs_eq_abs.mp hsame).resolve_left fun h ↦ hne (by exact_mod_cast (sub_right_injective h).symm)
  have hmiddle : |q - n| ≤ |q - ((n + m) / 2 : ℕ)| := hn.nearest _
  have heven : 2 * ((n + m) / 2) = n + m := by omega
  have hq : q = ((n + m) / 2 : ℕ) := by
    have hcast : (2 : ℚ) * ((n + m) / 2 : ℕ) = n + m := by exact_mod_cast heven
    linarith
  rw [← hq, sub_self, abs_zero] at hmiddle
  have hzero : q = n := by linarith [abs_nonpos_iff.mp hmiddle]
  exact hne (by exact_mod_cast (show (n : ℚ) = m by linarith))

/-- What is at least as near to one number as to a smaller one lies in the upper half between them. -/
theorem add_le_two_mul_of_abs_sub_le {q a b : ℚ} (hlt : b < a) (h : |q - a| ≤ |q - b|) : a + b ≤ 2 * q := by
  have hsq := sq_le_sq.mpr h
  nlinarith

/-- Rounding keeps the order. -/
theorem IsNearestEven.mono {q r : ℚ} {n m : ℕ} (hn : IsNearestEven q n) (hm : IsNearestEven r m)
    (h : q ≤ r) : n ≤ m := by
  by_contra hlt
  have hlt' : (m : ℚ) < n := by exact_mod_cast Nat.lt_of_not_le hlt
  have hupper : n + m ≤ 2 * q := add_le_two_mul_of_abs_sub_le hlt' (hn.nearest m)
  have hlower : -m + -n ≤ 2 * -r := by
    refine add_le_two_mul_of_abs_sub_le (neg_lt_neg hlt') ?_
    simpa only [sub_neg_eq_add, neg_add_eq_sub, abs_sub_comm (m : ℚ), abs_sub_comm (n : ℚ)] using hm.nearest n
  -- both are the same half, and round to the same number
  have hsame : q = r := by linarith
  exact hlt (hn.unique (hsame ▸ hm)).le

section

variable {n d : ℕ}

/-- A ratio lies between its quotient and the next whole number. -/
theorem div_eq_quotient (hd : 0 < d) : (n : ℚ) / d = (n / d : ℕ) + ((n % d : ℕ) : ℚ) / d := by
  have hd' : (d : ℚ) ≠ 0 := by positivity
  have hsplit : (n : ℚ) = d * (n / d : ℕ) + (n % d : ℕ) := by exact_mod_cast (Nat.div_add_mod n d).symm
  field_simp
  linarith

/-- The quotient is kept below a half and the next number taken above it; of a half the even
number of the two. -/
theorem roundHalfEven_cases (n d : ℕ) :
    (roundHalfEven n d = n / d ∧ (2 * (n % d) < d ∨ 2 * (n % d) = d ∧ n / d % 2 = 0)) ∨
      (roundHalfEven n d = n / d + 1 ∧ (d < 2 * (n % d) ∨ 2 * (n % d) = d ∧ n / d % 2 = 1)) := by
  unfold roundHalfEven
  dsimp only
  split <;> omega

/-- The error is at most one half, and exactly one half only if the result is even. -/
theorem roundHalfEven_error (hd : 0 < d) :
    |(n : ℚ) / d - roundHalfEven n d| < 1 / 2 ∨
      |(n : ℚ) / d - roundHalfEven n d| = 1 / 2 ∧ roundHalfEven n d % 2 = 0 := by
  have hd' : (0 : ℚ) < d := by exact_mod_cast hd
  have hrest : ((n % d : ℕ) : ℚ) / d < 1 := by
    rw [div_lt_one hd']
    exact_mod_cast Nat.mod_lt n hd
  have hnonneg : (0 : ℚ) ≤ ((n % d : ℕ) : ℚ) / d := by positivity
  have hhalf (h : 2 * (n % d) = d) : ((n % d : ℕ) : ℚ) / d = 1 / 2 := by
    rw [div_eq_div_iff hd'.ne' two_ne_zero]
    exact_mod_cast (by omega : n % d * 2 = 1 * d)
  rw [div_eq_quotient hd]
  rcases roundHalfEven_cases n d with ⟨hround, hlt | ⟨heq, heven⟩⟩ | ⟨hround, hlt | ⟨heq, hodd⟩⟩
  · have hbelow : ((n % d : ℕ) : ℚ) / d < 1 / 2 := by
      rw [div_lt_div_iff₀ hd' two_pos]
      exact_mod_cast (by omega : n % d * 2 < 1 * d)
    left
    rw [hround, add_sub_cancel_left, abs_of_nonneg hnonneg]
    exact hbelow
  · right
    rw [hround, add_sub_cancel_left, hhalf heq]
    exact ⟨by norm_num, heven⟩
  · have habove : 1 / 2 < ((n % d : ℕ) : ℚ) / d := by
      rw [div_lt_div_iff₀ two_pos hd']
      exact_mod_cast (by omega : 1 * d < n % d * 2)
    left
    rw [hround, Nat.cast_add, Nat.cast_one, add_sub_add_left_eq_sub, abs_of_neg (by linarith)]
    linarith
  · right
    rw [hround, Nat.cast_add, Nat.cast_one, add_sub_add_left_eq_sub, hhalf heq]
    exact ⟨by norm_num [abs_of_neg], by omega⟩

theorem abs_div_sub_roundHalfEven_le (hd : 0 < d) : |(n : ℚ) / d - roundHalfEven n d| ≤ 1 / 2 :=
  (roundHalfEven_error hd).elim le_of_lt fun h ↦ h.1.le

/-- Two whole numbers are at least one apart. -/
theorem one_le_abs_sub {k m : ℕ} (h : k ≠ m) : (1 : ℚ) ≤ |(k : ℚ) - m| := by
  have hint : (1 : ℤ) ≤ |(k : ℤ) - m| := Int.one_le_abs (by omega)
  exact_mod_cast hint

theorem isNearestEven_roundHalfEven (hd : 0 < d) : IsNearestEven ((n : ℚ) / d) (roundHalfEven n d) := by
  have herror := roundHalfEven_error (n := n) hd
  have hapart {k : ℕ} (hk : k ≠ roundHalfEven n d) :
      1 ≤ |(n : ℚ) / d - k| + |(n : ℚ) / d - roundHalfEven n d| := by
    have hsum := abs_sub_le (k : ℚ) ((n : ℚ) / d) (roundHalfEven n d)
    rw [abs_sub_comm (k : ℚ) ((n : ℚ) / d)] at hsum
    exact (one_le_abs_sub hk).trans hsum
  constructor
  · intro k
    by_cases hk : k = roundHalfEven n d
    · rw [hk]
    · linarith [hapart hk, abs_div_sub_roundHalfEven_le (n := n) hd]
  · intro k hk hsame
    rcases herror with hlt | ⟨-, heven⟩
    · linarith [hapart hk]
    · exact heven

/-- Rounding keeps the order of ratios. -/
theorem roundHalfEven_mono {n' d' : ℕ} (hd : 0 < d) (hd' : 0 < d') (h : n * d' ≤ n' * d) :
    roundHalfEven n d ≤ roundHalfEven n' d' := by
  have hle : (n : ℚ) / d ≤ (n' : ℚ) / d' := by
    rw [div_le_div_iff₀ (by exact_mod_cast hd) (by exact_mod_cast hd')]
    exact_mod_cast h
  exact (isNearestEven_roundHalfEven hd).mono (isNearestEven_roundHalfEven hd') hle

end

namespace BinaryFormat

variable {f : BinaryFormat} {n d n' d' : ℕ}

/-! ## Units -/

/-- A magnitude that is given by its exponent and what is rounded to its fraction; with
a carry it denotes the next power of two. -/
theorem units_shifted {k q : ℕ} (hle : 2 ^ f.fraction ≤ q ∨ k = 0) (hq : q ≤ 2 * 2 ^ f.fraction) :
    f.units (k * 2 ^ f.fraction + q) = q * 2 ^ k := by
  have hpos := Nat.two_pow_pos f.fraction
  by_cases hsmall : q < 2 ^ f.fraction
  · obtain rfl : k = 0 := hle.resolve_left (Nat.not_le_of_lt hsmall)
    rw [Nat.zero_mul, Nat.zero_add, units_of_lt hsmall, Nat.pow_zero, Nat.mul_one]
  · obtain ⟨r, rfl⟩ := Nat.exists_eq_add_of_le (Nat.le_of_not_lt hsmall)
    have hle : 2 ^ f.fraction ≤ k * 2 ^ f.fraction + (2 ^ f.fraction + r) := by omega
    rw [units_of_le hle, show k * 2 ^ f.fraction + (2 ^ f.fraction + r) =
      r + (k + 1) * 2 ^ f.fraction by ring, Nat.add_mul_mod_self_right, Nat.add_mul_div_right _ _ hpos]
    by_cases hcarry : r < 2 ^ f.fraction
    · rw [Nat.mod_eq_of_lt hcarry, Nat.div_eq_of_lt hcarry, Nat.zero_add, Nat.add_sub_cancel]
    · obtain rfl : r = 2 ^ f.fraction := by omega
      rw [Nat.mod_self, Nat.div_self hpos, Nat.add_zero, show 1 + (k + 1) - 1 = k + 1 by omega,
        Nat.pow_succ]
      ring

/-- Larger magnitudes denote larger numbers. -/
theorem units_strictMono : StrictMono f.units := by
  refine strictMono_nat_of_lt_succ fun m ↦ ?_
  have hpos := Nat.two_pow_pos f.fraction
  by_cases hsmall : m < 2 ^ f.fraction
  · have h0 := units_shifted (f := f) (k := 0) (q := m) (.inr rfl) (by omega)
    have h1 := units_shifted (f := f) (k := 0) (q := m + 1) (.inr rfl) (by omega)
    rw [Nat.zero_mul, Nat.zero_add] at h0 h1
    rw [h0, h1]
    omega
  · have hrest := Nat.mod_lt m hpos
    have hexponent := Nat.div_pos (Nat.le_of_not_lt hsmall) hpos
    have hsplit := Nat.div_add_mod m (2 ^ f.fraction)
    obtain ⟨k, hk⟩ : ∃ k, m / 2 ^ f.fraction = k + 1 := ⟨m / 2 ^ f.fraction - 1, by omega⟩
    generalize m % 2 ^ f.fraction = r at hrest hsplit
    have hm : m = k * 2 ^ f.fraction + (2 ^ f.fraction + r) := by
      rw [← hsplit, hk]
      ring
    have h0 := units_shifted (f := f) (k := k) (q := 2 ^ f.fraction + r) (.inl (by omega)) (by omega)
    have h1 := units_shifted (f := f) (k := k) (q := 2 ^ f.fraction + r + 1) (.inl (by omega)) (by omega)
    rw [hm, h0, Nat.add_assoc, h1]
    exact Nat.mul_lt_mul_of_pos_right (Nat.lt_succ_self _) (Nat.two_pow_pos k)

/-! ## The nearest magnitude -/

/-- By how many places a ratio is too long for the fraction. -/
def excess (f : BinaryFormat) (n d : ℕ) : ℕ := Nat.log2 (n * f.one / d) - f.fraction

theorem nearest_eq (f : BinaryFormat) (n d : ℕ) : f.nearest n d =
    min (f.excess n d * 2 ^ f.fraction + roundHalfEven (n * f.one) (d * 2 ^ f.excess n d)) f.infinity :=
  rfl

/-- A ratio that is too long for the fraction fills it. -/
theorem excess_spec (f : BinaryFormat) (n d : ℕ) :
    (2 ^ f.fraction * 2 ^ f.excess n d ≤ n * f.one / d ∨ f.excess n d = 0) ∧
      n * f.one / d < 2 * 2 ^ f.fraction * 2 ^ f.excess n d := by
  rw [← Nat.pow_succ', ← Nat.pow_add, ← Nat.pow_add]
  by_cases hzero : n * f.one / d = 0
  · rw [hzero]
    exact ⟨.inr (by simp [excess, hzero, Nat.log2_zero]), Nat.two_pow_pos _⟩
  · have hlog := (Nat.log2_eq_iff (k := Nat.log2 (n * f.one / d)) hzero).mp rfl
    unfold excess
    constructor
    · by_cases hlong : f.fraction ≤ Nat.log2 (n * f.one / d)
      · left
        rw [Nat.add_sub_cancel' hlong]
        exact hlog.1
      · right
        omega
    · exact Nat.lt_of_lt_of_le hlog.2 (Nat.pow_le_pow_right (by decide) (by omega))

theorem le_roundHalfEven (n d : ℕ) : n / d ≤ roundHalfEven n d := by
  rcases roundHalfEven_cases n d with ⟨h, -⟩ | ⟨h, -⟩ <;> omega

/-- What is rounded to the fraction fills it, but for ratios below the smallest power of
two with a full fraction; a carry is possible. -/
theorem rounded_bounds (f : BinaryFormat) (n d : ℕ) :
    (2 ^ f.fraction ≤ roundHalfEven (n * f.one) (d * 2 ^ f.excess n d) ∨ f.excess n d = 0) ∧
      roundHalfEven (n * f.one) (d * 2 ^ f.excess n d) ≤ 2 * 2 ^ f.fraction := by
  obtain ⟨hlower, hupper⟩ := f.excess_spec n d
  have hpos := Nat.two_pow_pos (f.excess n d)
  constructor
  · refine hlower.imp_left fun h ↦ Nat.le_trans ?_ (le_roundHalfEven _ _)
    rw [← Nat.div_div_eq_div_mul]
    exact (Nat.le_div_iff_mul_le hpos).mpr h
  · refine Nat.le_trans (roundHalfEven_le _ _) ?_
    rw [← Nat.div_div_eq_div_mul]
    exact Nat.succ_le_of_lt ((Nat.div_lt_iff_lt_mul hpos).mpr hupper)

/-- What the nearest magnitude denotes. -/
theorem units_nearest (h : f.nearest n d < f.infinity) : f.units (f.nearest n d) =
    roundHalfEven (n * f.one) (d * 2 ^ f.excess n d) * 2 ^ f.excess n d := by
  obtain ⟨hlower, hupper⟩ := f.rounded_bounds n d
  have hmin : f.nearest n d =
      f.excess n d * 2 ^ f.fraction + roundHalfEven (n * f.one) (d * 2 ^ f.excess n d) := by
    rw [nearest_eq] at h ⊢
    omega
  rw [hmin, units_shifted hlower hupper]

/-- Rounding to a format keeps the order of ratios. -/
theorem nearest_mono (hd : 0 < d) (hd' : 0 < d') (h : n * d' ≤ n' * d) :
    f.nearest n d ≤ f.nearest n' d' := by
  have hunits : n * f.one * d' ≤ n' * f.one * d := by
    calc n * f.one * d' = n * d' * f.one := by ring
      _ ≤ n' * d * f.one := Nat.mul_le_mul_right _ h
      _ = n' * f.one * d := by ring
  have hquotient : n * f.one / d ≤ n' * f.one / d' := by
    rw [Nat.le_div_iff_mul_le hd']
    refine Nat.le_of_mul_le_mul_right ?_ hd
    calc n * f.one / d * d' * d = n * f.one / d * d * d' := by ring
      _ ≤ n * f.one * d' := Nat.mul_le_mul_right _ (Nat.div_mul_le_self _ _)
      _ ≤ n' * f.one * d := hunits
  have hexcess : f.excess n d ≤ f.excess n' d' := by
    have hlog : Nat.log2 (n * f.one / d) ≤ Nat.log2 (n' * f.one / d') := by
      by_cases hzero : n * f.one / d = 0
      · simp [hzero, Nat.log2_zero]
      · have hpos := Nat.lt_of_lt_of_le (Nat.pos_of_ne_zero hzero) hquotient
        exact (Nat.le_log2 hpos.ne').mpr ((Nat.log2_self_le hzero).trans hquotient)
    exact Nat.sub_le_sub_right hlog _
  obtain ⟨-, hupper⟩ := f.rounded_bounds n d
  obtain ⟨hlower, -⟩ := f.rounded_bounds n' d'
  rw [nearest_eq, nearest_eq]
  refine min_le_min_right _ ?_
  rcases Nat.eq_or_lt_of_le hexcess with heq | hlt
  · have hpos := Nat.two_pow_pos (f.excess n' d')
    rw [heq]
    refine Nat.add_le_add_left (roundHalfEven_mono (Nat.mul_pos hd hpos) (Nat.mul_pos hd' hpos) ?_) _
    calc n * f.one * (d' * 2 ^ f.excess n' d') = n * f.one * d' * 2 ^ f.excess n' d' := by ring
      _ ≤ n' * f.one * d * 2 ^ f.excess n' d' := Nat.mul_le_mul_right _ hunits
      _ = n' * f.one * (d * 2 ^ f.excess n' d') := by ring
  · -- the longer ratio fills its fraction, and the shorter one has at most a carry
    have hfills := hlower.resolve_right (by omega)
    have hstep := Nat.mul_le_mul_right (2 ^ f.fraction) hlt
    rw [Nat.succ_mul] at hstep
    omega

/-- A ratio that is not too small is rounded by at most half a step of its size. -/
theorem abs_units_nearest_sub_le (hd : 0 < d) (h : f.nearest n d < f.infinity)
    (hfull : 2 ^ f.fraction ≤ n * f.one / d) :
    |(f.units (f.nearest n d) : ℚ) - n * f.one / d| ≤ n * f.one / d / 2 ^ (f.fraction + 1) := by
  have hpos := Nat.two_pow_pos (f.excess n d)
  have hd' : (0 : ℚ) < d := by exact_mod_cast hd
  have herror := abs_div_sub_roundHalfEven_le (n := n * f.one) (Nat.mul_pos hd hpos)
  have hscale : (0 : ℚ) < 2 ^ f.excess n d := by positivity
  have hstep : (2 : ℚ) ^ f.fraction * 2 ^ f.excess n d ≤ n * f.one / d := by
    have hlong : 2 ^ f.fraction * 2 ^ f.excess n d ≤ n * f.one / d := by
      obtain ⟨hlower | hzero, -⟩ := f.excess_spec n d
      · exact hlower
      · rwa [hzero, Nat.pow_zero, Nat.mul_one]
    rw [le_div_iff₀ hd']
    exact_mod_cast (Nat.le_div_iff_mul_le hd).mp hlong
  rw [units_nearest h]
  push_cast at herror ⊢
  have hratio : (n : ℚ) * f.one / d = n * f.one / (d * 2 ^ f.excess n d) * 2 ^ f.excess n d := by
    field_simp
  calc |(roundHalfEven (n * f.one) (d * 2 ^ f.excess n d) : ℚ) * 2 ^ f.excess n d - n * f.one / d|
      = |(n : ℚ) * f.one / (d * 2 ^ f.excess n d) -
          roundHalfEven (n * f.one) (d * 2 ^ f.excess n d)| * 2 ^ f.excess n d := by
        rw [hratio, ← sub_mul, abs_mul, abs_of_pos hscale, abs_sub_comm]
    _ ≤ 1 / 2 * 2 ^ f.excess n d := mul_le_mul_of_nonneg_right herror hscale.le
    _ ≤ n * f.one / d / 2 ^ (f.fraction + 1) := by
        rw [le_div_iff₀ (by positivity), pow_succ]
        linarith

end BinaryFormat

end Storyline
