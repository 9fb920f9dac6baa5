import Storyline.Duration

/-!
# The clock

When spans end and when tickers tick.  A span ends at the first millisecond that
is not before its exact end; the ticks of a ticker with a period of at least a
millisecond come one after the other.
-/

namespace Storyline.Duration

theorem clockAt_eq_some_iff {n t : Nat} :
    clockAt n = some t ↔
      n / nanosPerSecond < 2 ^ 63 ∧ t = (n + (nanosPerMilli - 1)) / nanosPerMilli := by
  unfold clockAt
  split
  next h => exact ⟨fun ht ↦ ⟨h, (Option.some.inj ht).symm⟩, fun ht ↦ by rw [ht.2]⟩
  next h => exact ⟨fun ht ↦ (by cases ht), fun ht ↦ absurd ht.1 h⟩

theorem clockAt_lt {m n t u : Nat} (hm : clockAt m = some t) (hn : clockAt n = some u)
    (h : m + nanosPerMilli ≤ n) : t < u := by
  obtain ⟨-, rfl⟩ := clockAt_eq_some_iff.mp hm
  obtain ⟨-, rfl⟩ := clockAt_eq_some_iff.mp hn
  simp only [nanosPerMilli] at h ⊢
  omega

theorem le_endFrom {d : Duration} {start t : Nat} (h : d.endFrom start = some t) : start ≤ t := by
  obtain ⟨-, rfl⟩ := clockAt_eq_some_iff.mp h
  simp only [nanosPerMilli]
  omega

theorem nanosPerMilli_le_period (d : Duration) : nanosPerMilli ≤ d.period.nanos := by
  simp only [period, atLeast, ofMillis]
  exact Nat.le_max_left _ _

/-- A tick that the clock can show later, it can show earlier. -/
theorem tickFrom_isSome {d : Duration} {start later k : Nat} (hle : start ≤ later)
    (h : (d.tickFrom later k).isSome = true) : (d.tickFrom start k).isSome = true := by
  rw [Option.isSome_iff_exists] at h ⊢
  obtain ⟨t, ht⟩ := h
  obtain ⟨hlt, -⟩ := clockAt_eq_some_iff.mp ht
  refine ⟨_, clockAt_eq_some_iff.mpr ⟨?_, rfl⟩⟩
  simp only [nanosPerMilli, nanosPerSecond] at hlt ⊢
  omega

/-- A tick is not after those that follow it. -/
theorem tickFrom_mono {d : Duration} {start j k t : Nat} (hle : j ≤ k)
    (h : d.tickFrom start k = some t) : ∃ u, d.tickFrom start j = some u ∧ u ≤ t := by
  obtain ⟨hlt, rfl⟩ := clockAt_eq_some_iff.mp h
  have hspan := Nat.mul_le_mul_right d.nanos hle
  refine ⟨_, clockAt_eq_some_iff.mpr ⟨?_, rfl⟩, ?_⟩
  · simp only [nanosPerMilli, nanosPerSecond] at hlt ⊢
    omega
  · simp only [nanosPerMilli]
    omega

/-- A tick comes before the next one. -/
theorem tickFrom_lt_succ {d : Duration} {start k t u : Nat}
    (ht : d.period.tickFrom start k = some t) (hu : d.period.tickFrom start (k + 1) = some u) :
    t < u := by
  refine clockAt_lt ht hu ?_
  have hd := nanosPerMilli_le_period d
  rw [Nat.succ_mul]
  omega

/-- The first tick comes after the start. -/
theorem start_lt_tickFrom {d : Duration} {start t : Nat}
    (h : d.period.tickFrom start 1 = some t) : start < t := by
  obtain ⟨-, rfl⟩ := clockAt_eq_some_iff.mp h
  have hd := nanosPerMilli_le_period d
  simp only [nanosPerMilli] at hd ⊢
  omega

end Storyline.Duration
