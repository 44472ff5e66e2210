/- Module: Epilog/Lib/Dyadic
   digest: Integers scaled by powers of two: shifting, comparing, and the normal form. -/

import Mathlib.Algebra.Order.Field.Power
import Mathlib.Algebra.Order.Ring.Rat
import Mathlib.Tactic.FieldSimp
import Mathlib.Tactic.Linarith
import Mathlib.Tactic.Ring

set_option autoImplicit false

namespace Epilog.Lib.Dyadic

/-- The integer `m` scaled by `2 ^ e` -/
def dyad (m e : ℤ) : ℚ := m * 2 ^ e

variable {m n e f : ℤ}

theorem two_zpow_pos (e : ℤ) : (0 : ℚ) < 2 ^ e := zpow_pos (by norm_num) e

section Arithmetic

theorem dyad_zero (e : ℤ) : dyad 0 e = 0 := by
  rw [dyad, Int.cast_zero, zero_mul]

theorem dyad_shift (m e : ℤ) (k : ℕ) : dyad (m * 2 ^ k) e = dyad m (e + k) := by
  rw [dyad, dyad, zpow_add₀ (by norm_num), zpow_natCast]
  push_cast
  ring

theorem dyad_mul (m n e f : ℤ) : dyad m e * dyad n f = dyad (m * n) (e + f) := by
  rw [dyad, dyad, dyad, zpow_add₀ (by norm_num)]
  push_cast
  ring

theorem dyad_add (m n e : ℤ) : dyad m e + dyad n e = dyad (m + n) e := by
  rw [dyad, dyad, dyad]
  push_cast
  ring

theorem dyad_sub (m n e : ℤ) : dyad m e - dyad n e = dyad (m - n) e := by
  rw [dyad, dyad, dyad]
  push_cast
  ring

/-- What rounding down to a multiple of `2 ^ k` loses -/
theorem dyad_floor (m e : ℤ) (k : ℕ) : dyad (m / 2 ^ k) (e + k) = dyad (m - m % 2 ^ k) e := by
  rw [← dyad_shift]
  congr 1
  have parts := Int.mul_ediv_add_emod m (2 ^ k)
  linarith

theorem abs_dyad (m e : ℤ) : |dyad m e| = dyad |m| e := by
  rw [dyad, dyad, abs_mul, abs_of_pos (two_zpow_pos e), Int.cast_abs]

end Arithmetic

section Order

theorem dyad_lt_dyad : dyad m e < dyad n e ↔ m < n := by
  rw [dyad, dyad, mul_lt_mul_iff_left₀ (two_zpow_pos e), Int.cast_lt]

theorem dyad_le_dyad : dyad m e ≤ dyad n e ↔ m ≤ n := by
  rw [dyad, dyad, mul_le_mul_iff_left₀ (two_zpow_pos e), Int.cast_le]

theorem dyad_inj : dyad m e = dyad n e ↔ m = n := by
  rw [le_antisymm_iff, dyad_le_dyad, dyad_le_dyad, ← le_antisymm_iff]

theorem dyad_eq_zero : dyad m e = 0 ↔ m = 0 := by
  rw [← dyad_zero e, dyad_inj]

theorem dyad_nonneg : 0 ≤ dyad m e ↔ 0 ≤ m := by
  rw [← dyad_zero e, dyad_le_dyad]

theorem dyad_emod_nonneg (m e : ℤ) (k : ℕ) : 0 ≤ dyad (m % 2 ^ k) e :=
  dyad_nonneg.2 (Int.emod_nonneg m (by positivity))

theorem dyad_emod_lt (m e : ℤ) (k : ℕ) : dyad (m % 2 ^ k) e < dyad 1 (e + k) := by
  rw [← dyad_shift, one_mul, dyad_lt_dyad]
  exact Int.emod_lt_of_pos m (by positivity)

/-- The part that is rounded away is below the last place only when it is nothing. -/
theorem dyad_emod_lt_one (m e : ℤ) (k : ℕ) : dyad (m % 2 ^ k) e < dyad 1 e ↔ 2 ^ k ∣ m := by
  have nonneg := Int.emod_nonneg m (show (2 : ℤ) ^ k ≠ 0 by positivity)
  rw [dyad_lt_dyad, Int.dvd_iff_emod_eq_zero]
  omega

end Order

section NormalForm

variable {w : ℕ}

/-- `m` has exactly `w + 1` bits. -/
def HasBits (w : ℕ) (m : ℤ) : Prop := 2 ^ w ≤ |m| ∧ |m| < 2 ^ (w + 1)

theorem HasBits.ne_zero (bits : HasBits w m) : m ≠ 0 := by
  rintro rfl
  have low := bits.1
  rw [abs_zero] at low
  exact absurd low (not_le.2 (by positivity))

/-- With as many bits, the magnitude shows the exponent. -/
theorem exponent_le (bits : HasBits w m) (bits' : HasBits w n)
    (less : |dyad m e| ≤ |dyad n f|) : e ≤ f := by
  by_contra more
  obtain ⟨k, rfl⟩ : ∃ k : ℕ, e = f + (k + 1) := ⟨(e - f - 1).toNat, by omega⟩
  rw [abs_dyad, abs_dyad, show f + ((k : ℤ) + 1) = f + ((k + 1 : ℕ) : ℤ) by push_cast; rfl,
    ← dyad_shift, dyad_le_dyad] at less
  have low : (2 : ℤ) ^ (w + 1) ≤ |m| * 2 ^ (k + 1) := by
    calc (2 : ℤ) ^ (w + 1) = 2 ^ w * 2 ^ 1 := pow_add ..
      _ ≤ |m| * 2 ^ (k + 1) :=
        mul_le_mul bits.1 (pow_le_pow_right₀ (by norm_num) (by omega)) (by positivity)
          (abs_nonneg m)
  exact absurd (low.trans less) (not_le.2 bits'.2)

/-- Values with as many bits are equal only when their parts are. -/
theorem dyad_unique (bits : HasBits w m) (bits' : HasBits w n) (same : dyad m e = dyad n f) :
    m = n ∧ e = f := by
  have equal : e = f := le_antisymm (exponent_le bits bits' (same ▸ le_rfl))
    (exponent_le bits' bits (same ▸ le_rfl))
  subst equal
  exact ⟨dyad_inj.1 same, rfl⟩

end NormalForm

end Epilog.Lib.Dyadic
