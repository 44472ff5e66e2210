/- Module: Epilog/Pow/Division
   source: src/src/pow/fxp.hpp (reciprocal, operator /, operator /=)
   digest: Fixed-point reciprocals and quotients against the exact ones. -/

import Epilog.Lib.Newton
import Epilog.Pow.Floating

set_option autoImplicit false

namespace Epilog.Pow.Division

open Epilog.Global.MetaTerms Epilog.Pow.Target Epilog.Pow.FixedPoint Epilog.Pow.Floating
open Epilog.Lib.Newton

section Model

/-- The shifts of `operator /`, by a count that is negative for a shift to the right -/
def shiftBy (v : UInt64) (count : ℤ) : UInt64 :=
  if count < 0 then fxpShiftRight v (-count).toNat else fxpShiftLeft v count.toNat

/-- The quotient by a reciprocal: the divisor is shifted to between one and two, and the dividend
with it. -/
def quotient (a b : UInt64) : UInt64 :=
  let toOrigin := 48 - posMsb b
  fxpMul (shiftBy a toOrigin) (fxpReciprocal (shiftBy b toOrigin))

/-- `operator /` -/
def fxpDiv (a b : UInt64) : UInt64 :=
  if a = 0 then a else if b = 0 then maxOrMin (!isNegative a) else quotient a b

/-- `operator /=`, which does not look for a divisor that is zero -/
def fxpDivAssign (a b : UInt64) : UInt64 := if a = 0 then a else quotient a b

end Model

section Reals

/-- The number that a word stands for -/
noncomputable def real (v : UInt64) : ℝ := value v / 2 ^ 48

/-- The last place -/
noncomputable def ulp : ℝ := 1 / 2 ^ 48

theorem ulp_pos : 0 < ulp := by
  unfold ulp
  positivity

variable {x y : UInt64}

def Fits (r : ℝ) : Prop := |r| < 2 ^ 15

theorem real_bounds (v : UInt64) : -2 ^ 15 ≤ real v ∧ real v < 2 ^ 15 := by
  obtain ⟨low, high⟩ := value_bounds v
  have low' : (-2 ^ 63 : ℝ) ≤ value v := by exact_mod_cast low
  have high' : (value v : ℝ) < 2 ^ 63 := by exact_mod_cast high
  unfold real
  constructor
  · rw [le_div_iff₀ (by positivity)]
    linarith
  · rw [div_lt_iff₀ (by positivity)]
    linarith

theorem fits_of_cast {z : ℤ} (fits : Fits ((z : ℝ) / 2 ^ 48)) : -2 ^ 63 < z ∧ z < 2 ^ 63 := by
  obtain ⟨low, high⟩ := abs_lt.mp fits
  rw [lt_div_iff₀ (by positivity)] at low
  rw [div_lt_iff₀ (by positivity)] at high
  constructor
  · have less : (-2 ^ 63 : ℝ) < z := by linarith
    exact_mod_cast less
  · have less : (z : ℝ) < 2 ^ 63 := by linarith
    exact_mod_cast less

theorem real_add (fits : Fits (real x + real y)) : real (fxpAdd x y) = real x + real y := by
  have sum : real x + real y = ((value x + value y : ℤ) : ℝ) / 2 ^ 48 := by
    unfold real
    push_cast
    ring
  rw [sum] at fits ⊢
  obtain ⟨low, high⟩ := fits_of_cast fits
  rw [real, value_fxpAdd, clamp_of_fits low.le high]

theorem real_sub (fits : Fits (real x - real y)) : real (fxpSub x y) = real x - real y := by
  have difference : real x - real y = ((value x - value y : ℤ) : ℝ) / 2 ^ 48 := by
    unfold real
    push_cast
    ring
  rw [difference] at fits ⊢
  obtain ⟨low, high⟩ := fits_of_cast fits
  rw [real, value_fxpSub, clamp_of_fits low.le high]

theorem abs_truncated_sub (z : ℤ) : |(truncated z : ℝ) - z / 2 ^ 48| ≤ 1 := by
  by_cases zero : z = 0
  · rw [zero]
    norm_num [truncated]
  · have natural := Nat.div_add_mod z.natAbs (2 ^ 48)
    have less := Nat.mod_lt z.natAbs (show 0 < 2 ^ 48 by norm_num)
    have size : (z.natAbs : ℤ) = |z| := Int.natCast_natAbs z
    have lower : (|z| : ℤ) ≤ max 1 ((z.natAbs / 2 ^ 48 : ℕ) : ℤ) * 2 ^ 48 + 2 ^ 48 := by omega
    have upper : max 1 ((z.natAbs / 2 ^ 48 : ℕ) : ℤ) * 2 ^ 48 ≤ |z| + 2 ^ 48 := by
      have positive : 0 < |z| := abs_pos.mpr zero
      omega
    rw [truncated_eq zero]
    generalize max 1 ((z.natAbs / 2 ^ 48 : ℕ) : ℤ) = q at lower upper
    have lower' : |(z : ℝ)| ≤ q * 2 ^ 48 + 2 ^ 48 := by exact_mod_cast lower
    have upper' : (q : ℝ) * 2 ^ 48 ≤ |(z : ℝ)| + 2 ^ 48 := by exact_mod_cast upper
    have scaled : |(q : ℝ) - |(z : ℝ)| / 2 ^ 48| ≤ 1 := by
      rw [abs_le]
      constructor
      · rw [neg_le_sub_iff_le_add, div_le_iff₀ (by positivity)]
        linarith
      · rw [sub_le_iff_le_add, ← sub_le_iff_le_add', le_div_iff₀ (by positivity)]
        linarith
    split_ifs with negative
    · have sign : (z : ℝ) < 0 := by exact_mod_cast negative
      rw [abs_of_neg sign] at scaled
      push_cast
      rw [← abs_neg]
      convert scaled using 2
      ring
    · have sign : (0 : ℝ) ≤ z := by exact_mod_cast not_lt.mp negative
      rw [abs_of_nonneg sign] at scaled
      push_cast
      rw [one_mul]
      exact scaled

theorem real_mul_cast (x y : UInt64) :
    real x * real y = ((value x * value y : ℤ) : ℝ) / 2 ^ 48 / 2 ^ 48 := by
  unfold real
  push_cast
  ring

theorem abs_clamp_sub {z : ℤ} {r : ℝ} (low : -2 ^ 63 ≤ r) (high : r ≤ 2 ^ 63 - 1) :
    |(clamp z : ℝ) - r| ≤ |(z : ℝ) - r| := by
  by_cases under : z ≤ -2 ^ 63
  · have cast : (z : ℝ) ≤ -2 ^ 63 := by exact_mod_cast under
    rw [clamp_of_le under, abs_of_nonpos (by push_cast; linarith), abs_of_nonpos (by linarith)]
    push_cast
    linarith
  · by_cases over_ : 2 ^ 63 - 1 ≤ z
    · have cast : (2 ^ 63 - 1 : ℝ) ≤ z := by exact_mod_cast over_
      rw [clamp_of_ge over_, abs_of_nonneg (by push_cast; linarith), abs_of_nonneg (by linarith)]
      push_cast
      linarith
    · rw [clamp_of_fits (by omega) (by omega)]

theorem mul_near {r : ℝ} (bound : |real x * real y| < 2 ^ 16) (low : -2 ^ 15 ≤ r)
    (high : r ≤ 2 ^ 15 - ulp) :
    |real (fxpMul x y) - r| ≤ |real x * real y - r| + ulp := by
  have close := abs_truncated_sub (value x * value y)
  have small : (value x * value y).natAbs / 2 ^ 48 < 2 ^ 64 := by
    rw [real_mul_cast, abs_div, abs_div, abs_of_pos (show (0 : ℝ) < 2 ^ 48 by positivity),
      div_lt_iff₀ (by positivity), div_lt_iff₀ (by positivity)] at bound
    have whole : |value x * value y| < 2 ^ 64 * 2 ^ 48 := by
      have cast : ((|value x * value y| : ℤ) : ℝ) < 2 ^ 64 * 2 ^ 48 := by
        rw [Int.cast_abs]
        linarith
      exact_mod_cast cast
    rw [Int.abs_eq_natAbs] at whole
    rw [Nat.div_lt_iff_lt_mul (by norm_num)]
    omega
  rw [real, (fxpMul_iff x y).mpr (.inl small), real_mul_cast]
  generalize value x * value y = z at close
  have scale : (0 : ℝ) < 2 ^ 48 := by positivity
  have last : (ulp : ℝ) * 2 ^ 48 = 1 := by
    rw [ulp, one_div_mul_cancel scale.ne']
  have least : -2 ^ 63 ≤ r * 2 ^ 48 := by linarith [mul_le_mul_of_nonneg_right low scale.le]
  have most : r * 2 ^ 48 ≤ 2 ^ 63 - 1 := by linarith [mul_le_mul_of_nonneg_right high scale.le]
  have word := abs_clamp_sub (z := truncated z) least most
  have outer : |(truncated z : ℝ) - r * 2 ^ 48| ≤ 1 + |(z : ℝ) / 2 ^ 48 - r * 2 ^ 48| :=
    (abs_sub_le _ ((z : ℝ) / 2 ^ 48) _).trans (add_le_add_left close _)
  have left : (clamp (truncated z) : ℝ) / 2 ^ 48 - r =
      ((clamp (truncated z) : ℝ) - r * 2 ^ 48) / 2 ^ 48 := by
    field_simp
  have right : (z : ℝ) / 2 ^ 48 / 2 ^ 48 - r = ((z : ℝ) / 2 ^ 48 - r * 2 ^ 48) / 2 ^ 48 := by
    field_simp
  rw [left, right, abs_div, abs_div, abs_of_pos scale, ulp, ← add_div]
  exact div_le_div_of_nonneg_right ((word.trans outer).trans_eq (add_comm _ _)) scale.le

theorem abs_real_mul_sub (low : -2 ^ 15 ≤ real x * real y) (high : real x * real y ≤ 2 ^ 15 - ulp) :
    |real (fxpMul x y) - real x * real y| ≤ ulp := by
  have small : |real x * real y| < 2 ^ 16 := by
    have positive := ulp_pos
    exact abs_lt.mpr ⟨by linarith, by linarith⟩
  have near := mul_near small low high
  rw [sub_self, abs_zero, zero_add] at near
  exact near

end Reals

section Reciprocals

variable {v dp x : UInt64} {E : ℝ}

theorem ulp_small : ulp ≤ 1 / 10 ^ 14 := by
  unfold ulp
  norm_num

theorem real_of_toNat (small : v.toNat < 2 ^ 63) : real v = v.toNat / 2 ^ 48 := by
  rw [real, value_eq, if_pos small]
  rfl

theorem real_one : real 0x1000000000000 = 1 := by
  rw [real, show value 0x1000000000000 = 2 ^ 48 by decide]
  norm_num

theorem newton_near (half : 1 / 2 ≤ real dp) (one : real dp ≤ 1)
    (near : |1 - real dp * real x| ≤ E) (less : E ≤ 1 / 8) :
    |1 - real dp * real (newton dp x)| ≤ E ^ 2 + 4 * ulp := by
  have tiny := ulp_small
  have last := ulp_pos
  obtain ⟨low, high⟩ := abs_le.mp near
  have positive : 0 < real x :=
    (mul_pos_iff_of_pos_left (by linarith : 0 < real dp)).mp (by linarith)
  have most : real x ≤ 9 / 4 := by
    have twice := mul_le_mul_of_nonneg_right half positive.le
    linarith
  have first : |real (fxpMul dp x) - real dp * real x| ≤ ulp :=
    abs_real_mul_sub (by linarith) (by linarith)
  obtain ⟨below, above⟩ := abs_le.mp first
  have rest : real (fxpSub 0x1000000000000 (fxpMul dp x)) = 1 - real (fxpMul dp x) := by
    rw [real_sub, real_one]
    rw [real_one]
    exact abs_lt.mpr ⟨by linarith, by linarith⟩
  have size : |1 - real (fxpMul dp x)| ≤ 1 / 4 := abs_le.mpr ⟨by linarith, by linarith⟩
  have product : |real x * (1 - real (fxpMul dp x))| ≤ 1 := by
    rw [abs_mul, abs_of_pos positive]
    calc real x * |1 - real (fxpMul dp x)| ≤ 9 / 4 * (1 / 4) := by gcongr
      _ ≤ 1 := by norm_num
  obtain ⟨least, greatest⟩ := abs_le.mp product
  have second : |real (fxpMul x (fxpSub 0x1000000000000 (fxpMul dp x))) -
      real x * (1 - real (fxpMul dp x))| ≤ ulp := by
    rw [← rest] at least greatest ⊢
    exact abs_real_mul_sub (by linarith) (by linarith)
  obtain ⟨lower, upper⟩ := abs_le.mp second
  have sum : real (newton dp x) =
      real x + real (fxpMul x (fxpSub 0x1000000000000 (fxpMul dp x))) :=
    real_add (abs_lt.mpr ⟨by linarith, by linarith⟩)
  refine reciprocal_step (by linarith) one near ?_
  have split : real (newton dp x) - (real x + real x * (1 - real dp * real x)) =
      (real (fxpMul x (fxpSub 0x1000000000000 (fxpMul dp x))) -
        real x * (1 - real (fxpMul dp x))) -
      real x * (real (fxpMul dp x) - real dp * real x) := by
    rw [sum]
    ring
  have own : |real x * (real (fxpMul dp x) - real dp * real x)| ≤ 9 / 4 * ulp := by
    rw [abs_mul, abs_of_pos positive]
    gcongr
  rw [split]
  calc _ ≤ ulp + 9 / 4 * ulp := (abs_sub _ _).trans (add_le_add second own)
    _ ≤ 4 * ulp := by linarith

theorem guess_near (half : 1 / 2 ≤ real dp) (one : real dp ≤ 1) :
    |1 - real dp * real (fxpSub 0x2d2d2d2d2d2d2 (fxpMul 0x1e1e1e1e1e1e1 dp))| ≤ 1 / 16 := by
  have tiny := ulp_small
  have last := ulp_pos
  have c4817 : real 0x2d2d2d2d2d2d2 = 0x2d2d2d2d2d2d2 / 2 ^ 48 := by
    rw [real, show value 0x2d2d2d2d2d2d2 = 0x2d2d2d2d2d2d2 by decide]
    norm_num
  have c3217 : real 0x1e1e1e1e1e1e1 = 0x1e1e1e1e1e1e1 / 2 ^ 48 := by
    rw [real, show value 0x1e1e1e1e1e1e1 = 0x1e1e1e1e1e1e1 by decide]
    norm_num
  have product : |real (fxpMul 0x1e1e1e1e1e1e1 dp) - real 0x1e1e1e1e1e1e1 * real dp| ≤ ulp := by
    apply abs_real_mul_sub <;> rw [c3217] <;> linarith
  obtain ⟨below, above⟩ := abs_le.mp product
  rw [c3217] at below above
  have difference : real (fxpSub 0x2d2d2d2d2d2d2 (fxpMul 0x1e1e1e1e1e1e1 dp)) =
      real 0x2d2d2d2d2d2d2 - real (fxpMul 0x1e1e1e1e1e1e1 dp) := by
    apply real_sub
    rw [c4817]
    exact abs_lt.mpr ⟨by linarith, by linarith⟩
  rw [difference, c4817]
  generalize real (fxpMul 0x1e1e1e1e1e1e1 dp) = m at below above
  generalize real dp = p at *
  have square : 0 ≤ (p - 3 / 4) ^ 2 := sq_nonneg _
  have inside : 0 ≤ (p - 1 / 2) * (1 - p) := mul_nonneg (by linarith) (by linarith)
  have positive : 0 ≤ p := by linarith
  have least := mul_le_mul_of_nonneg_left below positive
  have most := mul_le_mul_of_nonneg_left above positive
  rw [abs_le]
  constructor <;> nlinarith

theorem rounds_near (half : 1 / 2 ≤ real dp) (one : real dp ≤ 1) :
    |1 - real dp * real ((newton dp)^[6]
      (fxpSub 0x2d2d2d2d2d2d2 (fxpMul 0x1e1e1e1e1e1e1 dp)))| ≤ 5 * ulp := by
  have tiny := ulp_small
  have last : ulp = 1 / 2 ^ 48 := rfl
  simp only [Function.iterate_succ_apply', Function.iterate_zero_apply]
  have round0 := guess_near half one
  have round1 := newton_near half one round0 (by norm_num)
  have round2 := newton_near half one (round1.trans
    (show (1 / 16 : ℝ) ^ 2 + 4 * ulp ≤ 1 / 250 by rw [last]; norm_num)) (by norm_num)
  have round3 := newton_near half one (round2.trans
    (show (1 / 250 : ℝ) ^ 2 + 4 * ulp ≤ 1 / 60000 by rw [last]; norm_num)) (by norm_num)
  have round4 := newton_near half one (round3.trans
    (show (1 / 60000 : ℝ) ^ 2 + 4 * ulp ≤ 1 / 10 ^ 9 by rw [last]; norm_num)) (by norm_num)
  have round5 := newton_near half one (round4.trans
    (show (1 / 10 ^ 9 : ℝ) ^ 2 + 4 * ulp ≤ 5 * ulp by rw [last]; norm_num)) (by linarith)
  have round6 := newton_near half one (round5.trans
    (show (5 * ulp) ^ 2 + 4 * ulp ≤ 5 * ulp by rw [last]; norm_num)) (by linarith)
  exact round6.trans (by rw [last]; norm_num)

end Reciprocals

section Scaling

variable {v x : UInt64} {n : ℕ} {count : ℤ}

theorem toNat_shift_left (small : n < 64) (fits : v.toNat * 2 ^ n < 2 ^ 64) :
    (shift v n).toNat = v.toNat * 2 ^ n := by
  rw [shift, if_neg (by omega), Int.natAbs_natCast, toNat_shiftLeft v small, Nat.mod_eq_of_lt fits]

theorem toNat_shift_right (positive : 0 < n) (small : n < 64) :
    (shift v (-n)).toNat = v.toNat / 2 ^ n := by
  rw [shift, if_pos (by omega), Int.natAbs_neg, Int.natAbs_natCast, toNat_shiftRight v small]

theorem shift_near (small : count.natAbs < 64) (fits : v.toNat * 2 ^ count.toNat < 2 ^ 63) :
    (shift v count).toNat < 2 ^ 63 ∧ ((shift v count).toNat : ℝ) ≤ v.toNat * 2 ^ count ∧
      (v.toNat * 2 ^ count : ℝ) < (shift v count).toNat + 1 := by
  rcases le_or_gt 0 count with up | down
  · obtain ⟨n, rfl⟩ := Int.eq_ofNat_of_zero_le up
    rw [Int.toNat_natCast] at fits
    rw [toNat_shift_left (by omega) (by omega), zpow_natCast]
    push_cast
    exact ⟨fits, le_rfl, lt_add_one _⟩
  · obtain ⟨n, rfl⟩ : ∃ n : ℕ, count = -n := ⟨count.natAbs, by omega⟩
    have least : v.toNat < 2 ^ 63 := by
      rw [show (-(n : ℤ)).toNat = 0 by omega] at fits
      omega
    have natural := Nat.div_add_mod v.toNat (2 ^ n)
    have rest := Nat.mod_lt v.toNat (show 0 < 2 ^ n by positivity)
    have scale : (0 : ℝ) < 2 ^ n := by positivity
    rw [toNat_shift_right (by omega) (by omega), zpow_neg, zpow_natCast, ← div_eq_mul_inv,
      le_div_iff₀ scale, div_lt_iff₀ scale]
    refine ⟨(Nat.div_le_self _ _).trans_lt least, ?_, ?_⟩
    · exact_mod_cast Nat.div_mul_le_self v.toNat (2 ^ n)
    · have less : v.toNat < (v.toNat / 2 ^ n + 1) * 2 ^ n := by
        rw [add_mul, one_mul, mul_comm]
        omega
      exact_mod_cast less

theorem msb_eq (nonzero : v.toNat ≠ 0) : msb v = Nat.log2 v.toNat := by
  rw [msb, if_neg]
  rintro rfl
  exact nonzero rfl

/-- A word is shifted so that its highest bit is at `bit`. -/
structure Scaled (v s : UInt64) (bit : ℕ) : Prop where
  low : 2 ^ bit ≤ s.toNat
  high : s.toNat < 2 ^ (bit + 1)
  below : (s.toNat : ℝ) ≤ v.toNat * 2 ^ (bit - msb v)
  above : (v.toNat * 2 ^ (bit - msb v) : ℝ) < s.toNat + 1

theorem scaled_shift {bit : ℕ} (positive : 0 < v.toNat) (less : v.toNat < 2 ^ 63)
    (narrow : bit < 62) : Scaled v (shift v (bit - msb v)) bit := by
  have top := msb_eq positive.ne'
  have own : 2 ^ Nat.log2 v.toNat ≤ v.toNat := Nat.log2_self_le positive.ne'
  have next : v.toNat < 2 ^ (Nat.log2 v.toNat + 1) := Nat.lt_log2_self
  have bits : Nat.log2 v.toNat < 63 := (Nat.log2_lt positive.ne').mpr less
  have fits : v.toNat * 2 ^ ((bit : ℤ) - msb v).toNat < 2 ^ 63 := by
    rcases le_or_gt (Nat.log2 v.toNat) bit with up | down
    · have count : ((bit : ℤ) - msb v).toNat = bit - Nat.log2 v.toNat := by omega
      rw [count]
      calc v.toNat * 2 ^ (bit - Nat.log2 v.toNat)
          < 2 ^ (Nat.log2 v.toNat + 1) * 2 ^ (bit - Nat.log2 v.toNat) :=
            Nat.mul_lt_mul_of_pos_right next (by positivity)
        _ = 2 ^ (bit + 1) := by rw [← pow_add]; congr 1; omega
        _ ≤ 2 ^ 63 := Nat.pow_le_pow_right (by norm_num) (by omega)
    · have count : ((bit : ℤ) - msb v).toNat = 0 := by omega
      rw [count]
      omega
  obtain ⟨-, below, above⟩ := shift_near (show ((bit : ℤ) - msb v).natAbs < 64 by omega) fits
  have whole : (2 : ℝ) ^ Nat.log2 v.toNat * 2 ^ ((bit : ℤ) - msb v) = 2 ^ bit := by
    rw [top, ← zpow_natCast, ← zpow_add₀ two_ne_zero, add_sub_cancel, zpow_natCast]
  have scale : (0 : ℝ) < 2 ^ ((bit : ℤ) - msb v) := by positivity
  have least : (2 : ℝ) ^ bit ≤ v.toNat * 2 ^ ((bit : ℤ) - msb v) := by
    rw [← whole]
    exact mul_le_mul_of_nonneg_right (by exact_mod_cast own) scale.le
  have most : v.toNat * 2 ^ ((bit : ℤ) - msb v) < (2 : ℝ) ^ (bit + 1) := by
    rw [pow_succ, ← whole, mul_right_comm, ← pow_succ]
    exact mul_lt_mul_of_pos_right (by exact_mod_cast next) scale
  refine ⟨?_, ?_, below, above⟩
  · have less := least.trans_lt above
    exact Nat.lt_succ_iff.mp (by exact_mod_cast less)
  · have less := below.trans_lt most
    exact_mod_cast less

theorem real_signed {p : UInt64} (negative : Bool) (some_ : 0 < p.toNat)
    (small : p.toNat < 2 ^ 63) :
    real (signed negative p) = (if negative then -1 else 1) * (p.toNat / 2 ^ 48) := by
  rw [real, value_signed, if_neg (show ¬ 2 ^ 63 ≤ p.toNat by omega),
    show max 1 (p.toNat : ℤ) = p.toNat by omega]
  split_ifs <;> push_cast <;> ring

theorem real_magnitude (v : UInt64) :
    real v = (if isNegative v then -1 else 1) * ((magnitude v).toNat / 2 ^ 48) := by
  rw [toNat_magnitude, isNegative_eq, real, Nat.cast_natAbs]
  by_cases negative : value v < 0
  · rw [if_pos (decide_eq_true negative), abs_of_neg negative, Int.cast_neg]
    ring
  · rw [if_neg (by simpa using negative), abs_of_nonneg (not_lt.mp negative), one_mul]

end Scaling

section Inverses

variable {v x : UInt64}

theorem toNat_of_real (nonneg : 0 ≤ real x) :
    x.toNat < 2 ^ 63 ∧ real x = x.toNat / 2 ^ 48 := by
  have scale : (0 : ℝ) < 2 ^ 48 := by positivity
  have sign : 0 ≤ value x := by
    have cast : (0 : ℝ) ≤ value x := by
      rw [real, div_nonneg_iff] at nonneg
      rcases nonneg with ⟨own, -⟩ | ⟨-, other⟩
      · exact own
      · linarith
    exact_mod_cast cast
  have small : x.toNat < 2 ^ 63 := by
    rw [value_eq] at sign
    have bound := x.toNat_lt
    split_ifs at sign <;> omega
  exact ⟨small, real_of_toNat small⟩

theorem signed_of_small (negative : Bool) (small : x.toNat < 2 ^ 63) : signed negative x =
    if x = 0 then eps (!negative) else if negative then ~~~x + 1 else x := by
  have plain : isNegative x = false := by
    rw [isNegative_eq, value_eq, if_pos small, decide_eq_false_iff_not]
    omega
  rw [signed, if_neg]
  simpa [isNegative] using plain

theorem reciprocal_near (low : 2 ^ 34 ≤ |value v|) (high : |value v| < 2 ^ 63) :
    |real (fxpReciprocal v) * real v - 1| ≤ 8 * ulp + ulp * |real v| := by
  have small := ulp_small
  have tiny := ulp_pos
  have scale : (0 : ℝ) < 2 ^ 48 := by positivity
  have size := toNat_magnitude v
  have whole := real_magnitude v
  rw [Int.abs_eq_natAbs, ← size] at low high
  rw [fxpReciprocal]
  generalize isNegative v = negative at whole
  generalize magnitude v = d at low high whole
  have scaled : Scaled d (shift d (47 - msb d)) 47 :=
    scaled_shift (by omega) (by omega) (by norm_num)
  have bits : 33 < Nat.log2 d.toNat := (Nat.le_log2 (by omega)).mpr (by omega)
  have bits' : Nat.log2 d.toNat < 63 := (Nat.log2_lt (by omega)).mpr (by omega)
  have top := msb_eq (v := d) (by omega)
  have few : 47 - msb d ≤ 13 := by omega
  have span : (47 - msb d).natAbs < 64 := by omega
  have below := scaled.below
  have above := scaled.above
  rw [Nat.cast_ofNat] at below above
  dsimp only
  generalize 47 - msb d = count at *
  generalize shift d count = dp at *
  obtain ⟨half, one⟩ : 1 / 2 ≤ real dp ∧ real dp ≤ 1 := by
    have least : (2 ^ 47 : ℝ) ≤ dp.toNat := by exact_mod_cast scaled.low
    have most : (dp.toNat : ℝ) ≤ 2 ^ 48 := by exact_mod_cast scaled.high.le
    rw [real_of_toNat (scaled.high.trans (by norm_num))]
    constructor
    · rw [le_div_iff₀ scale]
      linarith
    · rw [div_le_one scale]
      exact most
  have rounds := rounds_near half one
  generalize (newton dp)^[6] _ = x at *
  obtain ⟨atLeast, atMost⟩ := abs_le.mp rounds
  have positive : 0 < real x :=
    (mul_pos_iff_of_pos_left (by linarith : 0 < real dp)).mp (by linarith)
  have upper : real x ≤ 3 := by
    have twice := mul_le_mul_of_nonneg_right half positive.le
    linarith
  obtain ⟨plain, equal⟩ := toNat_of_real positive.le
  have narrow : x.toNat < 2 ^ 50 := by
    rw [equal, div_le_iff₀ scale] at upper
    have cast : (x.toNat : ℝ) < 2 ^ 50 := by linarith
    exact_mod_cast cast
  have some_ : 0 < x.toNat := by
    rw [equal, lt_div_iff₀ scale, zero_mul] at positive
    exact_mod_cast positive
  have topX := msb_eq some_.ne'
  have bitsX : Nat.log2 x.toNat < 50 := (Nat.log2_lt some_.ne').mpr narrow
  have fits : x.toNat * 2 ^ count.toNat < 2 ^ 63 := by
    calc x.toNat * 2 ^ count.toNat < 2 ^ 50 * 2 ^ count.toNat :=
          Nat.mul_lt_mul_of_pos_right narrow (by positivity)
      _ ≤ 2 ^ 50 * 2 ^ 13 :=
          Nat.mul_le_mul_left _ (Nat.pow_le_pow_right (by norm_num) (by omega))
      _ = 2 ^ 63 := by norm_num
  obtain ⟨last, under, over_⟩ := shift_near span fits
  rw [if_neg (by omega)]
  generalize shift x count = r at *
  -- both words are the numbers times a power of two, down to the last place
  have close : |(r.toNat / 2 ^ 48 : ℝ) * (d.toNat / 2 ^ 48) - 1| ≤
      5 * ulp + 3 * ulp + ulp * (d.toNat / 2 ^ 48) := by
    have own : real dp = dp.toNat / 2 ^ 48 := real_of_toNat (scaled.high.trans (by norm_num))
    rw [own, equal] at rounds
    have divide : ∀ a b : ℝ, a ≤ b → a / 2 ^ 48 ≤ b / 2 ^ 48 := fun a b le =>
      div_le_div_of_nonneg_right le scale.le
    have least := divide _ _ below
    have most := divide _ _ above.le
    have least' := divide _ _ under
    have most' := divide _ _ over_.le
    rw [mul_div_right_comm] at least least'
    rw [mul_div_right_comm, add_div] at most most'
    exact reciprocal_unscale (by positivity) (by rw [← equal]; exact upper) (by positivity) rounds
      least most least' most'
  have some' : 0 < r.toNat := by
    by_contra none_
    have zero : r.toNat = 0 := by omega
    rw [zero, Nat.cast_zero, zero_div, zero_mul, zero_sub, abs_neg, abs_one] at close
    have wide : (d.toNat / 2 ^ 48 : ℝ) ≤ 2 ^ 15 := by
      have cast : (d.toNat : ℝ) ≤ 2 ^ 63 := by exact_mod_cast high.le
      rw [div_le_iff₀ scale]
      linarith
    have product := mul_le_mul_of_nonneg_left wide tiny.le
    linarith
  have word := signed_of_small negative last
  rw [← word, real_signed negative some' last, whole]
  cases negative <;> simp only [Bool.false_eq_true, if_false, if_true, one_mul] at close ⊢
  · rw [abs_of_nonneg (by positivity : (0 : ℝ) ≤ d.toNat / 2 ^ 48)]
    linarith
  · rw [neg_one_mul, neg_one_mul, neg_mul_neg, abs_neg,
      abs_of_nonneg (by positivity : (0 : ℝ) ≤ d.toNat / 2 ^ 48)]
    linarith

end Inverses

section Signs

variable {x y : UInt64} {count : ℤ}

theorem sign_clamp (z : ℤ) : (clamp z).sign = z.sign := by
  rcases lt_trichotomy z 0 with negative | rfl | positive
  · rw [Int.sign_eq_neg_one_of_neg negative, Int.sign_eq_neg_one_of_neg]
    unfold clamp
    omega
  · rfl
  · rw [Int.sign_eq_one_of_pos positive, Int.sign_eq_one_of_pos]
    unfold clamp
    omega

theorem value_ne_zero (nonzero : x ≠ 0) : value x ≠ 0 := fun none_ => nonzero (value_inj.mp none_)

theorem sign_signed (negative : Bool) (p : UInt64) :
    (value (signed negative p)).sign = if negative then -1 else 1 := by
  rw [value_signed]
  cases negative
  · rw [if_neg Bool.false_ne_true, if_neg Bool.false_ne_true, one_mul, Int.sign_eq_one_of_pos]
    split_ifs <;> omega
  · rw [if_pos rfl, if_pos rfl, Int.sign_eq_neg_one_of_neg]
    split_ifs <;> omega

theorem sign_fxpMul (x y : UInt64) :
    (value (fxpMul x y)).sign = (value x).sign * (value y).sign := by
  by_cases zero : x = 0 ∨ y = 0
  · rw [fxpMul, if_pos zero]
    rcases zero with rfl | rfl
    · exact (zero_mul _).symm
    · exact (mul_zero _).symm
  · obtain ⟨left, right⟩ := not_or.mp zero
    rw [fxpMul_eq left right, sign_signed, isNegative_eq, isNegative_eq]
    rcases (value_ne_zero left).lt_or_gt with low | high <;>
      rcases (value_ne_zero right).lt_or_gt with low' | high'
    · simp [Int.sign_eq_neg_one_of_neg, low, low']
    · simp [Int.sign_eq_neg_one_of_neg, Int.sign_eq_one_of_pos, low, high', high'.not_gt]
    · simp [Int.sign_eq_neg_one_of_neg, Int.sign_eq_one_of_pos, high, low', high.not_gt]
    · simp [Int.sign_eq_one_of_pos, high, high', high.not_gt, high'.not_gt]

theorem value_shiftBy_right {n : ℕ} (positive : 0 < n) : value (shiftBy x (-n)) =
    if 0 < value x ∧ value x < 2 ^ n then 1 else value x / 2 ^ n := by
  have scale : (0 : ℤ) < 2 ^ n := by positivity
  rw [shiftBy, if_pos (by omega), neg_neg, Int.toNat_natCast]
  by_cases floor : value x / 2 ^ n = 0
  · have nonneg : 0 ≤ value x := by
      by_contra negative
      exact absurd floor (Int.ediv_neg_of_neg_of_pos (by omega) scale).ne
    have less : value x < 2 ^ n := by
      by_contra large
      have one := (Int.le_ediv_iff_mul_le scale).mpr ((one_mul _).trans_le (not_lt.mp large))
      omega
    have shifted := value_sshiftRight x n
    rw [floor] at shifted
    rw [fxpShiftRight]
    by_cases zero : x = 0
    · rw [if_pos zero, zero, if_neg (fun inside => absurd inside.1 (by decide))]
      exact (Int.zero_ediv _).symm
    · have some_ := value_ne_zero zero
      have vanished : UInt64.ofBitVec (x.toBitVec.sshiftRight n) = 0 :=
        value_inj.mp (shifted.trans rfl)
      have plain : isNegative x = false := by
        rw [isNegative_eq, decide_eq_false_iff_not]
        omega
      have inside : 0 < value x ∧ value x < 2 ^ n := ⟨by omega, less⟩
      rw [if_neg zero, if_pos inside, vanished, plain]
      rfl
  · rw [value_fxpShiftRight floor, if_neg]
    rintro ⟨above, below⟩
    exact floor (Int.ediv_eq_zero_of_lt above.le below)

theorem value_shiftBy_left {n : ℕ} (small : n < 64) :
    value (shiftBy x n) = clamp (value x * 2 ^ n) := by
  rw [shiftBy, if_neg (by omega), Int.toNat_natCast]
  exact shiftLeft_iff.mpr fun _ => small

theorem sign_shiftBy (small : count < 64) : (value (shiftBy x count)).sign = (value x).sign := by
  rcases le_or_gt 0 count with up | down
  · obtain ⟨n, rfl⟩ := Int.eq_ofNat_of_zero_le up
    rw [value_shiftBy_left (by omega), sign_clamp, Int.sign_mul,
      Int.sign_eq_one_of_pos (show (0 : ℤ) < 2 ^ n by positivity), mul_one]
  · obtain ⟨n, rfl⟩ : ∃ n : ℕ, count = -n := ⟨count.natAbs, by omega⟩
    have scale : (0 : ℤ) < 2 ^ n := by positivity
    rw [value_shiftBy_right (by omega)]
    rcases lt_trichotomy (value x) 0 with negative | zero | positive
    · rw [if_neg (by omega), Int.sign_eq_neg_one_of_neg negative, Int.sign_eq_neg_one_of_neg]
      exact Int.ediv_neg_of_neg_of_pos negative scale
    · rw [zero, if_neg (by omega), Int.zero_ediv]
    · rw [Int.sign_eq_one_of_pos positive, Int.sign_eq_one_of_pos]
      split_ifs with less
      · exact one_pos
      · have one := (Int.le_ediv_iff_mul_le scale).mpr
          ((one_mul _).trans_le (show (2 : ℤ) ^ n ≤ value x by omega))
        omega

end Signs

section Quotients

variable {a b x : UInt64} {count : ℤ}

/-- A number times a power of two still fits. -/
def Stays (x : UInt64) (count : ℤ) : Prop :=
  -2 ^ 63 ≤ value x * 2 ^ count.toNat ∧ value x * 2 ^ count.toNat < 2 ^ 63

theorem shiftBy_near (small : count < 64) (stays : Stays x count) :
    |real (shiftBy x count) - real x * 2 ^ count| ≤ ulp := by
  have scale : (0 : ℝ) < 2 ^ 48 := by positivity
  rcases le_or_gt 0 count with up | down
  · obtain ⟨n, rfl⟩ := Int.eq_ofNat_of_zero_le up
    rw [Stays, Int.toNat_natCast] at stays
    have exact_ : real (shiftBy x n) - real x * 2 ^ (n : ℤ) = 0 := by
      rw [real, real, value_shiftBy_left (by omega), clamp_of_fits stays.1 stays.2, zpow_natCast]
      push_cast
      ring
    rw [exact_, abs_zero]
    exact ulp_pos.le
  · obtain ⟨n, rfl⟩ : ∃ n : ℕ, count = -n := ⟨count.natAbs, by omega⟩
    have power : (0 : ℤ) < 2 ^ n := by positivity
    have power' : (0 : ℝ) < 2 ^ n := by positivity
    have low : value x ≤ value (shiftBy x (-n)) * 2 ^ n + 2 ^ n ∧
        value (shiftBy x (-n)) * 2 ^ n ≤ value x + 2 ^ n := by
      have floor := Int.emod_add_mul_ediv (value x) (2 ^ n)
      have rest := Int.emod_nonneg (value x) power.ne'
      have rest' := Int.emod_lt_of_pos (value x) power
      rw [mul_comm] at floor
      rw [value_shiftBy_right (by omega)]
      split_ifs <;> constructor <;> linarith
    have cast : (value x : ℝ) ≤ value (shiftBy x (-n)) * 2 ^ n + 2 ^ n := by exact_mod_cast low.1
    have cast' : (value (shiftBy x (-n)) : ℝ) * 2 ^ n ≤ value x + 2 ^ n := by exact_mod_cast low.2
    have distance : |(value (shiftBy x (-n)) : ℝ) - value x / 2 ^ n| ≤ 1 := by
      rw [abs_le]
      constructor
      · rw [neg_le_sub_iff_le_add, div_le_iff₀ power']
        linarith
      · rw [sub_le_iff_le_add, ← sub_le_iff_le_add', le_div_iff₀ power']
        linarith
    have split : real (shiftBy x (-n)) - real x * 2 ^ (-(n : ℤ)) =
        ((value (shiftBy x (-n)) : ℝ) - value x / 2 ^ n) / 2 ^ 48 := by
      rw [real, real, zpow_neg, zpow_natCast]
      ring
    rw [split, abs_div, abs_of_pos scale, ulp]
    exact div_le_div_of_nonneg_right distance scale.le

theorem abs_divisor (nonzero : b ≠ 0) :
    2 ^ 48 ≤ |value (shiftBy b (48 - posMsb b))| ∧
      |value (shiftBy b (48 - posMsb b))| ≤ 2 ^ 49 := by
  have some_ := Int.natAbs_ne_zero.mpr (value_ne_zero nonzero)
  have own : 2 ^ Nat.log2 (value b).natAbs ≤ (value b).natAbs := Nat.log2_self_le some_
  have next : (value b).natAbs < 2 ^ (Nat.log2 (value b).natAbs + 1) := Nat.lt_log2_self
  rw [posMsb_eq nonzero]
  generalize Nat.log2 (value b).natAbs = k at *
  have low : (2 : ℤ) ^ k ≤ |value b| := by
    rw [Int.abs_eq_natAbs]
    exact_mod_cast own
  have high : |value b| < (2 : ℤ) ^ (k + 1) := by
    rw [Int.abs_eq_natAbs]
    exact_mod_cast next
  rcases le_or_gt k 48 with up | down
  · have count : (48 - (k : ℤ)) = ((48 - k : ℕ) : ℤ) := by omega
    have power : (0 : ℤ) < 2 ^ (48 - k) := by positivity
    have least : (2 : ℤ) ^ 48 ≤ |value b| * 2 ^ (48 - k) := by
      calc (2 : ℤ) ^ 48 = 2 ^ k * 2 ^ (48 - k) := by rw [← pow_add]; congr 1; omega
        _ ≤ |value b| * 2 ^ (48 - k) := mul_le_mul_of_nonneg_right low power.le
    have most : |value b| * 2 ^ (48 - k) < 2 ^ 49 := by
      calc |value b| * 2 ^ (48 - k) < 2 ^ (k + 1) * 2 ^ (48 - k) :=
            mul_lt_mul_of_pos_right high power
        _ = 2 ^ 49 := by rw [← pow_add]; congr 1; omega
    have product : |value b * 2 ^ (48 - k)| = |value b| * 2 ^ (48 - k) := by
      rw [abs_mul, abs_of_pos power]
    rw [← product] at least most
    obtain ⟨below, above⟩ := abs_lt.mp most
    rw [count, value_shiftBy_left (by omega), clamp_of_fits (by omega) (by omega)]
    exact ⟨least, most.le⟩
  · obtain ⟨n, rfl⟩ : ∃ n, k = 48 + n := ⟨k - 48, by omega⟩
    have count : (48 - ((48 + n : ℕ) : ℤ)) = -(n : ℤ) := by omega
    have power : (0 : ℤ) < 2 ^ n := by positivity
    rw [show 48 + n + 1 = 49 + n by omega] at high
    rw [pow_add] at low high
    rw [count, value_shiftBy_right (by omega)]
    rcases le_or_gt 0 (value b) with plain | negative
    · rw [abs_of_nonneg plain] at low high
      have least := (Int.le_ediv_iff_mul_le power).mpr low
      have most := Int.ediv_lt_of_lt_mul power high
      rw [if_neg (by rintro ⟨-, less⟩; linarith), abs_of_nonneg (by omega)]
      exact ⟨least, most.le⟩
    · rw [abs_of_neg negative] at low high
      have least := (Int.le_ediv_iff_mul_le power).mpr
        (show -2 ^ 49 * 2 ^ n ≤ value b by linarith)
      have most := Int.ediv_lt_of_lt_mul power
        (show value b < (-2 ^ 48 + 1) * 2 ^ n by linarith)
      rw [if_neg (by omega), abs_of_neg (by omega)]
      constructor <;> omega

/-- The numbers of the format -/
def Representable (r : ℝ) : Prop := -2 ^ 15 ≤ r ∧ r ≤ 2 ^ 15 - ulp

/-- What a quotient is to be: it has the sign of the exact one, is near to it where that one can be
represented, and otherwise is the bound on its side. -/
structure Divides (a b r : UInt64) : Prop where
  sign : (value r).sign = (value a).sign * (value b).sign
  near : Representable (real a / real b) →
    |real r - real a / real b| ≤ 4 / 10 ^ 5 * |real a / real b| + 1 / 2 ^ 40
  bound : ¬ Representable (real a / real b) → r = maxOrMin (decide (0 < real a / real b))

/-- The dividend still fits after the shift that brings the divisor to between one and two. -/
def Unsaturated (a b : UInt64) : Prop := Stays a (48 - posMsb b)

theorem count_lt (b : UInt64) : 48 - posMsb b < 64 := by
  by_cases zero : b = 0
  · rw [zero, show posMsb 0 = -1 from rfl]
    norm_num
  · rw [posMsb_eq zero]
    omega

theorem stays_divisor (nonzero : b ≠ 0) : Stays b (48 - posMsb b) := by
  have some_ := Int.natAbs_ne_zero.mpr (value_ne_zero nonzero)
  have next : (value b).natAbs < 2 ^ (Nat.log2 (value b).natAbs + 1) := Nat.lt_log2_self
  have bounds := value_bounds b
  rw [Stays, posMsb_eq nonzero]
  generalize Nat.log2 (value b).natAbs = k at *
  rcases le_or_gt k 48 with up | down
  · have count : (48 - (k : ℤ)).toNat = 48 - k := by omega
    have power : (0 : ℤ) < 2 ^ (48 - k) := by positivity
    have high : |value b| < (2 : ℤ) ^ (k + 1) := by
      rw [Int.abs_eq_natAbs]
      exact_mod_cast next
    have most : |value b * 2 ^ (48 - k)| < 2 ^ 49 := by
      rw [abs_mul, abs_of_pos power]
      calc |value b| * 2 ^ (48 - k) < 2 ^ (k + 1) * 2 ^ (48 - k) :=
            mul_lt_mul_of_pos_right high power
        _ = 2 ^ 49 := by rw [← pow_add]; congr 1; omega
    obtain ⟨below, above⟩ := abs_lt.mp most
    rw [count]
    constructor <;> omega
  · rw [show (48 - (k : ℤ)).toNat = 0 by omega, pow_zero, mul_one]
    exact bounds

theorem reciprocal_of_divisor (nonzero : b ≠ 0) {b' : UInt64}
    (shifted : b' = shiftBy b (48 - posMsb b)) :
    1 ≤ |real b'| ∧ |real b'| ≤ 2 ∧ |real (fxpReciprocal b') * real b' - 1| ≤ 10 * ulp ∧
      |real (fxpReciprocal b')| ≤ 1 + 10 * ulp := by
  have scale : (0 : ℝ) < 2 ^ 48 := by positivity
  obtain ⟨least, most⟩ := abs_divisor nonzero
  rw [← shifted] at least most
  have size : |real b'| = ((|value b'| : ℤ) : ℝ) / 2 ^ 48 := by
    rw [real, abs_div, abs_of_pos scale, Int.cast_abs]
  have least' : (2 ^ 48 : ℝ) ≤ (|value b'| : ℤ) := by exact_mod_cast least
  have most' : ((|value b'| : ℤ) : ℝ) ≤ 2 ^ 49 := by exact_mod_cast most
  have low : 1 ≤ |real b'| := by rwa [size, one_le_div scale]
  have high : |real b'| ≤ 2 := by
    rw [size, div_le_iff₀ scale]
    linarith
  have tiny := ulp_pos
  have near : |real (fxpReciprocal b') * real b' - 1| ≤ 10 * ulp := by
    have general := reciprocal_near (v := b') (by omega) (by omega)
    have product := mul_le_mul_of_nonneg_left high tiny.le
    linarith
  refine ⟨low, high, near, ?_⟩
  have product : |real (fxpReciprocal b')| * |real b'| ≤ 1 + 10 * ulp := by
    rw [← abs_mul]
    have distance := abs_sub_abs_le_abs_sub (real (fxpReciprocal b') * real b') 1
    rw [abs_one] at distance
    linarith
  exact (le_mul_of_one_le_right (abs_nonneg _) low).trans product

theorem sign_quotient (nonzero : b ≠ 0) :
    (value (quotient a b)).sign = (value a).sign * (value b).sign := by
  have tiny := ulp_small
  obtain ⟨low, -, near, -⟩ := reciprocal_of_divisor nonzero rfl
  rw [quotient, sign_fxpMul, sign_shiftBy (count_lt b)]
  congr 1
  rw [← sign_shiftBy (x := b) (count_lt b)]
  generalize shiftBy b (48 - posMsb b) = b' at *
  have scale : (0 : ℝ) < 2 ^ 48 := by positivity
  have product : 0 < real (fxpReciprocal b') * real b' := by linarith [(abs_le.mp near).1]
  have word : 0 < value (fxpReciprocal b') * value b' := by
    rw [real_mul_cast] at product
    have cast : (0 : ℝ) < ((value (fxpReciprocal b') * value b' : ℤ) : ℝ) := by
      rw [div_div, lt_div_iff₀ (by positivity), zero_mul] at product
      exact product
    exact_mod_cast cast
  rcases mul_pos_iff.mp word with ⟨left, right⟩ | ⟨left, right⟩
  · rw [Int.sign_eq_one_of_pos left, Int.sign_eq_one_of_pos right]
  · rw [Int.sign_eq_neg_one_of_neg left, Int.sign_eq_neg_one_of_neg right]

theorem quotient_near {A B a' b' r u ε : ℝ} (nonzero : B ≠ 0) (left : |a' - A| ≤ u)
    (right : |b' - B| ≤ u) (inverse : |r * b' - 1| ≤ ε) (size : |r| ≤ 2) :
    |a' * r - A / B| ≤ (ε + 2 * u) * |A / B| + 2 * u := by
  have split : a' * r - A / B = (a' - A) * r + A / B * ((r * b' - 1) - r * (b' - B)) := by
    field_simp
    ring
  have nonneg : 0 ≤ u := (abs_nonneg _).trans left
  have first : |(a' - A) * r| ≤ u * 2 := by
    rw [abs_mul]
    gcongr
  have second : |(r * b' - 1) - r * (b' - B)| ≤ ε + 2 * u := by
    have own : |r * (b' - B)| ≤ 2 * u := by
      rw [abs_mul]
      gcongr
    exact (abs_sub _ _).trans (add_le_add inverse own)
  rw [split]
  calc _ ≤ |(a' - A) * r| + |A / B| * |(r * b' - 1) - r * (b' - B)| := by
        rw [← abs_mul]
        exact abs_add_le _ _
    _ ≤ u * 2 + |A / B| * (ε + 2 * u) := by gcongr
    _ = _ := by ring

theorem quotient_error (nonzero : b ≠ 0) (unsaturated : Unsaturated a b)
    (fits : Representable (real a / real b)) :
    |real (quotient a b) - real a / real b| ≤ 4 / 10 ^ 5 * |real a / real b| + 1 / 2 ^ 40 := by
  have tiny := ulp_small
  have positive := ulp_pos
  have left := shiftBy_near (count_lt b) unsaturated
  have right := shiftBy_near (count_lt b) (stays_divisor nonzero)
  obtain ⟨-, -, inverse, size⟩ := reciprocal_of_divisor nonzero rfl
  rw [quotient]
  generalize 48 - posMsb b = count at *
  have scale : (2 : ℝ) ^ count ≠ 0 := by positivity
  have divisor : real b ≠ 0 := by
    have some_ := value_ne_zero nonzero
    rw [real]
    exact div_ne_zero (Int.cast_ne_zero.mpr some_) (by norm_num)
  have same : real a / real b = (real a * 2 ^ count) / (real b * 2 ^ count) :=
    (mul_div_mul_right _ _ scale).symm
  have near := quotient_near (mul_ne_zero divisor scale) left right inverse (by linarith)
  rw [← same] at near
  have bounds := real_bounds (shiftBy a count)
  have wide : |real (shiftBy a count)| ≤ 2 ^ 15 := abs_le.mpr ⟨bounds.1, bounds.2.le⟩
  have product : |real (shiftBy a count) * real (fxpReciprocal (shiftBy b count))| < 2 ^ 16 := by
    rw [abs_mul]
    calc _ ≤ 2 ^ 15 * (1 + 10 * ulp) := by gcongr
      _ < 2 ^ 16 := by linarith
  have word := mul_near product fits.1 fits.2
  have absolute := abs_nonneg (real a / real b)
  have relative : 12 * ulp * |real a / real b| ≤ 4 / 10 ^ 5 * |real a / real b| := by
    gcongr
    linarith
  have last : 3 * ulp ≤ 1 / 2 ^ 40 := by
    unfold ulp
    norm_num
  linarith

theorem far_quotient {A B : ℤ} (low : -2 ^ 63 ≤ A) (high : A < 2 ^ 63) (large : 2 ^ 48 ≤ |B|)
    (far : ¬ Representable (A / B : ℝ)) : A = -2 ^ 63 ∧ B = -2 ^ 48 := by
  have size : |(A / B : ℝ)| * |B| = |A| := by
    rw [abs_div, Int.cast_abs, Int.cast_abs, div_mul_cancel₀]
    exact abs_ne_zero.mpr (Int.cast_ne_zero.mpr (by rintro rfl; norm_num at large))
  have large' : (2 ^ 48 : ℝ) ≤ (|B| : ℤ) := by exact_mod_cast large
  have atMost : ∀ c : ℤ, |A| ≤ c → |(A / B : ℝ)| ≤ c / 2 ^ 48 := fun c bound => by
    have bound' : ((|A| : ℤ) : ℝ) ≤ c := by exact_mod_cast bound
    rw [le_div_iff₀ (by positivity)]
    calc |(A / B : ℝ)| * 2 ^ 48 ≤ |(A / B : ℝ)| * (|B| : ℤ) := by gcongr
      _ ≤ c := size.trans_le bound'
  have first : A = -2 ^ 63 := by
    by_contra other
    have bound := abs_le.mp (atMost (2 ^ 63 - 1) (abs_le.mpr ⟨by omega, by omega⟩))
    push_cast at bound
    refine far ⟨by linarith, bound.2.trans_eq ?_⟩
    unfold ulp
    norm_num
  have whole := abs_le.mp (atMost (2 ^ 63) (abs_le.mpr ⟨by omega, by omega⟩))
  push_cast at whole
  have above : 2 ^ 15 - ulp < (A / B : ℝ) := by
    by_contra less
    exact far ⟨by linarith, not_lt.mp less⟩
  have tiny := ulp_small
  have negative : B < 0 := by
    by_contra nonneg
    have sign : (A / B : ℝ) ≤ 0 :=
      div_nonpos_of_nonpos_of_nonneg (by rw [first]; norm_num) (by exact_mod_cast not_lt.mp nonneg)
    linarith
  refine ⟨first, ?_⟩
  by_contra other
  rw [abs_of_neg negative] at large large'
  have next : 2 ^ 48 + 1 ≤ -B := by omega
  have next' : (2 ^ 48 + 1 : ℝ) ≤ (-B : ℤ) := by exact_mod_cast next
  rw [first, Int.cast_neg, ← neg_div_neg_eq, neg_neg, lt_div_iff₀ (by push_cast at next'; linarith),
    ulp] at above
  push_cast at above next'
  linarith

theorem far_words (nonzero : b ≠ 0) (unsaturated : Unsaturated a b)
    (far : ¬ Representable (real a / real b)) :
    shiftBy a (48 - posMsb b) = FXP_MIN ∧ shiftBy b (48 - posMsb b) = 0xffff000000000000 ∧
      0 < real a / real b := by
  have stays := stays_divisor nonzero
  have large := (abs_divisor nonzero).1
  have same : ∀ n : ℕ,
      real a / real b = ((value a * 2 ^ n : ℤ) : ℝ) / ((value b * 2 ^ n : ℤ) : ℝ) := fun n => by
      rw [Int.cast_mul, Int.cast_mul, mul_div_mul_right _ _ (by positivity), real, real,
        div_div_div_cancel_right₀ (by positivity)]
  have apart := posMsb_eq nonzero
  have few := count_lt b
  rw [Unsaturated, Stays] at unsaturated
  rw [Stays] at stays
  rcases le_or_gt 0 (48 - posMsb b) with up | down
  · obtain ⟨n, count⟩ := Int.eq_ofNat_of_zero_le up
    rw [count, Int.toNat_natCast] at unsaturated stays
    rw [count, value_shiftBy_left (by omega), clamp_of_fits stays.1 stays.2] at large
    rw [same n] at far ⊢
    obtain ⟨first, second⟩ := far_quotient unsaturated.1 unsaturated.2 large far
    rw [count]
    refine ⟨value_inj.mp ?_, value_inj.mp ?_, ?_⟩
    · rw [value_shiftBy_left (by omega), first]
      decide
    · rw [value_shiftBy_left (by omega), second]
      decide
    · rw [first, second]
      norm_num
  · have own : 2 ^ Nat.log2 (value b).natAbs ≤ (value b).natAbs :=
      Nat.log2_self_le (Int.natAbs_ne_zero.mpr (value_ne_zero nonzero))
    have wide : 2 ^ 49 ≤ (value b).natAbs :=
      (Nat.pow_le_pow_right (by norm_num) (by omega)).trans own
    rw [same 0, pow_zero, mul_one, mul_one] at far
    have bounds := value_bounds a
    obtain ⟨-, second⟩ :=
      far_quotient bounds.1 bounds.2 (by rw [Int.abs_eq_natAbs]; omega) far
    omega

theorem divides_of_unsaturated (nonzero : b ≠ 0) (unsaturated : Unsaturated a b) :
    Divides a b (fxpDiv a b) := by
  by_cases zero : a = 0
  · have none_ : real 0 / real b = 0 := by
      rw [real, show value 0 = 0 by decide, Int.cast_zero, zero_div, zero_div]
    subst zero
    rw [fxpDiv, if_pos rfl]
    refine ⟨(zero_mul _).symm, fun _ => ?_, fun far => absurd ?_ far⟩
    · rw [none_, real, show value 0 = 0 by decide]
      norm_num
    · rw [none_]
      have tiny := ulp_small
      exact ⟨by norm_num, by linarith⟩
  · rw [fxpDiv, if_neg zero, if_neg nonzero]
    refine ⟨sign_quotient nonzero, quotient_error nonzero unsaturated, fun far => ?_⟩
    obtain ⟨left, right, positive⟩ := far_words nonzero unsaturated far
    rw [quotient, left, right, decide_eq_true positive]
    decide

/-- The shifted dividend is past the bounds by more than the tolerance, and the divisor is not a
power of two. -/
structure Overshoots (a b : UInt64) : Prop where
  dividend : 24999 * 2 ^ 63 ≤ 24998 * |value a * 2 ^ (48 - posMsb b).toNat|
  divisor : (2 ^ 30 + 1) * 2 ^ 48 ≤ 2 ^ 30 * |value b * 2 ^ (48 - posMsb b).toNat|

theorem abs_quotient_mul {a' b' : UInt64}
    (inverse : |real (fxpReciprocal b') * real b' - 1| ≤ 10 * ulp)
    (low : 1 + 1 / 2 ^ 30 ≤ |real b'|) (high : |real b'| ≤ 2) :
    |real (fxpMul a' (fxpReciprocal b'))| * |real b'| ≤ 2 ^ 15 * (1 + 10 * ulp) + 2 * ulp := by
  have tiny := ulp_small
  have positive := ulp_pos
  have bounds := real_bounds a'
  have wide : |real a'| ≤ 2 ^ 15 := abs_le.mpr ⟨bounds.1, bounds.2.le⟩
  have whole : |real (fxpReciprocal b')| * |real b'| ≤ 1 + 10 * ulp := by
    rw [← abs_mul]
    have distance := abs_sub_abs_le_abs_sub (real (fxpReciprocal b') * real b') 1
    rw [abs_one] at distance
    linarith
  have size : |real (fxpReciprocal b')| ≤ 1 + 10 * ulp :=
    (le_mul_of_one_le_right (abs_nonneg _) (by linarith)).trans whole
  have small : |real a' * real (fxpReciprocal b')| < 2 ^ 16 := by
    rw [abs_mul]
    calc _ ≤ 2 ^ 15 * (1 + 10 * ulp) := by gcongr
      _ < 2 ^ 16 := by linarith
  have near := mul_near small (r := 0) (by norm_num) (by linarith)
  rw [sub_zero, sub_zero, abs_mul] at near
  calc _ ≤ (|real a'| * |real (fxpReciprocal b')| + ulp) * |real b'| := by gcongr
    _ = |real a'| * (|real (fxpReciprocal b')| * |real b'|) + ulp * |real b'| := by ring
    _ ≤ 2 ^ 15 * (1 + 10 * ulp) + ulp * 2 := by gcongr
    _ = _ := by ring

theorem not_divides (nonzero : b ≠ 0) (overshoots : Overshoots a b) :
    ¬ Divides a b (fxpDiv a b) := by
  have tiny := ulp_small
  have positive := ulp_pos
  have few := count_lt b
  have scale : (0 : ℝ) < 2 ^ 48 := by positivity
  have stays := stays_divisor nonzero
  obtain ⟨-, high, inverse, -⟩ := reciprocal_of_divisor nonzero rfl
  obtain ⟨dividend, divisor⟩ := overshoots
  rw [Stays] at stays
  have some_ : a ≠ 0 := by
    rintro rfl
    rw [show value 0 = 0 by decide, zero_mul, abs_zero] at dividend
    norm_num at dividend
  have up : 0 ≤ 48 - posMsb b := by
    by_contra down
    rw [show (48 - posMsb b).toNat = 0 by omega, pow_zero, mul_one] at dividend
    have bounds := value_bounds a
    have size : |value a| ≤ 2 ^ 63 := abs_le.mpr ⟨by omega, by omega⟩
    omega
  obtain ⟨n, count⟩ := Int.eq_ofNat_of_zero_le up
  have word : fxpDiv a b = fxpMul (shiftBy a n) (fxpReciprocal (shiftBy b n)) := by
    rw [fxpDiv, if_neg some_, if_neg nonzero, quotient, count]
  rw [word]
  rw [count] at high inverse
  rw [count, Int.toNat_natCast] at dividend divisor stays
  have same : real b * 2 ^ n = real (shiftBy b n) := by
    rw [real, real, value_shiftBy_left (by omega), clamp_of_fits stays.1 stays.2]
    push_cast
    ring
  have ratio : real a / real b = real a * 2 ^ n / real (shiftBy b n) := by
    rw [← same]
    exact (mul_div_mul_right _ _ (by positivity)).symm
  have large : 24999 / 24998 * 2 ^ 15 ≤ |real a * 2 ^ n| := by
    have cast : (24999 * 2 ^ 63 : ℝ) ≤ 24998 * |(value a : ℝ) * 2 ^ n| := by exact_mod_cast dividend
    rw [real, div_mul_eq_mul_div (value a : ℝ), abs_div, abs_of_pos scale, le_div_iff₀ scale]
    linarith
  have least : (1 + 1 / 2 ^ 30 : ℝ) ≤ |real (shiftBy b n)| := by
    have cast : ((2 ^ 30 + 1) * 2 ^ 48 : ℝ) ≤ 2 ^ 30 * |(value b : ℝ) * 2 ^ n| := by
      exact_mod_cast divisor
    rw [← same, real, div_mul_eq_mul_div (value b : ℝ), abs_div, abs_of_pos scale,
      le_div_iff₀ scale]
    linarith
  have product : |real (fxpMul (shiftBy a n) (fxpReciprocal (shiftBy b n)))| *
      |real (shiftBy b n)| ≤ 2 ^ 15 * (1 + 10 * ulp) + 2 * ulp :=
    abs_quotient_mul inverse least high
  generalize real (shiftBy b n) = d at *
  have wide : 0 < |d| := by linarith
  intro divides
  by_cases fits : Representable (real a / real b)
  · have near := divides.near fits
    have size : |real a / real b| * |d| = |real a * 2 ^ n| := by
      rw [ratio, abs_div, div_mul_cancel₀ _ wide.ne']
    have distance := (abs_sub_abs_le_abs_sub (real a / real b) _).trans
      ((abs_sub_comm _ _).trans_le near)
    have scaled := mul_le_mul_of_nonneg_right distance wide.le
    linarith
  · have bound : 2 ^ 15 - ulp ≤ |real (fxpMul (shiftBy a n) (fxpReciprocal (shiftBy b n)))| := by
      rw [divides.bound fits, real, value_maxOrMin, ulp]
      split_ifs <;> norm_num
    have scaled := mul_le_mul bound least (by positivity) (abs_nonneg _)
    linarith

end Quotients

section Assignment

variable {a : UInt64}

theorem natAbs_shifted (nonzero : a ≠ 0) :
    (∃ c, 1 ≤ c ∧ c ≤ 2 ^ 14 ∧ (value (shiftBy a 49)).natAbs = c * 2 ^ 49) ∨
      (value (shiftBy a 49)).natAbs = 2 ^ 63 - 1 := by
  have some_ := value_ne_zero nonzero
  have word : value (shiftBy a 49) = clamp (value a * 2 ^ 49) :=
    value_shiftBy_left (n := 49) (by norm_num)
  rw [word, clamp]
  by_cases inside : -2 ^ 14 ≤ value a ∧ value a < 2 ^ 14
  · exact .inl ⟨(value a).natAbs, by omega, by omega, by omega⟩
  · rcases lt_or_gt_of_ne some_ with negative | positive
    · exact .inl ⟨2 ^ 14, by norm_num, le_rfl, by omega⟩
    · exact .inr (by omega)

theorem wrapped {c : ℕ} (low : 1 ≤ c) (high : c ≤ 2 ^ 14) :
    c * 18446744073709551614 % 2 ^ 64 = 2 ^ 64 - 2 * c := by omega

theorem detected_of_zero (nonzero : a ≠ 0) : Detected (value (shiftBy a 49) * value FXP_MAX) := by
  rw [Detected, Int.natAbs_mul, value_max, show (2 ^ 63 - 1 : ℤ).natAbs = 2 ^ 63 - 1 by decide]
  rcases natAbs_shifted nonzero with ⟨c, low, high, size⟩ | size
  · have whole : c * 2 ^ 49 * (2 ^ 63 - 1) = 2 ^ 48 * (c * 18446744073709551614) := by omega
    rw [size, whole, Nat.mul_div_cancel_left _ (by norm_num), wrapped low high]
    exact .inr (.inl (by omega))
  · rw [size]
    norm_num

theorem quotient_zero (nonzero : a ≠ 0) : quotient a 0 = maxOrMin (!isNegative a) := by
  have inverse : fxpReciprocal (shiftBy 0 (48 - posMsb 0)) = FXP_MAX := by decide
  have some_ := value_ne_zero nonzero
  have word := (fxpMul_iff _ _).mpr (detected_of_zero nonzero)
  have sign : (value (shiftBy a 49)).sign = (value a).sign := sign_shiftBy (by norm_num)
  have least : 2 ^ 49 ≤ (value (shiftBy a 49)).natAbs := by
    rcases natAbs_shifted nonzero with ⟨c, low, high, size⟩ | size <;> omega
  rw [quotient, inverse, show 48 - posMsb 0 = 49 by decide]
  refine value_inj.mp ?_
  rw [word, value_maxOrMin, isNegative_eq, value_max]
  rcases lt_or_gt_of_ne some_ with negative | positive
  · have below : value (shiftBy a 49) < 0 := by
      rw [Int.sign_eq_neg_one_of_neg negative] at sign
      exact Int.neg_of_sign_eq_neg_one sign
    rw [truncated_eq (by omega), if_pos (by omega), decide_eq_true negative, clamp_of_le (by omega)]
    rfl
  · have above : 0 < value (shiftBy a 49) := by
      rw [Int.sign_eq_one_of_pos positive] at sign
      exact Int.pos_of_sign_eq_one sign
    rw [truncated_eq (by omega), if_neg (by omega), decide_eq_false positive.not_gt,
      clamp_of_ge (by omega)]
    rfl

theorem fxpDivAssign_eq (a b : UInt64) : fxpDivAssign a b = fxpDiv a b := by
  by_cases none_ : a = 0
  · rw [fxpDivAssign, fxpDiv, if_pos none_, if_pos none_]
  · by_cases zero : b = 0
    · rw [fxpDivAssign, fxpDiv, if_neg none_, if_neg none_, if_pos zero, zero, quotient_zero none_]
    · rw [fxpDivAssign, fxpDiv, if_neg none_, if_neg none_, if_neg zero]

end Assignment

end Epilog.Pow.Division
