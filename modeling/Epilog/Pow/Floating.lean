/- Module: Epilog/Pow/Floating
   source: src/src/pow/flt.hpp (flt1648), src/src/pow/fxp.hpp (operator >>, operator -)
   digest: The numbers of the floating values, their normal form, and their sums and products. -/

import Epilog.Lib.Dyadic
import Epilog.Pow.FixedPoint

set_option autoImplicit false

namespace Epilog.Pow.Floating

open Epilog.Lib.Dyadic Epilog.Global.Chains Epilog.Global.MetaTerms Epilog.Global.MetaCodec
open Epilog.Pow.Target Epilog.Pow.FixedPoint

section Operations

/-- `flt1648()` -/
def ZERO : Flt1648 := ⟨0, 0⟩

/-- `flt1648(int32_t)` -/
def ofInt (v : Int32) : Flt1648 := flt1648 48 v.toInt64.toUInt64

def shiftRightNoSaturation (x : UInt64) (n : ℕ) : UInt64 :=
  if 63 < n then (if isNegative x then 0xffffffffffffffff else 0)
  else UInt64.ofBitVec (x.toBitVec.sshiftRight n)

/-- `operator +`: the mantissa of the value with the smaller exponent is shifted. -/
def add (a b : Flt1648) : Flt1648 :=
  let diffExp := a.exponent.toInt - b.exponent.toInt
  if 0 ≤ diffExp then
    flt1648 a.exponent (fxpAdd a.mantissa (shiftRightNoSaturation b.mantissa diffExp.toNat))
  else
    flt1648 b.exponent (fxpAdd (shiftRightNoSaturation a.mantissa (-diffExp).toNat) b.mantissa)

/-- `operator -` -/
def sub (a b : Flt1648) : Flt1648 := add a (flt1648 b.exponent (~~~b.mantissa + 1))

/-- `operator *` -/
def mul (a b : Flt1648) : Flt1648 :=
  flt1648 (a.exponent + b.exponent) (fxpMul a.mantissa b.mantissa)

/-- `operator <<` -/
def shl (a : Flt1648) (n : ℕ) : Flt1648 := flt1648 (a.exponent + Int16.ofNat n) a.mantissa

/-- `operator >>` -/
def shr (a : Flt1648) (n : ℕ) : Flt1648 := flt1648 (a.exponent - Int16.ofNat n) a.mantissa

end Operations

section Values

/-- The number of a floating value: the mantissa is over `2 ^ 48`. -/
def toRat (d : Flt1648) : ℚ := dyad (value d.mantissa) (d.exponent.toInt - 48)

/-- The mantissa is in the upper half of the numbers below one. -/
def Normalized (d : Flt1648) : Prop := HasBits 47 (value d.mantissa)

end Values

section Normalizing

variable {x : UInt64} {n : ℕ}

theorem value_sshiftRight (x : UInt64) (n : ℕ) :
    value (UInt64.ofBitVec (x.toBitVec.sshiftRight n)) = value x / 2 ^ n := by
  rw [value, UInt64.toBitVec_ofBitVec, BitVec.toInt_sshiftRight, Int.shiftRight_eq_div_pow]
  rfl

theorem value_shiftRightNoSaturation (x : UInt64) (n : ℕ) :
    value (shiftRightNoSaturation x n) = value x / 2 ^ n := by
  obtain ⟨low, high⟩ := value_bounds x
  simp only [shiftRightNoSaturation, isNegative_eq, decide_eq_true_eq]
  split_ifs with far negative
  · have large : (2 : ℤ) ^ 63 ≤ 2 ^ n := pow_le_pow_right₀ (by norm_num) far.le
    exact (Int.ediv_eq_neg_one_of_neg_of_le negative (by omega)).symm
  · have large : (2 : ℤ) ^ 63 ≤ 2 ^ n := pow_le_pow_right₀ (by norm_num) far.le
    exact (Int.ediv_eq_zero_of_lt (by omega) (by omega)).symm
  · exact value_sshiftRight x n

theorem value_fxpShiftRight (nonzero : value x / 2 ^ n ≠ 0) :
    value (fxpShiftRight x n) = value x / 2 ^ n := by
  have shifted := value_sshiftRight x n
  have some_ : x ≠ 0 := by
    rintro rfl
    exact nonzero (Int.zero_ediv _)
  have notZero : UInt64.ofBitVec (x.toBitVec.sshiftRight n) ≠ 0 := fun zero => by
    rw [zero] at shifted
    exact nonzero shifted.symm
  rw [fxpShiftRight, if_neg some_]
  dsimp only
  split_ifs with ends negative
  · rw [ends.resolve_left notZero] at shifted
    exact shifted
  · rw [ends.resolve_left notZero] at shifted
    have ones : value 0xffffffffffffffff = -1 := by decide
    rw [isNegative_eq, decide_eq_true_eq, not_lt] at negative
    have floor := Int.ediv_nonneg negative (show (0 : ℤ) ≤ 2 ^ n by positivity)
    omega
  · exact shifted

/-- The highest bit of the magnitude -/
def top (x : UInt64) : ℕ := Nat.log2 (value x).natAbs

theorem hasBits_top (nonzero : value x ≠ 0) : HasBits (top x) (value x) := by
  have low : 2 ^ top x ≤ (value x).natAbs := Nat.log2_self_le (Int.natAbs_ne_zero.2 nonzero)
  have high : (value x).natAbs < 2 ^ (top x + 1) := Nat.lt_log2_self
  rw [HasBits, Int.abs_eq_natAbs]
  exact ⟨by exact_mod_cast low, by exact_mod_cast high⟩

theorem ne_zero_of_value (nonzero : value x ≠ 0) : x ≠ 0 := fun zero => nonzero (by rw [zero]; rfl)

theorem value_flt1648 (E : Int16) (nonzero : value x ≠ 0) :
    value (flt1648 E x).mantissa = value x / 2 ^ (top x - 47) * 2 ^ (47 - top x) := by
  have msb : posMsb x = top x := posMsb_eq (ne_zero_of_value nonzero)
  obtain ⟨low, high⟩ := hasBits_top nonzero
  unfold flt1648
  dsimp only
  rw [msb]
  split_ifs with less
  · have count : ((top x : ℤ) - 47).natAbs = 47 - top x := by omega
    have none_ : top x - 47 = 0 := by omega
    have small : |value x * 2 ^ (47 - top x)| < 2 ^ 48 := by
      rw [abs_mul, abs_of_pos (show (0 : ℤ) < 2 ^ (47 - top x) by positivity)]
      calc |value x| * 2 ^ (47 - top x) < 2 ^ (top x + 1) * 2 ^ (47 - top x) :=
            mul_lt_mul_of_pos_right high (by positivity)
        _ = 2 ^ (top x + 1 + (47 - top x)) := (pow_add ..).symm
        _ = 2 ^ 48 := by congr 1; omega
    obtain ⟨below, above⟩ := abs_lt.1 small
    rw [count, none_, pow_zero, Int.ediv_one, shiftLeft_iff.2 fun zero => absurd zero nonzero]
    exact clamp_of_fits (by omega) (by omega)
  · have count : ((top x : ℤ) - 47).natAbs = top x - 47 := by omega
    have none_ : 47 - top x = 0 := by omega
    rw [count, none_, pow_zero, mul_one]
    refine value_fxpShiftRight fun zero => ?_
    have most : (2 : ℤ) ^ (top x - 47) ≤ 2 ^ top x := pow_le_pow_right₀ (by norm_num) (by omega)
    have large : (0 : ℤ) < 2 ^ (top x - 47) := by positivity
    have parts := Int.mul_ediv_add_emod (value x) (2 ^ (top x - 47))
    have nonneg := Int.emod_nonneg (value x) large.ne'
    have less := Int.emod_lt_of_pos (value x) large
    rw [zero, mul_zero, zero_add] at parts
    rw [parts] at nonneg less
    rw [abs_of_nonneg nonneg] at low
    omega

theorem exponent_eq (E : Int16) (x : UInt64) :
    (flt1648 E x).exponent = E + Int16.ofInt (posMsb x - 47) := by
  unfold flt1648
  dsimp only
  split_ifs <;> rfl

theorem exponent_congr (E : Int16) (nonzero : value x ≠ 0) :
    ∃ k : ℤ, (flt1648 E x).exponent.toInt + 2 ^ 16 * k = E.toInt + top x - 47 := by
  have msb : posMsb x = top x := posMsb_eq (ne_zero_of_value nonzero)
  have wrapped := Int.bmod_add_bdiv (E.toInt + ((top x : ℤ) - 47)) Int16.size
  have size : (Int16.size : ℤ) = 2 ^ 16 := rfl
  refine ⟨(E.toInt + ((top x : ℤ) - 47)).bdiv Int16.size, ?_⟩
  rw [exponent_eq, msb, Int16.toInt_add, Int16.toInt_ofInt]
  rw [size] at wrapped
  rw [show (2 : ℕ) ^ 16 = Int16.size from rfl, Int.add_bmod_bmod]
  linarith

theorem top_le (x : UInt64) : top x ≤ 63 := by
  by_cases zero : value x = 0
  · rw [top, zero]
    decide
  · obtain ⟨low, high⟩ := value_bounds x
    have bits := (hasBits_top zero).1
    by_contra more
    have large : (2 : ℤ) ^ 64 ≤ 2 ^ top x := pow_le_pow_right₀ (by norm_num) (by omega)
    have := abs_le.2 (show -2 ^ 63 ≤ value x ∧ value x ≤ 2 ^ 63 by omega)
    omega

/-- The exponent that a mantissa gets fits 16 bits. -/
def Fits (z : ℤ) (x : UInt64) : Prop := -2 ^ 15 ≤ z + top x - 47 ∧ z + top x - 47 < 2 ^ 15

theorem exponent_flt1648 {z : ℤ} (nonzero : value x ≠ 0) (fits : Fits z x) :
    (flt1648 (Int16.ofInt z) x).exponent.toInt = z + top x - 47 := by
  obtain ⟨low, high⟩ := fits
  have whole : z + ((top x : ℤ) - 47) = z + top x - 47 := by ring
  rw [exponent_eq, posMsb_eq (ne_zero_of_value nonzero), ← Int16.ofInt_add,
    Int16.toInt_ofInt_of_le (by unfold top at low; omega) (by unfold top at high; omega)]
  exact whole

theorem toRat_flt1648 {z : ℤ} (nonzero : value x ≠ 0) (fits : Fits z x) :
    toRat (flt1648 (Int16.ofInt z) x) = dyad (value x - value x % 2 ^ (top x - 47)) (z - 48) := by
  rw [toRat, value_flt1648 _ nonzero, exponent_flt1648 nonzero fits, dyad_shift, ← dyad_floor]
  congr 1
  omega

theorem flt1648_zero (E : Int16) : flt1648 E 0 = ⟨E - 48, 0⟩ := by
  have msb : posMsb 0 = -1 := rfl
  have shifted : fxpShiftLeft 0 48 = 0 := by decide
  unfold flt1648
  dsimp only
  rw [msb, if_pos (by norm_num)]
  have lowered : E + Int16.ofInt (-1 - 47) = E - 48 := (Int16.sub_eq_add_neg E 48).symm
  exact congrArg₂ Flt1648.mk lowered shifted

theorem toRat_of_zero {d : Flt1648} (zero : value d.mantissa = 0) : toRat d = 0 := by
  rw [toRat, zero, dyad_zero]

theorem normalized_flt1648 (E : Int16) (nonzero : value x ≠ 0)
    (above : -2 ^ 48 < value x / 2 ^ (top x - 47)) : Normalized (flt1648 E x) := by
  obtain ⟨low, high⟩ := hasBits_top nonzero
  rw [Normalized, value_flt1648 E nonzero]
  rcases lt_or_ge (top x) 47 with less | more
  · have none_ : top x - 47 = 0 := by omega
    have scale : (2 : ℤ) ^ top x * 2 ^ (47 - top x) = 2 ^ 47 := by
      rw [← pow_add]
      congr 1
      omega
    have large : (0 : ℤ) < 2 ^ (47 - top x) := by positivity
    rw [none_, pow_zero, Int.ediv_one, HasBits, abs_mul, abs_of_pos large, pow_succ 2 47, ← scale]
    rw [pow_succ] at high
    constructor
    · exact mul_le_mul_of_nonneg_right low large.le
    · calc |value x| * 2 ^ (47 - top x) < 2 ^ top x * 2 * 2 ^ (47 - top x) :=
            mul_lt_mul_of_pos_right high large
        _ = 2 ^ top x * 2 ^ (47 - top x) * 2 := by ring
  · have none_ : 47 - top x = 0 := by omega
    have scale : (2 : ℤ) ^ 47 * 2 ^ (top x - 47) = 2 ^ top x := by
      rw [← pow_add]
      congr 1
      omega
    have large : (0 : ℤ) < 2 ^ (top x - 47) := by positivity
    rw [none_, pow_zero, mul_one, HasBits]
    rw [← scale] at low
    rw [pow_succ, ← scale] at high
    rcases lt_or_ge (value x) 0 with negative | nonneg
    · rw [abs_of_neg negative] at low high
      have upper : value x / 2 ^ (top x - 47) ≤ -2 ^ 47 := by
        refine Int.lt_add_one_iff.1 ((Int.ediv_lt_iff_lt_mul large).2 ?_)
        linarith
      rw [abs_of_neg (by omega)]
      omega
    · rw [abs_of_nonneg nonneg] at low high
      have lower : 2 ^ 47 ≤ value x / 2 ^ (top x - 47) := (Int.le_ediv_iff_mul_le large).2 low
      have upper : value x / 2 ^ (top x - 47) < 2 ^ 48 := by
        refine (Int.ediv_lt_iff_lt_mul large).2 ?_
        linarith
      rw [abs_of_nonneg (by omega)]
      omega

theorem mantissa_bounds (E : Int16) (nonzero : value x ≠ 0) :
    value (flt1648 E x).mantissa ≠ 0 ∧ |value (flt1648 E x).mantissa| ≤ 2 ^ 48 := by
  by_cases above : -2 ^ 48 < value x / 2 ^ (top x - 47)
  · have normalized := normalized_flt1648 E nonzero above
    exact ⟨normalized.ne_zero, normalized.2.le⟩
  · obtain ⟨low, high⟩ := hasBits_top nonzero
    have many : 47 ≤ top x := by
      by_contra few
      have most : (2 : ℤ) ^ (top x + 1) ≤ 2 ^ 47 := pow_le_pow_right₀ (by norm_num) (by omega)
      rw [show top x - 47 = 0 by omega, pow_zero, Int.ediv_one] at above
      have := (abs_lt.1 (high.trans_le most)).1
      omega
    have scale : (2 : ℤ) ^ 48 * 2 ^ (top x - 47) = 2 ^ (top x + 1) := by
      rw [← pow_add]
      congr 1
      omega
    have least : -2 ^ 48 ≤ value x / 2 ^ (top x - 47) := by
      refine (Int.le_ediv_iff_mul_le (by positivity)).2 ?_
      have := (abs_lt.1 high).1
      linarith
    have equal : value x / 2 ^ (top x - 47) = -2 ^ 48 := le_antisymm (not_lt.1 above) least
    rw [value_flt1648 E nonzero, equal, show 47 - top x = 0 by omega, pow_zero, mul_one]
    norm_num

end Normalizing

section Closure

/-- Zero, or a mantissa in the upper half of the numbers below one -/
def InForm (d : Flt1648) : Prop := value d.mantissa = 0 ∨ Normalized d

/-- What is computed from integers and normalized values -/
inductive Computed : Flt1648 → Prop
  | zero : Computed ZERO
  | int (v : Int32) : Computed (ofInt v)
  | start {d : Flt1648} (normalized : Normalized d) : Computed d
  | add {a b : Flt1648} (left : Computed a) (right : Computed b) : Computed (add a b)
  | sub {a b : Flt1648} (left : Computed a) (right : Computed b) : Computed (sub a b)
  | mul {a b : Flt1648} (left : Computed a) (right : Computed b) : Computed (mul a b)
  | shl {a : Flt1648} (n : ℕ) (left : Computed a) : Computed (shl a n)
  | shr {a : Flt1648} (n : ℕ) (left : Computed a) : Computed (shr a n)

variable {a b d : Flt1648} {x : UInt64}

theorem InForm.bound (inForm : InForm d) : |value d.mantissa| ≤ 2 ^ 48 - 1 := by
  rcases inForm with zero | normalized
  · rw [zero]
    norm_num
  · exact Int.le_sub_one_of_lt normalized.2

theorem eq_zero_of_value (zero : value x = 0) : x = 0 := value_inj.1 (zero.trans rfl)

theorem inForm_flt1648 (E : Int16) (small : |value x| ≤ 2 ^ 49 - 2) : InForm (flt1648 E x) := by
  by_cases zero : value x = 0
  · rw [eq_zero_of_value zero, flt1648_zero]
    exact .inl rfl
  · refine .inr (normalized_flt1648 E zero ?_)
    obtain ⟨low, high⟩ := hasBits_top zero
    obtain ⟨below, above⟩ := abs_le.1 small
    have few : top x ≤ 48 := by
      by_contra more
      have large : (2 : ℤ) ^ 49 ≤ 2 ^ top x := pow_le_pow_right₀ (by norm_num) (by omega)
      omega
    rcases few.lt_or_eq with less | equal
    · have none_ : top x - 47 = 0 := by omega
      have most : (2 : ℤ) ^ (top x + 1) ≤ 2 ^ 48 := pow_le_pow_right₀ (by norm_num) (by omega)
      rw [none_, pow_zero, Int.ediv_one]
      exact (abs_lt.1 (high.trans_le most)).1
    · rw [equal]
      omega

/-- The mantissa is one that a constructor has normalized; `read` changes the exponent only. -/
def Made (d : Flt1648) : Prop := d.mantissa = 0 ∨ ∃ E m, d.mantissa = (flt1648 E m).mantissa

theorem Made.inForm (made : Made d) (nonneg : 0 ≤ value d.mantissa) : InForm d := by
  rcases made with zero | ⟨E, m, same⟩
  · exact .inl (by rw [zero]; rfl)
  by_cases none_ : value m = 0
  · refine .inl ?_
    rw [same, eq_zero_of_value none_, flt1648_zero]
    rfl
  · have above : -2 ^ 48 < value m / 2 ^ (top m - 47) := by
      by_contra below
      have negative : value m / 2 ^ (top m - 47) * 2 ^ (47 - top m) < 0 :=
        mul_neg_of_neg_of_pos (by omega) (by positivity)
      rw [same, value_flt1648 E none_] at nonneg
      exact absurd nonneg negative.not_ge
    have normalized : Normalized (flt1648 E m) := normalized_flt1648 E none_ above
    rw [Normalized, ← same] at normalized
    exact .inr normalized

/-- The sum of the mantissas at the greater exponent -/
def aligned (a b : Flt1648) : ℤ :=
  value a.mantissa / 2 ^ (b.exponent.toInt - a.exponent.toInt).toNat +
    value b.mantissa / 2 ^ (a.exponent.toInt - b.exponent.toInt).toNat

def sumWord (a b : Flt1648) : UInt64 :=
  fxpAdd (shiftRightNoSaturation a.mantissa (b.exponent.toInt - a.exponent.toInt).toNat)
    (shiftRightNoSaturation b.mantissa (a.exponent.toInt - b.exponent.toInt).toNat)

theorem shiftRightNoSaturation_zero (x : UInt64) : shiftRightNoSaturation x 0 = x := by
  rw [← value_inj, value_shiftRightNoSaturation, pow_zero, Int.ediv_one]

theorem add_eq (a b : Flt1648) :
    add a b = flt1648 (Int16.ofInt (max a.exponent.toInt b.exponent.toInt)) (sumWord a b) := by
  unfold add sumWord
  dsimp only
  split_ifs with order
  · have none_ : (b.exponent.toInt - a.exponent.toInt).toNat = 0 := by omega
    rw [none_, shiftRightNoSaturation_zero, max_eq_left (by omega), Int16.ofInt_toInt]
  · have none_ : (a.exponent.toInt - b.exponent.toInt).toNat = 0 := by omega
    have other : -(a.exponent.toInt - b.exponent.toInt) = b.exponent.toInt - a.exponent.toInt := by
      omega
    rw [none_, other, shiftRightNoSaturation_zero, max_eq_right (by omega), Int16.ofInt_toInt]

theorem abs_ediv_le {m c : ℤ} (k : ℕ) (small : |m| ≤ c) : |m / 2 ^ k| ≤ c := by
  have large : (1 : ℤ) ≤ 2 ^ k := one_le_pow₀ (by norm_num)
  obtain ⟨low, high⟩ := abs_le.1 small
  have nonneg := (abs_nonneg m).trans small
  refine abs_le.2 ⟨(Int.le_ediv_iff_mul_le (by omega)).2 ?_, ?_⟩
  · nlinarith
  · exact Int.ediv_le_of_le_mul (by omega) (by nlinarith)

theorem abs_aligned_le (left : InForm a) (right : InForm b) : |aligned a b| ≤ 2 ^ 49 - 2 := by
  have first := abs_ediv_le (b.exponent.toInt - a.exponent.toInt).toNat left.bound
  have second := abs_ediv_le (a.exponent.toInt - b.exponent.toInt).toNat right.bound
  have both := abs_add_le (value a.mantissa / 2 ^ (b.exponent.toInt - a.exponent.toInt).toNat)
    (value b.mantissa / 2 ^ (a.exponent.toInt - b.exponent.toInt).toNat)
  unfold aligned
  omega

theorem value_sumWord (left : InForm a) (right : InForm b) :
    value (sumWord a b) = aligned a b := by
  obtain ⟨low, high⟩ := abs_le.1 (abs_aligned_le left right)
  rw [sumWord, value_fxpAdd, value_shiftRightNoSaturation, value_shiftRightNoSaturation]
  exact clamp_of_fits (by unfold aligned at low; omega) (by unfold aligned at high; omega)

end Closure
section Products

variable {a b d : Flt1648} {m n : ℤ}

theorem abs_mul_bits (left : HasBits 47 m) (right : HasBits 47 n) :
    2 ^ 94 ≤ |m * n| ∧ |m * n| < 2 ^ 96 := by
  rw [abs_mul]
  constructor
  · calc (2 : ℤ) ^ 94 = 2 ^ 47 * 2 ^ 47 := by norm_num
      _ ≤ |m| * |n| := mul_le_mul left.1 right.1 (by norm_num) (abs_nonneg m)
  · calc |m| * |n| < 2 ^ 48 * 2 ^ 48 :=
          mul_lt_mul'' left.2 right.2 (abs_nonneg m) (abs_nonneg n)
      _ = 2 ^ 96 := by norm_num

theorem value_mul (left : Normalized a) (right : Normalized b) :
    value (fxpMul a.mantissa b.mantissa) = (value a.mantissa * value b.mantissa).tdiv (2 ^ 48) ∧
      2 ^ 46 ≤ |value (fxpMul a.mantissa b.mantissa)| ∧
      |value (fxpMul a.mantissa b.mantissa)| < 2 ^ 48 := by
  obtain ⟨low, high⟩ := abs_mul_bits left right
  have product := fxpMul_iff a.mantissa b.mantissa
  generalize value a.mantissa * value b.mantissa = z at *
  rw [Int.abs_eq_natAbs] at low high
  have detected : Detected z := .inl (by omega)
  have nonzero : z ≠ 0 := by omega
  rw [product.2 detected]
  have kept : truncated z = z.tdiv (2 ^ 48) := by
    rw [truncated, if_neg]
    rintro ⟨-, none_⟩
    rw [tdiv_eq] at none_
    split_ifs at none_ <;> omega
  have magnitude : |z.tdiv (2 ^ 48)| = ((z.natAbs / 2 ^ 48 : ℕ) : ℤ) := by
    rw [tdiv_eq]
    split_ifs
    · rw [abs_neg, Nat.abs_cast]
    · rw [Nat.abs_cast]
  have small := abs_le.1 (show |z.tdiv (2 ^ 48)| ≤ 2 ^ 48 by rw [magnitude]; omega)
  rw [kept, clamp_of_fits (by omega) (by omega), magnitude]
  omega

theorem mul_of_zero (zero : value a.mantissa = 0 ∨ value b.mantissa = 0) :
    fxpMul a.mantissa b.mantissa = 0 := by
  rw [fxpMul, if_pos]
  exact zero.imp eq_zero_of_value eq_zero_of_value

theorem InForm.mul (left : InForm a) (right : InForm b) : InForm (mul a b) := by
  refine inForm_flt1648 _ ?_
  rcases left with zero | left
  · rw [mul_of_zero (.inl zero)]
    decide
  · rcases right with zero | right
    · rw [mul_of_zero (.inr zero)]
      decide
    · have := (value_mul left right).2.2
      omega

theorem InForm.add (left : InForm a) (right : InForm b) : InForm (add a b) := by
  rw [add_eq]
  refine inForm_flt1648 _ ?_
  rw [value_sumWord left right]
  exact abs_aligned_le left right

theorem value_neg {x : UInt64} (above : -2 ^ 63 < value x) : value (~~~x + 1) = -value x := by
  have := value_bounds x
  have own := congr_value x
  have := x.toNat_lt
  refine value_of_congr (by omega) (by omega) ?_
  rw [toNat_negate]
  omega

theorem InForm.sub (left : InForm a) (right : InForm b) : InForm (sub a b) := by
  refine left.add (inForm_flt1648 _ ?_)
  have small := right.bound
  have := (abs_le.1 small).1
  rw [value_neg (by omega), abs_neg]
  omega

theorem InForm.again (inForm : InForm d) (E : Int16) : InForm (flt1648 E d.mantissa) := by
  have small := inForm.bound
  exact inForm_flt1648 E (by omega)

theorem value_int (v : Int32) : value v.toInt64.toUInt64 = v.toInt :=
  Int32.toInt_toInt64 v

theorem Computed.inForm (computed : Computed d) : InForm d := by
  induction computed with
  | zero => exact .inl rfl
  | int v =>
    have low := Int32.le_toInt v
    have high := Int32.toInt_lt v
    refine inForm_flt1648 _ ?_
    rw [value_int]
    exact abs_le.2 ⟨by omega, by omega⟩
  | start normalized => exact .inr normalized
  | add _ _ left right => exact left.add right
  | sub _ _ left right => exact left.sub right
  | mul _ _ left right => exact left.mul right
  | shl n _ left => exact left.again _
  | shr n _ left => exact left.again _

end Products
section Errors

variable {a b : Flt1648}

/-- One unit in the last place of the larger operand's mantissa -/
def unit (a b : Flt1648) : ℚ :=
  dyad 1 ((if |toRat a| < |toRat b| then b.exponent.toInt else a.exponent.toInt) - 48)

theorem unit_of_normalized (left : Normalized a) (right : Normalized b) :
    unit a b = dyad 1 (max a.exponent.toInt b.exponent.toInt - 48) := by
  rw [unit]
  split_ifs with less
  · have := exponent_le left right less.le
    rw [max_eq_right (by omega)]
  · have := exponent_le right left (not_lt.1 less)
    rw [max_eq_left (by omega)]

theorem toRat_sub_shifted (d : Flt1648) {e : ℤ} {k : ℕ} (shifted : e = d.exponent.toInt + k) :
    toRat d - dyad (value d.mantissa / 2 ^ k) (e - 48) =
      dyad (value d.mantissa % 2 ^ k) (d.exponent.toInt - 48) := by
  have same : e - 48 = d.exponent.toInt - 48 + k := by omega
  rw [toRat, same, dyad_floor, dyad_sub]
  congr 1
  ring

/-- The last bit is lost where the sum has 49 bits. -/
def carried (a b : Flt1648) : ℤ := if 2 ^ 48 ≤ |aligned a b| then aligned a b % 2 else 0

theorem toRat_add (left : InForm a) (right : InForm b)
    (fits : aligned a b ≠ 0 → Fits (max a.exponent.toInt b.exponent.toInt) (sumWord a b)) :
    toRat (add a b) = dyad (aligned a b - carried a b)
      (max a.exponent.toInt b.exponent.toInt - 48) := by
  have sum := value_sumWord left right
  rw [add_eq, carried]
  by_cases zero : aligned a b = 0
  · rw [zero] at sum
    rw [zero, eq_zero_of_value sum, flt1648_zero, toRat_of_zero rfl, if_neg (by norm_num), sub_zero,
      dyad_zero]
  · have nonzero : value (sumWord a b) ≠ 0 := by rwa [sum]
    obtain ⟨low, high⟩ := hasBits_top nonzero
    have small := abs_aligned_le left right
    rw [toRat_flt1648 nonzero (fits zero)]
    rw [sum] at low high ⊢
    split_ifs with more
    · have many : top (sumWord a b) = 48 := by
        refine le_antisymm (not_lt.1 fun above => ?_) (not_lt.1 fun below => ?_)
        · have large : (2 : ℤ) ^ 49 ≤ 2 ^ top (sumWord a b) :=
            pow_le_pow_right₀ (by norm_num) (by omega)
          omega
        · have most : (2 : ℤ) ^ (top (sumWord a b) + 1) ≤ 2 ^ 48 :=
            pow_le_pow_right₀ (by norm_num) (by omega)
          omega
      rw [many]
      rfl
    · have few : top (sumWord a b) - 47 = 0 := by
        by_contra many
        have large : (2 : ℤ) ^ 48 ≤ 2 ^ top (sumWord a b) :=
          pow_le_pow_right₀ (by norm_num) (by omega)
        omega
      rw [few, pow_zero, Int.emod_one]

theorem add_error (left : InForm a) (right : InForm b)
    (fits : aligned a b ≠ 0 → Fits (max a.exponent.toInt b.exponent.toInt) (sumWord a b)) :
    toRat a + toRat b - toRat (add a b) =
      dyad (value a.mantissa % 2 ^ (b.exponent.toInt - a.exponent.toInt).toNat)
          (a.exponent.toInt - 48) +
        dyad (value b.mantissa % 2 ^ (a.exponent.toInt - b.exponent.toInt).toNat)
          (b.exponent.toInt - 48) +
        dyad (carried a b) (max a.exponent.toInt b.exponent.toInt - 48) := by
  have first := toRat_sub_shifted a (e := max a.exponent.toInt b.exponent.toInt)
    (k := (b.exponent.toInt - a.exponent.toInt).toNat) (by omega)
  have second := toRat_sub_shifted b (e := max a.exponent.toInt b.exponent.toInt)
    (k := (a.exponent.toInt - b.exponent.toInt).toNat) (by omega)
  rw [toRat_add left right fits, ← first, ← second, ← dyad_sub, aligned, ← dyad_add]
  ring

end Errors
section Closeness

variable {a b : Flt1648}

/-- A zero does not push bits out of the other operand, and a sum with a carry is even. -/
def SumKept (a b : Flt1648) : Prop :=
  (value a.mantissa = 0 →
      2 ^ (a.exponent.toInt - b.exponent.toInt).toNat ∣ value b.mantissa) ∧
    (value b.mantissa = 0 →
      2 ^ (b.exponent.toInt - a.exponent.toInt).toNat ∣ value a.mantissa) ∧
    (value a.mantissa ≠ 0 → value b.mantissa ≠ 0 →
      ¬ (2 ^ 48 ≤ |aligned a b| ∧ aligned a b % 2 = 1))

theorem carried_cases (a b : Flt1648) : carried a b = 0 ∨ carried a b = 1 := by
  unfold carried
  split_ifs <;> omega

theorem carried_eq_zero_iff (a b : Flt1648) :
    carried a b = 0 ↔ ¬ (2 ^ 48 ≤ |aligned a b| ∧ aligned a b % 2 = 1) := by
  unfold carried
  split_ifs <;> omega

theorem carried_of_zero (left : InForm a) (right : InForm b)
    (zero : value a.mantissa = 0 ∨ value b.mantissa = 0) : carried a b = 0 := by
  have first := abs_ediv_le (b.exponent.toInt - a.exponent.toInt).toNat left.bound
  have second := abs_ediv_le (a.exponent.toInt - b.exponent.toInt).toNat right.bound
  rw [carried, if_neg]
  rcases zero with zero | zero
  · rw [aligned, zero, Int.zero_ediv, zero_add]
    omega
  · rw [aligned, zero, Int.zero_ediv, add_zero]
    omega

theorem abs_toRat_pos {d : Flt1648} (nonzero : value d.mantissa ≠ 0) : 0 < |toRat d| :=
  abs_pos.2 fun zero => nonzero (dyad_eq_zero.1 zero)

theorem unit_of_left (nonzero : value a.mantissa ≠ 0) (zero : value b.mantissa = 0) :
    unit a b = dyad 1 (a.exponent.toInt - 48) := by
  have positive := abs_toRat_pos nonzero
  rw [unit, toRat_of_zero zero, abs_zero, if_neg positive.not_gt]

theorem unit_of_right (zero : value a.mantissa = 0) (nonzero : value b.mantissa ≠ 0) :
    unit a b = dyad 1 (b.exponent.toInt - 48) := by
  have positive := abs_toRat_pos nonzero
  rw [unit, toRat_of_zero zero, abs_zero, if_pos positive]

theorem alignment_lt (a b : Flt1648) :
    dyad (value a.mantissa % 2 ^ (b.exponent.toInt - a.exponent.toInt).toNat)
        (a.exponent.toInt - 48) +
      dyad (value b.mantissa % 2 ^ (a.exponent.toInt - b.exponent.toInt).toNat)
        (b.exponent.toInt - 48) < dyad 1 (max a.exponent.toInt b.exponent.toInt - 48) := by
  rcases le_total a.exponent.toInt b.exponent.toInt with order | order
  · have none_ : (a.exponent.toInt - b.exponent.toInt).toNat = 0 := by omega
    have top_ : max a.exponent.toInt b.exponent.toInt - 48 =
        a.exponent.toInt - 48 + (b.exponent.toInt - a.exponent.toInt).toNat := by omega
    rw [none_, pow_zero, Int.emod_one, dyad_zero, add_zero, top_]
    exact dyad_emod_lt _ _ _
  · have none_ : (b.exponent.toInt - a.exponent.toInt).toNat = 0 := by omega
    have top_ : max a.exponent.toInt b.exponent.toInt - 48 =
        b.exponent.toInt - 48 + (a.exponent.toInt - b.exponent.toInt).toNat := by omega
    rw [none_, pow_zero, Int.emod_one, dyad_zero, zero_add, top_]
    exact dyad_emod_lt _ _ _

theorem add_close_iff (left : InForm a) (right : InForm b)
    (fits : aligned a b ≠ 0 → Fits (max a.exponent.toInt b.exponent.toInt) (sumWord a b)) :
    |toRat (add a b) - (toRat a + toRat b)| < unit a b ↔ SumKept a b := by
  have error := add_error left right fits
  have lostA := dyad_emod_nonneg (value a.mantissa) (a.exponent.toInt - 48)
    (b.exponent.toInt - a.exponent.toInt).toNat
  have lostB := dyad_emod_nonneg (value b.mantissa) (b.exponent.toInt - 48)
    (a.exponent.toInt - b.exponent.toInt).toNat
  have lost : 0 ≤ dyad (carried a b) (max a.exponent.toInt b.exponent.toInt - 48) :=
    dyad_nonneg.2 (by rcases carried_cases a b with none_ | one <;> omega)
  rw [abs_sub_comm, abs_of_nonneg (by rw [error]; linarith), error, SumKept]
  rcases left with zeroA | normalA
  · rw [carried_of_zero (.inl zeroA) right (.inl zeroA), dyad_zero, add_zero, zeroA, Int.zero_emod,
      dyad_zero, zero_add]
    by_cases zeroB : value b.mantissa = 0
    · rw [zeroB, Int.zero_emod, dyad_zero]
      exact iff_of_true (dyad_nonneg.2 zero_le_one |>.lt_of_ne' (dyad_eq_zero.not.2 one_ne_zero))
        ⟨fun _ => dvd_zero _, fun _ => dvd_zero _, fun none_ => absurd rfl none_⟩
    · rw [unit_of_right zeroA zeroB, dyad_emod_lt_one]
      exact ⟨fun divides => ⟨fun _ => divides, fun zero => absurd zero zeroB,
        fun none_ => absurd rfl none_⟩, fun kept => kept.1 rfl⟩
  · rcases right with zeroB | normalB
    · rw [carried_of_zero (.inr normalA) (.inl zeroB) (.inr zeroB), dyad_zero, add_zero, zeroB,
        Int.zero_emod, dyad_zero, add_zero, unit_of_left normalA.ne_zero zeroB, dyad_emod_lt_one]
      exact ⟨fun divides => ⟨fun zero => absurd zero normalA.ne_zero, fun _ => divides,
        fun _ none_ => absurd rfl none_⟩, fun kept => kept.2.1 rfl⟩
    · have small := alignment_lt a b
      rw [unit_of_normalized normalA normalB, ← carried_eq_zero_iff]
      rcases carried_cases a b with none_ | one
      · rw [none_, dyad_zero, add_zero]
        exact iff_of_true small ⟨fun zero => absurd zero normalA.ne_zero,
          fun zero => absurd zero normalB.ne_zero, fun _ _ => rfl⟩
      · rw [one]
        refine iff_of_false (by linarith) fun kept => ?_
        exact absurd (kept.2.2 normalA.ne_zero normalB.ne_zero) one_ne_zero

end Closeness
section Agreement

variable {a b : Flt1648}

/-- What is cut off from the product of the mantissas is below one unit. -/
def ProductKept (a b : Flt1648) : Prop :=
  dyad (|value a.mantissa * value b.mantissa| % 2 ^ 48)
    (min a.exponent.toInt b.exponent.toInt - 48) < 1

theorem unit_pos (a b : Flt1648) : 0 < unit a b := by
  rw [unit, dyad, Int.cast_one, one_mul]
  exact two_zpow_pos _

theorem mul_error (left : Normalized a) (right : Normalized b)
    (fits : Fits (a.exponent.toInt + b.exponent.toInt) (fxpMul a.mantissa b.mantissa)) :
    |toRat (mul a b) - toRat a * toRat b| =
      dyad (|value a.mantissa * value b.mantissa| % 2 ^ 48)
        (a.exponent.toInt + b.exponent.toInt - 96) := by
  obtain ⟨truncated_, low, high⟩ := value_mul left right
  have nonzero : value (fxpMul a.mantissa b.mantissa) ≠ 0 := by
    intro zero
    rw [zero] at low
    exact absurd low (by norm_num)
  have few : top (fxpMul a.mantissa b.mantissa) - 47 = 0 := by
    obtain ⟨most, -⟩ := hasBits_top nonzero
    by_contra many
    have large : (2 : ℤ) ^ 48 ≤ 2 ^ top (fxpMul a.mantissa b.mantissa) :=
      pow_le_pow_right₀ (by norm_num) (by omega)
    omega
  have exponents : a.exponent + b.exponent =
      Int16.ofInt (a.exponent.toInt + b.exponent.toInt) := by
    rw [Int16.ofInt_add, Int16.ofInt_toInt, Int16.ofInt_toInt]
  have scale : a.exponent.toInt + b.exponent.toInt - 48 =
      a.exponent.toInt + b.exponent.toInt - 96 + (48 : ℕ) := by omega
  rw [mul, exponents, toRat_flt1648 nonzero fits, few, pow_zero, Int.emod_one, sub_zero, truncated_,
    scale, ← dyad_shift, toRat, toRat, dyad_mul,
    show a.exponent.toInt - 48 + (b.exponent.toInt - 48) =
      a.exponent.toInt + b.exponent.toInt - 96 by ring, dyad_sub, abs_dyad]
  congr 1
  rw [tdiv_eq, Int.abs_eq_natAbs, Int.abs_eq_natAbs]
  split_ifs <;> omega

theorem mul_close_iff (left : InForm a) (right : InForm b)
    (fits : value (fxpMul a.mantissa b.mantissa) ≠ 0 →
      Fits (a.exponent.toInt + b.exponent.toInt) (fxpMul a.mantissa b.mantissa)) :
    |toRat (mul a b) - toRat a * toRat b| < unit a b ↔ ProductKept a b := by
  have vanishes (zero : value a.mantissa = 0 ∨ value b.mantissa = 0) :
      |toRat (mul a b) - toRat a * toRat b| < unit a b ↔ ProductKept a b := by
    have product : value a.mantissa * value b.mantissa = 0 := mul_eq_zero.2 zero
    have exact_ : toRat a * toRat b = 0 := mul_eq_zero.2 (zero.imp toRat_of_zero toRat_of_zero)
    have none_ : toRat (mul a b) = 0 := by
      rw [mul, mul_of_zero zero, flt1648_zero]
      exact toRat_of_zero rfl
    rw [none_, exact_, sub_zero, abs_zero, ProductKept, product, abs_zero, Int.zero_emod, dyad_zero]
    exact iff_of_true (unit_pos a b) zero_lt_one
  rcases left with zeroA | normalA
  · exact vanishes (.inl zeroA)
  rcases right with zeroB | normalB
  · exact vanishes (.inr zeroB)
  have nonzero : value (fxpMul a.mantissa b.mantissa) ≠ 0 := by
    intro zero
    have low := (value_mul normalA normalB).2.1
    rw [zero] at low
    exact absurd low (by norm_num)
  have weights : a.exponent.toInt + b.exponent.toInt - 96 =
      min a.exponent.toInt b.exponent.toInt - 48 +
        (max a.exponent.toInt b.exponent.toInt - 48) := by
    have := min_add_max a.exponent.toInt b.exponent.toInt
    omega
  have positive : 0 < dyad 1 (max a.exponent.toInt b.exponent.toInt - 48) := by
    rw [dyad, Int.cast_one, one_mul]
    exact two_zpow_pos _
  rw [mul_error normalA normalB (fits nonzero), unit_of_normalized normalA normalB, weights,
    ← mul_one (|value a.mantissa * value b.mantissa| % 2 ^ 48), ← dyad_mul, ProductKept,
    mul_lt_iff_lt_one_left positive]

/-- Normalized, or the one zero -/
def Canonical (d : Flt1648) : Prop := d = ZERO ∨ Normalized d

/-- Normalized operands, the equality of equal numbers, sums and products within a unit, and what is
written read back into another value -/
structure Consistent (a b into : Flt1648) : Prop where
  left : Canonical a
  right : Canonical b
  equal : toRat a = toRat b → a = b
  sum : |toRat (add a b) - (toRat a + toRat b)| < unit a b
  product : |toRat (mul a b) - toRat a * toRat b| < unit a b
  back : readFlt into (writeFlt a) = a

/-- A zero has the exponent zero, no bits are lost, and the value read into has the mantissa. -/
structure Kept (a b into : Flt1648) : Prop where
  left : value a.mantissa = 0 → a.exponent = 0
  right : value b.mantissa = 0 → b.exponent = 0
  sum : SumKept a b
  product : ProductKept a b
  back : into.mantissa = a.mantissa

theorem canonical_iff {d : Flt1648} (inForm : InForm d) :
    Canonical d ↔ (value d.mantissa = 0 → d.exponent = 0) := by
  rcases inForm with zero | normalized
  · constructor
    · rintro (rfl | normalized) -
      · rfl
      · exact absurd zero normalized.ne_zero
    · intro exponent
      exact .inl (congrArg₂ Flt1648.mk (exponent zero) (eq_zero_of_value zero))
  · exact iff_of_true (.inr normalized) fun zero => absurd zero normalized.ne_zero

theorem Canonical.eq_of_toRat (left : Canonical a) (right : Canonical b)
    (same : toRat a = toRat b) : a = b := by
  rcases left with rfl | left
  · rcases right with rfl | right
    · rfl
    · rw [toRat_of_zero (d := ZERO) rfl, eq_comm] at same
      exact absurd (dyad_eq_zero.1 same) right.ne_zero
  · rcases right with rfl | right
    · rw [toRat_of_zero (d := ZERO) rfl] at same
      exact absurd (dyad_eq_zero.1 same) left.ne_zero
    · obtain ⟨mantissa, exponent⟩ := dyad_unique left right same
      exact congrArg₂ Flt1648.mk (Int16.toInt_inj.1 (by omega)) (value_inj.1 mantissa)

/-- Computed values are consistent exactly where nothing is lost. -/
theorem consistent_iff (into : Flt1648) (left : Computed a) (right : Computed b)
    (fitsSum : aligned a b ≠ 0 → Fits (max a.exponent.toInt b.exponent.toInt) (sumWord a b))
    (fitsProduct : value (fxpMul a.mantissa b.mantissa) ≠ 0 →
      Fits (a.exponent.toInt + b.exponent.toInt) (fxpMul a.mantissa b.mantissa)) :
    Consistent a b into ↔ Kept a b into := by
  have inFormA := left.inForm
  have inFormB := right.inForm
  have back_iff : readFlt into (writeFlt a) = a ↔ into.mantissa = a.mantissa := by
    rw [readFlt_writeFlt]
    constructor
    · intro same
      have mantissas := congrArg Flt1648.mantissa same
      exact mantissas
    · intro same
      rw [same]
  constructor
  · intro consistent
    exact
      { left := (canonical_iff inFormA).1 consistent.left
        right := (canonical_iff inFormB).1 consistent.right
        sum := (add_close_iff inFormA inFormB fitsSum).1 consistent.sum
        product := (mul_close_iff inFormA inFormB fitsProduct).1 consistent.product
        back := back_iff.1 consistent.back }
  · intro kept
    have canonicalA := (canonical_iff inFormA).2 kept.left
    have canonicalB := (canonical_iff inFormB).2 kept.right
    exact
      { left := canonicalA
        right := canonicalB
        equal := canonicalA.eq_of_toRat canonicalB
        sum := (add_close_iff inFormA inFormB fitsSum).2 kept.sum
        product := (mul_close_iff inFormA inFormB fitsProduct).2 kept.product
        back := back_iff.2 kept.back }

theorem computed_one : Computed ONE := .int 1

/-- One and one, read back where a one was -/
theorem ones_consistent : Consistent ONE ONE ONE := by
  refine (consistent_iff ONE computed_one computed_one (fun _ => ⟨by decide, by decide⟩)
    fun _ => ⟨by decide, by decide⟩).2
    { left := by decide
      right := by decide
      sum := ⟨by decide, by decide, by decide⟩
      product := ?_
      back := rfl }
  have nothing : |value ONE.mantissa * value ONE.mantissa| % 2 ^ 48 = 0 := by decide
  rw [ProductKept, nothing, dyad_zero]
  exact zero_lt_one

/-- Read into a fresh value, a one is a zero. -/
theorem one_lost : Computed ONE ∧ ¬ Consistent ONE ONE ZERO := by
  refine ⟨computed_one, fun consistent => ?_⟩
  have back := consistent.back
  revert back
  decide

end Agreement

end Epilog.Pow.Floating
