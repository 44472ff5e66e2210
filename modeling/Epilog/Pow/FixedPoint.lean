/- Module: Epilog/Pow/FixedPoint
   source: src/src/pow/fxp.hpp
   digest: The saturating operations on 64 bits against the integers they stand for. -/

import Epilog.Pow.Target
import Mathlib.Data.Int.ModEq
import Mathlib.Algebra.Order.Ring.Int
import Mathlib.Tactic.Linarith
import Mathlib.Tactic.Positivity

set_option autoImplicit false

namespace Epilog.Pow.FixedPoint

open Epilog.Global.MetaTerms Epilog.Pow.Target

section Comparisons

/-- `operator <`: the sign of the difference, which may overflow -/
def lt (x y : UInt64) : Bool := (x - y) >>> 63 ≠ 0

/-- `operator >=` -/
def ge (x y : UInt64) : Bool := (x - y) >>> 63 = 0

/-- `operator <=` -/
def le (x y : UInt64) : Bool := lt x y || decide (x = y)

/-- `operator >` -/
def gt (x y : UInt64) : Bool := ge x y && decide (x ≠ y)

def LIMIT_MAX : UInt64 := 0x2aaaaaaaaaaaaaaa

def LIMIT_MIN : UInt64 := 0xd555555555555556

/-- `fxp1648::mul3` -/
def mul3 (x : UInt64) : UInt64 :=
  if gt x LIMIT_MAX then FXP_MAX
  else if lt x LIMIT_MIN then FXP_MIN
  else (x <<< 1) + x

end Comparisons

section Values

/-- The integer of 64 bits in two's complement; the number is this over `2 ^ 48`. -/
def value (v : UInt64) : ℤ := v.toBitVec.toInt

/-- The integer of 64 bits that is nearest -/
def clamp (z : ℤ) : ℤ := max (-2 ^ 63) (min (2 ^ 63 - 1) z)

theorem value_eq (v : UInt64) :
    value v = if v.toNat < 2 ^ 63 then (v.toNat : ℤ) else v.toNat - 2 ^ 64 := by
  unfold value
  rw [BitVec.toInt_eq_toNat_cond]
  change (if 2 * v.toNat < 2 ^ 64 then _ else _) = _
  split_ifs <;> first | rfl | omega

theorem value_bounds (v : UInt64) : -2 ^ 63 ≤ value v ∧ value v < 2 ^ 63 := by
  have := v.toNat_lt
  rw [value_eq]
  split_ifs <;> omega

theorem isNegative_eq (v : UInt64) : isNegative v = decide (value v < 0) := by
  have := v.toNat_lt
  have high : (v >>> 63).toNat = v.toNat / 2 ^ 63 := by
    rw [UInt64.toNat_shiftRight, Nat.shiftRight_eq_div_pow]
    rfl
  rw [isNegative, decide_eq_decide, ne_eq, ← UInt64.toNat_inj, high, value_eq]
  change ¬ v.toNat / 2 ^ 63 = 0 ↔ _
  split_ifs <;> omega

theorem value_inj {v w : UInt64} : value v = value w ↔ v = w := by
  refine ⟨fun same => ?_, fun same => same ▸ rfl⟩
  have := v.toNat_lt
  have := w.toNat_lt
  rw [value_eq, value_eq] at same
  apply UInt64.toNat_inj.1
  split_ifs at same <;> omega

theorem value_of_congr {v : UInt64} {z : ℤ} (low : -2 ^ 63 ≤ z) (high : z < 2 ^ 63)
    (congr : (v.toNat : ℤ) % 2 ^ 64 = z % 2 ^ 64) : value v = z := by
  have := v.toNat_lt
  rw [value_eq]
  split_ifs <;> omega

theorem congr_value (v : UInt64) : (v.toNat : ℤ) % 2 ^ 64 = value v % 2 ^ 64 := by
  rw [value_eq]
  split_ifs <;> omega

theorem value_max : value FXP_MAX = 2 ^ 63 - 1 := by decide

theorem value_min : value FXP_MIN = -2 ^ 63 := by decide

theorem value_maxOrMin (positive : Bool) :
    value (maxOrMin positive) = if positive then 2 ^ 63 - 1 else -2 ^ 63 := by
  cases positive <;> decide

theorem value_eps (positive : Bool) : value (eps positive) = if positive then 1 else -1 := by
  cases positive <;> decide

theorem clamp_of_fits {z : ℤ} (low : -2 ^ 63 ≤ z) (high : z < 2 ^ 63) : clamp z = z := by
  unfold clamp
  omega

theorem clamp_of_ge {z : ℤ} (high : 2 ^ 63 - 1 ≤ z) : clamp z = 2 ^ 63 - 1 := by
  unfold clamp
  omega

theorem clamp_of_le {z : ℤ} (low : z ≤ -2 ^ 63) : clamp z = -2 ^ 63 := by
  unfold clamp
  omega

end Values
section Sums

variable (x y : UInt64)

theorem congr_add : ((x + y).toNat : ℤ) % 2 ^ 64 = (value x + value y) % 2 ^ 64 := by
  have hx := congr_value x
  have hy := congr_value y
  have sum := UInt64.toNat_add x y
  omega

theorem congr_sub : ((x - y).toNat : ℤ) % 2 ^ 64 = (value x - value y) % 2 ^ 64 := by
  have hx := congr_value x
  have hy := congr_value y
  have := y.toNat_lt
  have difference := UInt64.toNat_sub x y
  omega

theorem value_of_wraps {v : UInt64} {z : ℤ} (congr : (v.toNat : ℤ) % 2 ^ 64 = z % 2 ^ 64) :
    ∃ k : ℤ, value v = z + k * 2 ^ 64 := by
  have own := congr_value v
  exact ⟨(value v - z) / 2 ^ 64, by omega⟩

theorem value_fxpAdd : value (fxpAdd x y) = clamp (value x + value y) := by
  obtain ⟨k, wrapped⟩ := value_of_wraps (congr_add x y)
  have := value_bounds x
  have := value_bounds y
  have := value_bounds (x + y)
  simp only [fxpAdd, isNegative_eq, decide_eq_decide, ne_eq]
  split_ifs with overflow
  · obtain ⟨same, changed⟩ := overflow
    rw [value_maxOrMin]
    by_cases negative : value x < 0
    · rw [decide_eq_true negative]
      exact (clamp_of_le (by omega)).symm
    · rw [decide_eq_false negative]
      exact (clamp_of_ge (by omega)).symm
  · rw [clamp_of_fits (by omega) (by omega)]
    omega

theorem value_fxpSub : value (fxpSub x y) = clamp (value x - value y) := by
  obtain ⟨k, wrapped⟩ := value_of_wraps (congr_sub x y)
  have := value_bounds x
  have := value_bounds y
  have := value_bounds (x - y)
  simp only [fxpSub, isNegative_eq, decide_eq_decide, ne_eq]
  split_ifs with overflow
  · obtain ⟨differ, changed⟩ := overflow
    rw [value_maxOrMin]
    by_cases negative : value x < 0
    · rw [decide_eq_true negative]
      exact (clamp_of_le (by omega)).symm
    · rw [decide_eq_false negative]
      exact (clamp_of_ge (by omega)).symm
  · rw [clamp_of_fits (by omega) (by omega)]
    omega

end Sums

section Order

variable (x y : UInt64)

/-- The difference does not overflow. -/
def Near : Prop := -2 ^ 63 ≤ value x - value y ∧ value x - value y < 2 ^ 63

theorem lt_eq : lt x y = decide (value (x - y) < 0) := isNegative_eq (x - y)

theorem ge_eq : ge x y = decide (0 ≤ value (x - y)) := by
  have sign := isNegative_eq (x - y)
  rw [isNegative, decide_eq_decide, ne_eq] at sign
  rw [ge, decide_eq_decide, ← not_lt, ← sign, not_not]

theorem eq_iff : x = y ↔ value (x - y) = 0 := by
  obtain ⟨k, wrapped⟩ := value_of_wraps (congr_sub x y)
  have := value_bounds x
  have := value_bounds y
  have := value_bounds (x - y)
  rw [← value_inj]
  omega

theorem le_eq : le x y = decide (value (x - y) ≤ 0) := by
  rw [le, lt_eq, ← Bool.decide_or, decide_eq_decide, eq_iff]
  omega

theorem gt_eq : gt x y = decide (0 < value (x - y)) := by
  rw [gt, ge_eq, ← Bool.decide_and, decide_eq_decide, ne_eq, eq_iff]
  omega

variable {x y}

theorem compare_near (near : Near x y) : value (x - y) = value x - value y :=
  value_of_congr near.1 near.2 (congr_sub x y)

theorem lt_iff : lt x y = decide (value x < value y) ↔ Near x y := by
  obtain ⟨k, wrapped⟩ := value_of_wraps (congr_sub x y)
  have := value_bounds x
  have := value_bounds y
  have := value_bounds (x - y)
  rw [lt_eq, decide_eq_decide, Near]
  omega

theorem lt_near (near : Near x y) : lt x y = decide (value x < value y) := lt_iff.2 near

theorem ge_near (near : Near x y) : ge x y = decide (value y ≤ value x) := by
  rw [ge_eq, compare_near near, decide_eq_decide]
  omega

theorem le_near (near : Near x y) : le x y = decide (value x ≤ value y) := by
  rw [le_eq, compare_near near, decide_eq_decide]
  omega

theorem gt_near (near : Near x y) : gt x y = decide (value y < value x) := by
  rw [gt_eq, compare_near near, decide_eq_decide]
  omega

end Order
section Triples

variable {x : UInt64}

theorem value_limits :
    value LIMIT_MAX = 0x2aaaaaaaaaaaaaaa ∧ value LIMIT_MIN = -0x2aaaaaaaaaaaaaaa := by
  decide

theorem congr_triple (x : UInt64) :
    (((x <<< 1) + x).toNat : ℤ) % 2 ^ 64 = (3 * value x) % 2 ^ 64 := by
  have own := congr_value x
  have twice : (x <<< 1).toNat = x.toNat * 2 % 2 ^ 64 := by
    rw [UInt64.toNat_shiftLeft, Nat.shiftLeft_eq]
    rfl
  have sum := UInt64.toNat_add (x <<< 1) x
  omega

theorem mul3_iff :
    value (mul3 x) = clamp (3 * value x) ↔ 0x2aaaaaaaaaaaaaaa - 2 ^ 63 ≤ value x := by
  have := value_bounds x
  obtain ⟨upper, lower⟩ := value_limits
  constructor
  · intro exact_
    by_contra below
    obtain ⟨k, wrapped⟩ := value_of_wraps (congr_sub x LIMIT_MAX)
    have := value_bounds (x - LIMIT_MAX)
    have above : gt x LIMIT_MAX = true := by
      rw [gt_eq, decide_eq_true_eq]
      omega
    rw [mul3, if_pos above, value_max, clamp_of_le (by omega)] at exact_
    omega
  · intro above
    have nearMax : Near x LIMIT_MAX := by
      rw [Near]
      omega
    rw [mul3, gt_near nearMax, upper]
    by_cases more : 0x2aaaaaaaaaaaaaaa < value x
    · rw [if_pos (decide_eq_true more), value_max, clamp_of_ge (by omega)]
    · have nearMin : Near x LIMIT_MIN := by
        rw [Near]
        omega
      rw [if_neg (by simpa using more), lt_near nearMin, lower]
      by_cases less : value x < -0x2aaaaaaaaaaaaaaa
      · rw [if_pos (decide_eq_true less), value_min, clamp_of_le (by omega)]
      · rw [if_neg (by simpa using less), clamp_of_fits (by omega) (by omega)]
        exact value_of_congr (by omega) (by omega) (congr_triple x)

end Triples

section Shifts

variable {x : UInt64} {n : ℕ}

theorem toNat_negate (x : UInt64) : (~~~x + 1).toNat = (2 ^ 64 - x.toNat) % 2 ^ 64 := by
  have := x.toNat_lt
  rw [UInt64.toNat_add, UInt64.toNat_not]
  change (2 ^ 64 - 1 - x.toNat + 1) % 2 ^ 64 = _
  omega

theorem toNat_magnitude (x : UInt64) : (magnitude x).toNat = (value x).natAbs := by
  have := x.toNat_lt
  have := toNat_negate x
  rw [magnitude, isNegative_eq, value_eq]
  split_ifs <;> simp_all <;> omega

theorem posMsb_eq (nonzero : x ≠ 0) : posMsb x = Nat.log2 (value x).natAbs := by
  have same : (if isNegative x then ~~~x + 1 else x).toNat = (value x).natAbs := toNat_magnitude x
  rw [posMsb, if_neg nonzero, ← same]
  unfold isNegative
  split_ifs <;> simp_all

theorem shift_over_iff {m : ℕ} (nonzero : m ≠ 0) :
    62 - (Nat.log2 m : ℤ) < n ↔ 2 ^ 63 ≤ m * 2 ^ n := by
  have low : 2 ^ Nat.log2 m ≤ m := Nat.log2_self_le nonzero
  have high : m < 2 ^ (Nat.log2 m + 1) := Nat.lt_log2_self
  constructor
  · intro over_
    calc 2 ^ 63 ≤ 2 ^ (Nat.log2 m + n) := Nat.pow_le_pow_right (by norm_num) (by omega)
      _ = 2 ^ Nat.log2 m * 2 ^ n := pow_add ..
      _ ≤ m * 2 ^ n := Nat.mul_le_mul_right _ low
  · intro large
    by_contra below
    have less : m * 2 ^ n < 2 ^ 63 :=
      calc m * 2 ^ n < 2 ^ (Nat.log2 m + 1) * 2 ^ n :=
            Nat.mul_lt_mul_of_pos_right high (by positivity)
        _ = 2 ^ (Nat.log2 m + 1 + n) := (pow_add ..).symm
        _ ≤ 2 ^ 63 := Nat.pow_le_pow_right (by norm_num) (by omega)
    omega

theorem congr_shift (x : UInt64) (n : ℕ) :
    ((UInt64.ofNat (x.toNat * 2 ^ n)).toNat : ℤ) % 2 ^ 64 = (value x * 2 ^ n) % 2 ^ 64 := by
  have own : (x.toNat : ℤ) ≡ value x [ZMOD 2 ^ 64] := congr_value x
  have wide : (UInt64.ofNat (x.toNat * 2 ^ n)).toNat = x.toNat * 2 ^ n % 2 ^ 64 :=
    UInt64.toNat_ofNat'
  rw [wide]
  push_cast
  rw [Int.emod_emod_of_dvd _ (dvd_refl _)]
  exact own.mul_right (2 ^ n)

theorem shiftLeft_iff :
    value (fxpShiftLeft x n) = clamp (value x * 2 ^ n) ↔ (value x = 0 → n < 64) := by
  by_cases zero : x = 0
  · subst zero
    have none_ : value 0 = 0 := rfl
    have msb : posMsb 0 = -1 := rfl
    have plain : isNegative 0 = false := rfl
    rw [fxpShiftLeft, plain, if_neg Bool.false_ne_true, msb, none_, zero_mul,
      clamp_of_fits (by norm_num) (by norm_num), UInt64.toNat_zero, zero_mul]
    split_ifs with more
    · rw [value_max]
      omega
    · exact iff_of_true rfl fun _ => by omega
  · have nonzero : value x ≠ 0 := fun none_ => zero (value_inj.1 none_)
    refine iff_of_true ?_ fun none_ => absurd none_ nonzero
    have := value_bounds x
    have over_iff := shift_over_iff (n := n) (Int.natAbs_ne_zero.2 nonzero)
    have large : (0 : ℤ) < 2 ^ n := by positivity
    have same : (((value x).natAbs * 2 ^ n : ℕ) : ℤ) = (value x * 2 ^ n).natAbs := by
      rw [Int.natAbs_mul, Int.natAbs_pow]
      rfl
    have sign : value x * 2 ^ n < 0 ↔ value x < 0 :=
      ⟨fun low => neg_of_mul_neg_left low large.le, fun low => mul_neg_of_neg_of_pos low large⟩
    have congr := congr_shift x n
    simp only [fxpShiftLeft, isNegative_eq, posMsb_eq zero, over_iff, decide_eq_true_eq]
    have atMin : x = FXP_MIN ↔ value x = -2 ^ 63 := by rw [← value_min, value_inj]
    have least : value x = -2 ^ 63 → 2 ^ 63 ≤ (value x).natAbs * 2 ^ n := fun low => by
      rw [low]
      exact Nat.le_mul_of_pos_right _ (by positivity)
    generalize value x * 2 ^ n = z at *
    generalize (value x).natAbs * 2 ^ n = m at *
    split_ifs with negative low large
    · have le : z ≤ -2 ^ 63 := by
        rcases low with low | low
        · have := least (atMin.1 low)
          omega
        · omega
      rw [value_min, clamp_of_le le]
    · rw [not_or] at low
      rw [clamp_of_fits (by omega) (by omega)]
      exact value_of_congr (by omega) (by omega) congr
    · rw [value_max, clamp_of_ge (by omega)]
    · rw [clamp_of_fits (by omega) (by omega)]
      exact value_of_congr (by omega) (by omega) congr

end Shifts
section Products

theorem toNat_shiftRight (v : UInt64) {k : ℕ} (small : k < 64) :
    (v >>> UInt64.ofNat k).toNat = v.toNat / 2 ^ k := by
  rw [UInt64.toNat_shiftRight, UInt64.toNat_ofNat', Nat.shiftRight_eq_div_pow,
    Nat.mod_eq_of_lt (show k < 2 ^ 64 by omega), Nat.mod_eq_of_lt small]

theorem toNat_shiftLeft (v : UInt64) {k : ℕ} (small : k < 64) :
    (v <<< UInt64.ofNat k).toNat = v.toNat * 2 ^ k % 2 ^ 64 := by
  rw [UInt64.toNat_shiftLeft, UInt64.toNat_ofNat', Nat.shiftLeft_eq,
    Nat.mod_eq_of_lt (show k < 2 ^ 64 by omega), Nat.mod_eq_of_lt small]

theorem toNat_low (v : UInt64) : (v &&& 0xffffffff).toNat = v.toNat % 2 ^ 32 := by
  rw [UInt64.toNat_and]
  exact Nat.and_two_pow_sub_one_eq_mod v.toNat 32

/-- The middle word of the product, as the source puts it together -/
def middle (a b : UInt64) : UInt64 :=
  let ah := a >>> 32
  let al := a &&& 0xffffffff
  let bh := b >>> 32
  let bl := b &&& 0xffffffff
  let p0 := al * bl
  let p1 := al * bh
  let p2 := ah * bl
  let p3 := ah * bh
  let carry := ((p0 >>> 32) + (p1 &&& 0xffffffff) + (p2 &&& 0xffffffff)) >>> 32
  let lo := p0 + (p1 <<< 32) + (p2 <<< 32)
  let hi := p3 + (p2 >>> 32) + (p1 >>> 32) + carry
  (hi <<< 16) ||| (lo >>> 48)

theorem toNat_mul_of_lt {a b : UInt64} (fits : a.toNat < 2 ^ 32) (fits' : b.toNat < 2 ^ 32) :
    (a * b).toNat = a.toNat * b.toNat := by
  have small : a.toNat * b.toNat < 2 ^ 32 * 2 ^ 32 := Nat.mul_lt_mul'' fits fits'
  rw [UInt64.toNat_mul]
  exact Nat.mod_eq_of_lt small

theorem toNat_join (hi lo : UInt64) :
    ((hi <<< 16) ||| (lo >>> 48)).toNat = (hi.toNat * 2 ^ 64 + lo.toNat) / 2 ^ 48 % 2 ^ 64 := by
  have high : (hi <<< 16).toNat = hi.toNat * 2 ^ 16 % 2 ^ 64 :=
    toNat_shiftLeft hi (k := 16) (by omega)
  have low : (lo >>> 48).toNat = lo.toNat / 2 ^ 48 := toNat_shiftRight lo (k := 48) (by omega)
  have := lo.toNat_lt
  have shape : hi.toNat * 2 ^ 16 % 2 ^ 64 = 2 ^ 16 * (hi.toNat % 2 ^ 48) := by omega
  have small : lo.toNat / 2 ^ 48 < 2 ^ 16 := by omega
  rw [UInt64.toNat_or, high, low, shape, ← Nat.two_pow_add_eq_or_of_lt small]
  omega

theorem toNat_join_products (p0 p1 p2 p3 : UInt64) :
    (((p3 + (p2 >>> 32) + (p1 >>> 32) +
          (((p0 >>> 32) + (p1 &&& 0xffffffff) + (p2 &&& 0xffffffff)) >>> 32)) <<< 16) |||
        ((p0 + (p1 <<< 32) + (p2 <<< 32)) >>> 48)).toNat =
      (p3.toNat * 2 ^ 64 + (p1.toNat + p2.toNat) * 2 ^ 32 + p0.toNat) / 2 ^ 48 % 2 ^ 64 := by
  have down (v : UInt64) : (v >>> 32).toNat = v.toNat / 2 ^ 32 :=
    toNat_shiftRight v (k := 32) (by omega)
  have up (v : UInt64) : (v <<< 32).toNat = v.toNat * 2 ^ 32 % 2 ^ 64 :=
    toNat_shiftLeft v (k := 32) (by omega)
  rw [toNat_join]
  simp only [UInt64.toNat_add, down, up, toNat_low]
  have := p0.toNat_lt
  have := p1.toNat_lt
  have := p2.toNat_lt
  omega

theorem toNat_middle (a b : UInt64) :
    (middle a b).toNat = a.toNat * b.toNat / 2 ^ 48 % 2 ^ 64 := by
  have := a.toNat_lt
  have := b.toNat_lt
  have ah : (a >>> 32).toNat = a.toNat / 2 ^ 32 := toNat_shiftRight a (k := 32) (by omega)
  have bh : (b >>> 32).toNat = b.toNat / 2 ^ 32 := toNat_shiftRight b (k := 32) (by omega)
  have al := toNat_low a
  have bl := toNat_low b
  have product : a.toNat * b.toNat = (a.toNat / 2 ^ 32) * (b.toNat / 2 ^ 32) * 2 ^ 64 +
      (a.toNat % 2 ^ 32 * (b.toNat / 2 ^ 32) + a.toNat / 2 ^ 32 * (b.toNat % 2 ^ 32)) * 2 ^ 32 +
      a.toNat % 2 ^ 32 * (b.toNat % 2 ^ 32) := by
    conv_lhs => rw [← Nat.div_add_mod a.toNat (2 ^ 32), ← Nat.div_add_mod b.toNat (2 ^ 32)]
    ring
  rw [middle, toNat_join_products, toNat_mul_of_lt (by omega) (by omega),
    toNat_mul_of_lt (by omega) (by omega), toNat_mul_of_lt (by omega) (by omega),
    toNat_mul_of_lt (by omega) (by omega), ah, al, bh, bl, product]

/-- A product of two numbers over `2 ^ 48`, truncated towards zero to a number over `2 ^ 48` that is
not zero unless the product is -/
def truncated (z : ℤ) : ℤ := if z ≠ 0 ∧ z.tdiv (2 ^ 48) = 0 then z.sign else z.tdiv (2 ^ 48)

/-- The 64 bits that are left of the product show that it is too large, where it is. -/
def Detected (z : ℤ) : Prop :=
  z.natAbs / 2 ^ 48 < 2 ^ 64 ∨ 2 ^ 63 ≤ z.natAbs / 2 ^ 48 % 2 ^ 64 ∨
    (0 < z ∧ z.natAbs / 2 ^ 48 % 2 ^ 64 = 2 ^ 63 - 1)

theorem tdiv_eq (z : ℤ) : z.tdiv (2 ^ 48) =
    if z < 0 then -((z.natAbs / 2 ^ 48 : ℕ) : ℤ) else ((z.natAbs / 2 ^ 48 : ℕ) : ℤ) := by
  split_ifs with negative
  · obtain ⟨w, rfl⟩ : ∃ w, z = -w := ⟨-z, (neg_neg z).symm⟩
    rw [Int.neg_tdiv, Int.tdiv_eq_ediv_of_nonneg (by omega)]
    omega
  · rw [Int.tdiv_eq_ediv_of_nonneg (by omega)]
    omega

/-- The end of the multiplication: the sign is put back on the word that is left. -/
def signed (negative : Bool) (p : UInt64) : UInt64 :=
  if p >>> 63 ≠ 0 then maxOrMin (!negative)
  else if p = 0 then eps (!negative)
  else if negative then ~~~p + 1
  else p

theorem value_signed (negative : Bool) (p : UInt64) : value (signed negative p) =
    (if negative then -1 else 1) * (if 2 ^ 63 ≤ p.toNat then
      (if negative then 2 ^ 63 else 2 ^ 63 - 1) else (max 1 p.toNat : ℤ)) := by
  have high : (p >>> 63).toNat = p.toNat / 2 ^ 63 := toNat_shiftRight p (k := 63) (by omega)
  have top : p >>> 63 ≠ 0 ↔ 2 ^ 63 ≤ p.toNat := by
    have := p.toNat_lt
    rw [ne_eq, ← UInt64.toNat_inj, high]
    change ¬ p.toNat / 2 ^ 63 = 0 ↔ _
    omega
  have none_ : p = 0 ↔ p.toNat = 0 := UInt64.toNat_inj.symm
  have complement := toNat_negate p
  unfold signed
  cases negative with
  | true =>
    simp only [top, none_, if_true]
    split_ifs with large zero
    · exact value_maxOrMin false
    · rw [zero]
      exact value_eps false
    · rw [value_of_congr (z := -p.toNat) (by omega) (by omega) (by omega)]
      omega
  | false =>
    simp only [top, none_, Bool.false_eq_true, if_false]
    split_ifs with large zero
    · exact value_maxOrMin true
    · rw [zero]
      exact value_eps true
    · rw [value_of_congr (z := p.toNat) (by omega) (by omega) rfl]
      omega

theorem fxpMul_eq {x y : UInt64} (nonzero : x ≠ 0) (nonzero' : y ≠ 0) : fxpMul x y =
    signed (isNegative x != isNegative y) (middle (magnitude x) (magnitude y)) := by
  rw [fxpMul, if_neg (not_or.2 ⟨nonzero, nonzero'⟩)]
  rfl

theorem truncated_eq {z : ℤ} (nonzero : z ≠ 0) : truncated z =
    (if z < 0 then -1 else 1) * max 1 ((z.natAbs / 2 ^ 48 : ℕ) : ℤ) := by
  rw [truncated, tdiv_eq]
  by_cases negative : z < 0
  · rw [if_pos negative, if_pos negative, Int.sign_eq_neg_one_of_neg negative]
    split_ifs <;> omega
  · rw [if_neg negative, if_neg negative, Int.sign_eq_one_of_pos (by omega)]
    split_ifs <;> omega

theorem fxpMul_iff (x y : UInt64) :
    value (fxpMul x y) = clamp (truncated (value x * value y)) ↔ Detected (value x * value y) := by
  have none_ : value 0 = 0 := rfl
  by_cases zero : x = 0 ∨ y = 0
  · have vanishes : value x * value y = 0 := by
      rcases zero with rfl | rfl
      · rw [none_, zero_mul]
      · rw [none_, mul_zero]
    rw [vanishes, fxpMul, if_pos zero]
    exact iff_of_true (by decide) (.inl (by decide))
  obtain ⟨nonzero, nonzero'⟩ := not_or.1 zero
  have left : value x ≠ 0 := fun equal => nonzero (value_inj.1 equal)
  have right : value y ≠ 0 := fun equal => nonzero' (value_inj.1 equal)
  have differ : (isNegative x != isNegative y) = decide (value x * value y < 0) := by
    rw [Bool.eq_iff_iff, isNegative_eq, isNegative_eq, bne_iff_ne, ne_eq, decide_eq_decide,
      decide_eq_true_eq, mul_neg_iff]
    omega
  have word : (middle (magnitude x) (magnitude y)).toNat =
      (value x * value y).natAbs / 2 ^ 48 % 2 ^ 64 := by
    rw [toNat_middle, toNat_magnitude, toNat_magnitude, Int.natAbs_mul]
  have product : value x * value y ≠ 0 := mul_ne_zero left right
  rw [fxpMul_eq nonzero nonzero', differ, value_signed, truncated_eq product, word, Detected, clamp]
  generalize value x * value y = z at *
  generalize z.natAbs / 2 ^ 48 = q
  by_cases negative : z < 0
  · have := negative.not_gt
    simp only [decide_eq_true_eq, negative, if_true, this, false_and, or_false]
    split_ifs <;> omega
  · have positive : 0 < z := by omega
    simp only [decide_eq_true_eq, negative, if_false, positive, true_and]
    split_ifs <;> omega

end Products
section Agreement

variable (x y : UInt64) (n : ℕ)

/-- The operations are the mathematical ones up to saturation, and the comparisons the order. -/
structure Agrees : Prop where
  add : value (fxpAdd x y) = clamp (value x + value y)
  sub : value (fxpSub x y) = clamp (value x - value y)
  mul : value (fxpMul x y) = clamp (truncated (value x * value y))
  mul3 : value (mul3 x) = clamp (3 * value x)
  shiftLeft : value (fxpShiftLeft x n) = clamp (value x * 2 ^ n)
  lt : lt x y = decide (value x < value y)
  le : le x y = decide (value x ≤ value y)
  gt : gt x y = decide (value y < value x)
  ge : ge x y = decide (value y ≤ value x)

/-- Where no operation loses an overflow -/
structure Inside : Prop where
  near : Near x y
  product : Detected (value x * value y)
  triple : 0x2aaaaaaaaaaaaaaa - 2 ^ 63 ≤ value x
  shift : value x = 0 → n < 64

theorem agrees_iff : Agrees x y n ↔ Inside x y n := by
  constructor
  · intro agrees
    exact
      { near := lt_iff.1 agrees.lt
        product := (fxpMul_iff x y).1 agrees.mul
        triple := mul3_iff.1 agrees.mul3
        shift := shiftLeft_iff.1 agrees.shiftLeft }
  · intro inside
    exact
      { add := value_fxpAdd x y
        sub := value_fxpSub x y
        mul := (fxpMul_iff x y).2 inside.product
        mul3 := mul3_iff.2 inside.triple
        shiftLeft := shiftLeft_iff.2 inside.shift
        lt := lt_near inside.near
        le := le_near inside.near
        gt := gt_near inside.near
        ge := ge_near inside.near }

/-- The lowest number is not below the highest one for the comparison. -/
theorem extremes_disagree : ¬ ∀ (x y : UInt64) (n : ℕ), Agrees x y n := by
  intro agree
  have compared := (agree FXP_MIN FXP_MAX 0).lt
  revert compared
  decide

end Agreement

end Epilog.Pow.FixedPoint
