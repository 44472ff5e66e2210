/- Module: Epilog/Pow/Roots
   source: src/src/pow/fxp.hpp (inv_sqrt, sqrt)
   digest: Roots by Newton's method and tables against the exact ones, and quotients with them. -/

import Epilog.Pow.Division

set_option autoImplicit false

namespace Epilog.Pow.Roots

open Epilog.Global.MetaTerms Epilog.Pow.Target Epilog.Pow.FixedPoint Epilog.Pow.Floating
open Epilog.Pow.Division Epilog.Lib.Newton

section Model

/-- The roots of the powers of two from `2 ^ 15` down -/
def INV_SQRT_2N : List UInt64 :=
  [0xb504f333f9de60, 0x80000000000000, 0x5a827999fcef30, 0x40000000000000, 0x2d413cccfe7798,
    0x20000000000000, 0x16a09e667f3bcc, 0x10000000000000, 0xb504f333f9de6, 0x8000000000000,
    0x5a827999fcef3, 0x4000000000000, 0x2d413cccfe779, 0x2000000000000, 0x16a09e667f3bc,
    0x1000000000000, 0xb504f333f9de, 0x800000000000, 0x5a827999fcef, 0x400000000000, 0x2d413cccfe77,
    0x200000000000, 0x16a09e667f3b, 0x100000000000, 0xb504f333f9d, 0x80000000000, 0x5a827999fce,
    0x40000000000, 0x2d413cccfe7, 0x20000000000, 0x16a09e667f3, 0x10000000000, 0xb504f333f9,
    0x8000000000, 0x5a827999fc, 0x4000000000, 0x2d413cccfe, 0x2000000000, 0x16a09e667f,
    0x1000000000, 0xb504f333f, 0x800000000, 0x5a827999f, 0x400000000, 0x2d413cccf, 0x200000000,
    0x16a09e667, 0x100000000, 0xb504f333, 0x80000000, 0x5a827999, 0x40000000, 0x2d413ccc,
    0x20000000, 0x16a09e66, 0x10000000, 0xb504f33, 0x8000000, 0x5a82799, 0x4000000, 0x2d413cc,
    0x2000000, 0x16a09e6, 0x1000000]

def RESCALE : List UInt64 :=
  [0x0, 0xe8ba2e8ba2e8, 0xd55555555555, 0xc4ec4ec4ec4e, 0xb6db6db6db6d, 0xaaaaaaaaaaaa,
    0xa00000000000, 0x969696969696, 0x8e38e38e38e3, 0x86bca1af286b, 0x800000000000]

def RESCALE_INV_SQRT : List UInt64 :=
  [0x0, 0xf4161fcec4f0, 0xe9b1e8c246e5, 0xe086dfd59e44, 0xd85c077c225d, 0xd105eb806161,
    0xca62c1d6d2da, 0xc457d14846c6, 0xbecfa67baa31, 0xb9b8cfc03f49, 0xb504f333f9de]

def C_1 : UInt64 := 0x1000000000000

def C_3_2 : UInt64 := 0x1800000000000

def C_10 : UInt64 := 0xa000000000000

def LIMIT : UInt64 := 0x40000

/-- `fxp1648::to_int` -/
def toInt (v : UInt64) : ℤ := value (UInt64.ofBitVec (v.toBitVec.sshiftRight 48))

/-- An entry of a table; `none` is an index out of bounds. -/
def entry (table : List UInt64) (index : ℤ) : Option UInt64 :=
  if index < 0 then none else table[index.toNat]?

/-- A shift in either direction; `none` is a count of 64 or more. -/
def checkedShift (v : UInt64) (count : ℤ) : Option UInt64 :=
  if count.natAbs < 64 then some (shift v count) else none

/-- The number is brought to between 1 and 1.1, with the factor for the result. -/
def rescaled (ys : UInt64) : Option (UInt64 × UInt64) :=
  let tr := toInt (fxpMul (fxpSub ys C_1) C_10)
  if 0 < tr then do
    let rescale ← entry RESCALE_INV_SQRT tr
    let factor ← entry RESCALE tr
    some (fxpMul ys factor, rescale)
  else some (ys, C_1)

/-- One round: `y_s = y_s * (c_3_2 - (x2 * y_s * y_s))` -/
def rootStep (x2 ys : UInt64) : UInt64 :=
  fxpMul ys (fxpSub C_3_2 (fxpMul (fxpMul x2 ys) ys))

/-- The loop that scales back by the first entry of the table -/
def scaleLoop (first y : UInt64) (scale2 : ℤ) : UInt64 × ℤ :=
  if 15 < scale2 then scaleLoop first (fxpMul y first) (scale2 - 15) else (y, scale2)
termination_by scale2.toNat
decreasing_by omega

def scaledBack (y : UInt64) (scale2 : ℤ) : Option UInt64 := do
  let first ← entry INV_SQRT_2N 0
  let (y, left) := scaleLoop first y scale2
  if left ≠ 0 then do
    let factor ← entry INV_SQRT_2N (-left + 15)
    some (fxpMul y factor)
  else some y

/-- `fxp1648::inv_sqrt` -/
def invSqrt (x : UInt64) : Option UInt64 :=
  if isNegative x then some 0
  else if x = 0 then some 0
  else if lt x LIMIT then some FXP_MAX
  else do
    let scale2 := 48 - msb x
    let ys ← checkedShift x scale2
    let (ys, rescale) ← rescaled ys
    let x2 := fxpShiftRight ys 1
    let y ← scaledBack ((rootStep x2)^[6] ys) scale2
    let y := if rescale ≠ C_1 then fxpMul y rescale else y
    some (if y = 0 then eps true else y)

/-- `fxp1648::sqrt`; `none` is its assertion. -/
def sqrt (x : UInt64) : Option UInt64 :=
  if isNegative x then none
  else if x = 0 then some x
  else (invSqrt x).map fxpReciprocal

end Model

section Rounds

variable {x2 y : UInt64} {E : ℝ}

/-- A number on its way to the inverse root of `2 * x2` -/
structure Near (x2 y : UInt64) (E : ℝ) : Prop where
  least : 1 / 2 ≤ real y
  most : real y ≤ 2
  near : |1 - 2 * real x2 * real y ^ 2| ≤ E

theorem real_half : real C_3_2 = 3 / 2 := by
  rw [real, show value C_3_2 = 0x1800000000000 by decide]
  norm_num

theorem rootStep_near (low : 9 / 10 ≤ 2 * real x2) (high : 2 * real x2 ≤ 6 / 5)
    (near : Near x2 y E) (less : E ≤ 2 / 5) : Near x2 (rootStep x2 y) (E ^ 2 + 72 * ulp) := by
  have tiny := ulp_small
  have positive := ulp_pos
  obtain ⟨least, most, near⟩ := near
  obtain ⟨below, above⟩ := abs_le.mp near
  have bound : real y ≤ 5 / 4 := by
    by_contra large
    have square : (5 / 4 : ℝ) ^ 2 ≤ real y ^ 2 :=
      pow_le_pow_left₀ (by norm_num) (not_le.mp large).le 2
    have product := mul_le_mul_of_nonneg_right low (sq_nonneg (real y))
    linarith
  have first : |real (fxpMul x2 y) - real x2 * real y| ≤ ulp := by
    have product : real x2 * real y ≤ 3 / 5 * (5 / 4) :=
      mul_le_mul (by linarith) bound (by linarith) (by norm_num)
    have nonneg : 0 ≤ real x2 * real y := mul_nonneg (by linarith) (by linarith)
    exact abs_real_mul_sub (by linarith) (by linarith)
  have scaled : |(real (fxpMul x2 y) - real x2 * real y) * real y| ≤ ulp * (5 / 4) := by
    rw [abs_mul, abs_of_nonneg (show 0 ≤ real y by linarith)]
    gcongr
  obtain ⟨lower, upper⟩ := abs_le.mp scaled
  have second : |real (fxpMul (fxpMul x2 y) y) - real (fxpMul x2 y) * real y| ≤ ulp := by
    apply abs_real_mul_sub <;> linarith
  obtain ⟨lower', upper'⟩ := abs_le.mp second
  have rest : real (fxpSub C_3_2 (fxpMul (fxpMul x2 y) y)) =
      3 / 2 - real (fxpMul (fxpMul x2 y) y) := by
    rw [real_sub, real_half]
    rw [real_half]
    exact abs_lt.mpr ⟨by linarith, by linarith⟩
  set s := real (fxpSub C_3_2 (fxpMul (fxpMul x2 y) y)) with named
  have middle : |s - (3 / 2 - real x2 * real y ^ 2)| ≤ 9 / 4 * ulp := by
    rw [rest, abs_le]
    constructor <;> linarith
  obtain ⟨left, right⟩ := abs_le.mp middle
  have positive' : 3 / 4 ≤ s := by linarith
  have most' : s ≤ 5 / 4 := by linarith
  have whole : real y * s ≤ 5 / 4 * (5 / 4) :=
    mul_le_mul bound most' (by linarith) (by norm_num)
  have third : |real (rootStep x2 y) - real y * s| ≤ ulp := by
    have nonneg : 0 ≤ real y * s := mul_nonneg (by linarith) (by linarith)
    exact abs_real_mul_sub (by linarith) (by linarith)
  have step : |real (rootStep x2 y) - real y * (3 - 2 * real x2 * real y ^ 2) / 2| ≤ 4 * ulp := by
    have own : |real y * (s - (3 / 2 - real x2 * real y ^ 2))| ≤ 5 / 4 * (9 / 4 * ulp) := by
      rw [abs_mul, abs_of_nonneg (show 0 ≤ real y by linarith)]
      gcongr
    have split : real (rootStep x2 y) - real y * (3 - 2 * real x2 * real y ^ 2) / 2 =
        (real (rootStep x2 y) - real y * s) + real y * (s - (3 / 2 - real x2 * real y ^ 2)) := by
      ring
    rw [split]
    refine (abs_add_le _ _).trans ((add_le_add third own).trans ?_)
    linarith
  have next := invRoot_step (by linarith) (by linarith) (by linarith) most near (by linarith)
    (by linarith) step
  have least' : 1 / 2 * (3 / 4) ≤ real y * s :=
    mul_le_mul least positive' (by norm_num) (by linarith)
  have some_ : 0 < real (rootStep x2 y) := by linarith [(abs_le.mp third).1]
  have square : E ^ 2 ≤ (2 / 5) ^ 2 :=
    pow_le_pow_left₀ ((abs_nonneg _).trans near) less 2
  obtain ⟨below', above'⟩ := abs_le.mp next
  refine ⟨?_, ?_, next.trans (by linarith)⟩
  · by_contra small
    have own : real (rootStep x2 y) ^ 2 ≤ (1 / 2) ^ 2 :=
      pow_le_pow_left₀ some_.le (not_le.mp small).le 2
    have product := mul_le_mul high own (sq_nonneg _) (by norm_num)
    linarith
  · linarith [(abs_le.mp third).2]

theorem rounds_near (low : 9 / 10 ≤ 2 * real x2) (high : 2 * real x2 ≤ 6 / 5)
    (start : Near x2 y (17 / 50)) : Near x2 ((rootStep x2)^[6] y) (80 * ulp) := by
  have tiny := ulp_small
  have last : ulp = 1 / 2 ^ 48 := rfl
  have step : ∀ {y : UInt64} {E E' : ℝ}, Near x2 y E → E ≤ 2 / 5 → E ^ 2 + 72 * ulp ≤ E' →
      Near x2 (rootStep x2 y) E' := fun near less bound =>
    have next := rootStep_near low high near less
    ⟨next.least, next.most, next.near.trans bound⟩
  simp only [Function.iterate_succ_apply', Function.iterate_zero_apply]
  have round1 := step start (by norm_num)
    (show (17 / 50 : ℝ) ^ 2 + 72 * ulp ≤ 1 / 8 by rw [last]; norm_num)
  have round2 := step round1 (by norm_num)
    (show (1 / 8 : ℝ) ^ 2 + 72 * ulp ≤ 1 / 60 by rw [last]; norm_num)
  have round3 := step round2 (by norm_num)
    (show (1 / 60 : ℝ) ^ 2 + 72 * ulp ≤ 1 / 3000 by rw [last]; norm_num)
  have round4 := step round3 (by norm_num)
    (show (1 / 3000 : ℝ) ^ 2 + 72 * ulp ≤ 1 / 8000000 by rw [last]; norm_num)
  have round5 := step round4 (by norm_num)
    (show (1 / 8000000 : ℝ) ^ 2 + 72 * ulp ≤ 80 * ulp by rw [last]; norm_num)
  exact step round5 (by linarith) (by rw [last]; norm_num)

end Rounds

section Factors

variable {y k : UInt64} {ε t κ : ℝ}

theorem mul_root (root : InvRoot ε t (real y)) (fine : 1 / 2 ^ 38 ≤ ε) (small : ε ≤ 1 / 2 ^ 26)
    (factor : 0 < real k) (positive : 0 < κ) (near : |real k ^ 2 - κ| ≤ ε * κ)
    (least : (1 - 3 * ulp) / 2 ^ 30 ≤ t / κ) (most : t / κ ≤ 2 ^ 16) :
    InvRoot (64 * ε) (t / κ) (real (fxpMul y k)) := by
  have tiny := ulp_pos
  have last : ulp = 1 / 2 ^ 48 := rfl
  have scaled := root.scale (by linarith) factor positive near
  obtain ⟨some_, own⟩ := scaled
  obtain ⟨below, above⟩ := abs_le.mp own
  generalize t / κ = T at *
  set w := real y * real k with named
  have low : 1 / 2 ^ 9 ≤ w := by
    by_contra less
    have square : w ^ 2 ≤ (1 / 2 ^ 9) ^ 2 := pow_le_pow_left₀ some_.le (not_le.mp less).le 2
    have product := mul_le_mul square most (by rw [last] at least; linarith) (by norm_num)
    norm_num at product
    linarith
  have high : w ≤ 2 ^ 15 * (1 + 3 * ε) := by
    by_contra larger
    have square : (2 ^ 15 * (1 + 3 * ε)) ^ 2 ≤ w ^ 2 :=
      pow_le_pow_left₀ (by positivity) (not_le.mp larger).le 2
    have product := mul_le_mul square least (by rw [last]; norm_num) (sq_nonneg _)
    rw [last] at product
    linarith [sq_nonneg ε]
  have bound : |real y * real k| < 2 ^ 16 := by
    rw [abs_of_pos some_]
    linarith
  have close : |real (fxpMul y k) - w| ≤ 13 / 2 * ε * w := by
    rcases le_or_gt w (2 ^ 15 - ulp) with fits | over_
    · have word := mul_near bound (by linarith) fits
      rw [sub_self, abs_zero, zero_add] at word
      have relative := mul_le_mul fine low (by norm_num) (by linarith)
      rw [last] at word
      linarith
    · have word := mul_near bound (r := 2 ^ 15 - ulp) (by linarith) le_rfl
      rw [← named, abs_of_pos (show 0 < w - (2 ^ 15 - ulp) by linarith)] at word
      have outer := abs_sub_le (real (fxpMul y k)) (2 ^ 15 - ulp) w
      rw [abs_sub_comm (2 ^ 15 - ulp) w,
        abs_of_pos (show 0 < w - (2 ^ 15 - ulp) by linarith)] at outer
      have relative : ε * (2 ^ 15 - ulp) ≤ ε * w :=
        mul_le_mul_of_nonneg_left over_.le (by linarith)
      rw [last] at word outer relative
      linarith
  have rounded := InvRoot.round ⟨some_, own⟩ (by linarith) (by linarith) close
  refine ⟨rounded.pos, rounded.near.trans ?_⟩
  linarith

end Factors

section Tables

/-- A factor for the root of `κ` -/
structure FactorOf (κ : ℝ) (k : UInt64) : Prop where
  pos : 0 < real k
  near : |real k ^ 2 - κ| ≤ 1 / 2 ^ 38 * κ

def checkedFactor (square : ℤ) (k : UInt64) : Bool :=
  decide (0 < value k) && decide (|value k ^ 2 - square| * 2 ^ 38 ≤ square)

theorem FactorOf.of_checked {square : ℤ} {k : UInt64} (checked : checkedFactor square k = true) :
    FactorOf (square / 2 ^ 96) k := by
  rw [checkedFactor, Bool.and_eq_true, decide_eq_true_eq, decide_eq_true_eq] at checked
  obtain ⟨positive, near⟩ := checked
  have cast : (0 : ℝ) < value k := by exact_mod_cast positive
  have cast' : |(value k : ℝ) ^ 2 - square| * 2 ^ 38 ≤ square := by exact_mod_cast near
  refine ⟨by unfold real; positivity, ?_⟩
  have split : real k ^ 2 - square / 2 ^ 96 = ((value k : ℝ) ^ 2 - square) / 2 ^ 96 := by
    unfold real
    ring
  rw [split, abs_div, abs_of_pos (show (0 : ℝ) < 2 ^ 96 by positivity), ← mul_div_assoc]
  refine div_le_div_of_nonneg_right ?_ (by positivity)
  linarith

theorem entry_of_checked (table : List UInt64) (check : ℕ → UInt64 → Bool) (n : ℕ)
    (all : (List.range n).all (fun i => (table[i]?).any (check i)) = true) {index : ℤ}
    (low : 0 ≤ index) (high : index < n) :
    ∃ k, entry table index = some k ∧ check index.toNat k = true := by
  have one := List.all_eq_true.mp all index.toNat (List.mem_range.mpr (by omega))
  rw [Option.any_eq_true] at one
  obtain ⟨k, found, checked⟩ := one
  rw [entry, if_neg (by omega)]
  exact ⟨k, found, checked⟩

theorem inverse_entry {s : ℤ} (low : -14 ≤ s) (high : s ≤ 15) :
    ∃ k, entry INV_SQRT_2N (-s + 15) = some k ∧ FactorOf (2 ^ s) k := by
  obtain ⟨k, found, checked⟩ := entry_of_checked INV_SQRT_2N
    (fun i => checkedFactor (2 ^ (111 - i))) 30 (by decide) (show 0 ≤ -s + 15 by omega) (by omega)
  refine ⟨k, found, ?_⟩
  have factor := FactorOf.of_checked checked
  have power : (((2 : ℤ) ^ (111 - (-s + 15).toNat) : ℤ) : ℝ) / 2 ^ 96 = 2 ^ s := by
    rw [div_eq_iff (by positivity)]
    push_cast
    rw [← zpow_natCast, ← zpow_natCast (2 : ℝ) 96, ← zpow_add₀ two_ne_zero]
    congr 1
    omega
  rwa [power] at factor

/-- The checks of both tables that bring a number near one, from their second entries on -/
def checkedRescale (i : ℕ) (k : UInt64) : Bool :=
  i == 0 || decide (value k * (10 + i) ≤ 10 * 2 ^ 48 ∧ 10 * 2 ^ 48 < (value k + 1) * (10 + i))

def checkedRoot (i : ℕ) (c : UInt64) : Bool :=
  i == 0 || (decide (c ≠ C_1) &&
    (RESCALE[i]?).any fun k => checkedFactor (value k * 2 ^ 48) c)

theorem rescale_entry {tr : ℤ} (low : 1 ≤ tr) (high : tr ≤ 9) :
    ∃ k c, entry RESCALE tr = some k ∧ entry RESCALE_INV_SQRT tr = some c ∧ c ≠ C_1 ∧
      FactorOf (real k) c ∧ value k * (10 + tr) ≤ 10 * 2 ^ 48 ∧
      10 * 2 ^ 48 < (value k + 1) * (10 + tr) := by
  obtain ⟨k, found, own⟩ := entry_of_checked RESCALE checkedRescale 10 (by decide)
    (show 0 ≤ tr by omega) (by omega)
  obtain ⟨c, found', root⟩ := entry_of_checked RESCALE_INV_SQRT checkedRoot 10 (by decide)
    (show 0 ≤ tr by omega) (by omega)
  have past : (tr.toNat == 0) = false := beq_eq_false_iff_ne.mpr (by omega)
  have index : ((tr.toNat : ℕ) : ℤ) = tr := Int.toNat_of_nonneg (by omega)
  rw [checkedRescale, past, Bool.false_or, decide_eq_true_eq, index] at own
  rw [checkedRoot, past, Bool.false_or, Bool.and_eq_true, decide_eq_true_eq] at root
  have same := found
  rw [entry, if_neg (by omega)] at same
  rw [same, Option.any_some] at root
  refine ⟨k, c, found, found', root.1, ?_, own.1, own.2⟩
  have factor := FactorOf.of_checked root.2
  have scale : (((value k * 2 ^ 48 : ℤ) : ℝ) / 2 ^ 96) = real k := by
    unfold real
    push_cast
    ring
  rwa [scale] at factor

end Tables

section Rescaling

variable {ys : UInt64}

theorem truncated_mul (z : ℤ) : truncated (z * 2 ^ 48) = z := by
  rw [truncated, Int.mul_tdiv_cancel _ (by norm_num), if_neg]
  rintro ⟨nonzero, rfl⟩
  exact nonzero (zero_mul _)

theorem toInt_tenths (low : 2 ^ 48 ≤ value ys) (high : value ys < 2 ^ 49) :
    toInt (fxpMul (fxpSub ys C_1) C_10) = 10 * (value ys - 2 ^ 48) / 2 ^ 48 := by
  have rest : value (fxpSub ys C_1) = value ys - 2 ^ 48 := by
    rw [value_fxpSub, show value C_1 = 2 ^ 48 by decide, clamp_of_fits (by omega) (by omega)]
  have product : value (fxpSub ys C_1) * value C_10 = 10 * (value ys - 2 ^ 48) * 2 ^ 48 := by
    rw [rest, show value C_10 = 10 * 2 ^ 48 by decide]
    ring
  have detected : Detected (value (fxpSub ys C_1) * value C_10) := by
    rw [product]
    exact .inl (by omega)
  rw [toInt, value_sshiftRight, (fxpMul_iff _ _).mpr detected, product, truncated_mul,
    clamp_of_fits (by omega) (by omega)]

/-- A number that is brought near one, and the factor for its root -/
structure Rescaled (ys ys' c : UInt64) : Prop where
  low : 1 - 3 * ulp ≤ real ys'
  high : real ys' ≤ 11 / 10 + ulp
  factor : (c = C_1 ∧ ys' = ys) ∨ (c ≠ C_1 ∧ ∃ κ, 1 / 2 ≤ κ ∧ κ ≤ 1 ∧ FactorOf κ c ∧
    |real ys' / κ - real ys| ≤ 2 * ulp)

theorem rescaled_eq (low : 2 ^ 48 ≤ value ys) (high : value ys < 2 ^ 49) :
    ∃ ys' c, rescaled ys = some (ys', c) ∧ Rescaled ys ys' c := by
  have tiny := ulp_small
  have positive := ulp_pos
  have scale : (0 : ℝ) < 2 ^ 48 := by positivity
  have tenths := toInt_tenths low high
  have low' : (2 ^ 48 : ℝ) ≤ value ys := by exact_mod_cast low
  have high' : (value ys : ℝ) < 2 ^ 49 := by exact_mod_cast high
  have one : 1 ≤ real ys := by
    rw [real, le_div_iff₀ scale]
    linarith
  have two : real ys ≤ 2 := by
    rw [real, div_le_iff₀ scale]
    linarith
  rw [rescaled]
  generalize toInt (fxpMul (fxpSub ys C_1) C_10) = tr at tenths
  by_cases first : 0 < tr
  · obtain ⟨k, c, found, found', other, factor, below, above⟩ :=
      rescale_entry (show 1 ≤ tr by omega) (by omega)
    rw [if_pos first, found, found']
    refine ⟨fxpMul ys k, c, rfl, ?_⟩
    have tenth : tr * 2 ^ 48 ≤ 10 * (value ys - 2 ^ 48) ∧
        10 * (value ys - 2 ^ 48) < (tr + 1) * 2 ^ 48 := by omega
    have span : (11 : ℝ) ≤ 10 + tr ∧ (10 + tr : ℝ) ≤ 19 := by
      have atLeast : (1 : ℝ) ≤ tr := by exact_mod_cast first
      have atMost : (tr : ℝ) ≤ 9 := by exact_mod_cast (show tr ≤ 9 by omega)
      constructor <;> linarith
    have interval : (10 + tr : ℝ) ≤ 10 * real ys ∧ 10 * real ys ≤ 10 + tr + 1 := by
      have least : (tr * 2 ^ 48 : ℝ) ≤ 10 * (value ys - 2 ^ 48) := by exact_mod_cast tenth.1
      have most : (10 * (value ys - 2 ^ 48) : ℝ) < (tr + 1) * 2 ^ 48 := by exact_mod_cast tenth.2
      rw [real, ← mul_div_assoc, le_div_iff₀ scale, div_le_iff₀ scale]
      constructor <;> linarith
    have inverse : real k * (10 + tr) ≤ 10 ∧ 10 < (real k + ulp) * (10 + tr) := by
      have least : (value k * (10 + tr) : ℝ) ≤ 10 * 2 ^ 48 := by exact_mod_cast below
      have most : (10 * 2 ^ 48 : ℝ) < (value k + 1) * (10 + tr) := by exact_mod_cast above
      rw [real, ulp, ← add_div, div_mul_eq_mul_div, div_mul_eq_mul_div, div_le_iff₀ scale,
        lt_div_iff₀ scale]
      exact ⟨least, most⟩
    generalize (10 + tr : ℝ) = T at span interval inverse
    have half : 1 / 2 ≤ real k := by
      by_contra less
      have product := mul_le_mul_of_nonneg_right
        (show real k + ulp ≤ 1 / 2 + ulp by linarith) (show 0 ≤ T by linarith)
      have bound := mul_le_mul_of_nonneg_left span.2 (show 0 ≤ 1 / 2 + ulp by linarith)
      linarith
    have most := mul_le_mul_of_nonneg_left span.1 (show 0 ≤ real k by linarith)
    have least := mul_le_mul_of_nonneg_right interval.1 (show 0 ≤ real k by linarith)
    have upper := mul_le_mul_of_nonneg_right interval.2 (show 0 ≤ real k by linarith)
    have slack := mul_le_mul_of_nonneg_left span.2 positive.le
    have inside : 1 - 2 * ulp ≤ real ys * real k ∧ real ys * real k ≤ 11 / 10 := by
      constructor <;> linarith
    have near : |real (fxpMul ys k) - real ys * real k| ≤ ulp :=
      abs_real_mul_sub (by linarith) (by linarith)
    obtain ⟨lower, over_⟩ := abs_le.mp near
    refine ⟨by linarith, by linarith, .inr ⟨other, real k, half, by linarith, factor, ?_⟩⟩
    have split : real (fxpMul ys k) / real k - real ys =
        (real (fxpMul ys k) - real ys * real k) / real k := by
      rw [sub_div, mul_div_cancel_right₀ _ (show real k ≠ 0 by linarith)]
    rw [split, abs_div, abs_of_pos (show 0 < real k by linarith),
      div_le_iff₀ (show 0 < real k by linarith)]
    linarith [mul_le_mul_of_nonneg_left half positive.le]
  · rw [if_neg first]
    refine ⟨ys, C_1, rfl, by linarith, ?_, .inl ⟨rfl, rfl⟩⟩
    have less : 10 * value ys < 11 * 2 ^ 48 := by omega
    have cast : (10 * value ys : ℝ) < 11 * 2 ^ 48 := by exact_mod_cast less
    have bound : real ys ≤ 11 / 10 := by
      rw [real, div_le_iff₀ scale]
      linarith
    linarith

end Rescaling

section InverseRoots

variable {x y : UInt64} {t : ℝ} {s : ℤ}

theorem FactorOf.coarse {κ ε : ℝ} {k : UInt64} (factor : FactorOf κ k) (positive : 0 < κ)
    (less : 1 / 2 ^ 38 ≤ ε) : |real k ^ 2 - κ| ≤ ε * κ :=
  factor.near.trans (mul_le_mul_of_nonneg_right less positive.le)

theorem scaled_bounds (low : 1 - 3 * ulp ≤ t) (high : t ≤ 6 / 5) (bottom : -14 ≤ s)
    (top : s ≤ 30) : (1 - 3 * ulp) / 2 ^ 30 ≤ t / 2 ^ s ∧ t / 2 ^ s ≤ 2 ^ 15 := by
  have tiny := ulp_small
  have least : (2 : ℝ) ^ (-14 : ℤ) ≤ 2 ^ s := zpow_le_zpow_right₀ one_le_two bottom
  have most : (2 : ℝ) ^ s ≤ 2 ^ (30 : ℤ) := zpow_le_zpow_right₀ one_le_two top
  have positive : (0 : ℝ) < 2 ^ s := by positivity
  constructor
  · exact div_le_div₀ (by linarith) low positive most
  · rw [div_le_iff₀ positive]
    norm_num at least
    linarith

theorem scaledBack_near (root : InvRoot (1 / 2 ^ 38) t (real y)) (low : 1 - 3 * ulp ≤ t)
    (high : t ≤ 6 / 5) (bottom : -14 ≤ s) (top : s ≤ 30) :
    ∃ y', scaledBack y s = some y' ∧ InvRoot (1 / 2 ^ 26) (t / 2 ^ s) (real y') := by
  obtain ⟨first, found, factor⟩ := inverse_entry (s := 15) (by norm_num) le_rfl
  rw [show -(15 : ℤ) + 15 = 0 by norm_num] at found
  rw [scaledBack, found, Option.bind_eq_bind, Option.bind_some, scaleLoop]
  by_cases far : 15 < s
  · rw [if_pos far, scaleLoop, if_neg (by omega)]
    obtain ⟨k, found', factor'⟩ := inverse_entry (s := s - 15) (by omega) (by omega)
    dsimp only
    rw [if_pos (by omega), found']
    refine ⟨_, rfl, ?_⟩
    have bounds := scaled_bounds (s := 15) low high (by norm_num) (by norm_num)
    have once := mul_root root le_rfl (by norm_num) factor.pos (by positivity)
      (factor.coarse (by positivity) le_rfl) bounds.1 (by linarith [bounds.2])
    have same : t / 2 ^ (15 : ℤ) / 2 ^ (s - 15) = t / 2 ^ s := by
      rw [div_div, ← zpow_add₀ two_ne_zero, add_sub_cancel]
    have bounds' := scaled_bounds low high bottom top
    rw [← same] at bounds' ⊢
    have twice := mul_root once (by norm_num) (by norm_num) factor'.pos (by positivity)
      (factor'.coarse (by positivity) (by norm_num)) bounds'.1 (by linarith [bounds'.2])
    exact twice.mono (by norm_num)
  · rw [if_neg far]
    dsimp only
    by_cases none_ : s = 0
    · rw [if_neg (not_not.mpr none_), none_, zpow_zero, div_one]
      exact ⟨y, rfl, root.mono (by norm_num)⟩
    · obtain ⟨k, found', factor'⟩ := inverse_entry (s := s) (by omega) (by omega)
      rw [if_pos none_, found']
      refine ⟨_, rfl, ?_⟩
      have bounds := scaled_bounds low high bottom top
      have once := mul_root root le_rfl (by norm_num) factor'.pos (by positivity)
        (factor'.coarse (by positivity) le_rfl) bounds.1 (by linarith [bounds.2])
      exact once.mono (by norm_num)

theorem toNat_eq_value (nonneg : 0 ≤ value x) : value x = x.toNat ∧ x.toNat < 2 ^ 63 := by
  have bound := x.toNat_lt
  rw [value_eq] at nonneg ⊢
  split_ifs at nonneg ⊢ with small
  · exact ⟨rfl, small⟩
  · omega

theorem half_near (large : 2 ≤ value x) :
    real (fxpShiftRight x 1) * 2 ≤ real x ∧ real x ≤ real (fxpShiftRight x 1) * 2 + ulp := by
  have scale : (0 : ℝ) < 2 ^ 48 := by positivity
  have word : value (fxpShiftRight x 1) = value x / 2 ^ 1 := value_fxpShiftRight (by omega)
  have below : value (fxpShiftRight x 1) * 2 ≤ value x := by omega
  have above : value x ≤ value (fxpShiftRight x 1) * 2 + 1 := by omega
  have below' : (value (fxpShiftRight x 1) * 2 : ℝ) ≤ value x := by exact_mod_cast below
  have above' : (value x : ℝ) ≤ value (fxpShiftRight x 1) * 2 + 1 := by exact_mod_cast above
  rw [real, real, ulp, div_mul_eq_mul_div, ← add_div]
  exact ⟨div_le_div_of_nonneg_right below' scale.le, div_le_div_of_nonneg_right above' scale.le⟩

theorem rounds_root (low : 1 - 3 * ulp ≤ real y) (high : real y ≤ 11 / 10 + ulp) :
    InvRoot (1 / 2 ^ 38) (real y) (real ((rootStep (fxpShiftRight y 1))^[6] y)) := by
  have tiny := ulp_small
  have positive := ulp_pos
  have large : 2 ≤ value y := by
    have cast : (2 : ℝ) ≤ value y := by
      have whole : 1 / 2 ≤ real y := by linarith
      rw [real, le_div_iff₀ (by positivity)] at whole
      linarith
    exact_mod_cast cast
  obtain ⟨below, above⟩ := half_near large
  generalize fxpShiftRight y 1 = x2 at *
  have start : Near x2 y (17 / 50) := by
    refine ⟨by linarith, by linarith, ?_⟩
    have square : (99 / 100 : ℝ) ^ 2 ≤ real y ^ 2 := pow_le_pow_left₀ (by norm_num) (by linarith) 2
    have square' : real y ^ 2 ≤ (1101 / 1000 : ℝ) ^ 2 :=
      pow_le_pow_left₀ (by linarith) (by linarith) 2
    have least := mul_le_mul (show (99 / 100 : ℝ) ≤ 2 * real x2 by linarith) square (by norm_num)
      (by linarith)
    have most := mul_le_mul (show 2 * real x2 ≤ 1101 / 1000 by linarith) square' (sq_nonneg _)
      (by norm_num)
    rw [abs_le]
    constructor <;> linarith
  have final := rounds_near (by linarith) (by linarith) start
  have root : InvRoot (80 * ulp) (2 * real x2) (real ((rootStep x2)^[6] y)) := by
    refine ⟨by linarith [final.least], ?_⟩
    rw [abs_sub_comm, mul_comm]
    exact final.near
  have moved : |real y - 2 * real x2| ≤ 2 * ulp * (2 * real x2) := by
    rw [abs_of_nonneg (by linarith)]
    have product := mul_le_mul_of_nonneg_left (show 1 / 2 ≤ 2 * real x2 by linarith) positive.le
    linarith
  refine (root.change (by linarith) (by linarith) moved).mono ?_
  unfold ulp
  norm_num

theorem unscaled_near {v κ : ℝ} (scale : 0 < (2 : ℝ) ^ s) (low : 1 / 2 ≤ v / κ)
    (near : |v / κ - t * 2 ^ s| ≤ 3 * ulp) :
    |t - v / 2 ^ s / κ| ≤ 6 * ulp * (v / 2 ^ s / κ) := by
  have swap : v / 2 ^ s / κ = v / κ / 2 ^ s := div_right_comm _ _ _
  have split : t - v / κ / 2 ^ s = -((v / κ - t * 2 ^ s) / 2 ^ s) := by
    field_simp
    ring
  rw [swap, split, abs_neg, abs_div, abs_of_pos scale, ← mul_div_assoc]
  refine div_le_div_of_nonneg_right (near.trans ?_) scale.le
  linarith [mul_le_mul_of_nonneg_left low ulp_pos.le]

theorem invSqrt_near (low : 2 ^ 18 ≤ value x) :
    ∃ y, invSqrt x = some y ∧ InvRoot (1 / 2 ^ 19) (real x) (real y) := by
  have tiny := ulp_small
  have positive := ulp_pos
  obtain ⟨same, small⟩ := toNat_eq_value (x := x) (by omega)
  have plain : isNegative x = false := by
    rw [isNegative_eq, decide_eq_false_iff_not]
    omega
  have some_ : x ≠ 0 := by
    rintro rfl
    rw [show value 0 = 0 by decide] at low
    norm_num at low
  have limit : lt x LIMIT = false := by
    rw [lt_near ⟨by rw [show value LIMIT = 2 ^ 18 by decide]; omega,
      by rw [show value LIMIT = 2 ^ 18 by decide]; omega⟩, decide_eq_false_iff_not,
      show value LIMIT = 2 ^ 18 by decide]
    omega
  have top := msb_eq (v := x) (by omega)
  have bits : 17 < Nat.log2 x.toNat := (Nat.le_log2 (by omega)).mpr (by omega)
  have bits' : Nat.log2 x.toNat < 63 := (Nat.log2_lt (by omega)).mpr small
  have scaled : Scaled x (shift x (48 - msb x)) 48 := scaled_shift (by omega) small (by norm_num)
  have below := scaled.below
  have above := scaled.above
  rw [Nat.cast_ofNat] at below above
  have bottom : -14 ≤ 48 - msb x := by omega
  have top' : 48 - msb x ≤ 30 := by omega
  have count : (48 - msb x).natAbs < 64 := by omega
  rw [invSqrt, plain, if_neg Bool.false_ne_true, if_neg some_, limit, if_neg Bool.false_ne_true]
  dsimp only
  rw [checkedShift, if_pos count]
  generalize 48 - msb x = s at *
  generalize shift x s = ys at *
  have narrow := scaled.high
  have whole : value ys = ys.toNat := by
    rw [value_eq, if_pos (narrow.trans (by norm_num))]
  have wide := scaled.low
  obtain ⟨ys', c, found, factors⟩ := rescaled_eq (show 2 ^ 48 ≤ value ys by omega) (by omega)
  obtain ⟨y, found', root⟩ := scaledBack_near (rounds_root factors.low factors.high) factors.low
    (by linarith [factors.high]) bottom top'
  simp only [Option.bind_eq_bind, Option.bind_some, found, found']
  have near : |real ys - real x * 2 ^ s| ≤ ulp := by
    rw [real, real, whole, same, Int.cast_natCast, Int.cast_natCast, div_mul_eq_mul_div, ← sub_div,
      abs_div, abs_of_pos (show (0 : ℝ) < 2 ^ 48 by positivity), ulp]
    refine div_le_div_of_nonneg_right ?_ (by positivity)
    exact abs_le.mpr ⟨by linarith, by linarith⟩
  have scale : (0 : ℝ) < 2 ^ s := by positivity
  have nonzero : ∀ {v : UInt64} {t ε : ℝ}, InvRoot ε t (real v) → v ≠ 0 := fun root zero => by
    have own := root.pos
    rw [zero, real, show value 0 = 0 by decide, Int.cast_zero, zero_div] at own
    exact lt_irrefl _ own
  rcases factors.factor with ⟨plain', rfl⟩ | ⟨other, κ, half, one, factor, moved⟩
  · rw [if_neg (not_not.mpr plain'), if_neg (nonzero root)]
    have close := unscaled_near (t := real x) (v := real ys') (κ := 1) scale
      (by linarith [factors.low, div_one (real ys')]) (by rw [div_one]; linarith)
    rw [div_one] at close
    refine ⟨y, rfl, (root.change (by norm_num) (by linarith) close).mono ?_⟩
    unfold ulp
    norm_num
  · have bounds := scaled_bounds factors.low (by linarith [factors.high]) bottom top'
    have product : (1 - 3 * ulp) / 2 ^ 30 ≤ real ys' / 2 ^ s / κ ∧
        real ys' / 2 ^ s / κ ≤ 2 ^ 16 := by
      rw [le_div_iff₀ (by linarith), div_le_iff₀ (by linarith)]
      have least : (1 - 3 * ulp) / 2 ^ 30 * κ ≤ (1 - 3 * ulp) / 2 ^ 30 * 1 := by
        gcongr
        linarith
      constructor <;> linarith
    have last := mul_root root (by norm_num) le_rfl factor.pos (by linarith)
      (factor.coarse (by linarith) (by norm_num)) product.1 product.2
    rw [if_pos other, if_neg (nonzero last)]
    have least : 1 / 2 ≤ real ys' / κ := by
      rw [le_div_iff₀ (by linarith)]
      linarith [factors.low]
    have triangle := abs_sub_le (real ys' / κ) (real ys) (real x * 2 ^ s)
    have close := unscaled_near (t := real x) scale least (by linarith)
    refine ⟨_, rfl, (last.change (by norm_num) (by linarith) close).mono ?_⟩
    unfold ulp
    norm_num

theorem sqrt_near (low : 2 ^ 18 ≤ value x) :
    ∃ r, sqrt x = some r ∧ |real r - √(real x)| ≤ 4 / 10 ^ 5 * √(real x) := by
  have tiny := ulp_small
  have positive := ulp_pos
  have scale : (0 : ℝ) < 2 ^ 48 := by positivity
  obtain ⟨y, found, root⟩ := invSqrt_near low
  have plain : isNegative x = false := by
    rw [isNegative_eq, decide_eq_false_iff_not]
    omega
  have some_ : x ≠ 0 := by
    rintro rfl
    rw [show value 0 = 0 by decide] at low
    norm_num at low
  have above : 0 < real x := by
    have cast : (0 : ℝ) < value x := by exact_mod_cast (show 0 < value x by omega)
    exact div_pos cast scale
  rw [sqrt, plain, if_neg Bool.false_ne_true, if_neg some_, found, Option.map_some]
  refine ⟨_, rfl, ?_⟩
  have least : 1 / 2 ^ 8 ≤ real y := by
    by_contra less
    have square : real y ^ 2 ≤ (1 / 2 ^ 8) ^ 2 :=
      pow_le_pow_left₀ root.pos.le (not_le.mp less).le 2
    have product := mul_le_mul square (real_bounds x).2.le above.le (by norm_num)
    norm_num at product
    linarith [(abs_le.mp root.near).1]
  have bounds := real_bounds y
  have large : 2 ^ 34 ≤ value y ∧ value y < 2 ^ 63 := by
    refine ⟨?_, (value_bounds y).2⟩
    have cast : (2 ^ 34 : ℝ) ≤ value y := by
      rw [real, le_div_iff₀ scale] at least
      linarith
    exact_mod_cast cast
  have size : |value y| = value y := abs_of_pos (by omega)
  have inverse := reciprocal_near (v := y) (by omega) (by omega)
  rw [abs_of_pos root.pos] at inverse
  have product := mul_le_mul_of_nonneg_left bounds.2.le positive.le
  have near : |real (fxpReciprocal y) * real y - 1| ≤ 1 / 2 ^ 30 := by
    refine inverse.trans ?_
    have small : 8 * ulp + ulp * 2 ^ 15 ≤ 1 / 2 ^ 30 := by
      unfold ulp
      norm_num
    linarith
  refine (root.inverse above (by norm_num) near).trans ?_
  gcongr
  norm_num

end InverseRoots

section Accuracy

variable {x : UInt64}

theorem value_of_real (large : 1 / 2 ^ 30 ≤ real x) : 2 ^ 18 ≤ value x := by
  rw [real, le_div_iff₀ (by positivity)] at large
  have cast : (2 ^ 18 : ℝ) ≤ value x := by linarith
  exact_mod_cast cast

theorem isSome_invSqrt (x : UInt64) : (invSqrt x).isSome := by
  by_cases large : 2 ^ 18 ≤ value x
  · obtain ⟨y, found, -⟩ := invSqrt_near large
    rw [found]
    rfl
  · rw [invSqrt]
    split_ifs with negative zero limit
    · rfl
    · rfl
    · rfl
    · rw [isNegative_eq, decide_eq_true_eq] at negative
      have bounds := value_bounds x
      have known : value LIMIT = 2 ^ 18 := by decide
      rw [lt_near ⟨by omega, by omega⟩, decide_eq_true_eq] at limit
      omega

theorem count_of_msb (v : UInt64) : (47 - msb v).natAbs < 64 := by
  by_cases zero : v.toNat = 0
  · rw [msb, if_pos (UInt64.toNat_inj.mp zero)]
    norm_num
  · have bits : Nat.log2 v.toNat < 64 := (Nat.log2_lt zero).mpr v.toNat_lt
    rw [msb_eq zero]
    omega

theorem count_of_posMsb (v : UInt64) : (48 - posMsb v).natAbs < 64 := by
  by_cases zero : v = 0
  · rw [zero]
    decide
  · have bounds := value_bounds v
    have bits : Nat.log2 (value v).natAbs < 64 :=
      (Nat.log2_lt (Int.natAbs_ne_zero.mpr (value_ne_zero zero))).mpr (by omega)
    rw [posMsb_eq zero]
    omega

/-- Quotients are right where the dividend stays within the format and wrong where it is cut by more
than the tolerance; roots are right everywhere, and the assignment is the division. -/
theorem accurate_of_unsaturated (a b : UInt64) (nonzero : b ≠ 0) :
    (Unsaturated a b → Divides a b (fxpDiv a b)) ∧
      (Overshoots a b → ¬ Divides a b (fxpDiv a b)) ∧
      (∀ x, 1 / 2 ^ 30 ≤ real x →
        (∃ y, invSqrt x = some y ∧ |real y - 1 / √(real x)| ≤ 4 / 10 ^ 5 * (1 / √(real x))) ∧
        ∃ r, sqrt x = some r ∧ |real r - √(real x)| ≤ 4 / 10 ^ 5 * √(real x)) ∧
      (∀ v, (invSqrt v).isSome ∧ (47 - msb v).natAbs < 64 ∧ (48 - posMsb v).natAbs < 64) ∧
      ∀ d, fxpDivAssign a d = fxpDiv a d := by
  refine ⟨divides_of_unsaturated nonzero, not_divides nonzero, fun x large => ⟨?_, ?_⟩,
    fun v => ⟨isSome_invSqrt v, count_of_msb v, count_of_posMsb v⟩, fxpDivAssign_eq a⟩
  · obtain ⟨y, found, root⟩ := invSqrt_near (value_of_real large)
    have above : 0 < real x := lt_of_lt_of_le (by positivity) large
    exact ⟨y, found, (root.error above).trans
      (mul_le_mul_of_nonneg_right (by norm_num) (by positivity))⟩
  · exact sqrt_near (value_of_real large)

/-- Three halves -/
theorem three_halves :
    Divides 0x3000000000000 0x2000000000000 (fxpDiv 0x3000000000000 0x2000000000000) :=
  (accurate_of_unsaturated 0x3000000000000 0x2000000000000 (by decide)).1
    ⟨by decide, by decide⟩

/-- 20000 over 0.9 is 18204. -/
theorem large_dividend_cut : ¬ ∀ a b : UInt64, b ≠ 0 → Divides a b (fxpDiv a b) := by
  intro always
  refine not_divides (a := 0x4e20000000000000) (b := 0xe66666666666) (by decide) ⟨?_, ?_⟩
    (always _ _ (by decide))
  · decide
  · decide

end Accuracy

end Epilog.Pow.Roots
