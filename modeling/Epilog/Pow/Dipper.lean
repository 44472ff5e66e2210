/- Module: Epilog/Pow/Dipper
   source: src/src/pow/pow_verifier.cpp (verify_pow), src/src/pow/isqrt.hpp
   digest: The geometry that seven projected stars must satisfy, and where its arithmetic wraps. -/

import Mathlib.Data.Fin.VecNotation
import Mathlib.Algebra.Order.Ring.Abs
import Mathlib.Tactic.FinCases
import Mathlib.Tactic.Linarith
import Mathlib.Tactic.Ring

set_option autoImplicit false

namespace Epilog.Pow.Dipper

scoped instance neZero_4 : NeZero 4 := ⟨by decide⟩
scoped instance neZero_7 : NeZero 7 := ⟨by decide⟩
scoped instance neZero_9 : NeZero 9 := ⟨by decide⟩
scoped instance neZero_4096 : NeZero 4096 := ⟨by decide⟩

section SquareRoot

/-- The loop of `isqrt`, from the bit `n - 1` down to bit 0 -/
def isqrtLoop : ℕ → ℤ → ℤ → ℤ
  | 0, _, g => g
  | n + 1, val, g =>
    let temp := (2 * g + 2 ^ n) * 2 ^ n
    if temp ≤ val then isqrtLoop n (val - temp) (g + 2 ^ n) else isqrtLoop n val g

def isqrt (val : ℤ) : ℤ := isqrtLoop 16 val 0

theorem isqrtLoop_spec {n : ℕ} {val g : ℤ} (root : 0 ≤ g) (left : 0 ≤ val)
    (below : val < (2 * g + 2 ^ n) * 2 ^ n) :
    g ≤ isqrtLoop n val g ∧ isqrtLoop n val g ^ 2 ≤ g ^ 2 + val ∧
      g ^ 2 + val < (isqrtLoop n val g + 1) ^ 2 := by
  induction n generalizing val g with
  | zero =>
    rw [isqrtLoop]
    rw [pow_zero] at below
    exact ⟨le_refl g, by linarith, by linarith [add_sq g 1]⟩
  | succ n ih =>
    have bit : (0 : ℤ) < 2 ^ n := by positivity
    rw [pow_succ] at below
    rw [isqrtLoop]
    split
    · next fits =>
      have rest : val - (2 * g + 2 ^ n) * 2 ^ n < (2 * (g + 2 ^ n) + 2 ^ n) * 2 ^ n := by linarith
      obtain ⟨more, lower, upper⟩ := ih (g := g + 2 ^ n) (by linarith) (by linarith) rest
      have square : (g + 2 ^ n) ^ 2 + (val - (2 * g + 2 ^ n) * 2 ^ n) = g ^ 2 + val := by ring
      rw [square] at lower upper
      exact ⟨by linarith, lower, upper⟩
    · next large => exact ih root left (not_le.1 large)

theorem isqrt_spec {val : ℤ} (nonneg : 0 ≤ val) (small : val < 2 ^ 32) :
    0 ≤ isqrt val ∧ isqrt val ^ 2 ≤ val ∧ val < (isqrt val + 1) ^ 2 := by
  obtain ⟨root, lower, upper⟩ := isqrtLoop_spec (n := 16) (le_refl 0) nonneg (by linarith)
  rw [zero_pow two_ne_zero, zero_add] at lower upper
  exact ⟨root, lower, upper⟩

end SquareRoot

section Geometry

/-- The places of seven stars on the screen -/
abbrev Stars := Fin 7 → Fin 4096 × Fin 4096

def dipperDx : Fin 7 → ℤ := ![0, 185, 325, 502, 588, 830, 805]

def dipperDy : Fin 7 → ℤ := ![0, 116, 99, 93, -30, 63, 236]

def TOLERANCE : ℤ := 800

def dx12 : ℤ := 185

def dy12 : ℤ := 116

def d12 : ℤ := isqrt (dx12 * dx12 + dy12 * dy12)

/-- A product or a sum of `int32_t`, which wraps where it leaves the type -/
def int32 (v : ℤ) : ℤ := v.bmod (2 ^ 32)

namespace Stars

variable (stars : Stars)

def x (i : Fin 7) : ℤ := (stars i).1.val

def y (i : Fin 7) : ℤ := (stars i).2.val

def dx01 : ℤ := x stars 1 - x stars 0

def dy01 : ℤ := y stars 1 - y stars 0

/-- `d01_2`: the square of the distance of the first two stars -/
def distance2 : ℤ := dx01 stars * dx01 stars + dy01 stars * dy01 stars

def tol : ℤ := (TOLERANCE * isqrt (distance2 stars)).tdiv d12

def r2 : ℤ := (tol stars * tol stars).tdiv 100

/-- `R_00` and `R_11` -/
def r00 : ℤ := (dx12 * dx01 stars + dy12 * dy01 stars).tdiv d12

/-- `R_01`, of which `R_10` is the negative -/
def r01 : ℤ := (dy12 * dx01 stars - dx12 * dy01 stars).tdiv d12

def xip (i : Fin 7) : ℤ :=
  (r00 stars * dipperDx i + r01 stars * dipperDy i).tdiv d12 + x stars 0

def yip (i : Fin 7) : ℤ :=
  (-r01 stars * dipperDx i + r00 stars * dipperDy i).tdiv d12 + y stars 0

/-- The square of the distance of a star from its place in the dipper -/
def miss (i : Fin 7) : ℤ :=
  (x stars i - xip stars i) * (x stars i - xip stars i) +
    (y stars i - yip stars i) * (y stars i - yip stars i)

/-- The check of one row in `verify_pow`. The sums and products of the comparison wrap; the ones
before it do not leave 32 bits. -/
def isDipper : Bool :=
  25 ≤ distance2 stars ∧ ∀ i : Fin 7, 2 ≤ i → int32 (100 * int32 (miss stars i)) ≤ r2 stars

/-- The geometry of the dipper within the tolerance, in numbers without a bound -/
def WithinTolerance : Prop :=
  25 ≤ distance2 stars ∧ ∀ i : Fin 7, 2 ≤ i → 100 * miss stars i ≤ r2 stars

/-- The scaled distances fit into 32 bits. -/
def Fits : Prop := ∀ i : Fin 7, 2 ≤ i → 100 * miss stars i < 2 ^ 31

end Stars

end Geometry

section Bounds

variable (stars : Stars)

/-- The numbers of `int32_t` -/
def InInt32 (v : ℤ) : Prop := -2 ^ 31 ≤ v ∧ v < 2 ^ 31

theorem int32_of_inInt32 {v : ℤ} (inside : InInt32 v) : int32 v = v :=
  by
  obtain ⟨least, most⟩ := inside
  exact Int.bmod_eq_of_le (by norm_num; omega) (by norm_num; omega)

private theorem tdiv_between {lo v hi c least most : ℤ} (pos : 0 < c) (low : lo.tdiv c = least)
    (high : hi.tdiv c = most) (lower : lo ≤ v) (upper : v ≤ hi) :
    least ≤ v.tdiv c ∧ v.tdiv c ≤ most :=
  ⟨low ▸ Int.tdiv_le_tdiv pos lower, high ▸ Int.tdiv_le_tdiv pos upper⟩

private theorem mul_between {a b m n : ℤ} (first : |a| ≤ m) (second : |b| ≤ n) :
    |a * b| ≤ m * n := by
  rw [abs_mul]
  exact mul_le_mul first second (abs_nonneg b) ((abs_nonneg a).trans first)

theorem d12_eq : d12 = 218 := by decide

theorem abs_dipper_le (i : Fin 7) : |dipperDx i| ≤ 830 ∧ |dipperDy i| ≤ 236 := by
  revert i
  decide

namespace Stars

theorem coordinate_le (i : Fin 7) : (0 ≤ x stars i ∧ x stars i ≤ 4095) ∧
    (0 ≤ y stars i ∧ y stars i ≤ 4095) := by
  have onX := (stars i).1.isLt
  have onY := (stars i).2.isLt
  unfold x y
  omega

theorem abs_d01_le : |dx01 stars| ≤ 4095 ∧ |dy01 stars| ≤ 4095 := by
  have first := coordinate_le stars 0
  have second := coordinate_le stars 1
  unfold dx01 dy01
  rw [abs_le, abs_le]
  omega

theorem distance2_le : 0 ≤ distance2 stars ∧ distance2 stars ≤ 33538050 := by
  obtain ⟨onX, onY⟩ := abs_d01_le stars
  have squareX := (abs_le.1 (mul_between onX onX)).2
  have squareY := (abs_le.1 (mul_between onY onY)).2
  unfold distance2
  exact ⟨add_nonneg (mul_self_nonneg _) (mul_self_nonneg _), by linarith⟩

theorem isqrt_distance2_le : 0 ≤ isqrt (distance2 stars) ∧ isqrt (distance2 stars) ≤ 5791 := by
  obtain ⟨nonneg, small⟩ := distance2_le stars
  obtain ⟨root, lower, _⟩ := isqrt_spec nonneg (by linarith)
  exact ⟨root, by nlinarith⟩

theorem tol_le : 0 ≤ tol stars ∧ tol stars ≤ 21251 := by
  obtain ⟨root, small⟩ := isqrt_distance2_le stars
  unfold tol TOLERANCE
  rw [d12_eq]
  have most : (4632800 : ℤ).tdiv 218 = 21251 := by decide
  exact tdiv_between (by decide) (Int.zero_tdiv 218) most (by linarith) (by linarith)

theorem r2_le : 0 ≤ r2 stars ∧ r2 stars ≤ 4516050 := by
  obtain ⟨nonneg, small⟩ := tol_le stars
  unfold r2
  have most : (451605001 : ℤ).tdiv 100 = 4516050 := by decide
  exact tdiv_between (by decide) (Int.zero_tdiv 100) most (mul_self_nonneg _) (by nlinarith)

theorem abs_rotation_le : |r00 stars| ≤ 5654 ∧ |r01 stars| ≤ 5654 := by
  obtain ⟨onX, onY⟩ := abs_d01_le stars
  rw [abs_le] at onX onY
  unfold r00 r01 dx12 dy12
  rw [d12_eq, abs_le, abs_le]
  have least : (-1232595 : ℤ).tdiv 218 = -5654 := by decide
  have most : (1232595 : ℤ).tdiv 218 = 5654 := by decide
  exact ⟨tdiv_between (by decide) least most (by linarith) (by linarith),
    tdiv_between (by decide) least most (by linarith) (by linarith)⟩

theorem abs_place_le (i : Fin 7) :
    |r00 stars * dipperDx i + r01 stars * dipperDy i| ≤ 6027164 ∧
      |-r01 stars * dipperDx i + r00 stars * dipperDy i| ≤ 6027164 := by
  obtain ⟨first, second⟩ := abs_rotation_le stars
  obtain ⟨onX, onY⟩ := abs_dipper_le i
  have mirrored : |-r01 stars| ≤ 5654 := by rwa [abs_neg]
  constructor
  · exact (abs_add_le _ _).trans (by linarith [mul_between first onX, mul_between second onY])
  · exact (abs_add_le _ _).trans (by linarith [mul_between mirrored onX, mul_between first onY])

theorem abs_offset_le (i : Fin 7) :
    |x stars i - xip stars i| ≤ 35842 ∧ |y stars i - yip stars i| ≤ 35842 := by
  obtain ⟨placeX, placeY⟩ := abs_place_le stars i
  rw [abs_le] at placeX placeY
  have first := coordinate_le stars 0
  have here := coordinate_le stars i
  have least : (-6027164 : ℤ).tdiv 218 = -27647 := by decide
  have most : (6027164 : ℤ).tdiv 218 = 27647 := by decide
  have alongX := tdiv_between (by decide) least most placeX.1 placeX.2
  have alongY := tdiv_between (by decide) least most placeY.1 placeY.2
  unfold xip yip
  rw [d12_eq, abs_le, abs_le]
  omega

theorem miss_nonneg (i : Fin 7) : 0 ≤ miss stars i :=
  add_nonneg (mul_self_nonneg _) (mul_self_nonneg _)

theorem withinTolerance_iff_fits (passes : isDipper stars = true) :
    WithinTolerance stars ↔ Fits stars := by
  obtain ⟨apart, near⟩ := of_decide_eq_true passes
  constructor
  · intro within i from2
    have tight := within.2 i from2
    have small := (r2_le stars).2
    linarith
  · intro fits
    refine ⟨apart, fun i from2 => ?_⟩
    have nonneg := miss_nonneg stars i
    have inside : InInt32 (100 * miss stars i) := ⟨by linarith, fits i from2⟩
    have compared := near i from2
    rwa [int32, int32, Int.mul_bmod_bmod, ← int32, int32_of_inInt32 inside] at compared

end Stars

end Bounds

end Epilog.Pow.Dipper
