/- Module: Epilog/Pow/Camera
   source: src/src/pow/camera.hpp, src/src/pow/vec3.hpp, src/src/pow/galaxy.hpp, src/src/pow/fxp.hpp
   digest: The projection of a star to the screen, which has 4096 places in each direction. -/

import Epilog.Pow.Roots
import Epilog.Pow.Siphash

set_option autoImplicit false

namespace Epilog.Pow.Camera

open Epilog.Global.MetaTerms Epilog.Pow.Target Epilog.Pow.FixedPoint Epilog.Pow.Floating
open Epilog.Pow.Division Epilog.Pow.Roots Epilog.Pow.Siphash
open Epilog.Pow.Verifier (SiphashKeys Words)

section Vectors

/-- `vec3` of fixed-point numbers -/
structure Vec3 where
  x : UInt64
  y : UInt64
  z : UInt64

namespace Vec3

def add (v w : Vec3) : Vec3 := ⟨fxpAdd v.x w.x, fxpAdd v.y w.y, fxpAdd v.z w.z⟩

def sub (v w : Vec3) : Vec3 := ⟨fxpSub v.x w.x, fxpSub v.y w.y, fxpSub v.z w.z⟩

def scale (v : Vec3) (scalar : UInt64) : Vec3 :=
  ⟨fxpMul v.x scalar, fxpMul v.y scalar, fxpMul v.z scalar⟩

def cross (v w : Vec3) : Vec3 :=
  ⟨fxpSub (fxpMul v.y w.z) (fxpMul v.z w.y), fxpSub (fxpMul v.z w.x) (fxpMul v.x w.z),
    fxpSub (fxpMul v.x w.y) (fxpMul v.y w.x)⟩

def dot (v w : Vec3) : UInt64 :=
  fxpAdd (fxpAdd (fxpMul v.x w.x) (fxpMul v.y w.y)) (fxpMul v.z w.z)

def length (v : Vec3) : Option UInt64 := Roots.sqrt (v.dot v)

def invLength (v : Vec3) : Option UInt64 := invSqrt (v.dot v)

def norm (v : Vec3) : Option Vec3 := v.invLength.map v.scale

end Vec3

end Vectors

section Model

/-- `fxp1648(int)` and `fxp1648(size_t)`, for numbers that are not negative -/
def ofNat (i : ℕ) : UInt64 := UInt64.ofNat i <<< 48

def uint64ToT (a : UInt64) : UInt64 := fxpSub (a >>> 16) 0x800000000000

/-- `galaxy::star_to_vector`, also of the words of a direction -/
def toVector (words : Words) : Vec3 :=
  ⟨uint64ToT words.1, uint64ToT words.2.1, uint64ToT words.2.2⟩

def ORIGIN : Vec3 := ⟨0, 0, 0⟩

def SCREEN : ℕ := 2 ^ 12

def C_1_2 : UInt64 := fxpDiv (ofNat 1) (ofNat 2)

def C_MINUS_1_2 : UInt64 := ~~~C_1_2 + 1

/-- `VOLUME` of a galaxy with as many bits for its buckets -/
def volume (numBits : ℕ) : UInt64 :=
  let n := ofNat (2 ^ numBits)
  fxpDiv (fxpDiv (fxpDiv (fxpMul (ofNat 1) (ofNat 32)) n) n) n

/-- `operator uint32_t` -/
def toUInt32 (v : UInt64) : UInt32 := (v >>> 48).toUInt32

/-- `projected_star` without its id, which the verifier does not read: a place on the screen, and
the distance -/
structure ProjectedStar where
  x : UInt32
  y : UInt32
  r : UInt32

/-- `camera::project_star` on the words of the star; `none` outside is a failed assertion or a table
that is left. -/
def project (numBits : ℕ) (target : Vec3) (star : Words) : Option (Option ProjectedStar) := do
  let svd := (toVector star).sub ORIGIN
  let sd ← svd.length
  let diff := target.sub ORIGIN
  let dir ← diff.norm
  let h ← diff.length
  let l ← Roots.sqrt (fxpDiv (fxpMul (volume numBits) (ofNat 3)) h)
  let sdlInv := fxpDiv h (fxpMul l sd)
  let proxyUp : Vec3 := ⟨0, 0, ofNat 1⟩
  let dirX ← (dir.cross proxyUp).norm
  let dirY := dir.cross dirX
  let projX := fxpMul (svd.dot dirX) sdlInv
  let projY := fxpMul (svd.dot dirY) sdlInv
  let projR := fxpDiv sd h
  if ge projX C_MINUS_1_2 ∧ lt projX C_1_2 ∧ ge projY C_MINUS_1_2 ∧ lt projY C_1_2 ∧
      lt projR C_1 then
    let place (proj : UInt64) : UInt32 := toUInt32 (fxpMul (fxpAdd proj C_1_2) (ofNat SCREEN))
    some (some ⟨place projX, place projY, toUInt32 (fxpMul projR (ofNat SCREEN))⟩)
  else some none

/-- `camera::set_target` for the words of a direction -/
def setTarget (words : Words) : Vec3 := ORIGIN.add (toVector words)

end Model

section Signs

variable {x y : UInt64} {v : Vec3}

theorem half_eq : C_1_2 = 0x800000000000 := by
  have shifted : shiftBy (ofNat 1) (48 - posMsb (ofNat 2)) = 0x800000000000 := by decide
  have divisor : shiftBy (ofNat 2) (48 - posMsb (ofNat 2)) = 0x1000000000000 := by decide
  have inverse : fxpReciprocal 0x1000000000000 = 0x1000000000000 := by decide
  rw [C_1_2, fxpDiv, if_neg (by decide), if_neg (by decide), quotient]
  rw [shifted, divisor, inverse]
  decide

theorem value_half : value C_1_2 = 2 ^ 47 ∧ value C_MINUS_1_2 = -2 ^ 47 := by
  rw [C_MINUS_1_2, half_eq]
  decide

theorem nonneg_of_sign {a b : ℤ} (same : a.sign = b.sign) (nonneg : 0 ≤ b) : 0 ≤ a := by
  rcases nonneg.eq_or_lt with zero | positive
  · rw [← zero, Int.sign_zero, Int.sign_eq_zero_iff_zero] at same
    exact same.ge
  · rw [Int.sign_eq_one_of_pos positive] at same
    exact (Int.pos_of_sign_eq_one same).le

theorem clamp_nonneg {z : ℤ} (nonneg : 0 ≤ z) : 0 ≤ clamp z := by
  unfold clamp
  omega

theorem fxpAdd_nonneg (left : 0 ≤ value x) (right : 0 ≤ value y) : 0 ≤ value (fxpAdd x y) := by
  rw [value_fxpAdd]
  exact clamp_nonneg (add_nonneg left right)

theorem fxpMul_nonneg (nonneg : 0 ≤ value x * value y) : 0 ≤ value (fxpMul x y) :=
  nonneg_of_sign ((sign_fxpMul x y).trans (Int.sign_mul _ _).symm) nonneg

theorem fxpDiv_nonneg (left : 0 ≤ value x) (right : 0 ≤ value y) : 0 ≤ value (fxpDiv x y) := by
  rw [fxpDiv]
  split_ifs with none_ zero
  · exact left
  · have plain : isNegative x = false := by
      rw [isNegative_eq, decide_eq_false_iff_not]
      omega
    rw [plain]
    decide
  · exact nonneg_of_sign ((sign_quotient zero).trans (Int.sign_mul _ _).symm)
      (mul_nonneg left right)

theorem dot_self_nonneg (v : Vec3) : 0 ≤ value (v.dot v) :=
  fxpAdd_nonneg
    (fxpAdd_nonneg (fxpMul_nonneg (mul_self_nonneg _)) (fxpMul_nonneg (mul_self_nonneg _)))
    (fxpMul_nonneg (mul_self_nonneg _))

theorem pos_of_real (positive : 0 < real x) : 0 < value x := by
  rw [real, lt_div_iff₀ (by positivity), zero_mul] at positive
  exact_mod_cast positive

theorem reciprocal_max : 0 < value (fxpReciprocal FXP_MAX) := by
  have word : value FXP_MAX = 2 ^ 63 - 1 := value_max
  have near := reciprocal_near (v := FXP_MAX) (by rw [word]; norm_num) (by rw [word]; norm_num)
  have small := ulp_small
  have bound := (real_bounds FXP_MAX).2
  have above : 0 < real FXP_MAX := by
    rw [real, word]
    norm_num
  rw [abs_of_pos above] at near
  have product := mul_le_mul_of_nonneg_left bound.le ulp_pos.le
  have positive : 0 < real (fxpReciprocal FXP_MAX) * real FXP_MAX := by
    linarith [(abs_le.mp near).1]
  exact pos_of_real ((mul_pos_iff_of_pos_right above).mp positive)

theorem sqrt_some (nonneg : 0 ≤ value x) : ∃ r, Roots.sqrt x = some r ∧ 0 ≤ value r := by
  by_cases large : 2 ^ 18 ≤ value x
  · obtain ⟨r, found, near⟩ := sqrt_near large
    have above : 0 < real x := by
      have cast : (0 : ℝ) < value x := by exact_mod_cast (show 0 < value x by omega)
      exact div_pos cast (by positivity)
    have root : 0 < √(real x) := Real.sqrt_pos.mpr above
    refine ⟨r, found, (pos_of_real ?_).le⟩
    linarith [(abs_le.mp near).1]
  · have plain : isNegative x = false := by
      rw [isNegative_eq, decide_eq_false_iff_not]
      omega
    rw [Roots.sqrt, plain, if_neg Bool.false_ne_true]
    by_cases zero : x = 0
    · rw [if_pos zero]
      exact ⟨x, rfl, nonneg⟩
    · have known : value LIMIT = 2 ^ 18 := by decide
      have limit : lt x LIMIT = true := by
        rw [lt_near ⟨by omega, by omega⟩, decide_eq_true_eq]
        omega
      rw [if_neg zero, invSqrt, plain, if_neg Bool.false_ne_true, if_neg zero, limit, if_pos rfl]
      exact ⟨_, rfl, reciprocal_max.le⟩

theorem length_some (v : Vec3) : ∃ r, v.length = some r ∧ 0 ≤ value r :=
  sqrt_some (dot_self_nonneg v)

theorem norm_some (v : Vec3) : ∃ w, v.norm = some w := by
  obtain ⟨r, found⟩ := Option.isSome_iff_exists.mp (isSome_invSqrt (v.dot v))
  rw [Vec3.norm, Vec3.invLength, found]
  exact ⟨_, rfl⟩

end Signs

section Screen

variable {numBits : ℕ} {v : UInt64}

theorem volume_nonneg (from7 : 7 ≤ numBits) (to9 : numBits ≤ 9) : 0 ≤ value (volume numBits) := by
  have width : 0 ≤ value (ofNat (2 ^ numBits)) := by
    interval_cases numBits <;> decide
  have whole : 0 ≤ value (fxpMul (ofNat 1) (ofNat 32)) := by decide
  exact fxpDiv_nonneg (fxpDiv_nonneg (fxpDiv_nonneg whole width) width) width

theorem difference_congr (v w : UInt64) :
    value (v - w) % 2 ^ 64 = (value v - value w) % 2 ^ 64 :=
  (congr_value (v - w)).symm.trans (congr_sub v w)

theorem between_halves (low : ge v C_MINUS_1_2 = true) (high : lt v C_1_2 = true) :
    -2 ^ 47 ≤ value v ∧ value v < 2 ^ 47 := by
  have first := difference_congr v C_MINUS_1_2
  have second := difference_congr v C_1_2
  have bounds := value_bounds v
  have bounds' := value_bounds (v - C_MINUS_1_2)
  have bounds'' := value_bounds (v - C_1_2)
  rw [ge_eq, decide_eq_true_eq] at low
  rw [lt_eq, decide_eq_true_eq] at high
  rw [value_half.2] at first
  rw [value_half.1] at second
  omega

theorem below_one (nonneg : 0 ≤ value v) (high : lt v C_1 = true) : value v < 2 ^ 48 := by
  have known : value C_1 = 2 ^ 48 := by decide
  have bounds := value_bounds v
  rw [lt_near ⟨by omega, by omega⟩, decide_eq_true_eq] at high
  omega

theorem place_lt (nonneg : 0 ≤ value v) (less : value v < 2 ^ 48) :
    (toUInt32 (fxpMul v (ofNat SCREEN))).toNat < 4096 := by
  have product : value v * value (ofNat SCREEN) = 2 ^ 12 * value v * 2 ^ 48 := by
    rw [show value (ofNat SCREEN) = 2 ^ 12 * 2 ^ 48 by decide]
    ring
  have detected : Detected (value v * value (ofNat SCREEN)) := by
    rw [product]
    exact .inl (by omega)
  have word : value (fxpMul v (ofNat SCREEN)) = 2 ^ 12 * value v := by
    rw [(fxpMul_iff _ _).mpr detected, product, truncated_mul, clamp_of_fits (by omega) (by omega)]
  obtain ⟨same, -⟩ := toNat_eq_value (x := fxpMul v (ofNat SCREEN)) (by omega)
  have shifted := toNat_shiftRight (fxpMul v (ofNat SCREEN)) (k := 48) (by norm_num)
  rw [toUInt32, UInt64.toNat_toUInt32]
  refine (Nat.mod_le _ _).trans_lt ?_
  change (fxpMul v (ofNat SCREEN) >>> UInt64.ofNat 48).toNat < 4096
  omega

theorem project_some (from7 : 7 ≤ numBits) (to9 : numBits ≤ 9) (target : Vec3)
    (star : Words) : ∃ shown, project numBits target star = some shown ∧
      ∀ p, shown = some p → p.x.toNat < 4096 ∧ p.y.toNat < 4096 ∧ p.r.toNat < 4096 := by
  obtain ⟨sd, distance, nonneg⟩ := length_some ((toVector star).sub ORIGIN)
  obtain ⟨dir, direction⟩ := norm_some (target.sub ORIGIN)
  obtain ⟨h, height, nonneg'⟩ := length_some (target.sub ORIGIN)
  have volume : 0 ≤ value (fxpDiv (fxpMul (volume numBits) (ofNat 3)) h) :=
    fxpDiv_nonneg (fxpMul_nonneg (mul_nonneg (volume_nonneg from7 to9) (by decide))) nonneg'
  obtain ⟨l, root, -⟩ := sqrt_some volume
  obtain ⟨dirX, across⟩ := norm_some (dir.cross ⟨0, 0, ofNat 1⟩)
  simp only [project, distance, direction, height, root, across, Option.bind_eq_bind,
    Option.bind_some]
  split_ifs with inside
  · obtain ⟨lowX, highX, lowY, highY, near⟩ := inside
    have placed : ∀ {v}, ge v C_MINUS_1_2 = true → lt v C_1_2 = true →
        (toUInt32 (fxpMul (fxpAdd v C_1_2) (ofNat SCREEN))).toNat < 4096 := fun low high => by
      obtain ⟨least, most⟩ := between_halves low high
      apply place_lt <;> rw [value_fxpAdd, value_half.1, clamp_of_fits] <;> omega
    refine ⟨_, rfl, fun p same => ?_⟩
    cases same
    have ratio := fxpDiv_nonneg nonneg nonneg'
    exact ⟨placed lowX highX, placed lowY highY, place_lt ratio (below_one ratio near)⟩
  · exact ⟨none, rfl, fun p same => nomatch same⟩

end Screen

end Epilog.Pow.Camera
