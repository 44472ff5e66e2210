/- Module: Epilog/Lib/Newton
   source: none (library)
   digest: Newton's steps for reciprocals and inverse roots, with an error in each of them. -/

import Mathlib.Analysis.Real.Sqrt
import Mathlib.Tactic.FieldSimp
import Mathlib.Tactic.Linarith
import Mathlib.Tactic.Positivity
import Mathlib.Tactic.Ring

set_option autoImplicit false

namespace Epilog.Lib.Newton

section Reciprocal

variable {d x x' E δ : ℝ}

/-- A step squares the distance of `d x` from 1, and adds its own error. -/
theorem reciprocal_step (half : 0 ≤ d) (one : d ≤ 1) (near : |1 - d * x| ≤ E)
    (step : |x' - (x + x * (1 - d * x))| ≤ δ) : |1 - d * x'| ≤ E ^ 2 + δ := by
  have split : 1 - d * x' = (1 - d * x) ^ 2 - d * (x' - (x + x * (1 - d * x))) := by ring
  have square : |(1 - d * x) ^ 2| ≤ E ^ 2 := by
    rw [abs_pow]
    exact pow_le_pow_left₀ (abs_nonneg _) near 2
  have small : |d * (x' - (x + x * (1 - d * x)))| ≤ δ := by
    rw [abs_mul, abs_of_nonneg half]
    calc d * |x' - (x + x * (1 - d * x))| ≤ 1 * |x' - (x + x * (1 - d * x))| :=
          mul_le_mul_of_nonneg_right one (abs_nonneg _)
      _ ≤ δ := by rw [one_mul]; exact step
  rw [split]
  exact (abs_sub _ _).trans (add_le_add square small)

/-- Both numbers times the same factor, each rounded down -/
theorem reciprocal_unscale {k m p r u : ℝ} (nonneg : 0 ≤ x) (bound : x ≤ 3) (wide : 0 ≤ m)
    (near : |1 - p * x| ≤ E) (below : p ≤ m * k) (above : m * k ≤ p + u) (under : r ≤ x * k)
    (over_ : x * k ≤ r + u) : |r * m - 1| ≤ E + 3 * u + u * m := by
  have split : r * m - 1 = x * (m * k - p) - (1 - p * x) - (x * k - r) * m := by ring
  have first : |x * (m * k - p)| ≤ 3 * u := by
    rw [abs_of_nonneg (mul_nonneg nonneg (by linarith))]
    exact mul_le_mul bound (by linarith) (by linarith) (by norm_num)
  have second : |(x * k - r) * m| ≤ u * m := by
    rw [abs_of_nonneg (mul_nonneg (by linarith) wide)]
    exact mul_le_mul_of_nonneg_right (by linarith) wide
  rw [split]
  calc _ ≤ |x * (m * k - p)| + |1 - p * x| + |(x * k - r) * m| :=
        (abs_sub _ _).trans (add_le_add_left (abs_sub _ _) _)
    _ ≤ 3 * u + E + u * m := by gcongr
    _ = E + 3 * u + u * m := by ring

end Reciprocal

section Roots

/-- `v` is the inverse root of `t` up to a relative error of its square. -/
structure InvRoot (ε t v : ℝ) : Prop where
  pos : 0 < v
  near : |v ^ 2 * t - 1| ≤ ε

variable {a x x' E δ ε ε' t t' v w : ℝ}

/-- The distance of `a x²` from 1 after an exact step -/
theorem invRoot_exact (a x : ℝ) : 1 - a * (x * (3 - a * x ^ 2) / 2) ^ 2 =
    (1 - a * x ^ 2) ^ 2 * (3 + (1 - a * x ^ 2)) / 4 := by ring

/-- A step with an error of its own, for numbers around 1 -/
theorem invRoot_step (nonneg : 0 ≤ a) (upper : a ≤ 2) (pos : 0 ≤ x) (bound : x ≤ 2)
    (near : |1 - a * x ^ 2| ≤ E) (less : E ≤ 1) (fine : δ ≤ 1)
    (step : |x' - x * (3 - a * x ^ 2) / 2| ≤ δ) : |1 - a * x' ^ 2| ≤ E ^ 2 + 18 * δ := by
  have wide : 0 ≤ δ := (abs_nonneg _).trans step
  have own := abs_le.mp near
  set y := x * (3 - a * x ^ 2) / 2 with exact_
  have least : 0 ≤ y := by
    rw [exact_]
    have positive : 0 ≤ 3 - a * x ^ 2 := by linarith
    positivity
  have most : y ≤ 4 := by
    have factor : 3 - a * x ^ 2 ≤ 4 := by linarith
    calc y ≤ x * 4 / 2 := by
          rw [exact_]
          linarith [mul_le_mul_of_nonneg_left factor pos]
      _ ≤ 4 := by linarith
  have split : 1 - a * x' ^ 2 = (1 - a * y ^ 2) - a * (x' - y) * (2 * y + (x' - y)) := by ring
  have square : |1 - a * y ^ 2| ≤ E ^ 2 := by
    rw [exact_, invRoot_exact, abs_div, abs_mul, abs_pow, abs_of_pos (by norm_num : (0 : ℝ) < 4)]
    have first : |1 - a * x ^ 2| ^ 2 ≤ E ^ 2 := pow_le_pow_left₀ (abs_nonneg _) near 2
    have second : |3 + (1 - a * x ^ 2)| ≤ 4 := abs_le.mpr ⟨by linarith, by linarith⟩
    calc |1 - a * x ^ 2| ^ 2 * |3 + (1 - a * x ^ 2)| / 4 ≤ E ^ 2 * 4 / 4 := by gcongr
      _ = E ^ 2 := by ring
  have rest : |a * (x' - y) * (2 * y + (x' - y))| ≤ 18 * δ := by
    have factor : |2 * y + (x' - y)| ≤ 9 := by
      have distance := abs_le.mp step
      exact abs_le.mpr ⟨by linarith, by linarith⟩
    rw [abs_mul, abs_mul, abs_of_nonneg nonneg]
    calc a * |x' - y| * |2 * y + (x' - y)| ≤ 2 * δ * 9 := by gcongr
      _ = 18 * δ := by ring
  rw [split]
  exact (abs_sub _ _).trans (add_le_add square rest)

/-- Another number in place of the one whose root it is -/
theorem InvRoot.change (root : InvRoot ε t v) (small : ε ≤ 1) (wide : 0 ≤ ε')
    (near : |t' - t| ≤ ε' * t) : InvRoot (ε + 2 * ε') t' v := by
  refine ⟨root.pos, ?_⟩
  have own := abs_le.mp root.near
  have split : v ^ 2 * t' - 1 = (v ^ 2 * t - 1) + v ^ 2 * (t' - t) := by ring
  have moved : |v ^ 2 * (t' - t)| ≤ 2 * ε' := by
    rw [abs_mul, abs_of_nonneg (sq_nonneg v)]
    calc v ^ 2 * |t' - t| ≤ v ^ 2 * (ε' * t) := mul_le_mul_of_nonneg_left near (sq_nonneg v)
      _ = ε' * (v ^ 2 * t) := by ring
      _ ≤ ε' * 2 := mul_le_mul_of_nonneg_left (by linarith) wide
      _ = 2 * ε' := mul_comm _ _
  rw [split]
  exact (abs_add_le _ _).trans (add_le_add root.near moved)

/-- Another number in place of the root -/
theorem InvRoot.round (root : InvRoot ε t v) (small : ε ≤ 1) (fine : δ < 1)
    (near : |w - v| ≤ δ * v) : InvRoot (ε + 6 * δ) t w := by
  have positive := root.pos
  have distance := abs_le.mp near
  have wide : 0 ≤ δ := by
    by_contra negative
    have less : δ * v < 0 := mul_neg_of_neg_of_pos (not_le.mp negative) positive
    linarith [abs_nonneg (w - v)]
  have own := abs_le.mp root.near
  have least : δ * v < v := by
    calc δ * v < 1 * v := mul_lt_mul_of_pos_right fine positive
      _ = v := one_mul v
  refine ⟨by linarith, ?_⟩
  have ratio : w = v * (1 + (w - v) / v) := by
    field_simp
    ring
  set η := (w - v) / v with named
  have tiny : |η| ≤ δ := by
    rw [named, abs_div, abs_of_pos positive, div_le_iff₀ positive]
    exact near
  have split : w ^ 2 * t - 1 = (v ^ 2 * t - 1) + v ^ 2 * t * (η * (2 + η)) := by
    rw [ratio]
    ring
  have moved : |v ^ 2 * t * (η * (2 + η))| ≤ 6 * δ := by
    have outer : |v ^ 2 * t| ≤ 2 := abs_le.mpr ⟨by linarith, by linarith⟩
    have inner : |2 + η| ≤ 3 := by
      have sides := abs_le.mp tiny
      exact abs_le.mpr ⟨by linarith, by linarith⟩
    rw [abs_mul (v ^ 2 * t), abs_mul η]
    calc |v ^ 2 * t| * (|η| * |2 + η|) ≤ 2 * (δ * 3) := by gcongr
      _ = 6 * δ := by ring
  rw [split]
  exact (abs_add_le _ _).trans (add_le_add root.near moved)

/-- A factor that is near a root of `κ` -/
theorem InvRoot.scale {k κ : ℝ} (root : InvRoot ε t v) (small : ε ≤ 1) (factor : 0 < k)
    (positive : 0 < κ) (near : |k ^ 2 - κ| ≤ ε' * κ) :
    InvRoot (ε + 2 * ε') (t / κ) (v * k) := by
  refine ⟨mul_pos root.pos factor, ?_⟩
  have own := abs_le.mp root.near
  have split : (v * k) ^ 2 * (t / κ) - 1 =
      (v ^ 2 * t - 1) + v ^ 2 * t * ((k ^ 2 - κ) / κ) := by
    field_simp
    ring
  have moved : |v ^ 2 * t * ((k ^ 2 - κ) / κ)| ≤ 2 * ε' := by
    have outer : |v ^ 2 * t| ≤ 2 := abs_le.mpr ⟨by linarith, by linarith⟩
    have inner : |(k ^ 2 - κ) / κ| ≤ ε' := by
      rw [abs_div, abs_of_pos positive, div_le_iff₀ positive]
      exact near
    rw [abs_mul]
    exact mul_le_mul outer inner (abs_nonneg _) (by norm_num)
  rw [split]
  exact (abs_add_le _ _).trans (add_le_add root.near moved)

theorem InvRoot.mono (root : InvRoot ε t v) (less : ε ≤ ε') : InvRoot ε' t v :=
  ⟨root.pos, root.near.trans less⟩

theorem InvRoot.product (root : InvRoot ε t v) (positive : 0 < t) : |v * √t - 1| ≤ ε := by
  have outer : 0 < √t := Real.sqrt_pos.mpr positive
  have square : (v * √t) ^ 2 = v ^ 2 * t := by
    rw [mul_pow, Real.sq_sqrt positive.le]
  have nonneg : 0 ≤ v * √t := mul_nonneg root.pos.le outer.le
  calc |v * √t - 1| = |v * √t - 1| * 1 := (mul_one _).symm
    _ ≤ |v * √t - 1| * |v * √t + 1| := by
        gcongr
        rw [abs_of_nonneg (by linarith)]
        linarith
    _ = |v ^ 2 * t - 1| := by rw [← abs_mul, ← square]; ring_nf
    _ ≤ ε := root.near

theorem InvRoot.error (root : InvRoot ε t v) (positive : 0 < t) :
    |v - 1 / √t| ≤ ε * (1 / √t) := by
  have outer : 0 < √t := Real.sqrt_pos.mpr positive
  have quotient : v - 1 / √t = (v * √t - 1) * (1 / √t) := by
    field_simp
  rw [quotient, abs_mul, abs_of_pos (one_div_pos.mpr outer)]
  exact mul_le_mul_of_nonneg_right (root.product positive) (one_div_pos.mpr outer).le

/-- An inverse of the inverse root -/
theorem InvRoot.inverse (root : InvRoot ε t v) (positive : 0 < t) (small : ε ≤ 1 / 2)
    (near : |w * v - 1| ≤ δ) : |w - √t| ≤ 2 * (δ + ε) * √t := by
  have outer : 0 < √t := Real.sqrt_pos.mpr positive
  have product := root.product positive
  have least := (abs_le.mp product).1
  have distance : |w - √t| * v ≤ δ + ε := by
    have whole : |w - √t| * v = |(w - √t) * v| := by
      rw [abs_mul, abs_of_pos root.pos]
    have split : (w - √t) * v = (w * v - 1) - (v * √t - 1) := by ring
    rw [whole, split]
    exact (abs_sub _ _).trans (add_le_add near product)
  have nonneg : 0 ≤ |w - √t| := abs_nonneg _
  calc |w - √t| = |w - √t| * 1 := (mul_one _).symm
    _ ≤ |w - √t| * (2 * (v * √t)) := by
        gcongr
        linarith
    _ = |w - √t| * v * (2 * √t) := by ring
    _ ≤ (δ + ε) * (2 * √t) := by gcongr
    _ = 2 * (δ + ε) * √t := by ring

end Roots

end Epilog.Lib.Newton
