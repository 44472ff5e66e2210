/- Module: Epilog/Coin/Reward
   source: src/src/coin/builtins.cpp (reward), src/README.md (money supply)
   digest: The block reward and the total supply. -/

import Mathlib.Algebra.BigOperators.Intervals
import Mathlib.Algebra.Order.BigOperators.Group.Finset
import Mathlib.Tactic.Linarith

set_option autoImplicit false

namespace Epilog.Coin.Reward

open Finset

/-- `builtins::reward`; a shift on the 64-bit target looks at the lower six bits of its count. -/
def reward (height : ℕ) : ℤ :=
  if height = 0 then 42445243724242 else ((21000000000 >>> (height / 100000 % 64) : ℕ) : ℤ)

/-- The total supply of the documentation -/
def MAX_SUPPLY : ℤ := 4242424242424242

/-- Up to height `n` the supply is bounded, the reward does not grow, and it stays 0 once it is. -/
structure SupplyBounded (n : ℕ) : Prop where
  bounded : ∑ h ∈ range (n + 1), reward h ≤ MAX_SUPPLY
  antitone : ∀ i j, i ≤ j → j ≤ n → reward j ≤ reward i
  ends : ∀ i j, i ≤ j → j ≤ n → reward i = 0 → reward j = 0

/-- The reward of a period of 100000 blocks -/
def periodReward (period : ℕ) : ℤ := ((21000000000 / 2 ^ (period % 64) : ℕ) : ℤ)

theorem reward_eq {height : ℕ} (pos : 0 < height) :
    reward height = periodReward (height / 100000) := by
  rw [reward, if_neg (by omega), periodReward, Nat.shiftRight_eq_div_pow]

theorem periodReward_nonneg (period : ℕ) : 0 ≤ periodReward period := Int.natCast_nonneg _

theorem reward_nonneg (height : ℕ) : 0 ≤ reward height := by
  rcases Nat.eq_zero_or_pos height with rfl | pos
  · decide
  · rw [reward_eq pos]
    exact periodReward_nonneg _

theorem periodReward_antitone {i j : ℕ} (le : i ≤ j) (early : j < 64) :
    periodReward j ≤ periodReward i := by
  unfold periodReward
  rw [Nat.mod_eq_of_lt early, Nat.mod_eq_of_lt (lt_of_le_of_lt le early)]
  apply Int.ofNat_le.mpr
  apply Nat.div_le_div_left
  · exact Nat.pow_le_pow_right (by omega) le
  · exact Nat.two_pow_pos i

theorem reward_antitone {i j : ℕ} (le : i ≤ j) (early : j < 6400000) : reward j ≤ reward i := by
  rcases Nat.eq_zero_or_pos i with rfl | pos
  · rcases Nat.eq_zero_or_pos j with rfl | pos
    · exact le_rfl
    · rw [reward_eq pos]
      exact (periodReward_antitone (Nat.zero_le _) (by omega)).trans (by decide)
  · rw [reward_eq pos, reward_eq (by omega)]
    exact periodReward_antitone (Nat.div_le_div_right le) (by omega)

theorem sum_periods (f : ℕ → ℤ) (length periods : ℕ) (pos : 0 < length) :
    ∑ h ∈ range (periods * length), f (h / length) = ∑ k ∈ range periods, length * f k := by
  induction periods with
  | zero => simp
  | succ periods ih =>
    rw [Nat.succ_mul, sum_range_add, ih, sum_range_succ]
    congr 1
    have same : ∀ h ∈ range length, f ((periods * length + h) / length) = f periods := by
      intro h member
      rw [Nat.mul_comm, Nat.mul_add_div pos, Nat.div_eq_of_lt (mem_range.mp member), Nat.add_zero]
    rw [sum_congr rfl same, sum_const, card_range, nsmul_eq_mul]

theorem sum_reward_eq (n : ℕ) : ∑ h ∈ range (n + 1), reward h =
    reward 0 - periodReward 0 + ∑ h ∈ range (n + 1), periodReward (h / 100000) := by
  have same : ∑ h ∈ range n, reward (h + 1) = ∑ h ∈ range n, periodReward ((h + 1) / 100000) :=
    sum_congr rfl fun h _ => reward_eq (Nat.succ_pos h)
  rw [sum_range_succ', sum_range_succ', same, Nat.zero_div]
  omega

theorem sum_reward : ∑ h ∈ range 6400000, reward h = MAX_SUPPLY := by
  have periods := sum_periods periodReward 100000 64 (by omega)
  have first := sum_reward_eq 6399999
  rw [periods] at first
  rw [first]
  decide

/-- The supply stays bounded exactly until the shift count reaches the word width. -/
theorem supply_bounded_iff (n : ℕ) : SupplyBounded n ↔ n < 6400000 := by
  constructor
  · intro supply
    by_contra late
    have again := supply.ends 3500000 6400000 (by omega) (by omega) (by decide)
    revert again
    decide
  · intro early
    refine ⟨?_, fun i j le last => reward_antitone le (by omega), ?_⟩
    · rw [← sum_reward]
      apply sum_le_sum_of_subset_of_nonneg (range_subset_range.mpr early)
      exact fun h _ _ => reward_nonneg h
    · intro i j le last zero
      have below := reward_antitone le (by omega : j < 6400000)
      have above := reward_nonneg j
      omega

theorem supply_unbounded : ¬ SupplyBounded 6400000 := by
  intro supply
  have again := supply.antitone 6300000 6400000 (by omega) le_rfl
  revert again
  decide

end Epilog.Coin.Reward
