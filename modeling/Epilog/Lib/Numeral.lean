/- Module: Epilog/Lib/Numeral
   source: none (library)
   digest: Numerals with the highest digit first, and one string of bits cut in two ways. -/

import Mathlib.Data.Nat.Digits.Lemmas

set_option autoImplicit false

namespace Epilog.Lib.Numeral

section Numeral

variable {b : ℕ}

/-- The number that digits spell, the highest first -/
def numeral (b : ℕ) (digits : List ℕ) : ℕ := Nat.ofDigits b digits.reverse

@[simp] theorem numeral_nil : numeral b [] = 0 := rfl

theorem numeral_append (front back : List ℕ) :
    numeral b (front ++ back) = numeral b front * b ^ back.length + numeral b back := by
  rw [numeral, List.reverse_append, Nat.ofDigits_append, List.length_reverse]
  simp only [numeral]
  ring

@[simp] theorem numeral_singleton (d : ℕ) : numeral b [d] = d := by
  rw [numeral, List.reverse_singleton, Nat.ofDigits_singleton]

theorem numeral_concat (front : List ℕ) (d : ℕ) :
    numeral b (front ++ [d]) = numeral b front * b + d := by
  rw [numeral_append, numeral_singleton, List.length_singleton, pow_one]

theorem numeral_cons (d : ℕ) (rest : List ℕ) :
    numeral b (d :: rest) = d * b ^ rest.length + numeral b rest := by
  have split := numeral_append (b := b) [d] rest
  rw [numeral_singleton] at split
  exact split

theorem numeral_replicate_zero (n : ℕ) : numeral b (List.replicate n 0) = 0 := by
  induction n with
  | zero => rfl
  | succ n ih => rw [List.replicate_succ, numeral_cons, ih, zero_mul]

theorem numeral_lt {digits : List ℕ} (base : 1 < b) (below : ∀ d ∈ digits, d < b) :
    numeral b digits < b ^ digits.length := by
  have less := Nat.ofDigits_lt_base_pow_length (l := digits.reverse) base
    fun d mem => below d (List.mem_reverse.mp mem)
  rwa [List.length_reverse] at less

/-- As many digits, each below the base, are told by the number they spell. -/
theorem numeral_inj {xs ys : List ℕ} (base : 1 < b) (same : xs.length = ys.length)
    (belowX : ∀ d ∈ xs, d < b) (belowY : ∀ d ∈ ys, d < b)
    (equal : numeral b xs = numeral b ys) : xs = ys := by
  apply List.reverse_injective
  apply Nat.ofDigits_inj_of_len_eq base
  · rw [List.length_reverse, List.length_reverse, same]
  · intro d mem
    exact belowX d (List.mem_reverse.mp mem)
  · intro d mem
    exact belowY d (List.mem_reverse.mp mem)
  · exact equal

end Numeral
section Digits

variable {b : ℕ}

theorem numeral_take (base : 1 < b) {digits : List ℕ} (below : ∀ d ∈ digits, d < b) (k : ℕ) :
    numeral b digits / b ^ (digits.length - k) = numeral b (digits.take k) := by
  have rest : ∀ d ∈ digits.drop k, d < b := fun d mem => below d (List.mem_of_mem_drop mem)
  have less := numeral_lt base rest
  have split := numeral_append (b := b) (digits.take k) (digits.drop k)
  rw [List.take_append_drop, List.length_drop] at split
  rw [List.length_drop] at less
  rw [split, Nat.mul_comm, Nat.mul_add_div (Nat.pow_pos (by omega)), Nat.div_eq_of_lt less,
    Nat.add_zero]

theorem numeral_digit (base : 1 < b) {digits : List ℕ} (below : ∀ d ∈ digits, d < b) {k : ℕ}
    (inside : k < digits.length) :
    numeral b digits / b ^ (digits.length - (k + 1)) % b = digits[k] := by
  rw [numeral_take base below, List.take_succ_eq_append_getElem inside, numeral_concat,
    Nat.mul_add_mod_self_right, Nat.mod_eq_of_lt (below _ (List.getElem_mem inside))]

/-- A digit that grows by `e` -/
theorem numeral_set_add {digits : List ℕ} {k : ℕ} (inside : k < digits.length) (e : ℕ) :
    numeral b (digits.set k (digits[k] + e)) =
      numeral b digits + e * b ^ (digits.length - (k + 1)) := by
  have split : digits = digits.take k ++ digits[k] :: digits.drop (k + 1) := by
    rw [List.cons_getElem_drop_succ, List.take_append_drop]
  have changed : digits.set k (digits[k] + e) =
      digits.take k ++ (digits[k] + e) :: digits.drop (k + 1) :=
    List.set_eq_take_append_cons_drop.trans (if_pos inside)
  rw [changed, numeral_append, numeral_cons]
  conv => rhs; rw [split, numeral_append, numeral_cons]
  simp only [List.length_cons, List.length_drop, ← split]
  ring

/-- The last `n` digits of a number -/
def digits (b n x : ℕ) : List ℕ := (List.range n).map fun k => x / b ^ (n - (k + 1)) % b

@[simp] theorem length_digits (n x : ℕ) : (digits b n x).length = n := by
  rw [digits, List.length_map, List.length_range]

theorem digits_lt (base : 0 < b) {n x : ℕ} : ∀ d ∈ digits b n x, d < b := by
  intro d mem
  obtain ⟨k, -, rfl⟩ := List.mem_map.mp mem
  exact Nat.mod_lt _ base

theorem numeral_digits (n x : ℕ) : numeral b (digits b n x) = x % b ^ n := by
  induction n generalizing x with
  | zero => rw [Nat.pow_zero, Nat.mod_one]; rfl
  | succ n ih =>
    have front : digits b (n + 1) x = digits b n (x / b) ++ [x % b] := by
      rw [digits, List.range_succ, List.map_append, List.map_singleton, Nat.sub_self, Nat.pow_zero,
        Nat.div_one]
      congr 1
      apply List.map_congr_left
      intro k mem
      have less := List.mem_range.mp mem
      rw [Nat.div_div_eq_div_mul, ← Nat.pow_succ', show n + 1 - (k + 1) = n - (k + 1) + 1 by omega]
    rw [front, numeral_concat, ih, Nat.pow_succ', Nat.mod_mul]
    ring

end Digits

section Slices

/-- The `n` bits of a number that come after the first `off` of `total` -/
def slice (total x off n : ℕ) : ℕ := x / 2 ^ (total - (off + n)) % 2 ^ n

theorem slice_add (total x off n m : ℕ) (inside : off + (n + m) ≤ total) :
    slice total x off (n + m) = slice total x off n * 2 ^ m + slice total x (off + n) m := by
  have below : total - (off + n) = total - (off + (n + m)) + m := by omega
  have lower : x / 2 ^ (total - (off + n)) = x / 2 ^ (total - (off + (n + m))) / 2 ^ m := by
    rw [below, Nat.pow_add, Nat.div_div_eq_div_mul]
  rw [slice, slice, slice, lower, Nat.add_assoc off n m, Nat.add_comm n m, Nat.pow_add 2 m n,
    Nat.mod_mul]
  ring

theorem slice_lt (total x off n : ℕ) : slice total x off n < 2 ^ n :=
  Nat.mod_lt _ (Nat.two_pow_pos n)

/-- Bits inside of a slice -/
theorem slice_slice (total x off : ℕ) {m i n : ℕ} (inside : i + n ≤ m) (within : off + m ≤ total) :
    slice total x (off + i) n = slice total x off m % 2 ^ (m - i) / 2 ^ (m - (i + n)) := by
  apply Nat.eq_of_testBit_eq
  intro j
  simp only [slice, Nat.testBit_mod_two_pow, Nat.testBit_div_two_pow]
  by_cases less : j < n
  · rw [show j + (m - (i + n)) + (total - (off + m)) = j + (total - (off + i + n)) by omega]
    simp [less, show j + (m - (i + n)) < m - i by omega, show j + (m - (i + n)) < m by omega]
  · simp [less, show ¬ j + (m - (i + n)) < m - i by omega]

end Slices


end Epilog.Lib.Numeral
