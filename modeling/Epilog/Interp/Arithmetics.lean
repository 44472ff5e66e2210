/- Module: Epilog/Interp/Arithmetics
   source: src/src/interp/arithmetics.cpp, src/src/common/term.hpp (int_cell)
   digest: The operations of arithmetic on integer cells, and which of them are exact. -/

import Epilog.Common.Term
import Epilog.Node.InConnection
import Mathlib.Tactic.Linarith
import Mathlib.Tactic.Ring

set_option autoImplicit false

namespace Epilog.Interp.Arithmetics

open Epilog.Common.Term
open Epilog.Node.InConnection (intCell intValue)

section Source

/-- The exceptions of an evaluation -/
inductive EvalError
  | notInstantiated
  | undefinedFunction
  | divisionByZero
  | unsupported
  deriving DecidableEq

def MIN : ℤ := -2 ^ 60

def MAX : ℤ := 2 ^ 60 - 1

def saturate (v : ℤ) : ℤ := if v < MIN then MIN else if MAX < v then MAX else v

def abs (c : Cell) : Cell := if intValue c < 0 then intCell (saturate (-intValue c)) else c

def sign (c : Cell) : Cell := if intValue c < 0 then intCell (-1) else intCell 1

/-- `bin_op` on the values of two cells: the result is put into 61 bits. The product of two values
does not fit into the 64 bits of the source either, which change nothing of the lower ones. -/
def binOp (f : ℤ → ℤ → ℤ) (a b : Cell) : Cell := intCell (f (intValue a) (intValue b))

def plus_2 (a b : Cell) : Cell := binOp (· + ·) a b

def minus_2 (a b : Cell) : Cell := binOp (· - ·) a b

def times_2 (a b : Cell) : Cell := binOp (· * ·) a b

/-- `div0_2`, the function of `//` -/
def div0_2 (a b : Cell) : Except EvalError Cell :=
  if intValue b = 0 then .error .divisionByZero
  else
    let s := binOp (· * ·) (sign a) (sign b)
    let v := binOp Int.tdiv (abs a) (abs b)
    .ok (binOp (· * ·) s v)

def rem_2 (a b : Cell) : Except EvalError Cell :=
  if intValue b = 0 then .error .divisionByZero
  else .ok (binOp (· * ·) (binOp Int.tmod (abs a) (abs b)) (sign a))

def div_2 (a b : Cell) : Except EvalError Cell :=
  if intValue b = 0 then .error .divisionByZero
  else do
    let d ← div0_2 a b
    let r ← rem_2 a b
    if intValue r < 0 then return intCell (intValue d - 1)
    return d

def mod_2 (a b : Cell) : Except EvalError Cell :=
  if intValue b = 0 then .error .divisionByZero
  else if (intValue a < 0) = (intValue b < 0) then rem_2 a b
  else do
    let r ← rem_2 a b
    if intValue r = 0 then return r
    return binOp (· + ·) r b

def max_2 (a b : Cell) : Cell := intCell (max (intValue a) (intValue b))

def min_2 (a b : Cell) : Cell := intCell (min (intValue a) (intValue b))

end Source

section Values

variable {a b : Cell} {v : ℤ}

/-- The values that a cell holds -/
abbrev Representable (v : ℤ) : Prop := MIN ≤ v ∧ v ≤ MAX

theorem intValue_representable (c : Cell) : Representable (intValue c) := by
  have low : -(2 ^ 61 / 2 : ℤ) ≤ (c.value : ℤ).bmod (2 ^ 61) := Int.le_bmod (by decide)
  have high : (c.value : ℤ).bmod (2 ^ 61) < (2 ^ 61 + 1) / 2 := Int.bmod_lt (by decide)
  unfold intValue Representable MIN MAX
  omega

theorem intValue_intCell (inside : Representable v) : intValue (intCell v) = v := by
  obtain ⟨low, high⟩ := inside
  unfold MIN at low
  unfold MAX at high
  have positive : 0 ≤ v % 2 ^ 61 := Int.emod_nonneg v (by decide)
  have small : v % 2 ^ 61 < 2 ^ 61 := Int.emod_lt_of_pos v (by decide)
  unfold intValue intCell
  rw [Cell.value_make_of_lt _ (by omega), Int.toNat_of_nonneg positive]
  have reduced : (v % 2 ^ 61).bmod (2 ^ 61) = v.bmod (2 ^ 61) := Int.emod_bmod v (2 ^ 61)
  rw [reduced]
  exact Int.bmod_eq_of_le (by omega) (by omega)

theorem intCell_intValue {c : Cell} (isInt : c.tag = .INT) : intCell (intValue c) = c := by
  have small := c.value_lt
  have whole : (c.value : ℤ).bmod (2 ^ 61) % 2 ^ 61 = c.value := by
    have reduced : (c.value : ℤ).bmod (2 ^ 61) % (2 ^ 61 : ℕ) = (c.value : ℤ) % (2 ^ 61 : ℕ) :=
      Int.bmod_emod
    rw [show (2 ^ 61 : ℤ) = ((2 ^ 61 : ℕ) : ℤ) from rfl, reduced]
    exact Int.emod_eq_of_lt (by omega) (by exact_mod_cast small)
  unfold intCell intValue
  rw [whole, Int.toNat_natCast, ← isInt]
  exact Cell.make_tag_value c

theorem intValue_binOp {f : ℤ → ℤ → ℤ} (inside : Representable (f (intValue a) (intValue b))) :
    intValue (binOp f a b) = f (intValue a) (intValue b) := intValue_intCell inside

/-- The value of a cell without its sign; the least one has none and is taken for the greatest. -/
def magnitude (v : ℤ) : ℤ := if v = MIN then MAX else |v|

theorem intValue_abs (c : Cell) : intValue (abs c) = magnitude (intValue c) := by
  have inside := intValue_representable c
  unfold abs magnitude
  split_ifs with negative least least
  · rw [least]
    exact intValue_intCell (by decide)
  · have small : Representable (-intValue c) := by
      unfold Representable MIN MAX at *
      omega
    have kept : saturate (-intValue c) = -intValue c := by
      unfold saturate
      rw [if_neg (by omega), if_neg (by omega)]
    rw [kept, intValue_intCell small, abs_of_neg negative]
  · exact absurd (by rw [least]; decide) negative
  · exact (abs_of_nonneg (not_lt.1 negative)).symm

theorem representable_of_nonneg (low : 0 ≤ v) (high : v ≤ MAX) : Representable v := by
  unfold Representable MIN
  unfold MAX at *
  omega

theorem representable_of_abs (low : -MAX - 1 ≤ v) (high : v ≤ MAX) : Representable v := by
  unfold Representable MIN
  unfold MAX at *
  omega

/-- The sign of a value, with that of zero -/
def signOf (v : ℤ) : ℤ := if v < 0 then -1 else 1

theorem intValue_sign (c : Cell) : intValue (sign c) = signOf (intValue c) := by
  unfold sign signOf
  split_ifs
  · exact intValue_intCell (by decide)
  · exact intValue_intCell (by decide)

theorem magnitude_bounds (inside : Representable v) : 0 ≤ magnitude v ∧ magnitude v ≤ MAX := by
  unfold magnitude
  unfold Representable MIN MAX at *
  split_ifs with least
  · omega
  · rw [abs_le]
    exact ⟨abs_nonneg v, by omega, inside.2⟩

end Values

section Quotients

variable {a b : Cell} {x y : ℤ}

theorem ok_bind {ε α β : Type} (a : α) (f : α → Except ε β) : (Except.ok a >>= f) = f a := rfl

/-- The values that `//` and `rem` compute -/
def quotient (x y : ℤ) : ℤ := signOf x * signOf y * (magnitude x / magnitude y)

def remainder (x y : ℤ) : ℤ := magnitude x % magnitude y * signOf x

/-- The values that `div` and `mod` compute from these -/
def floored (x y : ℤ) : ℤ := quotient x y - if remainder x y < 0 then 1 else 0

def modulus (x y : ℤ) : ℤ :=
  if (x < 0) = (y < 0) then remainder x y
  else if remainder x y = 0 then 0 else remainder x y + y

theorem signOf_cases (x : ℤ) : x < 0 ∧ signOf x = -1 ∨ 0 ≤ x ∧ signOf x = 1 := by
  unfold signOf
  split_ifs with negative
  · exact .inl ⟨negative, rfl⟩
  · exact .inr ⟨not_lt.1 negative, rfl⟩

theorem magnitude_pos (nonzero : x ≠ 0) : 0 < magnitude x := by
  unfold magnitude
  split_ifs
  · decide
  · exact abs_pos.2 nonzero

theorem quotient_bounds (inside : Representable x) (inside' : Representable y) :
    0 ≤ magnitude x / magnitude y ∧ magnitude x / magnitude y ≤ MAX := by
  obtain ⟨low, high⟩ := magnitude_bounds inside
  obtain ⟨low', -⟩ := magnitude_bounds inside'
  exact ⟨Int.ediv_nonneg low low', (Int.ediv_le_self _ low).trans high⟩

theorem remainder_bounds (x : ℤ) (nonzero : y ≠ 0) :
    0 ≤ magnitude x % magnitude y ∧ magnitude x % magnitude y < magnitude y := by
  have positive := magnitude_pos nonzero
  exact ⟨Int.emod_nonneg _ positive.ne', Int.emod_lt_of_pos _ positive⟩

theorem abs_quotient (inside : Representable x) (inside' : Representable y) :
    -MAX ≤ quotient x y ∧ quotient x y ≤ MAX := by
  obtain ⟨low, high⟩ := quotient_bounds inside inside'
  unfold quotient
  unfold MAX at *
  rcases signOf_cases x with ⟨-, sign⟩ | ⟨-, sign⟩ <;>
    rcases signOf_cases y with ⟨-, sign'⟩ | ⟨-, sign'⟩ <;> rw [sign, sign'] <;> omega

theorem abs_remainder (x : ℤ) (nonzero : y ≠ 0) :
    -magnitude y < remainder x y ∧ remainder x y < magnitude y ∧
      (x < 0 → remainder x y ≤ 0) ∧ (0 ≤ x → 0 ≤ remainder x y) := by
  obtain ⟨low, high⟩ := remainder_bounds x nonzero
  unfold remainder
  rcases signOf_cases x with ⟨_, sign⟩ | ⟨_, sign⟩ <;> rw [sign] <;> omega

theorem div0_2_ok (nonzero : intValue b ≠ 0) :
    ∃ c, div0_2 a b = .ok c ∧ c.tag = .INT ∧ intValue c = quotient (intValue a) (intValue b) := by
  have inside := intValue_representable a
  have inside' := intValue_representable b
  refine ⟨_, if_neg nonzero, Cell.tag_make _ _, ?_⟩
  have signs : intValue (binOp (· * ·) (sign a) (sign b)) =
      signOf (intValue a) * signOf (intValue b) := by
    rw [intValue_binOp, intValue_sign, intValue_sign]
    rw [intValue_sign, intValue_sign]
    rcases signOf_cases (intValue a) with ⟨-, sign⟩ | ⟨-, sign⟩ <;>
      rcases signOf_cases (intValue b) with ⟨-, sign'⟩ | ⟨-, sign'⟩ <;>
        rw [sign, sign'] <;> decide
  have sizes : intValue (binOp Int.tdiv (abs a) (abs b)) =
      magnitude (intValue a) / magnitude (intValue b) := by
    have division : (intValue (abs a)).tdiv (intValue (abs b)) =
        magnitude (intValue a) / magnitude (intValue b) := by
      rw [intValue_abs, intValue_abs]
      exact Int.tdiv_eq_ediv_of_nonneg (magnitude_bounds inside).1
    rw [intValue_binOp, division]
    rw [division]
    obtain ⟨low, high⟩ := quotient_bounds inside inside'
    exact representable_of_nonneg low high
  have bounds := abs_quotient inside inside'
  rw [intValue_binOp, signs, sizes, quotient]
  unfold quotient at bounds
  rw [signs, sizes]
  exact representable_of_abs (by linarith [bounds.1]) bounds.2

theorem rem_2_ok (nonzero : intValue b ≠ 0) :
    ∃ c, rem_2 a b = .ok c ∧ c.tag = .INT ∧ intValue c = remainder (intValue a) (intValue b) := by
  have inside := intValue_representable a
  have large := (magnitude_bounds (intValue_representable b)).2
  refine ⟨_, if_neg nonzero, Cell.tag_make _ _, ?_⟩
  have sizes : intValue (binOp Int.tmod (abs a) (abs b)) =
      magnitude (intValue a) % magnitude (intValue b) := by
    have division : (intValue (abs a)).tmod (intValue (abs b)) =
        magnitude (intValue a) % magnitude (intValue b) := by
      rw [intValue_abs, intValue_abs]
      exact Int.tmod_eq_emod_of_nonneg (magnitude_bounds inside).1
    rw [intValue_binOp, division]
    rw [division]
    obtain ⟨low, high⟩ := remainder_bounds (intValue a) nonzero
    exact representable_of_nonneg low (high.trans_le large).le
  obtain ⟨low, high, -, -⟩ := abs_remainder (intValue a) nonzero
  rw [intValue_binOp, sizes, intValue_sign, remainder]
  rw [sizes, intValue_sign]
  unfold remainder at low high
  exact representable_of_abs (by linarith) (high.trans_le large).le

theorem div_2_ok (nonzero : intValue b ≠ 0) :
    ∃ c, div_2 a b = .ok c ∧ c.tag = .INT ∧ intValue c = floored (intValue a) (intValue b) := by
  obtain ⟨d, atD, isInt, isQuotient⟩ := @div0_2_ok a b nonzero
  obtain ⟨r, atR, -, isRemainder⟩ := @rem_2_ok a b nonzero
  have bounds := abs_quotient (intValue_representable a) (intValue_representable b)
  have result : div_2 a b = .ok (if intValue r < 0 then intCell (intValue d - 1) else d) := by
    rw [div_2, if_neg nonzero, atD, ok_bind, atR, ok_bind]
    by_cases negative : intValue r < 0
    · rw [if_pos negative, if_pos negative]
      rfl
    · rw [if_neg negative, if_neg negative]
      rfl
  refine ⟨_, result, by split_ifs; exacts [Cell.tag_make _ _, isInt], ?_⟩
  rw [floored, ← isRemainder, ← isQuotient]
  split_ifs with negative
  · rw [intValue_intCell]
    rw [isQuotient]
    exact representable_of_abs (sub_le_sub_right bounds.1 1)
      ((sub_le_self _ zero_le_one).trans bounds.2)
  · exact (sub_zero _).symm

theorem mod_2_ok (nonzero : intValue b ≠ 0) :
    ∃ c, mod_2 a b = .ok c ∧ c.tag = .INT ∧ intValue c = modulus (intValue a) (intValue b) := by
  obtain ⟨r, atR, isInt, isRemainder⟩ := @rem_2_ok a b nonzero
  obtain ⟨-, -, below, above⟩ := abs_remainder (intValue a) nonzero
  obtain ⟨low, high⟩ := intValue_representable b
  have result : mod_2 a b = .ok (if (intValue a < 0) = (intValue b < 0) then r
      else if intValue r = 0 then r else binOp (· + ·) r b) := by
    rw [mod_2, if_neg nonzero, atR, ok_bind]
    by_cases same : (intValue a < 0) = (intValue b < 0)
    · rw [if_pos same, if_pos same]
    · rw [if_neg same, if_neg same]
      by_cases zero : intValue r = 0
      · rw [if_pos zero, if_pos zero]
        rfl
      · rw [if_neg zero, if_neg zero]
        rfl
  refine ⟨_, result, by split_ifs; exacts [isInt, isInt, Cell.tag_make _ _], ?_⟩
  rw [← isRemainder] at below above
  rw [modulus, ← isRemainder]
  split_ifs with same zero
  · rfl
  · exact zero
  · -- the remainder and the divisor have different signs
    rw [eq_iff_iff] at same
    apply intValue_binOp
    by_cases negative : intValue a < 0
    · have positive : ¬ intValue b < 0 := fun other => same (iff_of_true negative other)
      have large := (intValue_representable r).1
      exact ⟨by linarith, by linarith [below negative]⟩
    · have other : intValue b < 0 := by
        by_contra positive
        exact same (iff_of_false negative positive)
      have small := (intValue_representable r).2
      exact ⟨by linarith [above (not_lt.1 negative)], by linarith⟩

end Quotients

section Laws

/-- The laws of division for the values of `div`, `mod`, `//` and `rem` -/
structure Laws (a b div mod div0 rem : ℤ) : Prop where
  floor : div = a.fdiv b
  modSign : mod = 0 ∨ mod.sign = b.sign
  modLaw : a = b * div + mod
  trunc : div0 = a.tdiv b
  remSign : rem = 0 ∨ rem.sign = a.sign
  remLaw : a = b * div0 + rem

/-- The operations obey the laws for two integers. -/
def Obeys (a b : Cell) : Prop :=
  ∃ d m q r, div_2 a b = .ok d ∧ mod_2 a b = .ok m ∧ div0_2 a b = .ok q ∧ rem_2 a b = .ok r ∧
    Laws (intValue a) (intValue b) (intValue d) (intValue m) (intValue q) (intValue r)

/-- The dividend is not the least integer, and the divisor is positive or leaves no remainder; or
both are the least integer. -/
def Divides (a b : ℤ) : Prop := a ≠ MIN ∧ (0 < b ∨ b ∣ a) ∨ a = MIN ∧ b = MIN

variable {a b : ℤ}

theorem magnitude_of_ne (notLeast : a ≠ MIN) : magnitude a = |a| := if_neg notLeast

theorem signOf_mul_abs (a : ℤ) : |a| * signOf a = a := by
  rcases signOf_cases a with ⟨negative, sign⟩ | ⟨positive, sign⟩
  · rw [sign, abs_of_neg negative]
    ring
  · rw [sign, abs_of_nonneg positive, mul_one]

theorem quotient_eq (notLeast : a ≠ MIN) (notLeast' : b ≠ MIN) :
    quotient a b = a.tdiv b ∧ remainder a b = a.tmod b := by
  unfold quotient remainder
  rw [magnitude_of_ne notLeast, magnitude_of_ne notLeast',
    ← Int.tdiv_eq_ediv_of_nonneg (abs_nonneg a), ← Int.tmod_eq_emod_of_nonneg (abs_nonneg a)]
  rcases signOf_cases a with ⟨negative, sign⟩ | ⟨positive, sign⟩ <;>
    rcases signOf_cases b with ⟨negative', sign'⟩ | ⟨positive', sign'⟩
  · rw [sign, sign', abs_of_neg negative, abs_of_neg negative', Int.neg_tdiv, Int.tdiv_neg,
      Int.neg_tmod, Int.tmod_neg]
    constructor <;> ring
  · rw [sign, sign', abs_of_neg negative, abs_of_nonneg positive', Int.neg_tdiv, Int.neg_tmod]
    constructor <;> ring
  · rw [sign, sign', abs_of_nonneg positive, abs_of_neg negative', Int.tdiv_neg, Int.tmod_neg]
    constructor <;> ring
  · rw [sign, sign', abs_of_nonneg positive, abs_of_nonneg positive']
    constructor <;> ring

theorem quotient_least (small : |a| < MAX) :
    quotient a MIN = a.tdiv MIN ∧ remainder a MIN = a.tmod MIN := by
  have notLeast : a ≠ MIN := by
    rintro rfl
    exact absurd small (by decide)
  have least : magnitude MIN = MAX := if_pos rfl
  have zero : a.tdiv MIN = 0 := by
    have opposite : a.tdiv MIN = -a.tdiv (2 ^ 60) := by
      rw [MIN, Int.tdiv_neg]
    have large : MAX < 2 ^ 60 := by decide
    rw [opposite]
    rcases signOf_cases a with ⟨negative, -⟩ | ⟨positive, -⟩
    · rw [abs_of_neg negative] at small
      have none_ := Int.tdiv_eq_zero_of_lt (neg_nonneg.2 negative.le) (small.trans large)
      rw [Int.neg_tdiv] at none_
      exact none_
    · rw [abs_of_nonneg positive] at small
      rw [Int.tdiv_eq_zero_of_lt positive (small.trans large), neg_zero]
  have whole := Int.mul_tdiv_add_tmod a MIN
  rw [zero, mul_zero, zero_add] at whole
  unfold quotient remainder
  rw [magnitude_of_ne notLeast, least, Int.ediv_eq_zero_of_lt (abs_nonneg a) small,
    Int.emod_eq_of_lt (abs_nonneg a) small, signOf_mul_abs, zero, whole, mul_zero]
  exact ⟨rfl, rfl⟩

theorem tmod_neg_iff : a.tmod b < 0 ↔ a < 0 ∧ ¬ b ∣ a := by
  have sign := Int.sign_tmod a b
  rw [← Int.sign_eq_neg_one_iff_neg, ← Int.sign_eq_neg_one_iff_neg, sign]
  split_ifs with divides
  · exact iff_of_false (by decide) fun both => both.2 divides
  · exact (and_iff_left divides).symm

theorem modulus_eq (rem : remainder a b = a.tmod b) :
    modulus a b = a.fmod b := by
  have zero : a.tmod b = 0 ↔ b ∣ a := Int.dvd_iff_tmod_eq_zero.symm
  unfold modulus
  rw [rem, Int.fmod_eq_tmod]
  by_cases divides : b ∣ a
  · rw [if_pos divides, zero.2 divides, if_pos rfl, ite_self, add_zero]
  · rw [if_neg divides, if_neg (mt zero.1 divides)]
    rcases signOf_cases a with ⟨negative, -⟩ | ⟨positive, -⟩ <;>
      rcases signOf_cases b with ⟨negative', -⟩ | ⟨positive', -⟩
    · rw [if_pos (by rw [eq_true negative, eq_true negative']), if_neg (not_le.2 negative),
        if_neg (not_le.2 negative')]
      omega
    · rw [if_neg (by simp [negative, positive']), if_neg (not_le.2 negative), if_pos positive']
      omega
    · rw [if_neg (by simp [negative', positive]), if_pos positive, if_neg (not_le.2 negative')]
    · rw [if_pos (by rw [eq_false (not_lt.2 positive), eq_false (not_lt.2 positive')]),
        if_pos positive, if_pos positive']
      omega

theorem floored_eq_iff (nonzero : b ≠ 0) (div0 : quotient a b = a.tdiv b)
    (rem : remainder a b = a.tmod b) : floored a b = a.fdiv b ↔ 0 < b ∨ b ∣ a := by
  unfold floored
  rw [div0, rem, Int.fdiv_eq_tdiv]
  by_cases divides : b ∣ a
  · rw [if_pos divides, if_neg fun negative => (tmod_neg_iff.1 negative).2 divides]
    exact iff_of_true rfl (.inr divides)
  · have sign : a.tmod b < 0 ↔ a < 0 := tmod_neg_iff.trans (and_iff_left divides)
    rw [if_neg divides, or_iff_left divides]
    simp only [sign]
    rcases signOf_cases a with ⟨negative, -⟩ | ⟨positive, -⟩ <;>
      rcases lt_or_gt_of_ne nonzero with negative' | positive'
    · rw [if_pos negative, if_neg (not_le.2 negative), if_neg (not_le.2 negative'),
        Int.sign_eq_neg_one_of_neg negative']
      omega
    · rw [if_pos negative, if_neg (not_le.2 negative), if_pos positive'.le,
        Int.sign_eq_one_of_pos positive']
      omega
    · rw [if_neg (not_lt.2 positive), if_pos positive, if_neg (not_le.2 negative')]
      omega
    · rw [if_neg (not_lt.2 positive), if_pos positive, if_pos positive'.le]
      omega

end Laws

section Exactness

variable {a b : ℤ}

theorem laws_of_exact (nonzero : b ≠ 0) (div0 : quotient a b = a.tdiv b)
    (rem : remainder a b = a.tmod b) :
    Laws a b (floored a b) (modulus a b) (quotient a b) (remainder a b) ↔ 0 < b ∨ b ∣ a := by
  rw [← floored_eq_iff nonzero div0 rem]
  refine ⟨fun laws => laws.floor, fun floor => ?_⟩
  have mod := modulus_eq rem
  refine ⟨floor, ?_, ?_, div0, ?_, ?_⟩
  · rw [mod]
    rcases lt_or_gt_of_ne nonzero with negative | positive
    · have high : a.fmod b ≤ 0 := by
        have turned := Int.neg_fmod_neg a b
        have positive := Int.fmod_nonneg_of_pos (-a) (neg_pos.2 negative)
        omega
      rcases high.lt_or_eq with less | zero
      · right
        rw [Int.sign_eq_neg_one_of_neg less, Int.sign_eq_neg_one_of_neg negative]
      · exact .inl zero
    · rcases (Int.fmod_nonneg_of_pos a positive).lt_or_eq with more | zero
      · right
        rw [Int.sign_eq_one_of_pos more, Int.sign_eq_one_of_pos positive]
      · exact .inl zero.symm
  · rw [floor, mod, Int.mul_fdiv_add_fmod]
  · rw [rem]
    have sign := Int.sign_tmod a b
    split_ifs at sign
    · exact .inl (Int.sign_eq_zero_iff_zero.1 sign)
    · exact .inr sign
  · rw [div0, rem, Int.mul_tdiv_add_tmod]

theorem least_missed (notLeast : b ≠ MIN) : b * quotient MIN b + remainder MIN b = -MAX := by
  have sign : signOf MIN = -1 := by decide
  have least : magnitude MIN = MAX := if_pos rfl
  have whole := Int.mul_ediv_add_emod MAX |b|
  have signs := signOf_mul_abs b
  have square : signOf b * signOf b = 1 := by
    rcases signOf_cases b with ⟨-, sign⟩ | ⟨-, sign⟩ <;> rw [sign] <;> decide
  have size : b * signOf b = |b| := by
    rw [← mul_one |b|, ← square, ← mul_assoc, signs]
  have product : b * (signOf MIN * signOf b * (MAX / |b|)) = -(|b| * (MAX / |b|)) := by
    rw [sign, ← size]
    ring
  rw [quotient, remainder, least, magnitude_of_ne notLeast, product, sign]
  linarith

theorem laws_iff (inside : MIN ≤ a ∧ a ≤ MAX) (nonzero : b ≠ 0) :
    Laws a b (floored a b) (modulus a b) (quotient a b) (remainder a b) ↔ Divides a b := by
  by_cases least : a = MIN
  · have only : Divides a b ↔ b = MIN := by
      unfold Divides
      simp [least]
    rw [only]
    subst least
    constructor
    · intro laws
      by_contra notLeast
      have law := laws.remLaw
      rw [least_missed notLeast] at law
      exact absurd law (by decide)
    · rintro rfl
      exact ⟨by decide, by decide, by decide, by decide, by decide, by decide⟩
  · have only : Divides a b ↔ 0 < b ∨ b ∣ a := by
      unfold Divides
      simp [least]
    rw [only]
    by_cases small : b = MIN → |a| < MAX
    · have exact_ : quotient a b = a.tdiv b ∧ remainder a b = a.tmod b := by
        by_cases least' : b = MIN
        · rw [least']
          exact quotient_least (small least')
        · exact quotient_eq least least'
      exact laws_of_exact nonzero exact_.1 exact_.2
    · rw [Classical.not_imp] at small
      obtain ⟨rfl, large⟩ := small
      -- the greatest magnitude below that of the divisor, which the code takes for the same
      have size : |a| = MAX := le_antisymm (abs_le.2 ⟨by
        have low := lt_of_le_of_ne inside.1 (Ne.symm least)
        unfold MIN at low
        unfold MAX
        omega, inside.2⟩) (not_lt.1 large)
      rcases eq_or_eq_neg_of_abs_eq size with rfl | rfl
      · refine iff_of_false (fun laws => absurd laws.remLaw (by decide)) ?_
        decide
      · refine iff_of_false (fun laws => absurd laws.remLaw (by decide)) ?_
        decide

theorem obeys_iff {a b : Cell} (nonzero : intValue b ≠ 0) :
    Obeys a b ↔ Divides (intValue a) (intValue b) := by
  obtain ⟨d, atD, -, isD⟩ := @div_2_ok a b nonzero
  obtain ⟨m, atM, -, isM⟩ := @mod_2_ok a b nonzero
  obtain ⟨q, atQ, -, isQ⟩ := @div0_2_ok a b nonzero
  obtain ⟨r, atR, -, isR⟩ := @rem_2_ok a b nonzero
  rw [← laws_iff (intValue_representable a) nonzero]
  constructor
  · rintro ⟨d', m', q', r', atD', atM', atQ', atR', laws⟩
    rw [atD] at atD'
    rw [atM] at atM'
    rw [atQ] at atQ'
    rw [atR] at atR'
    cases atD'
    cases atM'
    cases atQ'
    cases atR'
    rwa [isD, isM, isQ, isR] at laws
  · intro laws
    rw [← isD, ← isM, ← isQ, ← isR] at laws
    exact ⟨d, m, q, r, atD, atM, atQ, atR, laws⟩

end Exactness

end Epilog.Interp.Arithmetics
