/- Module: Epilog/Pow/TargetBytes
   source: src/src/pow/flt.hpp (to_integer), src/src/pow/pow_verifier.hpp (get_target)
   digest: When the conversion to an integer stays inside its buffer, and when there is a target. -/

import Epilog.Pow.Floating
import Epilog.Global.MetaValidation
import Mathlib.Algebra.Order.Floor.Semifield
import Mathlib.Data.Rat.Floor

set_option autoImplicit false

namespace Epilog.Pow.TargetBytes

open Epilog.Lib.Dyadic Epilog.Global.Chains Epilog.Global.MetaTerms Epilog.Global.MetaCodec
open Epilog.Global.MetaValidation Epilog.Pow.Target Epilog.Pow.FixedPoint Epilog.Pow.Floating

section Loop

theorem writeBits_isSome_iff (k : ℕ) (bits : UInt64) :
    (writeBits k bits).isSome ↔ 2 ^ 64 ∣ bits.toNat * 2 ^ (8 * k) := by
  induction k generalizing bits with
  | zero =>
    rw [writeBits, Nat.mul_zero, pow_zero, Nat.mul_one]
    split_ifs with zero
    · simp [zero]
    · refine iff_of_false Bool.false_ne_true fun divides => zero (UInt64.toNat_inj.1 ?_)
      exact Nat.eq_zero_of_dvd_of_lt divides bits.toNat_lt
  | succ k ih =>
    rw [writeBits]
    split_ifs with zero
    · simp [zero]
    · have next : (bits <<< 8).toNat = bits.toNat * 2 ^ 8 % 2 ^ 64 :=
        toNat_shiftLeft bits (k := 8) (by omega)
      rw [Option.isSome_map, ih, next, Nat.dvd_iff_mod_eq_zero, Nat.dvd_iff_mod_eq_zero,
        Nat.mod_mul_mod, Nat.mul_assoc, ← pow_add, Nat.mul_succ, Nat.add_comm 8]

theorem beNat_zeros (n : ℕ) (bytes : Bytes) :
    beNat (List.replicate n 0 ++ bytes) = beNat bytes := by
  induction n with
  | zero => rfl
  | succ n ih =>
    rw [List.replicate_succ, List.cons_append, beNat_cons, ih, UInt8.toNat_zero, Nat.zero_mul,
      Nat.zero_add]

theorem beNat_replicate (n : ℕ) : beNat (List.replicate n 0) = 0 := by
  rw [← List.append_nil (List.replicate n 0), beNat_zeros]
  rfl

theorem beNat_writeBits {k : ℕ} {bits : UInt64} {bytes : Bytes}
    (written : writeBits k bits = some bytes) :
    beNat bytes = bits.toNat % 2 ^ 48 * 2 ^ (8 * k) / 2 ^ 48 := by
  induction k generalizing bits bytes with
  | zero =>
    rw [writeBits] at written
    split at written
    · cases written
      have small := Nat.mod_lt bits.toNat (show 0 < 2 ^ 48 by norm_num)
      rw [Nat.mul_zero, pow_zero, Nat.mul_one, Nat.div_eq_of_lt small]
      rfl
    · cases written
  | succ k ih =>
    rw [writeBits] at written
    split at written
    · rename_i zero
      cases written
      rw [zero, beNat_replicate]
      exact (congrArg (· / 2 ^ 48) (Nat.zero_mul _)).symm
    · obtain ⟨rest, there, rfl⟩ := Option.map_eq_some_iff.1 written
      have next : (bits <<< 8).toNat = bits.toNat * 2 ^ 8 % 2 ^ 64 :=
        toNat_shiftLeft bits (k := 8) (by omega)
      have byte : (bits >>> 40).toUInt8.toNat = bits.toNat / 2 ^ 40 % 256 := by
        have shifted : (bits >>> 40).toNat = bits.toNat / 2 ^ 40 :=
          toNat_shiftRight bits (k := 40) (by omega)
        rw [UInt64.toNat_toUInt8, shifted]
      have split : bits.toNat % 2 ^ 48 =
          bits.toNat / 2 ^ 40 % 256 * 2 ^ 40 + bits.toNat % 2 ^ 40 := by omega
      have low : bits.toNat * 2 ^ 8 % 2 ^ 64 % 2 ^ 48 = bits.toNat % 2 ^ 40 * 2 ^ 8 := by omega
      rw [beNat_cons, length_writeBits there, ih there, next, byte, low, split]
      have whole : (bits.toNat / 2 ^ 40 % 256 * 2 ^ 40 + bits.toNat % 2 ^ 40) * 2 ^ (8 * (k + 1)) =
          bits.toNat % 2 ^ 40 * 2 ^ 8 * 2 ^ (8 * k) +
            bits.toNat / 2 ^ 40 % 256 * 256 ^ k * 2 ^ 48 := by
        rw [show 256 ^ k = 2 ^ (8 * k) from (pow_mul 2 8 k).symm]
        ring
      rw [whole, Nat.add_mul_div_right _ _ (by norm_num), Nat.add_comm]

end Loop

section Integers

/-- `flt1648::to_integer` into `n` bytes; `none` is a failed assertion or a write outside. -/
def toIntegerBytes (n : ℕ) (d : Flt1648) : Option Bytes :=
  if d.exponent < 0 ∨ (8 * n : ℤ) < d.exponent.toInt then none
  else
    let offset := d.exponent.toNatClampNeg
    let bitsOffset := offset % 8
    let byteOffset := offset / 8
    if n ≤ byteOffset then none
    else
      let bitsMask : UInt8 := ~~~ UInt8.ofNat (2 ^ (8 - bitsOffset) - 1)
      let bitsOut := ((d.mantissa >>> 40) &&& bitsMask.toUInt64) >>> UInt64.ofNat (8 - bitsOffset)
      (writeBits byteOffset (d.mantissa <<< UInt64.ofNat bitsOffset)).map fun rest =>
        List.replicate (n - 1 - byteOffset) 0 ++ bitsOut.toUInt8 :: rest

theorem toInteger_eq (d : Flt1648) : toInteger d = toIntegerBytes 32 d := by
  have large : (256 : Int16) < d.exponent ↔ (8 * (32 : ℕ) : ℤ) < d.exponent.toInt :=
    Int16.lt_iff_toInt_lt
  simp only [toInteger, toIntegerBytes, large]
  rfl

variable {d : Flt1648} {n : ℕ}

theorem masked_shift : ∀ r < 8, ∀ t < 256,
    (t &&& (~~~ UInt8.ofNat (2 ^ (8 - r) - 1)).toNat) >>> (8 - r) = t / 2 ^ (8 - r) := by
  decide +kernel

theorem toNat_bitsOut (m : UInt64) {r : ℕ} (few : r < 8) (small : m.toNat < 2 ^ 48) :
    ((((m >>> 40) &&& (~~~ UInt8.ofNat (2 ^ (8 - r) - 1)).toUInt64) >>>
      UInt64.ofNat (8 - r)).toUInt8).toNat = m.toNat * 2 ^ r / 2 ^ 48 := by
  have high : (m >>> 40).toNat = m.toNat / 2 ^ 40 := toNat_shiftRight m (k := 40) (by omega)
  have byte : m.toNat / 2 ^ 40 < 256 := by omega
  have scale : m.toNat * 2 ^ r / 2 ^ 48 = m.toNat / 2 ^ 40 / 2 ^ (8 - r) := by
    rw [Nat.div_div_eq_div_mul, ← pow_add, show (48 : ℕ) = 40 + (8 - r) + r by omega, pow_add,
      Nat.mul_div_mul_right _ _ (by positivity)]
  have less : m.toNat / 2 ^ 40 / 2 ^ (8 - r) < 256 := (Nat.div_le_self _ _).trans_lt byte
  rw [UInt64.toNat_toUInt8, UInt64.toNat_shiftRight, UInt64.toNat_and, UInt8.toNat_toUInt64, high,
    UInt64.toNat_ofNat', Nat.mod_eq_of_lt (show 8 - r < 2 ^ 64 by omega),
    Nat.mod_eq_of_lt (show 8 - r < 64 by omega), masked_shift r few _ byte, scale]
  exact Nat.mod_eq_of_lt less

theorem toIntegerBytes_isSome_iff (nonneg : 0 ≤ d.exponent.toInt)
    (fits : d.exponent.toInt ≤ 8 * n) : (toIntegerBytes n d).isSome ↔
      d.exponent.toInt < 8 * n ∧ 2 ^ 64 ∣ d.mantissa.toNat * 2 ^ d.exponent.toNatClampNeg := by
  have offset : (d.exponent.toNatClampNeg : ℤ) = d.exponent.toInt := Int.toNat_of_nonneg nonneg
  have plain : ¬ (d.exponent < 0 ∨ (8 * n : ℤ) < d.exponent.toInt) := by
    rw [Int16.lt_iff_toInt_lt]
    exact not_or.2 ⟨not_lt.2 nonneg, not_lt.2 fits⟩
  rw [toIntegerBytes, if_neg plain]
  dsimp only
  split_ifs with outside
  · exact iff_of_false Bool.false_ne_true fun inside => by omega
  · have few : d.exponent.toNatClampNeg % 8 < 64 := by omega
    have split : d.exponent.toNatClampNeg = d.exponent.toNatClampNeg % 8 +
        8 * (d.exponent.toNatClampNeg / 8) := by omega
    rw [Option.isSome_map, writeBits_isSome_iff, toNat_shiftLeft _ few, Nat.dvd_iff_mod_eq_zero,
      Nat.mod_mul_mod, Nat.mul_assoc, ← pow_add, ← split, ← Nat.dvd_iff_mod_eq_zero]
    exact (and_iff_right (by omega)).symm

theorem bytes_of_parts {B x : ℕ} {first : UInt8} {rest : Bytes} (inside : B < n)
    (length : rest.length = B) (partial_ : first.toNat = x / 2 ^ 48)
    (later : beNat rest = x % 2 ^ 48 * 2 ^ (8 * B) / 2 ^ 48) :
    List.replicate (n - 1 - B) 0 ++ first :: rest = beBytes n (x * 2 ^ (8 * B) / 2 ^ 48) := by
  have whole : x * 2 ^ (8 * B) = x % 2 ^ 48 * 2 ^ (8 * B) + x / 2 ^ 48 * 256 ^ B * 2 ^ 48 := by
    conv_lhs => rw [← Nat.mod_add_div x (2 ^ 48)]
    rw [show 256 ^ B = 2 ^ (8 * B) from (pow_mul 2 8 B).symm]
    ring
  have total : (List.replicate (n - 1 - B) 0 ++ first :: rest).length = n := by
    rw [List.length_append, List.length_replicate, List.length_cons, length]
    omega
  have number : beNat (List.replicate (n - 1 - B) 0 ++ first :: rest) =
      x * 2 ^ (8 * B) / 2 ^ 48 := by
    rw [beNat_zeros, beNat_cons, length, partial_, later, whole,
      Nat.add_mul_div_right _ _ (by norm_num), Nat.add_comm]
  have back := beBytes_beNat (List.replicate (n - 1 - B) 0 ++ first :: rest)
  rw [total, number] at back
  exact back.symm

theorem toIntegerBytes_some (small : d.mantissa.toNat < 2 ^ 48) {bytes : Bytes}
    (written : toIntegerBytes n d = some bytes) :
    bytes = beBytes n (d.mantissa.toNat * 2 ^ d.exponent.toNatClampNeg / 2 ^ 48) := by
  rw [toIntegerBytes] at written
  split at written
  · exact nomatch written
  dsimp only at written
  split at written
  · exact nomatch written
  rename_i inside
  obtain ⟨rest, there, rfl⟩ := Option.map_eq_some_iff.1 written
  have few : d.exponent.toNatClampNeg % 8 < 8 := by omega
  have fits : d.mantissa.toNat * 2 ^ (d.exponent.toNatClampNeg % 8) < 2 ^ 64 := by
    have most : 2 ^ (d.exponent.toNatClampNeg % 8) ≤ 2 ^ 7 :=
      Nat.pow_le_pow_right (by norm_num) (by omega)
    calc d.mantissa.toNat * 2 ^ (d.exponent.toNatClampNeg % 8) < 2 ^ 48 * 2 ^ 8 :=
          Nat.mul_lt_mul'' small (by omega)
      _ ≤ 2 ^ 64 := by norm_num
  have later := beNat_writeBits there
  rw [toNat_shiftLeft _ (show d.exponent.toNatClampNeg % 8 < 64 by omega),
    Nat.mod_eq_of_lt fits] at later
  have parts := bytes_of_parts (n := n) (by omega) (length_writeBits there)
    (toNat_bitsOut d.mantissa few small) later
  have scale : d.mantissa.toNat * 2 ^ d.exponent.toNatClampNeg =
      d.mantissa.toNat * 2 ^ (d.exponent.toNatClampNeg % 8) *
        2 ^ (8 * (d.exponent.toNatClampNeg / 8)) := by
    rw [Nat.mul_assoc, ← pow_add, Nat.mod_add_div]
  rw [scale]
  exact parts

end Integers

section Exactness

variable {d : Flt1648} {n : ℕ}

theorem toNat_mantissa (inForm : InForm d) (nonneg : 0 ≤ value d.mantissa) :
    (d.mantissa.toNat : ℤ) = value d.mantissa ∧ d.mantissa.toNat < 2 ^ 48 := by
  have bound := (abs_le.1 inForm.bound).2
  have := d.mantissa.toNat_lt
  have plain := value_eq d.mantissa
  split_ifs at plain <;> omega

theorem toRat_eq (inForm : InForm d) (nonneg : 0 ≤ value d.mantissa)
    (exponent : 0 ≤ d.exponent.toInt) : toRat d =
      ((d.mantissa.toNat * 2 ^ d.exponent.toNatClampNeg : ℕ) : ℚ) / ((2 ^ 48 : ℕ) : ℚ) := by
  have offset : d.exponent.toInt = d.exponent.toNatClampNeg := (Int.toNat_of_nonneg exponent).symm
  rw [toRat, dyad, ← (toNat_mantissa inForm nonneg).1, offset, zpow_sub₀ (by norm_num),
    zpow_natCast]
  push_cast
  rw [mul_div_assoc]

/-- The conversion of a nonnegative value is exact and in bounds exactly where the exponent leaves
the first byte free and the value is a multiple of `2 ^ 16`. -/
theorem to_integer_exact_iff (made : Made d) (nonneg : 0 ≤ value d.mantissa)
    (low : 0 ≤ d.exponent.toInt) (high : d.exponent.toInt ≤ 8 * n) :
    toIntegerBytes n d = some (beBytes n ⌊toRat d⌋₊) ↔
      d.exponent.toInt < 8 * n ∧ ∃ k : ℕ, toRat d = 2 ^ 16 * k := by
  have inForm := made.inForm nonneg
  have floor : ⌊toRat d⌋₊ = d.mantissa.toNat * 2 ^ d.exponent.toNatClampNeg / 2 ^ 48 := by
    rw [toRat_eq inForm nonneg low, Nat.floor_div_eq_div]
  have multiple : (∃ k : ℕ, toRat d = 2 ^ 16 * k) ↔
      2 ^ 64 ∣ d.mantissa.toNat * 2 ^ d.exponent.toNatClampNeg := by
    rw [toRat_eq inForm nonneg low]
    generalize d.mantissa.toNat * 2 ^ d.exponent.toNatClampNeg = x
    constructor
    · rintro ⟨k, equal⟩
      refine ⟨k, ?_⟩
      rw [div_eq_iff (by norm_num)] at equal
      have cast : (x : ℚ) = ((2 ^ 64 * k : ℕ) : ℚ) := by
        rw [equal]
        push_cast
        ring
      exact_mod_cast cast
    · rintro ⟨k, rfl⟩
      refine ⟨k, ?_⟩
      rw [div_eq_iff (by norm_num)]
      push_cast
      ring
  rw [multiple, ← toIntegerBytes_isSome_iff low high, floor]
  constructor
  · intro written
    rw [written]
    rfl
  · intro isSome
    obtain ⟨bytes, written⟩ := Option.isSome_iff_exists.1 isSome
    rw [written, toIntegerBytes_some (toNat_mantissa inForm nonneg).2 written]

theorem toRat_power (e : ℤ) : dyad (2 ^ 47) (e - 48) = 2 ^ (e - 1) := by
  rw [dyad, show e - 1 = 47 + (e - 48) by ring, zpow_add₀ (by norm_num)]
  norm_num

/-- `2 ^ 63` -/
def large : Flt1648 := ⟨64, 0x800000000000⟩

theorem large_exact : toIntegerBytes 32 large = some (beBytes 32 ⌊toRat large⌋₊) := by
  refine (to_integer_exact_iff (.inr ⟨64, 0x800000000000, by decide⟩) (by decide) (by decide)
    (by decide)).2 ⟨by decide, 2 ^ 47, ?_⟩
  have number : toRat large = dyad (2 ^ 47) (64 - 48) := rfl
  rw [number, toRat_power]
  norm_num

/-- The bytes of one are followed by a byte outside of the buffer. -/
theorem one_outside : Made ONE ∧ 0 ≤ value ONE.mantissa ∧ 0 ≤ ONE.exponent.toInt ∧
    ONE.exponent.toInt ≤ 8 * (32 : ℕ) ∧ toIntegerBytes 32 ONE ≠ some (beBytes 32 ⌊toRat ONE⌋₊) := by
  have none_ : toIntegerBytes 32 ONE = none := by decide
  refine ⟨.inr ⟨48, 1, rfl⟩, by decide, by decide, by decide, ?_⟩
  rw [none_]
  exact nofun

end Exactness
section Targets

variable {d : Flt1648}

theorem negate_ne_zero {r : UInt64} (nonzero : r ≠ 0) : ~~~r + 1 ≠ 0 := by
  intro zero
  have complement := congrArg UInt64.toNat zero
  have := r.toNat_lt
  have positive : r.toNat ≠ 0 := fun none_ => nonzero (UInt64.toNat_inj.1 none_)
  rw [toNat_negate, UInt64.toNat_zero] at complement
  omega

theorem fxpReciprocal_ne_zero (data : UInt64) : fxpReciprocal data ≠ 0 := by
  have saturated (positive : Bool) : maxOrMin positive ≠ 0 := by cases positive <;> decide
  have least (positive : Bool) : eps positive ≠ 0 := by cases positive <;> decide
  unfold fxpReciprocal
  dsimp only
  split_ifs with over_ zero negative
  · exact saturated _
  · exact least _
  · exact negate_ne_zero zero
  · exact zero

theorem toInteger_reciprocal (least : 1 ≤ d.exponent.toInt) : toInteger (reciprocal d) = none := by
  have nonzero : value (fxpReciprocal d.mantissa) ≠ 0 := fun zero =>
    fxpReciprocal_ne_zero d.mantissa (eq_zero_of_value zero)
  obtain ⟨mantissa, small⟩ := mantissa_bounds (-d.exponent) nonzero
  obtain ⟨k, exponent⟩ := exponent_congr (-d.exponent) nonzero
  have few := top_le (fxpReciprocal d.mantissa)
  have greatest := Int16.toInt_lt d.exponent
  have opposite : (-d.exponent).toInt = -d.exponent.toInt := by
    rw [Int16.toInt_neg, Int.bmod_eq_of_le (by omega) (by omega)]
  by_contra made
  have inside : 0 ≤ (reciprocal d).exponent.toInt ∧
      (reciprocal d).exponent.toInt ≤ 8 * (32 : ℕ) := by
    rw [toInteger_eq, toIntegerBytes] at made
    by_contra outside
    refine made (if_pos ?_)
    rw [Int16.lt_iff_toInt_lt]
    change (reciprocal d).exponent.toInt < 0 ∨ _
    omega
  rw [toInteger_eq, ← ne_eq, Option.ne_none_iff_isSome,
    toIntegerBytes_isSome_iff inside.1 inside.2] at made
  have offset : ((reciprocal d).exponent.toNatClampNeg : ℤ) = (reciprocal d).exponent.toInt :=
    Int.toNat_of_nonneg inside.1
  have low : (reciprocal d).exponent.toNatClampNeg ≤ 15 := by
    have own : (reciprocal d).exponent =
        (flt1648 (-d.exponent) (fxpReciprocal d.mantissa)).exponent := rfl
    rw [← own] at exponent
    omega
  have divides : (2 ^ 64 : ℤ) ∣
      value (reciprocal d).mantissa * 2 ^ (reciprocal d).exponent.toNatClampNeg := by
    have own := congr_value (reciprocal d).mantissa
    have whole : (2 ^ 64 : ℤ) ∣
        (reciprocal d).mantissa.toNat * 2 ^ (reciprocal d).exponent.toNatClampNeg := by
      exact_mod_cast made.2
    have same : ((reciprocal d).mantissa.toNat : ℤ) ≡ value (reciprocal d).mantissa [ZMOD 2 ^ 64] :=
      own
    exact (same.mul_right _).dvd_iff.1 whole
  have large : (0 : ℤ) < 2 ^ (reciprocal d).exponent.toNatClampNeg := by positivity
  have most : (2 : ℤ) ^ (reciprocal d).exponent.toNatClampNeg ≤ 2 ^ 15 :=
    pow_le_pow_right₀ (by norm_num) low
  have few' :
      |value (reciprocal d).mantissa * 2 ^ (reciprocal d).exponent.toNatClampNeg| < 2 ^ 64 := by
    rw [abs_mul, abs_of_pos large]
    calc |value (reciprocal d).mantissa| * 2 ^ (reciprocal d).exponent.toNatClampNeg
        ≤ 2 ^ 48 * 2 ^ 15 := mul_le_mul small most large.le (by norm_num)
      _ < 2 ^ 64 := by norm_num
  exact mul_ne_zero mantissa large.ne' (Int.eq_zero_of_abs_lt_dvd divides few')

/-- The target is the integer that the reciprocal asks for. -/
def Exact (d : Flt1648) : Prop :=
  getTarget d = some (beBytes 32 (min (2 ^ 256 - 1) ⌊2 ^ 256 * toRat (reciprocal d)⌋₊))

/-- No greater difficulty has a greater target. -/
def Falls (d : Flt1648) : Prop :=
  ∀ d' target target', Normalized d' → toRat d ≤ toRat d' → getTarget d = some target →
    getTarget d' = some target' → beNat target' ≤ beNat target

theorem exponent_of_least (normalized : Normalized d) (least : 1 ≤ toRat d) :
    1 ≤ d.exponent.toInt := by
  by_contra low
  have small : toRat d < 1 := by
    calc toRat d ≤ |toRat d| := le_abs_self _
      _ = dyad |value d.mantissa| (d.exponent.toInt - 48) := abs_dyad _ _
      _ < dyad (2 ^ 48) (d.exponent.toInt - 48) := dyad_lt_dyad.2 normalized.2
      _ = dyad 1 (d.exponent.toInt) := by
        rw [show (2 : ℤ) ^ 48 = 1 * 2 ^ 48 by norm_num, dyad_shift]
        congr 1
        push_cast
        ring
      _ ≤ 1 := by
        rw [dyad, Int.cast_one, one_mul]
        exact zpow_le_one_of_nonpos₀ (by norm_num) (by omega)
  exact absurd least small.not_ge

theorem getTarget_of_ne_one (normalized : Normalized d) (least : 1 ≤ toRat d) (other : d ≠ ONE) :
    getTarget d = none := by
  rw [getTarget, if_neg other]
  exact toInteger_reciprocal (exponent_of_least normalized least)

theorem normalized_half : HasBits 47 (2 ^ 47) := by
  rw [HasBits]
  norm_num

theorem toRat_one : toRat ONE = 1 := by
  have number : toRat ONE = dyad (2 ^ 47) (1 - 48) := rfl
  rw [number, toRat_power, sub_self, zpow_zero]

/-- There is a target for the difficulty one only. -/
theorem target_exact_iff (normalized : Normalized d) (least : 1 ≤ toRat d) :
    Exact d ∧ Falls d ↔ d = ONE := by
  constructor
  · rintro ⟨exact_, -⟩
    by_contra other
    rw [Exact, getTarget_of_ne_one normalized least other] at exact_
    exact nomatch exact_
  · rintro rfl
    have one := toRat_one
    have itself : reciprocal ONE = ONE := by decide +kernel
    constructor
    · have cast (k : ℕ) : (2 ^ k * 1 : ℚ) = ((2 ^ k : ℕ) : ℚ) := by
        push_cast
        ring
      have full : beBytes 32 (2 ^ 256 - 1) = List.replicate 32 0xff := by decide
      rw [Exact, itself, one, cast 256, Nat.floor_natCast, min_eq_left (Nat.sub_le _ _), full]
      rfl
    · intro d' target target' normalized' above made made'
      have same : d' = ONE := by
        by_contra other
        rw [getTarget_of_ne_one normalized' (one ▸ above) other] at made'
        exact nomatch made'
      rw [same, made] at made'
      cases made'
      exact le_rfl


theorem one_exact : Exact ONE ∧ Falls ONE :=
  (target_exact_iff (d := ONE) normalized_half toRat_one.ge).2 rfl

/-- The difficulty two -/
def TWO : Flt1648 := ⟨2, 0x800000000000⟩

/-- The bytes for two are written behind the buffer. -/
theorem two_outside : Normalized TWO ∧ 1 ≤ toRat TWO ∧ ¬ Exact TWO := by
  have number : toRat TWO = dyad (2 ^ 47) (2 - 48) := rfl
  refine ⟨normalized_half, ?_, ?_⟩
  · rw [number, toRat_power]
    norm_num
  · have none_ : getTarget TWO = none := by decide +kernel
    rw [Exact, none_]
    exact nofun

end Targets

end Epilog.Pow.TargetBytes
