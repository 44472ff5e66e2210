/- Module: Epilog/Pow/Target
   source: src/src/pow/pow_verifier.hpp (pow_difficulty), src/src/pow/flt.hpp, src/src/pow/fxp.hpp
   digest: The target bytes of a difficulty, and the order of 32 bytes as numbers. -/

import Epilog.Global.MetaCodec
import Mathlib.Tactic.Ring

set_option autoImplicit false

namespace Epilog.Pow.Target

open Epilog.Global.Chains Epilog.Global.MetaTerms Epilog.Global.MetaCodec

section FixedPoint

/-- `msb`, which is -1 for zero -/
def msb (v : UInt64) : ℤ := if v = 0 then -1 else (Nat.log2 v.toNat : ℤ)

def eps (positive : Bool) : UInt64 := if positive then 1 else 0xffffffffffffffff

def maxOrMin (positive : Bool) : UInt64 := if positive then FXP_MAX else FXP_MIN

def fxpAdd (x y : UInt64) : UInt64 :=
  let r := x + y
  if isNegative x = isNegative y ∧ isNegative r ≠ isNegative x then maxOrMin (!isNegative x) else r

def fxpSub (x y : UInt64) : UInt64 :=
  let r := x - y
  if isNegative x ≠ isNegative y ∧ isNegative r ≠ isNegative x then maxOrMin (!isNegative x) else r

/-- The absolute value as the source takes it: `~data_ + 1` for a negative number -/
def magnitude (v : UInt64) : UInt64 := if isNegative v then ~~~v + 1 else v

/-- `fxp1648::operator *`, from four products of 32 bits -/
def fxpMul (x y : UInt64) : UInt64 :=
  if x = 0 ∨ y = 0 then 0
  else
    let rNeg : Bool := isNegative x != isNegative y
    let a := magnitude x
    let b := magnitude y
    let ah := a >>> 32
    let al := a &&& 0xffffffff
    let bh := b >>> 32
    let bl := b &&& 0xffffffff
    let p0 := al * bl
    let p1 := al * bh
    let p2 := ah * bl
    let p3 := ah * bh
    let carry := ((p0 >>> 32) + (p1 &&& 0xffffffff) + (p2 &&& 0xffffffff)) >>> 32
    let lo := p0 + (p1 <<< 32) + (p2 <<< 32)
    let hi := p3 + (p2 >>> 32) + (p1 >>> 32) + carry
    let p := (hi <<< 16) ||| (lo >>> 48)
    if p >>> 63 ≠ 0 then maxOrMin (!rNeg)
    else if p = 0 then eps (!rNeg)
    else if rNeg then ~~~p + 1
    else p

/-- A shift by a signed count, to the left when it is positive; the count stays below 64. -/
def shift (v : UInt64) (count : ℤ) : UInt64 :=
  if count < 0 then v >>> UInt64.ofNat count.natAbs else v <<< UInt64.ofNat count.natAbs

/-- One round of Newton's method: `x := x + x * (1 - dp * x)` -/
def newton (dp x : UInt64) : UInt64 := fxpAdd x (fxpMul x (fxpSub 0x1000000000000 (fxpMul dp x)))

/-- `fxp1648::reciprocal` -/
def fxpReciprocal (data : UInt64) : UInt64 :=
  let isNeg := isNegative data
  let d := magnitude data
  let scale2 := 47 - msb d
  let dp := shift d scale2
  let x := (newton dp)^[6] (fxpSub 0x2d2d2d2d2d2d2 (fxpMul 0x1e1e1e1e1e1e1 dp))
  if 0 < scale2 ∧ 63 ≤ msb x + scale2 then maxOrMin (!isNeg)
  else
    let r := shift x scale2
    if r = 0 then eps (!isNeg)
    else if isNeg then ~~~r + 1
    else r

/-- `flt1648::reciprocal` -/
def reciprocal (d : Flt1648) : Flt1648 := flt1648 (-d.exponent) (fxpReciprocal d.mantissa)

end FixedPoint

section Bits

/-- The loop of `to_integer`: it writes a byte while bits are left, and `none` is a write after the
end of the buffer, of which `n` bytes are left. -/
def writeBits : ℕ → UInt64 → Option Bytes
  | 0, bits => if bits = 0 then some [] else none
  | n + 1, bits =>
    if bits = 0 then some (List.replicate (n + 1) 0)
    else (writeBits n (bits <<< 8)).map ((bits >>> 40).toUInt8 :: ·)

/-- `flt1648::to_integer` into 32 bytes; `none` is a failed assertion or a write outside of them. -/
def toInteger (d : Flt1648) : Option Bytes :=
  if d.exponent < 0 ∨ 256 < d.exponent then none
  else
    let offset := d.exponent.toNatClampNeg
    let bitsOffset := offset % 8
    let byteOffset := offset / 8
    -- an exponent of 256 starts at the byte before the first
    if 31 < byteOffset then none
    else
      let bitsMask : UInt8 := ~~~ UInt8.ofNat (2 ^ (8 - bitsOffset) - 1)
      let bitsOut := ((d.mantissa >>> 40) &&& bitsMask.toUInt64) >>> UInt64.ofNat (8 - bitsOffset)
      (writeBits byteOffset (d.mantissa <<< UInt64.ofNat bitsOffset)).map fun rest =>
        List.replicate (31 - byteOffset) 0 ++ bitsOut.toUInt8 :: rest

/-- `flt1648 ONE(1)` -/
def ONE : Flt1648 := flt1648 48 1

def getTarget (difficulty : Flt1648) : Option Bytes :=
  if difficulty = ONE then some (List.replicate 32 0xff)
  else toInteger (reciprocal difficulty)

theorem length_writeBits {n : ℕ} {bits : UInt64} {bytes : Bytes}
    (written : writeBits n bits = some bytes) : bytes.length = n := by
  induction n generalizing bits bytes with
  | zero =>
    rw [writeBits] at written
    split at written
    · cases written
      rfl
    · exact nomatch written
  | succ n ih =>
    rw [writeBits] at written
    split at written
    · cases written
      exact List.length_replicate
    · obtain ⟨rest, there, rfl⟩ := Option.map_eq_some_iff.1 written
      rw [List.length_cons, ih there]

theorem length_getTarget {difficulty : Flt1648} {target : Bytes}
    (made : getTarget difficulty = some target) : target.length = 32 := by
  unfold getTarget at made
  split at made
  · cases made
    rfl
  unfold toInteger at made
  split at made
  · exact nomatch made
  dsimp only at made
  split at made
  · exact nomatch made
  rename_i inside
  obtain ⟨rest, written, rfl⟩ := Option.map_eq_some_iff.1 made
  rw [List.length_append, List.length_replicate, List.length_cons, length_writeBits written]
  omega

end Bits

section Order

/-- `memcmp` of two buffers of the same length -/
def memcmp : Bytes → Bytes → Ordering
  | a :: as, b :: bs => (compare a.toNat b.toNat).then (memcmp as bs)
  | _, _ => .eq

theorem beNat_cons (b : UInt8) (bytes : Bytes) :
    beNat (b :: bytes) = b.toNat * 256 ^ bytes.length + beNat bytes := by
  induction bytes using List.reverseRecOn with
  | nil => simp [beNat]
  | append_singleton bytes last ih =>
    rw [← List.cons_append, beNat_append, beNat_append, ih, List.length_append,
      List.length_singleton, pow_succ]
    ring

theorem beNat_lt (bytes : Bytes) : beNat bytes < 256 ^ bytes.length := by
  induction bytes with
  | nil => exact Nat.one_pos
  | cons b bytes ih =>
    have small : b.toNat + 1 ≤ 256 := b.toNat_lt
    have most := Nat.mul_le_mul_right (256 ^ bytes.length) small
    rw [beNat_cons, List.length_cons, pow_succ']
    rw [Nat.add_mul, Nat.one_mul] at most
    omega

theorem memcmp_eq {as bs : Bytes} (same : as.length = bs.length) :
    memcmp as bs = compare (beNat as) (beNat bs) := by
  induction as generalizing bs with
  | nil =>
    rw [List.eq_nil_of_length_eq_zero same.symm]
    rfl
  | cons a as ih =>
    obtain ⟨b, bs, rfl⟩ := List.exists_cons_of_length_eq_add_one same.symm
    have rest : as.length = bs.length := Nat.succ.inj same
    have lowA := beNat_lt as
    have lowB := beNat_lt bs
    rw [memcmp, ih rest, beNat_cons, beNat_cons, ← rest]
    rw [← rest] at lowB
    rcases Nat.lt_trichotomy a.toNat b.toNat with less | equal | more
    · have first : compare a.toNat b.toNat = .lt := compare_lt_iff_lt.2 less
      have step := Nat.mul_le_mul_right (256 ^ as.length) (Nat.succ_le_of_lt less)
      rw [Nat.succ_mul] at step
      rw [first]
      exact (compare_lt_iff_lt.2 (by omega)).symm
    · rw [compare_eq_iff_eq.2 equal, equal, Nat.compare_eq_ite_lt, Nat.compare_eq_ite_lt]
      simp only [Ordering.then, Nat.add_lt_add_iff_left]
    · have first : compare a.toNat b.toNat = .gt := compare_gt_iff_gt.2 more
      have step := Nat.mul_le_mul_right (256 ^ as.length) (Nat.succ_le_of_lt more)
      rw [Nat.succ_mul] at step
      rw [first]
      exact (compare_gt_iff_gt.2 (by omega)).symm

end Order

end Epilog.Pow.Target
