/- Module: Epilog/Lib/VectorRegisters
   source: none (library)
   digest: Vector registers of two and four words, their instructions, and rotations by shuffles. -/

import Mathlib.Data.Nat.Notation
import Mathlib.Tactic.IntervalCases

set_option autoImplicit false

namespace Epilog.Lib.VectorRegisters

abbrev Word := BitVec 64

section Parts

/-- The bits that a function gives -/
def ofBits (f : ℕ → Bool) : (w : ℕ) → BitVec w
  | 0 => 0#0
  | w + 1 => BitVec.cons (f w) (ofBits f w)

theorem getLsbD_ofBits (f : ℕ → Bool) {w i : ℕ} (inside : i < w) :
    (ofBits f w).getLsbD i = f i := by
  induction w with
  | zero => omega
  | succ w ih =>
    rw [ofBits, BitVec.getLsbD_cons]
    by_cases top : i = w
    · rw [if_pos top, top]
    · rw [if_neg top, ih (by omega)]

/-- The part of a word with the number `k`, the parts being `w` bits wide -/
def part (w : ℕ) (x : Word) (k : ℕ) : BitVec w := x.extractLsb' (w * k) w

def join (w : ℕ) (f : ℕ → BitVec w) : Word := ofBits (fun i => (f (i / w)).getLsbD (i % w)) 64

theorem getLsbD_join (w : ℕ) (f : ℕ → BitVec w) {i : ℕ} (inside : i < 64) :
    (join w f).getLsbD i = (f (i / w)).getLsbD (i % w) := getLsbD_ofBits _ inside

theorem getLsbD_part {w : ℕ} (x : Word) (k : ℕ) {i : ℕ} (inside : i < w) :
    (part w x k).getLsbD i = x.getLsbD (w * k + i) := by
  rw [part, BitVec.getLsbD_extractLsb']
  simp [inside]

end Parts

section Registers

/-- A register of 128 bits -/
@[ext] structure M128 where
  lo : Word
  hi : Word
  deriving DecidableEq

/-- A register of 256 bits, of which the instructions here treat the halves apart -/
@[ext] structure M256 where
  lo : M128
  hi : M128
  deriving DecidableEq

namespace M128

/-- `_mm_set_epi64x`, `vcombine_s64` of the operands in the other order -/
def set (hi lo : Word) : M128 := ⟨lo, hi⟩

def set1 (x : Word) : M128 := ⟨x, x⟩

def lanewise (f : Word → Word → Word) (x y : M128) : M128 := ⟨f x.lo y.lo, f x.hi y.hi⟩

def map (f : Word → Word) (x : M128) : M128 := ⟨f x.lo, f x.hi⟩

/-- `_mm_add_epi64`, `vaddq_s64` -/
def add : M128 → M128 → M128 := lanewise (· + ·)

/-- `_mm_xor_si128`, `veorq_s32` -/
def xor : M128 → M128 → M128 := lanewise (· ^^^ ·)

/-- `_mm_or_si128`, `vorrq_s32` -/
def or : M128 → M128 → M128 := lanewise (· ||| ·)

/-- `_mm_slli_epi64` -/
def slli (x : M128) (count : ℕ) : M128 := x.map (· <<< count)

/-- `_mm_srli_epi64` -/
def srli (x : M128) (count : ℕ) : M128 := x.map (· >>> count)

/-- `vshlq_s64` with one count for both lanes: a count below zero shifts to the right. -/
def vshlqS64 (x : M128) (count : ℤ) : M128 :=
  if 0 ≤ count then x.map (· <<< count.toNat) else x.map fun w => w.sshiftRight (-count).toNat

def vshlqU64 (x : M128) (count : ℤ) : M128 :=
  if 0 ≤ count then x.map (· <<< count.toNat) else x.map (· >>> (-count).toNat)

/-- The byte with the number `k`, of sixteen -/
def byte (x : M128) (k : ℕ) : BitVec 8 := part 8 (if k < 8 then x.lo else x.hi) (k % 8)

/-- The dword with the number `k`, of four -/
def dword (x : M128) (k : ℕ) : BitVec 32 := part 32 (if k < 2 then x.lo else x.hi) (k % 2)

/-- `_mm_shuffle_epi8` -/
def shuffleEpi8 (x mask : M128) : M128 :=
  let pick := fun k => if (mask.byte k).getLsbD 7 then 0 else x.byte ((mask.byte k).toNat % 16)
  ⟨join 8 pick, join 8 fun k => pick (8 + k)⟩

def mmShuffle (z y x w : ℕ) : ℕ := z <<< 6 ||| y <<< 4 ||| x <<< 2 ||| w

/-- The number that a control gives for place `k` -/
def select (control k : ℕ) : ℕ := control >>> (2 * k) % 4

/-- `_mm_shuffle_epi32` -/
def shuffleEpi32 (x : M128) (control : ℕ) : M128 :=
  let pick := fun k => x.dword (select control k)
  ⟨join 32 pick, join 32 fun k => pick (2 + k)⟩

/-- `_mm_shufflelo_epi16` -/
def shuffleloEpi16 (x : M128) (control : ℕ) : M128 :=
  ⟨join 16 fun k => part 16 x.lo (select control k), x.hi⟩

/-- `_mm_shufflehi_epi16` -/
def shufflehiEpi16 (x : M128) (control : ℕ) : M128 :=
  ⟨x.lo, join 16 fun k => part 16 x.hi (select control k)⟩

/-- The words of a register, from the lowest -/
def words (x : M128) : List Word := [x.lo, x.hi]

end M128

namespace M256

/-- `_mm256_set_epi64x` -/
def set (d c b a : Word) : M256 := ⟨M128.set b a, M128.set d c⟩

def set1 (x : Word) : M256 := ⟨M128.set1 x, M128.set1 x⟩

def halves (f : M128 → M128 → M128) (x y : M256) : M256 := ⟨f x.lo y.lo, f x.hi y.hi⟩

def map (f : M128 → M128) (x : M256) : M256 := ⟨f x.lo, f x.hi⟩

/-- `_mm256_add_epi64` -/
def add : M256 → M256 → M256 := halves M128.add

/-- `_mm256_xor_si256` -/
def xor : M256 → M256 → M256 := halves M128.xor

/-- `_mm256_or_si256` -/
def or : M256 → M256 → M256 := halves M128.or

/-- `_mm256_slli_epi64` -/
def slli (x : M256) (count : ℕ) : M256 := x.map fun h => h.slli count

/-- `_mm256_srli_epi64` -/
def srli (x : M256) (count : ℕ) : M256 := x.map fun h => h.srli count

/-- `_mm256_shuffle_epi8`, within each half -/
def shuffleEpi8 : M256 → M256 → M256 := halves M128.shuffleEpi8

/-- `_mm256_shuffle_epi32`, within each half -/
def shuffleEpi32 (x : M256) (control : ℕ) : M256 := x.map fun h => h.shuffleEpi32 control

def words (x : M256) : List Word := x.lo.words ++ x.hi.words

end M256

end Registers

section Rotations

/-- A rotation to the left, by two shifts -/
def rotl (x : Word) (b : ℕ) : Word := (x <<< b) ||| (x >>> (64 - b))

theorem getLsbD_rotl (x : Word) {b i : ℕ} (few : b ≤ 64) (inside : i < 64) :
    (rotl x b).getLsbD i = x.getLsbD (if i < b then i + (64 - b) else i - b) := by
  rw [rotl, BitVec.getLsbD_or, BitVec.getLsbD_shiftLeft, BitVec.getLsbD_ushiftRight]
  by_cases low : i < b
  · rw [if_pos low, Nat.add_comm (64 - b) i]
    simp [low]
  · rw [if_neg low, BitVec.getLsbD_of_ge x (64 - b + i) (by omega)]
    simp [low, inside]

/-- Parts that are moved up in a circle are a rotation. -/
theorem join_rotl {w n m : ℕ} (x : Word) (positive : 0 < w) (whole : w * n = 64) (few : m ≤ n)
    {f : ℕ → BitVec w} (moved : ∀ k < n, f k = part w x (if k < m then k + (n - m) else k - m)) :
    join w f = rotl x (w * m) := by
  apply BitVec.eq_of_getLsbD_eq
  intro i inside
  have k : i / w < n := by
    rw [Nat.div_lt_iff_lt_mul positive, Nat.mul_comm, whole]
    exact inside
  have bound : w * m ≤ 64 := by
    rw [← whole]
    exact Nat.mul_le_mul_left w few
  rw [getLsbD_join w f inside, moved _ k, getLsbD_part _ _ (Nat.mod_lt i positive),
    getLsbD_rotl x bound inside]
  congr 1
  have place := Nat.div_add_mod i w
  have less := Nat.mod_lt i positive
  have below : i / w < m ↔ i < w * m := by
    rw [Nat.div_lt_iff_lt_mul positive, Nat.mul_comm]
  by_cases low : i / w < m
  · rw [if_pos low, if_pos (below.mp low), Nat.mul_add, Nat.mul_sub, whole]
    omega
  · rw [if_neg low, if_neg (fun less => low (below.mpr less)), Nat.mul_sub]
    have under : w * m ≤ w * (i / w) := Nat.mul_le_mul_left w (by omega)
    omega

end Rotations

section Shifts

/-- The two shifts, one with a count below zero -/
theorem vshlq_rotl (x : M128) {b : ℕ} (few : b < 64) :
    (x.vshlqS64 b).or (x.vshlqU64 (b - 64)) = x.map (rotl · b) := by
  have back : ¬ (0 : ℤ) ≤ b - 64 := by omega
  have count : (-((b : ℤ) - 64)).toNat = 64 - b := by omega
  rw [M128.vshlqS64, if_pos (Int.natCast_nonneg b), M128.vshlqU64, if_neg back, count,
    Int.toNat_natCast]
  rfl

end Shifts

section Shuffles

/-- Words of sixteen bits moved up by one place, in both halves -/
theorem shuffleEpi16_rotl (x : M128) :
    (x.shuffleloEpi16 (M128.mmShuffle 2 1 0 3)).shufflehiEpi16 (M128.mmShuffle 2 1 0 3) =
      x.map (rotl · 16) := by
  have control : ∀ k < 4, M128.select (M128.mmShuffle 2 1 0 3) k =
      if k < 1 then k + (4 - 1) else k - 1 := by decide
  have moved (y : Word) : join 16 (fun k => part 16 y (M128.select (M128.mmShuffle 2 1 0 3) k)) =
      rotl y 16 := by
    apply join_rotl (n := 4) (m := 1) y (by decide) rfl (by decide)
    intro k less
    rw [control k less]
  rw [M128.shuffleloEpi16, M128.shufflehiEpi16, M128.map]
  dsimp only
  rw [moved, moved]

/-- Double words that change places, in both halves -/
theorem shuffleEpi32_rotl (x : M128) :
    x.shuffleEpi32 (M128.mmShuffle 2 3 0 1) = x.map (rotl · 32) := by
  have lower : ∀ k < 2, M128.select (M128.mmShuffle 2 3 0 1) k =
      if k < 1 then k + (2 - 1) else k - 1 := by decide
  have upper : ∀ k < 2, M128.select (M128.mmShuffle 2 3 0 1) (2 + k) =
      2 + if k < 1 then k + (2 - 1) else k - 1 := by decide
  have place : ∀ k < 2, (if k < 1 then k + (2 - 1) else k - 1) < 2 := by decide
  have first : join 32 (fun k => x.dword (M128.select (M128.mmShuffle 2 3 0 1) k)) =
      rotl x.lo 32 := by
    apply join_rotl (n := 2) (m := 1) x.lo (by decide) rfl (by decide)
    intro k less
    rw [lower k less, M128.dword, if_pos (place k less), Nat.mod_eq_of_lt (place k less)]
  have second : join 32 (fun k => x.dword (M128.select (M128.mmShuffle 2 3 0 1) (2 + k))) =
      rotl x.hi 32 := by
    apply join_rotl (n := 2) (m := 1) x.hi (by decide) rfl (by decide)
    intro k less
    rw [upper k less, M128.dword, if_neg (by omega), Nat.add_mod_left,
      Nat.mod_eq_of_lt (place k less)]
  rw [M128.shuffleEpi32, M128.map]
  dsimp only
  rw [first, second]

/-- The mask that moves bytes up by two places, in both halves -/
def upTwo : M128 := M128.set 0x0D0C0B0A09080F0E 0x0504030201000706

theorem shuffleEpi8_rotl (x : M128) : x.shuffleEpi8 upTwo = x.map (rotl · 16) := by
  have lower : ∀ k < 8, (upTwo.byte k).getLsbD 7 = false ∧
      (upTwo.byte k).toNat % 16 = if k < 2 then k + (8 - 2) else k - 2 := by decide
  have upper : ∀ k < 8, (upTwo.byte (8 + k)).getLsbD 7 = false ∧
      (upTwo.byte (8 + k)).toNat % 16 = 8 + if k < 2 then k + (8 - 2) else k - 2 := by decide
  have place : ∀ k < 8, (if k < 2 then k + (8 - 2) else k - 2) < 8 := by decide
  have first : join 8 (fun k => if (upTwo.byte k).getLsbD 7 then 0 else
      x.byte ((upTwo.byte k).toNat % 16)) = rotl x.lo 16 := by
    apply join_rotl (n := 8) (m := 2) x.lo (by decide) rfl (by decide)
    intro k less
    obtain ⟨kept, source⟩ := lower k less
    rw [kept, source, if_neg Bool.false_ne_true, M128.byte, if_pos (place k less),
      Nat.mod_eq_of_lt (place k less)]
  have second : join 8 (fun k => if (upTwo.byte (8 + k)).getLsbD 7 then 0 else
      x.byte ((upTwo.byte (8 + k)).toNat % 16)) = rotl x.hi 16 := by
    apply join_rotl (n := 8) (m := 2) x.hi (by decide) rfl (by decide)
    intro k less
    obtain ⟨kept, source⟩ := upper k less
    rw [kept, source, if_neg Bool.false_ne_true, M128.byte, if_neg (by omega), Nat.add_mod_left,
      Nat.mod_eq_of_lt (place k less)]
  rw [M128.shuffleEpi8, M128.map]
  dsimp only
  rw [first, second]

end Shuffles

end Epilog.Lib.VectorRegisters
