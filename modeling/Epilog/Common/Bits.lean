/- Module: Epilog/Common/Bits
   source: src/src/common/bits.hpp
   digest: Lowest and highest set bit by table lookup. -/

import Mathlib.Data.Nat.Find
import Mathlib.Data.Nat.Log
import Mathlib.Tactic.Push

set_option autoImplicit false

namespace Epilog.Common.Bits

def LSB_64_TABLE : List ℕ :=
  [63, 30, 3, 32, 59, 14, 11, 33, 60, 24, 50, 9, 55, 19, 21, 34, 61, 29, 2, 53, 51, 23, 41, 18,
   56, 28, 1, 43, 46, 27, 0, 35, 62, 31, 58, 4, 5, 49, 54, 6, 15, 52, 12, 40, 7, 42, 45, 16, 25,
   57, 48, 13, 10, 39, 8, 44, 20, 47, 38, 22, 17, 37, 36, 26]

def LSB_32_TABLE : List ℕ :=
  [0, 1, 28, 2, 29, 14, 24, 3, 30, 22, 20, 15, 25, 17, 4, 8, 31, 27, 13, 23, 21, 19, 16, 7, 26,
   12, 18, 6, 11, 5, 10, 9]

def bit_rev_table_256 : List ℕ :=
  [0, 128, 64, 192, 32, 160, 96, 224, 16, 144, 80, 208, 48, 176, 112, 240, 8, 136, 72, 200, 40,
   168, 104, 232, 24, 152, 88, 216, 56, 184, 120, 248, 4, 132, 68, 196, 36, 164, 100, 228, 20,
   148, 84, 212, 52, 180, 116, 244, 12, 140, 76, 204, 44, 172, 108, 236, 28, 156, 92, 220, 60,
   188, 124, 252, 2, 130, 66, 194, 34, 162, 98, 226, 18, 146, 82, 210, 50, 178, 114, 242, 10,
   138, 74, 202, 42, 170, 106, 234, 26, 154, 90, 218, 58, 186, 122, 250, 6, 134, 70, 198, 38,
   166, 102, 230, 22, 150, 86, 214, 54, 182, 118, 246, 14, 142, 78, 206, 46, 174, 110, 238, 30,
   158, 94, 222, 62, 190, 126, 254, 1, 129, 65, 193, 33, 161, 97, 225, 17, 145, 81, 209, 49, 177,
   113, 241, 9, 137, 73, 201, 41, 169, 105, 233, 25, 153, 89, 217, 57, 185, 121, 249, 5, 133, 69,
   197, 37, 165, 101, 229, 21, 149, 85, 213, 53, 181, 117, 245, 13, 141, 77, 205, 45, 173, 109,
   237, 29, 157, 93, 221, 61, 189, 125, 253, 3, 131, 67, 195, 35, 163, 99, 227, 19, 147, 83, 211,
   51, 179, 115, 243, 11, 139, 75, 203, 43, 171, 107, 235, 27, 155, 91, 219, 59, 187, 123, 251,
   7, 135, 71, 199, 39, 167, 103, 231, 23, 151, 87, 215, 55, 183, 119, 247, 15, 143, 79, 207, 47,
   175, 111, 239, 31, 159, 95, 223, 63, 191, 127, 255]

/-- `lsb(uint64_t)`: isolate the run up to the lowest set bit, fold it, multiply and look it up. -/
def lsb64 (b : BitVec 64) : ℕ :=
  let b := b ^^^ (b - 1)
  let folded := b.setWidth 32 ^^^ (b >>> 32).setWidth 32
  LSB_64_TABLE.getD ((folded * 0x78291acf#32) >>> 26).toNat 0

/-- `lsb(uint32_t)` -/
def lsb32 (b : BitVec 32) : ℕ :=
  LSB_32_TABLE.getD (((b &&& -b) * 0x077CB531#32) >>> 27).toNat 0

def bitrevByte (b : BitVec 8) : BitVec 8 := BitVec.ofNat 8 (bit_rev_table_256.getD b.toNat 0)

/-- `bitrev(uint32_t)` -/
def bitrev32 (b : BitVec 32) : BitVec 32 :=
  (bitrevByte (b.setWidth 8)).setWidth 32 <<< 24 |||
  (bitrevByte ((b >>> 8).setWidth 8)).setWidth 32 <<< 16 |||
  (bitrevByte ((b >>> 16).setWidth 8)).setWidth 32 <<< 8 |||
  (bitrevByte ((b >>> 24).setWidth 8)).setWidth 32

/-- `bitrev(uint64_t)` -/
def bitrev64 (b : BitVec 64) : BitVec 64 :=
  (bitrev32 ((b >>> 32).setWidth 32)).setWidth 64 |||
  (bitrev32 (b.setWidth 32)).setWidth 64 <<< 32

/-- `msb(uint32_t)` -/
def msb32 (b : BitVec 32) : ℕ := 31 - lsb32 (bitrev32 b)

/-- `msb(uint64_t)` -/
def msb64 (b : BitVec 64) : ℕ := 63 - lsb64 (bitrev64 b)

/-- `k` is the position of the lowest set bit. -/
def Lowest {w : ℕ} (b : BitVec w) (k : ℕ) : Prop :=
  b.getLsbD k = true ∧ ∀ j < k, b.getLsbD j = false

theorem Lowest.lt {w : ℕ} {b : BitVec w} {k : ℕ} (low : Lowest b k) : k < w := by
  by_contra high
  have := low.1
  rw [BitVec.getLsbD_of_ge _ _ (by omega)] at this
  exact Bool.false_ne_true this

theorem exists_lowest {w : ℕ} {b : BitVec w} (nonzero : b ≠ 0) : ∃ k, Lowest b k := by
  have some_bit : ∃ k, b.getLsbD k = true := by
    by_contra none_set
    push Not at none_set
    apply nonzero
    apply BitVec.eq_of_getLsbD_eq
    intro i _
    simpa using none_set i
  refine ⟨Nat.find some_bit, Nat.find_spec some_bit, fun j less => ?_⟩
  simpa using Nat.find_min some_bit less

private theorem exists_lt_iff {w : ℕ} {b : BitVec w} {k : ℕ} (low : Lowest b k) (j : ℕ) :
    (∃ i < j, b.getLsbD i = true) ↔ k < j := by
  constructor
  · rintro ⟨i, less, set⟩
    by_contra above
    have := low.2 i (by omega)
    simp [this] at set
  · intro less
    exact ⟨k, less, low.1⟩

private theorem and_neg_self {b : BitVec 32} {k : ℕ} (low : Lowest b k) :
    b &&& -b = BitVec.twoPow 32 k := by
  apply BitVec.eq_of_getLsbD_eq
  intro j hj
  simp only [BitVec.getLsbD_and, BitVec.getLsbD_neg, exists_lt_iff low, BitVec.getLsbD_twoPow]
  rcases Nat.lt_trichotomy j k with less | equal | less
  · have : ¬ k = j := by omega
    simp [low.2 j less, this]
  · subst equal
    simp [low.1, hj]
  · have : ¬ k = j := by omega
    cases b.getLsbD j <;> simp [less, hj, this]

private theorem lsb32_twoPow : ∀ k : Fin 32,
    LSB_32_TABLE.getD ((BitVec.twoPow 32 k.val * 0x077CB531#32) >>> 27).toNat 0 = k.val := by
  decide

theorem lsb32_eq {b : BitVec 32} {k : ℕ} (low : Lowest b k) : lsb32 b = k := by
  rw [lsb32, and_neg_self low]
  exact lsb32_twoPow ⟨k, low.lt⟩

theorem lsb32_lowest {b : BitVec 32} (nonzero : b ≠ 0) : Lowest b (lsb32 b) := by
  obtain ⟨k, low⟩ := exists_lowest nonzero
  rw [lsb32_eq low]
  exact low

private theorem xor_sub_one {b : BitVec 64} {k : ℕ} (low : Lowest b k) :
    b ^^^ (b - 1) = (BitVec.allOnes (k + 1)).setWidth 64 := by
  have negate : b - 1 = ~~~(-b) := by
    rw [BitVec.not_eq_neg_add, BitVec.neg_neg]
    rfl
  apply BitVec.eq_of_getLsbD_eq
  intro j hj
  rw [negate]
  simp only [BitVec.getLsbD_xor, BitVec.getLsbD_not, BitVec.getLsbD_neg, exists_lt_iff low,
    BitVec.getLsbD_setWidth, BitVec.getLsbD_allOnes]
  by_cases above : k < j
  · have : ¬ j < k + 1 := by omega
    cases b.getLsbD j <;> simp [above, hj, this]
  · have : j < k + 1 := by omega
    cases b.getLsbD j <;> simp [above, hj, this]

private theorem lsb64_allOnes : ∀ k : Fin 64,
    LSB_64_TABLE.getD (((((BitVec.allOnes (k.val + 1)).setWidth 64).setWidth 32 ^^^
      (((BitVec.allOnes (k.val + 1)).setWidth 64) >>> 32).setWidth 32) * 0x78291acf#32)
        >>> 26).toNat 0 = k.val := by
  decide

theorem lsb64_eq {b : BitVec 64} {k : ℕ} (low : Lowest b k) : lsb64 b = k := by
  simp only [lsb64, xor_sub_one low]
  exact lsb64_allOnes ⟨k, low.lt⟩

private theorem bit_rev_table_mirrors : bit_rev_table_256.zipIdx.all (fun e =>
    (List.range 8).all fun i => e.1.testBit i == e.2.testBit (7 - i)) = true := by
  decide +kernel

private theorem getLsbD_bitrevByte (b : BitVec 8) {i : ℕ} (hi : i < 8) :
    (bitrevByte b).getLsbD i = b.getLsbD (7 - i) := by
  have length : b.toNat < bit_rev_table_256.length := by
    have all : bit_rev_table_256.length = 2 ^ 8 := by decide +kernel
    rw [all]
    exact b.isLt
  have entry : (bit_rev_table_256[b.toNat], b.toNat) ∈ bit_rev_table_256.zipIdx := by
    rw [List.mem_zipIdx_iff_getElem?]
    exact List.getElem?_eq_getElem length
  have mirrors := List.all_eq_true.1 (List.all_eq_true.1 bit_rev_table_mirrors _ entry) i
    (List.mem_range.2 hi)
  rw [bitrevByte, BitVec.getLsbD_ofNat, List.getD_eq_getElem?_getD, List.getElem?_eq_getElem length,
    Option.getD_some, eq_of_beq mirrors, decide_eq_true hi, Bool.true_and, BitVec.getLsbD]

private theorem getLsbD_byte (b : BitVec 32) {s i j : ℕ} (inside : s ≤ i ∧ i < s + 8)
    (mirror : j = 24 - s + (7 - (i - s))) :
    ((bitrevByte ((b >>> (24 - s)).setWidth 8)).getLsbD (i - s)) = b.getLsbD j := by
  rw [getLsbD_bitrevByte _ (by omega), BitVec.getLsbD_setWidth, BitVec.getLsbD_ushiftRight,
    ← mirror]
  simp [show 7 - (i - s) < 8 by omega]

theorem getLsbD_bitrev32 (b : BitVec 32) {i : ℕ} (hi : i < 32) :
    (bitrev32 b).getLsbD i = b.getLsbD (31 - i) := by
  have outside : ∀ (x : BitVec 8) (j : ℕ), 8 ≤ j → x.getLsbD j = false :=
    fun x j le => BitVec.getLsbD_of_ge x j le
  simp only [bitrev32, BitVec.getLsbD_or, BitVec.getLsbD_shiftLeft, BitVec.getLsbD_setWidth, hi,
    decide_true, Bool.true_and]
  rcases (by omega : i < 8 ∨ (8 ≤ i ∧ i < 16) ∨ (16 ≤ i ∧ i < 24) ∨ 24 ≤ i) with
    h | ⟨l, h⟩ | ⟨l, h⟩ | l
  · have here := getLsbD_byte b (s := 0) (i := i) (j := 31 - i) (by omega) (by omega)
    simp only [Nat.sub_zero] at here
    simp only [here, h, show i < 16 by omega, show i < 24 by omega, decide_true, Bool.not_true,
      Bool.false_and, Bool.false_or]
  · have here := getLsbD_byte b (s := 8) (i := i) (j := 31 - i) (by omega) (by omega)
    simp only [Nat.reduceSub] at here
    simp [here, outside _ i l, h, show ¬ i < 8 by omega, show i < 24 by omega,
      show i - 8 < 32 by omega]
  · have here := getLsbD_byte b (s := 16) (i := i) (j := 31 - i) (by omega) (by omega)
    simp only [Nat.reduceSub] at here
    simp [here, outside _ i (by omega), outside _ (i - 8) (by omega), h, show ¬ i < 8 by omega,
      show ¬ i < 16 by omega, show i - 16 < 32 by omega]
  · have here := getLsbD_byte b (s := 24) (i := i) (j := 31 - i) (by omega) (by omega)
    simp only [Nat.sub_self, BitVec.ushiftRight_zero] at here
    simp [here, outside _ i (by omega), outside _ (i - 8) (by omega),
      outside _ (i - 16) (by omega), show ¬ i < 8 by omega, show ¬ i < 16 by omega,
      show ¬ i < 24 by omega, show i - 24 < 32 by omega]

theorem getLsbD_bitrev64 (b : BitVec 64) {i : ℕ} (hi : i < 64) :
    (bitrev64 b).getLsbD i = b.getLsbD (63 - i) := by
  simp only [bitrev64, BitVec.getLsbD_or, BitVec.getLsbD_shiftLeft, BitVec.getLsbD_setWidth]
  by_cases low : i < 32
  · rw [getLsbD_bitrev32 _ low, BitVec.getLsbD_setWidth, BitVec.getLsbD_ushiftRight]
    simp [low, hi, show 32 + (31 - i) = 63 - i by omega, show 31 - i < 32 by omega]
  · rw [getLsbD_bitrev32 (b.setWidth 32) (by omega : i - 32 < 32), BitVec.getLsbD_setWidth]
    simp [BitVec.getLsbD_of_ge (bitrev32 ((b >>> 32).setWidth 32)) i (by omega : 32 ≤ i), low, hi,
      show 31 - (i - 32) = 63 - i by omega, show 63 - i < 32 by omega, show i - 32 < 64 by omega]

theorem msb64_eq_log2 {b : BitVec 64} (nonzero : b ≠ 0) : msb64 b = b.toNat.log2 := by
  have pos : b.toNat ≠ 0 := fun zero => nonzero (BitVec.eq_of_toNat_eq (by simpa using zero))
  have small : b.toNat.log2 < 64 := (Nat.log2_lt pos).mpr b.isLt
  have low : Lowest (bitrev64 b) (63 - b.toNat.log2) := by
    constructor
    · rw [getLsbD_bitrev64 _ (by omega), show 63 - (63 - b.toNat.log2) = b.toNat.log2 by omega,
        BitVec.getLsbD]
      exact Nat.testBit_log2 pos
    · intro j less
      rw [getLsbD_bitrev64 _ (by omega), BitVec.getLsbD]
      exact Nat.testBit_lt_two_pow (lt_of_lt_of_le Nat.lt_log2_self
        (Nat.pow_le_pow_right (by omega) (by omega)))
  rw [msb64, lsb64_eq low]
  omega

theorem msb64_zero : msb64 0 = 0 := by
  decide

/-- The mask with every bit above `i` set. -/
def aboveMask (i : ℕ) : BitVec 32 := (BitVec.allOnes 32 <<< i) <<< 1

/-- The positions met by `while (m) { i = lsb(m); m &= (-1 << i) << 1; … }`. -/
def maskLoop : ℕ → BitVec 32 → List ℕ
  | 0, _ => []
  | fuel + 1, m =>
      if m = 0 then [] else lsb32 m :: maskLoop fuel (m &&& aboveMask (lsb32 m))

theorem getLsbD_aboveMask {i j : ℕ} (inside : j < 32) :
    (aboveMask i).getLsbD j = decide (i < j) := by
  simp only [aboveMask, BitVec.getLsbD_shiftLeft, BitVec.getLsbD_allOnes, inside]
  by_cases above : i < j <;> simp [above] <;> omega

/-- The mask with every bit below `i` set. -/
def belowMask (i : ℕ) : BitVec 32 := (BitVec.allOnes 32 >>> (31 - i)) >>> 1

theorem getLsbD_belowMask {i j : ℕ} (inside : i < 32) :
    (belowMask i).getLsbD j = decide (j < i) := by
  simp only [belowMask, BitVec.getLsbD_ushiftRight, BitVec.getLsbD_allOnes]
  congr 1
  apply propext
  omega

/-- `k` is the position of the highest set bit. -/
def Highest {w : ℕ} (b : BitVec w) (k : ℕ) : Prop :=
  b.getLsbD k = true ∧ ∀ j > k, b.getLsbD j = false

theorem msb32_highest {b : BitVec 32} (nonzero : b ≠ 0) : Highest b (msb32 b) := by
  have mirrored : bitrev32 b ≠ 0 := by
    intro zero
    apply nonzero
    apply BitVec.eq_of_getLsbD_eq
    intro j inside
    have bit := getLsbD_bitrev32 b (by omega : 31 - j < 32)
    rw [zero, show 31 - (31 - j) = j by omega] at bit
    rw [← bit]
    simp
  have low := lsb32_lowest mirrored
  have inside := low.lt
  have bit := getLsbD_bitrev32 b inside
  refine ⟨by rw [msb32, ← bit]; exact low.1, fun j above => ?_⟩
  by_cases small : j < 32
  · have := low.2 (31 - j) (by unfold msb32 at above; omega)
    rwa [getLsbD_bitrev32 b (by omega), show 31 - (31 - j) = j by omega] at this
  · exact BitVec.getLsbD_of_ge _ _ (by omega)

private theorem filter_range_lowest {m : BitVec 32} {k : ℕ} (low : Lowest m k) :
    (List.range 32).filter m.getLsbD =
      k :: (List.range 32).filter (m &&& aboveMask k).getLsbD := by
  have inside := low.lt
  have split : List.range 32 = List.range k ++ k :: List.range' (k + 1) (31 - k) := by
    rw [List.range_eq_range', List.range_eq_range', ← List.range'_succ, show 31 - k + 1 = 32 - k by omega]
    rw [show List.range' k (32 - k) = List.range' (0 + 1 * k) (32 - k) by simp, List.range'_append]
    congr 1
    omega
  rw [split, List.filter_append, List.filter_append, List.filter_cons, List.filter_cons]
  have none_below : (List.range k).filter m.getLsbD = [] := by
    rw [List.filter_eq_nil_iff]
    intro j member
    simp [low.2 j (List.mem_range.mp member)]
  have none_kept : (List.range k).filter (m &&& aboveMask k).getLsbD = [] := by
    rw [List.filter_eq_nil_iff]
    intro j member
    simp [low.2 j (List.mem_range.mp member)]
  have above : (List.range' (k + 1) (31 - k)).filter (m &&& aboveMask k).getLsbD =
      (List.range' (k + 1) (31 - k)).filter m.getLsbD := by
    apply List.filter_congr
    intro j member
    rw [List.mem_range'_1] at member
    rw [BitVec.getLsbD_and, getLsbD_aboveMask (by omega)]
    simp
    omega
  rw [none_below, none_kept, above]
  simp [low.1, BitVec.getLsbD_and, getLsbD_aboveMask inside]

theorem maskLoop_eq (m : BitVec 32) : maskLoop 32 m = (List.range 32).filter m.getLsbD := by
  have general : ∀ fuel m, (∀ j < 32 - fuel, m.getLsbD j = false) →
      maskLoop fuel m = (List.range 32).filter m.getLsbD := by
    intro fuel
    induction fuel with
    | zero =>
        intro m clear
        symm
        rw [maskLoop, List.filter_eq_nil_iff]
        intro j member
        simp [clear j (by simpa using member)]
    | succ fuel ih =>
        intro m clear
        rw [maskLoop]
        split
        · rename_i zero
          symm
          rw [List.filter_eq_nil_iff]
          simp [zero]
        · rename_i nonzero
          have low := lsb32_lowest nonzero
          have high : 32 - (fuel + 1) ≤ lsb32 m := by
            by_contra below
            have := clear (lsb32 m) (by omega)
            rw [low.1] at this
            exact Bool.false_ne_true this.symm
          rw [filter_range_lowest low, ih]
          intro j less
          rw [BitVec.getLsbD_and, getLsbD_aboveMask (by omega)]
          have : ¬ lsb32 m < j := by omega
          simp [this]
  exact general 32 m (by simp)

def writeUint32 (v : BitVec 32) : List UInt8 :=
  [0, 8, 16, 24].map fun k => UInt8.ofBitVec ((v >>> k).setWidth 8)

def writeUint64 (v : BitVec 64) : List UInt8 :=
  [0, 8, 16, 24, 32, 40, 48, 56].map fun k => UInt8.ofBitVec ((v >>> k).setWidth 8)

def readUint64 (buf : List UInt8) : BitVec 64 :=
  [0, 1, 2, 3, 4, 5, 6, 7].foldl
    (fun v i => v ||| ((buf.getD i 0).toBitVec.setWidth 64 <<< (8 * i))) 0

private theorem getLsbD_bytes {w : ℕ} (byte : ℕ → BitVec 8) (n : ℕ) {i : ℕ} (inside : i < w) :
    ((List.range n).foldl (fun (v : BitVec w) k => v ||| ((byte k).setWidth w <<< (8 * k))) 0
      ).getLsbD i = (decide (i < 8 * n) && (byte (i / 8)).getLsbD (i % 8)) := by
  induction n with
  | zero => simp
  | succ n ih =>
    rw [List.range_succ, List.foldl_append, List.foldl_cons, List.foldl_nil, BitVec.getLsbD_or, ih,
      BitVec.getLsbD_shiftLeft, BitVec.getLsbD_setWidth]
    rcases (by omega : i < 8 * n ∨ 8 * n ≤ i ∧ i < 8 * n + 8 ∨ 8 * n + 8 ≤ i) with
      below | ⟨low, high⟩ | above
    · simp [below, show i < 8 * (n + 1) by omega]
    · have here : i / 8 = n ∧ i % 8 = i - 8 * n := by omega
      simp [here.1, here.2, inside, show ¬ i < 8 * n by omega, show i < 8 * (n + 1) by omega,
        show i - 8 * n < w by omega]
    · have outside : (byte n).getLsbD (i - 8 * n) = false := BitVec.getLsbD_of_ge _ _ (by omega)
      simp [outside, show ¬ i < 8 * n by omega, show ¬ i < 8 * (n + 1) by omega]

private theorem getLsbD_shifted {w : ℕ} (v : BitVec w) (i : ℕ) :
    ((v >>> (8 * (i / 8))).setWidth 8).getLsbD (i % 8) = v.getLsbD i := by
  have whole : 8 * (i / 8) + i % 8 = i := Nat.div_add_mod i 8
  rw [BitVec.getLsbD_setWidth, BitVec.getLsbD_ushiftRight, whole,
    decide_eq_true (Nat.mod_lt i (by decide)), Bool.true_and]

private theorem getLsbD_written {w n i : ℕ} (v : BitVec w) (rest : List UInt8)
    (inside : i < 8 * n) :
    ((((List.range n).map fun k => UInt8.ofBitVec ((v >>> (8 * k)).setWidth 8)) ++ rest).getD
      (i / 8) 0).toBitVec.getLsbD (i % 8) = v.getLsbD i := by
  have small : i / 8 < n := by omega
  have length : i / 8 < ((List.range n).map fun k =>
      UInt8.ofBitVec ((v >>> (8 * k)).setWidth 8)).length := by
    rwa [List.length_map, List.length_range]
  rw [List.getD_eq_getElem?_getD, List.getElem?_append_left length, List.getElem?_map,
    List.getElem?_range small]
  exact getLsbD_shifted v i

theorem readUint64_append (v : BitVec 64) (rest : List UInt8) :
    readUint64 (writeUint64 v ++ rest) = v := by
  apply BitVec.eq_of_getLsbD_eq
  intro i inside
  have written := getLsbD_written (n := 8) v rest inside
  have read := getLsbD_bytes (fun k => ((writeUint64 v ++ rest).getD k 0).toBitVec) 8 inside
  rw [decide_eq_true (show i < 8 * 8 from inside), Bool.true_and] at read
  exact read.trans written

@[simp] theorem readUint64_writeUint64 (v : BitVec 64) : readUint64 (writeUint64 v) = v := by
  have appended := readUint64_append v []
  rwa [List.append_nil] at appended

@[simp] theorem length_writeUint64 (v : BitVec 64) : (writeUint64 v).length = 8 := rfl

def readUint32 (buf : List UInt8) : BitVec 32 :=
  [0, 1, 2, 3].foldl (fun v i => v ||| ((buf.getD i 0).toBitVec.setWidth 32 <<< (8 * i))) 0

theorem readUint32_append (v : BitVec 32) (rest : List UInt8) :
    readUint32 (writeUint32 v ++ rest) = v := by
  apply BitVec.eq_of_getLsbD_eq
  intro i inside
  have written := getLsbD_written (n := 4) v rest inside
  have read := getLsbD_bytes (fun k => ((writeUint32 v ++ rest).getD k 0).toBitVec) 4 inside
  rw [decide_eq_true (show i < 8 * 4 from inside), Bool.true_and] at read
  exact read.trans written

@[simp] theorem length_writeUint32 (v : BitVec 32) : (writeUint32 v).length = 4 := rfl

end Epilog.Common.Bits
