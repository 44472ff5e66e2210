/- Module: Epilog/Pow/Siphash
   source: src/src/pow/siphash.hpp
   digest: The scalar and the vector code of siphash give the same words, in every range. -/

import Epilog.Lib.VectorRegisters
import Epilog.Pow.Verifier

set_option autoImplicit false

namespace Epilog.Pow.Siphash

open Epilog.Lib.VectorRegisters
open Epilog.Pow.Verifier (SiphashKeys)

section Scalar

/-- The variables `v0` to `v3` of the rounds -/
@[ext] structure State (R : Type) where
  v0 : R
  v1 : R
  v2 : R
  v3 : R

def sipround (v : State Word) : State Word :=
  let v0 := v.v0 + v.v1
  let v2 := v.v2 + v.v3
  let v1 := rotl v.v1 13
  let v3 := rotl v.v3 16
  let v1 := v1 ^^^ v0
  let v3 := v3 ^^^ v2
  let v0 := rotl v0 32
  let v2 := v2 + v1
  let v0 := v0 + v3
  let v1 := rotl v1 17
  let v3 := rotl v3 21
  let v1 := v1 ^^^ v2
  let v3 := v3 ^^^ v0
  let v2 := rotl v2 32
  ⟨v0, v1, v2, v3⟩

def siphash1 (keys : SiphashKeys) (nonce : Word) : Word :=
  let v : State Word := ⟨keys.k0.toBitVec, keys.k1.toBitVec, keys.k2.toBitVec,
    keys.k3.toBitVec ^^^ nonce⟩
  let v := sipround (sipround v)
  let v := { v with v0 := v.v0 ^^^ nonce, v2 := v.v2 ^^^ 0xff }
  let v := sipround (sipround (sipround (sipround v)))
  (v.v0 ^^^ v.v1) ^^^ (v.v2 ^^^ v.v3)

end Scalar

section Vector

/-- The macros of an instruction set, on its registers -/
structure SipOps (R : Type) where
  add : R → R → R
  xor : R → R → R
  rot13 : R → R
  rot16 : R → R
  rot17 : R → R
  rot21 : R → R
  rot32 : R → R

/-- The shifted halves of a rotation with `_mm256_slli_epi64` and `_mm256_srli_epi64` -/
def avx2Rot (left right : ℕ) (x : M256) : M256 := (x.slli left).or (x.srli right)

def sipRotate16 : M256 :=
  M256.set 0x0D0C0B0A09080F0E 0x0504030201000706 0x0D0C0B0A09080F0E 0x0504030201000706

/-- The macros under `__AVX2__` -/
def avx2 : SipOps M256 where
  add := M256.add
  xor := M256.xor
  rot13 := avx2Rot 13 51
  rot16 := fun x => x.shuffleEpi8 sipRotate16
  rot17 := avx2Rot 17 47
  rot21 := avx2Rot 21 43
  rot32 := fun x => x.shuffleEpi32 (M128.mmShuffle 2 3 0 1)

def sse2Rot (left right : ℕ) (x : M128) : M128 := (x.slli left).or (x.srli right)

/-- The macros under `__SSE2__` -/
def sse2 : SipOps M128 where
  add := M128.add
  xor := M128.xor
  rot13 := sse2Rot 13 51
  rot16 := fun x =>
    (x.shuffleloEpi16 (M128.mmShuffle 2 1 0 3)).shufflehiEpi16 (M128.mmShuffle 2 1 0 3)
  rot17 := sse2Rot 17 47
  rot21 := sse2Rot 21 43
  rot32 := fun x => x.shuffleEpi32 (M128.mmShuffle 2 3 0 1)

/-- A rotation with `vshlq_s64` and, by a count below zero, `vshlq_u64` -/
def neonRot (left right : ℤ) (x : M128) : M128 := (x.vshlqS64 left).or (x.vshlqU64 right)

/-- The macros under `__aarch64__` -/
def neon : SipOps M128 where
  add := M128.add
  xor := M128.xor
  rot13 := neonRot 13 (-51)
  rot16 := neonRot 16 (-48)
  rot17 := neonRot 17 (-47)
  rot21 := neonRot 21 (-43)
  rot32 := neonRot 32 (-32)

variable {R : Type} (ops : SipOps R)

def siproundXN (v : State R) : State R :=
  let v0 := ops.add v.v0 v.v1
  let v2 := ops.add v.v2 v.v3
  let v1 := ops.rot13 v.v1
  let v3 := ops.rot16 v.v3
  let v1 := ops.xor v1 v0
  let v3 := ops.xor v3 v2
  let v0 := ops.rot32 v0
  let v2 := ops.add v2 v1
  let v0 := ops.add v0 v3
  let v1 := ops.rot17 v1
  let v3 := ops.rot21 v3
  let v1 := ops.xor v1 v2
  let v3 := ops.xor v3 v0
  let v2 := ops.rot32 v2
  ⟨v0, v1, v2, v3⟩

/-- `SIPROUNDX2N`: `v4` to `v7` are the second state. -/
def siproundX2N (v w : State R) : State R × State R :=
  let v0 := ops.add v.v0 v.v1
  let v4 := ops.add w.v0 w.v1
  let v2 := ops.add v.v2 v.v3
  let v6 := ops.add w.v2 w.v3
  let v1 := ops.rot13 v.v1
  let v5 := ops.rot13 w.v1
  let v3 := ops.rot16 v.v3
  let v7 := ops.rot16 w.v3
  let v1 := ops.xor v1 v0
  let v5 := ops.xor v5 v4
  let v3 := ops.xor v3 v2
  let v7 := ops.xor v7 v6
  let v0 := ops.rot32 v0
  let v4 := ops.rot32 v4
  let v2 := ops.add v2 v1
  let v6 := ops.add v6 v5
  let v0 := ops.add v0 v3
  let v4 := ops.add v4 v7
  let v1 := ops.rot17 v1
  let v5 := ops.rot17 v5
  let v3 := ops.rot21 v3
  let v7 := ops.rot21 v7
  let v1 := ops.xor v1 v2
  let v5 := ops.xor v5 v6
  let v3 := ops.xor v3 v0
  let v7 := ops.xor v7 v4
  let v2 := ops.rot32 v2
  let v6 := ops.rot32 v6
  (⟨v0, v1, v2, v3⟩, ⟨v4, v5, v6, v7⟩)

/-- The registers that one word fills -/
def keyState (set1 : Word → R) (keys : SiphashKeys) : State R :=
  ⟨set1 keys.k0.toBitVec, set1 keys.k1.toBitVec, set1 keys.k2.toBitVec, set1 keys.k3.toBitVec⟩

/-- One packet through the rounds, as `siphash_4` of AVX2 and `siphash_2` have it -/
def onePacket (set1 : Word → R) (keys : SiphashKeys) (packet : R) : R :=
  let v := keyState set1 keys
  let v := { v with v3 := ops.xor v.v3 packet }
  let v := siproundXN ops (siproundXN ops v)
  let v := { v with v0 := ops.xor v.v0 packet, v2 := ops.xor v.v2 (set1 0xff) }
  let v := siproundXN ops (siproundXN ops (siproundXN ops (siproundXN ops v)))
  ops.xor (ops.xor v.v0 v.v1) (ops.xor v.v2 v.v3)

/-- Two packets through the rounds, as `siphash_8` of AVX2 and `siphash_4` of the other sets -/
def twoPackets (set1 : Word → R) (keys : SiphashKeys) (packet packet' : R) : R × R :=
  let v := keyState set1 keys
  let w := keyState set1 keys
  let v := { v with v3 := ops.xor v.v3 packet }
  let w := { w with v3 := ops.xor w.v3 packet' }
  let (v, w) := siproundX2N ops v w
  let (v, w) := siproundX2N ops v w
  let v := { v with v0 := ops.xor v.v0 packet }
  let w := { w with v0 := ops.xor w.v0 packet' }
  let v := { v with v2 := ops.xor v.v2 (set1 0xff) }
  let w := { w with v2 := ops.xor w.v2 (set1 0xff) }
  let (v, w) := siproundX2N ops v w
  let (v, w) := siproundX2N ops v w
  let (v, w) := siproundX2N ops v w
  let (v, w) := siproundX2N ops v w
  (ops.xor (ops.xor v.v0 v.v1) (ops.xor v.v2 v.v3), ops.xor (ops.xor w.v0 w.v1) (ops.xor w.v2 w.v3))

inductive InstructionSet
  | avx2
  | sse2
  | neon
  deriving DecidableEq

/-- `siphash_2`, of the sets with registers of two words -/
def siphash2 (ops : SipOps M128) (keys : SiphashKeys) (in1 in2 : Word) : List Word :=
  (onePacket ops M128.set1 keys (M128.set in2 in1)).words

/-- `siphash_4` of the sets with registers of two words -/
def siphash4Pair (ops : SipOps M128) (keys : SiphashKeys) (in1 in2 in3 in4 : Word) : List Word :=
  let (mi, m2) := twoPackets ops M128.set1 keys (M128.set in2 in1) (M128.set in4 in3)
  mi.words ++ m2.words

def siphash4 (set : InstructionSet) (keys : SiphashKeys) (in1 in2 in3 in4 : Word) : List Word :=
  match set with
  | .avx2 => (onePacket Siphash.avx2 M256.set1 keys (M256.set in4 in3 in2 in1)).words
  | .sse2 => siphash4Pair Siphash.sse2 keys in1 in2 in3 in4
  | .neon => siphash4Pair Siphash.neon keys in1 in2 in3 in4

def siphash8 (set : InstructionSet) (keys : SiphashKeys) (in1 in2 in3 in4 in5 in6 in7 in8 : Word) :
    List Word :=
  match set with
  | .avx2 =>
    let (packet0, packet4) := twoPackets Siphash.avx2 M256.set1 keys (M256.set in4 in3 in2 in1)
      (M256.set in8 in7 in6 in5)
    packet0.words ++ packet4.words
  | .sse2 => siphash4 .sse2 keys in1 in2 in3 in4 ++ siphash4 .sse2 keys in5 in6 in7 in8
  | .neon => siphash4 .neon keys in1 in2 in3 in4 ++ siphash4 .neon keys in5 in6 in7 in8

end Vector
section Lanes

/-- A lane of the registers, in which the macros of a set do what the scalar code does -/
structure LaneOf {R : Type} (ops : SipOps R) (set1 : Word → R) (lane : R → Word) : Prop where
  add : ∀ x y, lane (ops.add x y) = lane x + lane y
  xor : ∀ x y, lane (ops.xor x y) = lane x ^^^ lane y
  rot13 : ∀ x, lane (ops.rot13 x) = rotl (lane x) 13
  rot16 : ∀ x, lane (ops.rot16 x) = rotl (lane x) 16
  rot17 : ∀ x, lane (ops.rot17 x) = rotl (lane x) 17
  rot21 : ∀ x, lane (ops.rot21 x) = rotl (lane x) 21
  rot32 : ∀ x, lane (ops.rot32 x) = rotl (lane x) 32
  set1 : ∀ x, lane (set1 x) = x

def State.map {R S : Type} (f : R → S) (v : State R) : State S := ⟨f v.v0, f v.v1, f v.v2, f v.v3⟩

theorem siproundX2N_eq {R : Type} (ops : SipOps R) (v w : State R) :
    siproundX2N ops v w = (siproundXN ops v, siproundXN ops w) := rfl

variable {R : Type} {ops : SipOps R} {set1 : Word → R} {lane : R → Word}

theorem LaneOf.siproundXN (own : LaneOf ops set1 lane) (v : State R) :
    (siproundXN ops v).map lane = sipround (v.map lane) := by
  ext1 <;> simp [Siphash.siproundXN, sipround, State.map, own.add, own.xor, own.rot13, own.rot16,
    own.rot17, own.rot21, own.rot32]

theorem LaneOf.onePacket (own : LaneOf ops set1 lane) (keys : SiphashKeys) (packet : R) :
    lane (onePacket ops set1 keys packet) = siphash1 keys (lane packet) := by
  have final (v : State R) : lane (ops.xor (ops.xor v.v0 v.v1) (ops.xor v.v2 v.v3)) =
      ((v.map lane).v0 ^^^ (v.map lane).v1) ^^^ ((v.map lane).v2 ^^^ (v.map lane).v3) := by
    rw [own.xor, own.xor, own.xor]
    rfl
  have second (v : State R) :
      State.map lane { v with v0 := ops.xor v.v0 packet, v2 := ops.xor v.v2 (set1 0xff) } =
        { v.map lane with
          v0 := (v.map lane).v0 ^^^ lane packet, v2 := (v.map lane).v2 ^^^ 0xff } := by
    simp only [State.map, own.xor, own.set1]
  have first : State.map lane { keyState set1 keys with
      v3 := ops.xor (keyState set1 keys).v3 packet } =
        ⟨keys.k0.toBitVec, keys.k1.toBitVec, keys.k2.toBitVec,
          keys.k3.toBitVec ^^^ lane packet⟩ := by
    simp only [State.map, keyState, own.xor, own.set1]
  rw [Siphash.onePacket, final]
  simp only [own.siproundXN, second, first]
  rfl

theorem twoPackets_eq (keys : SiphashKeys) (packet packet' : R) :
    twoPackets ops set1 keys packet packet' =
      (onePacket ops set1 keys packet, onePacket ops set1 keys packet') := by
  simp only [twoPackets, siproundX2N_eq]
  rfl

/-- Rotations that are done in every word -/
def Wordwise (ops : SipOps R) (map : (Word → Word) → R → R) : Prop :=
  ∀ x, ops.rot13 x = map (rotl · 13) x ∧ ops.rot16 x = map (rotl · 16) x ∧
    ops.rot17 x = map (rotl · 17) x ∧ ops.rot21 x = map (rotl · 21) x ∧
    ops.rot32 x = map (rotl · 32) x

theorem avx2_wordwise : Wordwise Siphash.avx2 fun f x => x.map fun half => half.map f := by
  intro x
  have bytes : x.shuffleEpi8 sipRotate16 = x.map fun half => half.map (rotl · 16) := by
    rw [M256.map, ← shuffleEpi8_rotl, ← shuffleEpi8_rotl]
    rfl
  have dwords : x.shuffleEpi32 (M128.mmShuffle 2 3 0 1) =
      x.map fun half => half.map (rotl · 32) := by
    rw [M256.map, ← shuffleEpi32_rotl, ← shuffleEpi32_rotl]
    rfl
  exact ⟨rfl, bytes, rfl, rfl, dwords⟩

theorem sse2_wordwise : Wordwise Siphash.sse2 fun f x => x.map f :=
  fun x => ⟨rfl, shuffleEpi16_rotl x, rfl, rfl, shuffleEpi32_rotl x⟩

theorem neon_wordwise : Wordwise Siphash.neon fun f x => x.map f :=
  fun x => ⟨vshlq_rotl x (b := 13) (by decide), vshlq_rotl x (b := 16) (by decide),
    vshlq_rotl x (b := 17) (by decide), vshlq_rotl x (b := 21) (by decide),
    vshlq_rotl x (b := 32) (by decide)⟩

theorem LaneOf.of_wordwise {map : (Word → Word) → R → R} (wordwise : Wordwise ops map)
    (add : ∀ x y, lane (ops.add x y) = lane x + lane y)
    (xor : ∀ x y, lane (ops.xor x y) = lane x ^^^ lane y)
    (mapped : ∀ f x, lane (map f x) = f (lane x)) (filled : ∀ x, lane (set1 x) = x) :
    LaneOf ops set1 lane where
  add := add
  xor := xor
  rot13 := by intro x; rw [(wordwise x).1, mapped]
  rot16 := by intro x; rw [(wordwise x).2.1, mapped]
  rot17 := by intro x; rw [(wordwise x).2.2.1, mapped]
  rot21 := by intro x; rw [(wordwise x).2.2.2.1, mapped]
  rot32 := by intro x; rw [(wordwise x).2.2.2.2, mapped]
  set1 := filled

theorem words_avx2 (keys : SiphashKeys) (packet : M256) :
    (onePacket Siphash.avx2 M256.set1 keys packet).words = packet.words.map (siphash1 keys) := by
  have own (lane : M256 → Word) (add : ∀ x y, lane (Siphash.avx2.add x y) = lane x + lane y)
      (xor : ∀ x y, lane (Siphash.avx2.xor x y) = lane x ^^^ lane y)
      (mapped : ∀ f x, lane (M256.map (M128.map f) x) = f (lane x))
      (filled : ∀ x, lane (M256.set1 x) = x) :=
    (LaneOf.of_wordwise avx2_wordwise add xor mapped filled).onePacket keys packet
  have first := own (·.lo.lo) (fun _ _ => rfl) (fun _ _ => rfl) (fun _ _ => rfl) fun _ => rfl
  have second := own (·.lo.hi) (fun _ _ => rfl) (fun _ _ => rfl) (fun _ _ => rfl) fun _ => rfl
  have third := own (·.hi.lo) (fun _ _ => rfl) (fun _ _ => rfl) (fun _ _ => rfl) fun _ => rfl
  have fourth := own (·.hi.hi) (fun _ _ => rfl) (fun _ _ => rfl) (fun _ _ => rfl) fun _ => rfl
  simp only [M256.words, M128.words, first, second, third, fourth]
  rfl

theorem words_pair {ops : SipOps M128} (wordwise : Wordwise ops fun f x => x.map f)
    (add : ops.add = M128.add) (xor : ops.xor = M128.xor) (keys : SiphashKeys) (packet : M128) :
    (onePacket ops M128.set1 keys packet).words = packet.words.map (siphash1 keys) := by
  have low : LaneOf ops M128.set1 M128.lo := LaneOf.of_wordwise wordwise
    (by rw [add]; exact fun _ _ => rfl) (by rw [xor]; exact fun _ _ => rfl) (fun _ _ => rfl)
    fun _ => rfl
  have high : LaneOf ops M128.set1 M128.hi := LaneOf.of_wordwise wordwise
    (by rw [add]; exact fun _ _ => rfl) (by rw [xor]; exact fun _ _ => rfl) (fun _ _ => rfl)
    fun _ => rfl
  rw [M128.words, low.onePacket, high.onePacket]
  rfl

theorem siphash2_eq {ops : SipOps M128} (wordwise : Wordwise ops fun f x => x.map f)
    (add : ops.add = M128.add) (xor : ops.xor = M128.xor) (keys : SiphashKeys) (in1 in2 : Word) :
    siphash2 ops keys in1 in2 = [in1, in2].map (siphash1 keys) := by
  rw [siphash2, words_pair wordwise add xor]
  rfl

theorem siphash4Pair_eq {ops : SipOps M128} (wordwise : Wordwise ops fun f x => x.map f)
    (add : ops.add = M128.add) (xor : ops.xor = M128.xor) (keys : SiphashKeys)
    (in1 in2 in3 in4 : Word) :
    siphash4Pair ops keys in1 in2 in3 in4 = [in1, in2, in3, in4].map (siphash1 keys) := by
  rw [siphash4Pair, twoPackets_eq]
  dsimp only
  rw [words_pair wordwise add xor, words_pair wordwise add xor]
  rfl

theorem siphash4_eq (set : InstructionSet) (keys : SiphashKeys) (in1 in2 in3 in4 : Word) :
    siphash4 set keys in1 in2 in3 in4 = [in1, in2, in3, in4].map (siphash1 keys) := by
  cases set with
  | avx2 =>
    rw [siphash4, words_avx2]
    rfl
  | sse2 => exact siphash4Pair_eq sse2_wordwise rfl rfl keys in1 in2 in3 in4
  | neon => exact siphash4Pair_eq neon_wordwise rfl rfl keys in1 in2 in3 in4

theorem siphash8_eq (set : InstructionSet) (keys : SiphashKeys)
    (in1 in2 in3 in4 in5 in6 in7 in8 : Word) :
    siphash8 set keys in1 in2 in3 in4 in5 in6 in7 in8 =
      [in1, in2, in3, in4, in5, in6, in7, in8].map (siphash1 keys) := by
  cases set with
  | avx2 =>
    rw [siphash8, twoPackets_eq]
    dsimp only
    rw [words_avx2, words_avx2]
    rfl
  | sse2 =>
    rw [siphash8, siphash4_eq, siphash4_eq]
    rfl
  | neon =>
    rw [siphash8, siphash4_eq, siphash4_eq]
    rfl

end Lanes

section Range

abbrev Memory := ℕ → Word

/-- The first word of a buffer of `n` words, all of them with an address of 64 bits -/
abbrev Buffer (n : ℕ) := {first : ℕ // first + n ≤ 2 ^ 61}

/-- Words that are written one after the other -/
def store (memory : Memory) (first : ℕ) (words : List Word) : Memory := fun a =>
  if first ≤ a then (words[a - first]?).getD (memory a) else memory a

inductive Width
  | one
  | four
  | eight
  deriving DecidableEq

def Width.words : Width → ℕ
  | .one => 1
  | .four => 4
  | .eight => 8

/-- What the loop of a width adds to the index before it compares -/
def Width.ahead : Width → ℕ
  | .one => 0
  | .four => 4
  | .eight => 8

variable (set : InstructionSet) (keys : SiphashKeys)

def siphashN (width : Width) (start : Word) (out : ℕ) (memory : Memory) : Memory :=
  match width with
  | .one => store memory out [siphash1 keys start]
  | .four => store memory out (siphash4 set keys start (start + 1) (start + 2) (start + 3))
  | .eight => store memory out (siphash8 set keys start (start + 1) (start + 2) (start + 3)
      (start + 4) (start + 5) (start + 6) (start + 7))

variable {n : ℕ} (start : Word) (out : Buffer n)

theorem Width.room (width : Width) (small : n ≤ 2 ^ 61) {i : ℕ} (inside : i ≤ n)
    (more : (i + width.ahead) % 2 ^ 64 < n) : i + width.words ≤ n ∧ 0 < width.words := by
  cases width <;> simp only [Width.ahead, Width.words] at * <;> omega

/-- One of the loops of the range, with `size_t` in its comparison -/
def pass (width : Width) (i : {i // i ≤ n}) (memory : Memory) : {i // i ≤ n} × Memory :=
  if more : (i.val + width.ahead) % 2 ^ 64 < n then
    pass width ⟨i.val + width.words, (width.room (Nat.le_of_add_left_le out.2) i.2 more).1⟩
      (siphashN set keys width (start + BitVec.ofNat 64 i.val) (out.val + i.val) memory)
  else (i, memory)
  termination_by n - i.val
  decreasing_by
    have room := width.room (Nat.le_of_add_left_le out.2) i.2 more
    omega

/-- `siphash` of the indices from `start` up to `stop` -/
def siphash (start stop : Word) (out : Buffer (stop - start).toNat) (memory : Memory) : Memory :=
  let (i, memory) := pass set keys start out .eight ⟨0, Nat.zero_le _⟩ memory
  let (i, memory) := pass set keys start out .four i memory
  (pass set keys start out .one i memory).2

end Range

section Refinement

variable (set : InstructionSet) (keys : SiphashKeys)

/-- Memory with the first `i` words of a range in its buffer -/
def filled (start : Word) (first i : ℕ) (memory : Memory) : Memory := fun a =>
  if first ≤ a ∧ a < first + i then siphash1 keys (start + BitVec.ofNat 64 (a - first))
  else memory a

theorem siphashN_eq (width : Width) (start : Word) (out : ℕ) (memory : Memory) :
    siphashN set keys width start out memory = filled keys start out width.words memory := by
  have stored (n : ℕ) : store memory out ((List.range n).map fun k =>
      siphash1 keys (start + BitVec.ofNat 64 k)) = filled keys start out n memory := by
    ext1 a
    rw [store, filled]
    by_cases above : out ≤ a
    · by_cases below : a < out + n
      · rw [if_pos above, if_pos ⟨above, below⟩, List.getElem?_map,
          List.getElem?_range (by omega)]
        rfl
      · rw [if_pos above, if_neg (by omega), List.getElem?_eq_none (by simp; omega)]
        rfl
    · rw [if_neg above, if_neg (by omega)]
  have first : start + BitVec.ofNat 64 0 = start := BitVec.add_zero start
  rw [← stored]
  cases width with
  | one =>
    rw [siphashN]
    simp [Width.words]
  | four =>
    rw [siphashN, siphash4_eq]
    simp [Width.words, List.range_succ]
  | eight =>
    rw [siphashN, siphash8_eq]
    simp [Width.words, List.range_succ]

theorem filled_filled (start : Word) (first i k : ℕ) (memory : Memory) :
    filled keys (start + BitVec.ofNat 64 i) (first + i) k (filled keys start first i memory) =
      filled keys start first (i + k) memory := by
  ext1 a
  rw [filled, filled, filled]
  by_cases low : first + i ≤ a
  · have place : i + (a - (first + i)) = a - first := by omega
    rw [BitVec.add_assoc, ← BitVec.ofNat_add, place]
    by_cases high : a < first + (i + k)
    · rw [if_pos (by omega), if_pos (by omega)]
    · rw [if_neg (by omega), if_neg (by omega), if_neg (by omega)]
  · rw [if_neg (by omega)]
    by_cases below : first ≤ a
    · rw [if_pos (by omega), if_pos (by omega)]
    · rw [if_neg (by omega), if_neg (by omega)]

variable {n : ℕ} (start : Word) (out : Buffer n)

theorem pass_filled (width : Width) (i : {i // i ≤ n}) (memory : Memory) :
    ∃ j : {j // j ≤ n}, pass set keys start out width i (filled keys start out.val i.val memory) =
      (j, filled keys start out.val j.val memory) ∧ n ≤ j.val + width.ahead := by
  induction distance : n - i.val using Nat.strong_induction_on generalizing i with
  | _ distance ih =>
    subst distance
    rw [pass]
    split
    next more =>
      have room := width.room (Nat.le_of_add_left_le out.2) i.2 more
      rw [siphashN_eq, filled_filled]
      exact ih (n - (i.val + width.words)) (by omega) ⟨i.val + width.words, room.1⟩ rfl
    next stopped =>
      have bound := out.2
      have inside := i.2
      have ahead : width.ahead ≤ 8 := by cases width <;> decide
      exact ⟨i, rfl, by omega⟩

theorem siphash_filled (stop : Word) (out : Buffer (stop - start).toNat) (memory : Memory) :
    siphash set keys start stop out memory =
      filled keys start out.val (stop - start).toNat memory := by
  have none : memory = filled keys start out.val 0 memory := by
    ext1 a
    rw [filled, if_neg (by omega)]
  obtain ⟨i, eight, -⟩ := pass_filled set keys start out .eight ⟨0, Nat.zero_le _⟩ memory
  obtain ⟨j, four, -⟩ := pass_filled set keys start out .four i memory
  obtain ⟨k, one, stopped⟩ := pass_filled set keys start out .one j memory
  have all : k.val = (stop - start).toNat := Nat.le_antisymm k.2 stopped
  rw [siphash]
  conv_lhs => rw [none]
  rw [eight]
  dsimp only
  rw [four]
  dsimp only
  rw [one, all]

end Refinement

section Ranges

/-- Every instruction set writes the words of the scalar code, and only those; the code for two
words, which the range does not use, gives them too. -/
theorem range_matches_scalar (set : InstructionSet) (keys : SiphashKeys) (start stop : Word)
    (ordered : start ≤ stop) (out : Buffer (stop - start).toNat) (memory : Memory) :
    (∀ k < stop.toNat - start.toNat, siphash set keys start stop out memory (out.val + k) =
      siphash1 keys (start + BitVec.ofNat 64 k)) ∧
    (∀ a, (∀ k < stop.toNat - start.toNat, a ≠ out.val + k) →
      siphash set keys start stop out memory a = memory a) ∧
    ∀ ops ∈ [sse2, neon], ∀ in1 in2,
      siphash2 ops keys in1 in2 = [siphash1 keys in1, siphash1 keys in2] := by
  have length : (stop - start).toNat = stop.toNat - start.toNat :=
    BitVec.toNat_sub_of_le ordered
  rw [siphash_filled]
  refine ⟨?_, ?_, ?_⟩
  · intro k less
    rw [filled, if_pos (by omega), Nat.add_sub_cancel_left]
  · intro a apart
    rw [filled, if_neg]
    intro inside
    exact apart (a - out.val) (by omega) (by omega)
  · intro ops listed in1 in2
    rw [List.mem_pair] at listed
    obtain rfl | rfl := listed
    · exact siphash2_eq sse2_wordwise rfl rfl keys in1 in2
    · exact siphash2_eq neon_wordwise rfl rfl keys in1 in2

theorem range_matches_scalar_star :
    (3#64 ≤ 6#64) ∧ siphash .avx2 ⟨1, 2, 3, 4⟩ 3 6 ⟨0, by decide⟩ (fun _ => 0) (0 + 2) =
      siphash1 ⟨1, 2, 3, 4⟩ (3 + BitVec.ofNat 64 2) :=
  ⟨by decide, (range_matches_scalar .avx2 ⟨1, 2, 3, 4⟩ 3 6 (by decide) ⟨0, by decide⟩
    fun _ => 0).1 2 (by decide)⟩

end Ranges

end Epilog.Pow.Siphash
