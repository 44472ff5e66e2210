/- Module: Epilog/Ec/SegwitAddress
   source: src/src/ec/builtins.cpp (bech32_polymod, bech32_hrp_expand, bech32_create_checksum,
     bc1_2)
   digest: The text of a segwit address: its groups of five bits, its checksum, its array. -/

import Epilog.Lib.Numeral
import Epilog.Lib.SymbolCode

set_option autoImplicit false

namespace Epilog.Ec.SegwitAddress

open Epilog.Lib.Numeral
open Epilog.Lib.SymbolCode

section Polymod

def GEN : List (BitVec 32) := [0x3b6a57b2, 0x26508e6d, 0x1ea119fa, 0x3d4233dd, 0x2a1462b3]

/-- One round of `bech32_polymod` -/
def polymodStep (chk : BitVec 32) (v : ℕ) : BitVec 32 :=
  let b := chk >>> 25
  (List.range 5).foldl (fun chk j => chk ^^^ if (b >>> j) &&& 1#32 = 1#32 then GEN.getD j 0 else 0)
    (((chk &&& 0x1ffffff#32) <<< 5) ^^^ BitVec.ofNat 32 v)

def bech32Polymod (values : List ℕ) : BitVec 32 := values.foldl polymodStep 1#32

def bech32HrpExpand (s : List Char) : List ℕ :=
  s.map (fun ch => ch.toNat >>> 5) ++ 0 :: s.map fun ch => ch.toNat &&& 31

def bech32CreateChecksum (hrp : List Char) (data : List ℕ) : List ℕ :=
  let polymod := bech32Polymod (bech32HrpExpand hrp ++ data ++ List.replicate 6 0) ^^^ 1#32
  (List.range 6).map fun i => ((polymod >>> (5 * (5 - i))) &&& 31#32).toNat

end Polymod

section Text

/-- An address with its version in front and its checksum at the end -/
abbrev Address := {l : List UInt8 // l.length = 25}

def keyHash (addr : Address) : List UInt8 := (addr.val.drop 1).take 20

inductive Buffer
  | addr
  | values
  | table
  | hrpData
  | chk
  deriving DecidableEq

def Buffer.size : Buffer → ℕ
  | .addr => 25
  | .values => 8 * 20 / 5
  | .table => 32
  | .hrpData => 10
  | .chk => 6

def table : List Char :=
  ['q', 'p', 'z', 'r', 'y', '9', 'x', '8',
   'g', 'f', '2', 't', 'v', 'd', 'w', '0',
   's', '3', 'j', 'n', '5', '4', 'k', 'h',
   'c', 'e', '6', 'm', 'u', 'a', '7', 'l']

def letter (value : ℕ) : Char := table.getD value ' '

def hrp : List Char := ['b', 'c']

/-- The variables of the loop, with the elements of arrays it has gone to. What is written behind
the end of `values` is taken to stay there. -/
structure Window where
  w : ℕ
  wi : ℕ
  i : ℕ
  bo : ℕ
  values : List ℕ
  str : List Char
  accesses : List (Buffer × ℕ)

/-- `p[i]` -/
def byteAt (addr : Address) (i : ℕ) : ℕ := (addr.val.getD (1 + i) 0).toNat

def start (addr : Address) : Window where
  w := byteAt addr 0 <<< 3
  wi := 13
  i := 1
  bo := 0
  values := []
  str := hrp ++ ['1']
  accesses := [(.addr, 1)]

def refill (addr : Address) (s : Window) : Window :=
  if s.wi < 5 then
    { s with
      w := (s.w ||| byteAt addr s.i <<< (8 - s.wi)) % 2 ^ 16
      wi := s.wi + 8
      i := s.i + 1
      accesses := s.accesses ++ [(.addr, 1 + s.i)] }
  else s

def emit (s : Window) : Window :=
  let value := s.w >>> 11
  { s with
    w := (s.w <<< 5) % 2 ^ 16
    wi := s.wi - 5
    bo := s.bo + 5
    values := s.values ++ [value % 2 ^ 8]
    str := s.str ++ [letter value]
    accesses := s.accesses ++ [(.values, s.values.length), (.table, value)] }

theorem refill_bo (addr : Address) (s : Window) : (refill addr s).bo = s.bo := by
  rw [refill]
  split <;> rfl

def regroup (addr : Address) (s : Window) : Window :=
  if s.bo < 5 + 8 * 20 then regroup addr (emit (refill addr s)) else s
termination_by 5 + 8 * 20 - s.bo
decreasing_by
  simp only [emit, refill_bo]
  omega

/-- The elements of arrays that the checksum and the letters of the checksum go to -/
def checksumAccesses (data chk : List ℕ) : List (Buffer × ℕ) :=
  (List.range (bech32HrpExpand hrp).length).map (fun i => (Buffer.hrpData, i)) ++
    (List.range data.length).map (fun i => (Buffer.values, i)) ++
      (List.range 6).map (fun i => (Buffer.chk, i)) ++ chk.map fun value => (Buffer.table, value)

/-- What `bc1_2` makes of the address of a key -/
structure Segwit where
  str : List Char
  accesses : List (Buffer × ℕ)

def bc1 (addr : Address) : Segwit :=
  let s := regroup addr (start addr)
  let chk := bech32CreateChecksum hrp s.values
  { str := s.str ++ chk.map letter
    accesses := s.accesses ++ checksumAccesses s.values chk }

end Text
section Groups

/-- The window holds the bits of the first bytes that no group has yet, at its upper end. -/
structure Regrouped (addr : Address) (s : Window) : Prop where
  bits : s.bo + s.wi = 5 + 8 * s.i
  count : s.bo = 5 * s.values.length
  width : s.wi ≤ 13
  bytes : s.i ≤ 20
  small : ∀ v ∈ s.values, v < 32
  window : ∃ u, u < 2 ^ s.wi ∧ s.w = u * 2 ^ (16 - s.wi) ∧
    numeral 32 s.values * 2 ^ s.wi + u =
      numeral 256 (((addr.val.drop 1).take s.i).map UInt8.toNat)
  text : s.str = hrp ++ ['1'] ++ s.values.map letter

theorem byteAt_lt (addr : Address) (i : ℕ) : byteAt addr i < 2 ^ 8 := UInt8.toNat_lt _

theorem numeral_take_succ (addr : Address) {i : ℕ} (inside : i < 20) :
    numeral 256 (((addr.val.drop 1).take (i + 1)).map UInt8.toNat) =
      numeral 256 (((addr.val.drop 1).take i).map UInt8.toNat) * 256 + byteAt addr i := by
  have long : 1 + i < addr.val.length := by
    rw [addr.property]
    omega
  have within : i < (addr.val.drop 1).length := by
    rw [List.length_drop]
    omega
  have found : (addr.val.drop 1)[i] = addr.val.getD (1 + i) 0 := by
    rw [List.getElem_drop, List.getD, List.getElem?_eq_getElem long, Option.getD_some]
  rw [List.take_succ_eq_append_getElem within, List.map_append, List.map_singleton, numeral_concat,
    found, byteAt]

theorem Regrouped.start (addr : Address) : Regrouped addr (start addr) where
  bits := rfl
  count := rfl
  width := le_refl 13
  bytes := Nat.succ_le_succ (Nat.zero_le 19)
  small := by
    intro v mem
    cases mem
  window := by
    have less := byteAt_lt addr 0
    have first := numeral_take_succ addr (i := 0) (by decide)
    refine ⟨byteAt addr 0, ?_, ?_, ?_⟩
    · change byteAt addr 0 < 2 ^ 13
      omega
    · exact Nat.shiftLeft_eq _ 3
    · rw [List.take_zero, List.map_nil, numeral_nil, Nat.zero_mul] at first
      change numeral 32 [] * 2 ^ 13 + byteAt addr 0 =
        numeral 256 (((addr.val.drop 1).take 1).map UInt8.toNat)
      rw [numeral_nil, Nat.zero_mul]
      exact first.symm
  text := rfl

theorem window_refill {u wi p : ℕ} (low : wi < 5) (below : u < 2 ^ wi) (byte : p < 2 ^ 8) :
    (u * 2 ^ (16 - wi) ||| p <<< (8 - wi)) % 2 ^ 16 = (u * 256 + p) * 2 ^ (16 - (wi + 8)) := by
  have upper : u * 2 ^ (16 - wi) = (u <<< 8) <<< (8 - wi) := by
    rw [← Nat.shiftLeft_add, Nat.shiftLeft_eq, show 8 + (8 - wi) = 16 - wi by omega]
  have joined : u <<< 8 ||| p = u * 256 + p := by
    rw [← Nat.shiftLeft_add_eq_or_of_lt byte, Nat.shiftLeft_eq]
  have less : (u * 256 + p) * 2 ^ (8 - wi) < 2 ^ 16 := by
    have held : u * 256 + p < 2 ^ (wi + 8) := by
      rw [Nat.pow_add]
      omega
    calc (u * 256 + p) * 2 ^ (8 - wi) < 2 ^ (wi + 8) * 2 ^ (8 - wi) :=
          Nat.mul_lt_mul_of_pos_right held (Nat.two_pow_pos _)
      _ = 2 ^ 16 := by rw [← Nat.pow_add, show wi + 8 + (8 - wi) = 16 by omega]
  rw [upper, ← Nat.shiftLeft_or_distrib, joined, Nat.shiftLeft_eq,
    show 16 - (wi + 8) = 8 - wi by omega, Nat.mod_eq_of_lt less]

theorem Regrouped.refill {addr : Address} {s : Window} (sound : Regrouped addr s)
    (more : s.bo < 5 + 8 * 20) : Regrouped addr (refill addr s) ∧ 5 ≤ (refill addr s).wi := by
  have bits := sound.bits
  have count := sound.count
  by_cases low : s.wi < 5
  · have inside : s.i < 20 := by omega
    have less := byteAt_lt addr s.i
    obtain ⟨u, below, shifted, told⟩ := sound.window
    rw [SegwitAddress.refill, if_pos low]
    refine ⟨⟨?_, count, ?_, ?_, sound.small, ⟨u * 256 + byteAt addr s.i, ?_, ?_, ?_⟩, sound.text⟩,
      ?_⟩
    · dsimp only
      omega
    · dsimp only
      omega
    · dsimp only
      omega
    · dsimp only
      rw [Nat.pow_add]
      omega
    · dsimp only
      rw [shifted, window_refill low below less]
    · dsimp only
      rw [numeral_take_succ addr inside, ← told, Nat.pow_add]
      ring
    · dsimp only
      omega
  · rw [SegwitAddress.refill, if_neg low]
    exact ⟨sound, by omega⟩

theorem window_emit {u wi : ℕ} (full : 5 ≤ wi) (width : wi ≤ 13) :
    (u * 2 ^ (16 - wi)) >>> 11 = u / 2 ^ (wi - 5) ∧
      ((u * 2 ^ (16 - wi)) <<< 5) % 2 ^ 16 = u % 2 ^ (wi - 5) * 2 ^ (16 - (wi - 5)) := by
  have low : 2 ^ 11 = 2 ^ (wi - 5) * 2 ^ (16 - wi) := by
    rw [← Nat.pow_add, show wi - 5 + (16 - wi) = 11 by omega]
  have whole : 2 ^ 16 = 2 ^ (wi - 5) * 2 ^ (16 - (wi - 5)) := by
    rw [← Nat.pow_add, show wi - 5 + (16 - (wi - 5)) = 16 by omega]
  refine ⟨?_, ?_⟩
  · rw [Nat.shiftRight_eq_div_pow, low, Nat.mul_div_mul_right _ _ (Nat.two_pow_pos _)]
  · rw [Nat.shiftLeft_eq, Nat.mul_assoc, ← Nat.pow_add, show 16 - wi + 5 = 16 - (wi - 5) by omega,
      whole, Nat.mul_mod_mul_right]

theorem Regrouped.value_lt {addr : Address} {s : Window} (sound : Regrouped addr s)
    (full : 5 ≤ s.wi) : s.w >>> 11 < 32 := by
  obtain ⟨u, below, shifted, -⟩ := sound.window
  rw [shifted, (window_emit full sound.width).1]
  apply Nat.div_lt_of_lt_mul
  rw [← Nat.pow_add 2 (s.wi - 5) 5, Nat.sub_add_cancel full]
  exact below

theorem Regrouped.emit {addr : Address} {s : Window} (sound : Regrouped addr s)
    (full : 5 ≤ s.wi) : Regrouped addr (emit s) := by
  have bits := sound.bits
  have count := sound.count
  have width := sound.width
  obtain ⟨u, below, shifted, told⟩ := sound.window
  obtain ⟨upper, lower⟩ := window_emit (u := u) full width
  have pow : 2 ^ s.wi = 2 ^ (s.wi - 5) * 32 := by
    rw [← Nat.pow_add 2 (s.wi - 5) 5, Nat.sub_add_cancel full]
  have small := sound.value_lt full
  have byte : (s.w >>> 11) % 2 ^ 8 = s.w >>> 11 := Nat.mod_eq_of_lt (by omega)
  have value : s.w >>> 11 = u / 2 ^ (s.wi - 5) := by rw [shifted, upper]
  refine ⟨?_, ?_, ?_, sound.bytes, ?_, ⟨u % 2 ^ (s.wi - 5), ?_, ?_, ?_⟩, ?_⟩
  · dsimp only [SegwitAddress.emit]
    omega
  · dsimp only [SegwitAddress.emit]
    rw [List.length_append, List.length_singleton]
    omega
  · dsimp only [SegwitAddress.emit]
    omega
  · intro v mem
    dsimp only [SegwitAddress.emit] at mem
    rcases List.mem_append.mp mem with old | new
    · exact sound.small v old
    · rw [List.mem_singleton.mp new, byte]
      exact small
  · exact Nat.mod_lt _ (Nat.two_pow_pos _)
  · dsimp only [SegwitAddress.emit]
    rw [shifted, lower]
  · dsimp only [SegwitAddress.emit]
    rw [byte, numeral_concat, value, ← told, pow]
    have parts := Nat.div_add_mod u (2 ^ (s.wi - 5))
    calc (numeral 32 s.values * 32 + u / 2 ^ (s.wi - 5)) * 2 ^ (s.wi - 5) + u % 2 ^ (s.wi - 5)
        = numeral 32 s.values * (2 ^ (s.wi - 5) * 32) +
            (2 ^ (s.wi - 5) * (u / 2 ^ (s.wi - 5)) + u % 2 ^ (s.wi - 5)) := by ring
      _ = numeral 32 s.values * (2 ^ (s.wi - 5) * 32) + u := by rw [parts]
  · dsimp only [SegwitAddress.emit]
    rw [byte, sound.text, List.map_append, List.map_singleton, List.append_assoc]

end Groups

section Loop

/-- The accesses of the loop: those outside go behind the end of `values`, where each group has its
place. -/
structure Visited (s : Window) : Prop where
  inside : ∀ a ∈ s.accesses, a.2 < a.1.size ∨ a.1 = .values ∧ a.2 < s.values.length
  each : ∀ k < s.values.length, (Buffer.values, k) ∈ s.accesses

theorem Visited.start (addr : Address) : Visited (start addr) where
  inside := by
    intro a mem
    rw [List.mem_singleton.mp mem]
    exact Or.inl (by decide)
  each := by
    intro k less
    exact absurd less (Nat.not_lt_zero k)

theorem Visited.refill {addr : Address} {s : Window} (visited : Visited s)
    (sound : Regrouped addr s) (more : s.bo < 5 + 8 * 20) : Visited (refill addr s) := by
  have bits := sound.bits
  have count := sound.count
  by_cases low : s.wi < 5
  · rw [SegwitAddress.refill, if_pos low]
    refine ⟨?_, ?_⟩
    · intro a mem
      rcases List.mem_append.mp mem with old | new
      · exact visited.inside a old
      · rw [List.mem_singleton.mp new]
        left
        change 1 + s.i < 25
        omega
    · intro k less
      exact List.mem_append_left _ (visited.each k less)
  · rw [SegwitAddress.refill, if_neg low]
    exact visited

theorem Visited.emit {addr : Address} {s : Window} (visited : Visited s)
    (sound : Regrouped addr s) (full : 5 ≤ s.wi) : Visited (SegwitAddress.emit s) := by
  have small := sound.value_lt full
  refine ⟨?_, ?_⟩
  · intro a mem
    simp only [SegwitAddress.emit, List.length_append, List.length_singleton] at mem ⊢
    rcases List.mem_append.mp mem with old | new
    · rcases visited.inside a old with within | ⟨isValues, less⟩
      · exact Or.inl within
      · exact Or.inr ⟨isValues, by omega⟩
    · rcases List.mem_cons.mp new with written | read
      · rw [written]
        exact Or.inr ⟨rfl, Nat.lt_succ_self _⟩
      · rw [List.mem_singleton.mp read]
        exact Or.inl small
  · intro k less
    simp only [SegwitAddress.emit, List.length_append, List.length_singleton] at less ⊢
    by_cases old : k < s.values.length
    · exact List.mem_append_left _ (visited.each k old)
    · obtain rfl : k = s.values.length := by omega
      exact List.mem_append_right _ List.mem_cons_self

theorem regroup_spec {addr : Address} {s : Window} (sound : Regrouped addr s)
    (visited : Visited s) (bound : s.bo ≤ 5 + 8 * 20) :
    Regrouped addr (regroup addr s) ∧ Visited (regroup addr s) ∧
      (regroup addr s).bo = 5 + 8 * 20 := by
  fun_induction regroup addr s with
  | case1 s more ih =>
    obtain ⟨filled, full⟩ := sound.refill more
    have taken := filled.emit full
    have count := sound.count
    apply ih taken ((visited.refill sound more).emit filled full)
    change (refill addr s).bo + 5 ≤ 5 + 8 * 20
    rw [refill_bo]
    omega
  | case2 s done => exact ⟨sound, visited, by omega⟩

end Loop

section Code

/-- What the remainder is brought to by the symbol zero -/
def next (chk : BitVec 32) : BitVec 32 := polymodStep chk 0

/-- The part of `next` that the five upper bits of the remainder decide -/
def generator (chk : BitVec 32) : BitVec 32 :=
  (List.range 5).foldl (fun g j => g ^^^ if chk.getLsbD (25 + j) then GEN.getD j 0 else 0) 0#32

theorem bit_iff (chk : BitVec 32) (j : ℕ) :
    ((chk >>> 25) >>> j) &&& 1#32 = 1#32 ↔ chk.getLsbD (25 + j) = true := by
  rw [BitVec.and_one_eq_setWidth_ofBool_getLsbD, BitVec.getLsbD_ushiftRight,
    BitVec.getLsbD_ushiftRight]
  cases chk.getLsbD (25 + j) <;> decide

theorem polymodStep_eq (chk : BitVec 32) (v : ℕ) :
    polymodStep chk v =
      ((chk &&& 0x1ffffff#32) <<< 5 ^^^ generator chk) ^^^ BitVec.ofNat 32 v := by
  simp only [polymodStep, bit_iff, generator, List.range_succ, List.range_zero, List.nil_append,
    List.foldl_append, List.foldl_cons, List.foldl_nil]
  ac_rfl

theorem next_eq (chk : BitVec 32) :
    next chk = (chk &&& 0x1ffffff#32) <<< 5 ^^^ generator chk := by
  rw [next, polymodStep_eq, BitVec.xor_zero]

theorem polymodStep_next (chk : BitVec 32) (v : ℕ) :
    polymodStep chk v = next chk ^^^ BitVec.ofNat 32 v := by
  rw [polymodStep_eq, next_eq]

/-- The generators for which the bits say so, added up -/
def combination (b : List Bool) : BitVec 32 :=
  (b.zip GEN).foldl (fun g x => g ^^^ if x.1 then x.2 else 0) 0#32

theorem generator_eq (chk : BitVec 32) :
    generator chk = combination [chk.getLsbD 25, chk.getLsbD 26, chk.getLsbD 27, chk.getLsbD 28,
      chk.getLsbD 29] := rfl

theorem select_xor (p q : Bool) (g : BitVec 32) :
    (if (p ^^ q) then g else 0) = (if p then g else 0) ^^^ if q then g else 0 := by
  cases p <;> cases q <;> simp

theorem generator_xor (a b : BitVec 32) : generator (a ^^^ b) = generator a ^^^ generator b := by
  simp only [generator, BitVec.getLsbD_xor, select_xor, List.range_succ, List.range_zero,
    List.nil_append, List.foldl_append, List.foldl_cons, List.foldl_nil]
  ac_rfl

theorem next_xor (a b : BitVec 32) : next (a ^^^ b) = next a ^^^ next b := by
  have masked : (a ^^^ b) &&& 0x1ffffff#32 = (a &&& 0x1ffffff#32) ^^^ (b &&& 0x1ffffff#32) := by
    ext i inside
    simp only [BitVec.getElem_and, BitVec.getElem_xor]
    cases a[i] <;> cases b[i] <;> simp
  rw [next_eq, next_eq, next_eq, masked, BitVec.shiftLeft_xor_distrib, generator_xor]
  ac_rfl

theorem mask_bit (i : ℕ) : (0x1ffffff#32).getLsbD i = decide (i < 25) := by
  rw [BitVec.getLsbD_ofNat, show (0x1ffffff : ℕ) = 2 ^ 25 - 1 by rfl, Nat.testBit_two_pow_sub_one]
  by_cases less : i < 25
  · simp [less, show i < 32 by omega]
  · simp [less]

theorem shifted_bit (chk : BitVec 32) (i : ℕ) :
    ((chk &&& 0x1ffffff#32) <<< 5).getLsbD i =
      (decide (5 ≤ i) && decide (i < 30) && chk.getLsbD (i - 5)) := by
  rw [BitVec.getLsbD_shiftLeft, BitVec.getLsbD_and, mask_bit]
  by_cases low : i < 5
  · simp [low]
  · by_cases high : i < 30
    · simp [low, high, show i < 32 by omega, show i - 5 < 25 by omega, show 5 ≤ i by omega]
    · simp [low, high, show ¬ i - 5 < 25 by omega]

/-- A remainder has thirty bits. -/
def Short (chk : BitVec 32) : Prop := ∀ i, 30 ≤ i → chk.getLsbD i = false

theorem combination_low : ∀ b0 b1 b2 b3 b4 : Bool,
    (combination [b0, b1, b2, b3, b4]).setWidth 5 = 0 →
      b0 = false ∧ b1 = false ∧ b2 = false ∧ b3 = false ∧ b4 = false := by decide

theorem combination_short : ∀ b0 b1 b2 b3 b4 : Bool,
    (combination [b0, b1, b2, b3, b4]).getLsbD 30 = false ∧
      (combination [b0, b1, b2, b3, b4]).getLsbD 31 = false := by decide

theorem next_eq_zero {chk : BitVec 32} (short : Short chk) (zero : next chk = 0#32) :
    chk = 0#32 := by
  rw [next_eq] at zero
  have low : (generator chk).setWidth 5 = 0 := by
    have cut := congrArg (BitVec.setWidth 5) zero
    ext i inside
    have bit := congrArg (fun x : BitVec 5 => x[i]) cut
    simpa [inside, show i < 5 from inside] using bit
  rw [generator_eq] at low
  obtain ⟨b25, b26, b27, b28, b29⟩ := combination_low _ _ _ _ _ low
  have none : generator chk = 0#32 := by
    rw [generator_eq, b25, b26, b27, b28, b29]
    rfl
  rw [none, BitVec.xor_zero] at zero
  have lower : ∀ i, i < 25 → chk.getLsbD i = false := by
    intro i less
    have bit := congrArg (fun x : BitVec 32 => x.getLsbD (i + 5)) zero
    rw [shifted_bit, BitVec.getLsbD_zero, Nat.add_sub_cancel] at bit
    simpa [show i + 5 < 30 by omega] using bit
  apply BitVec.eq_of_getLsbD_eq
  intro i inside
  rw [BitVec.getLsbD_zero]
  by_cases less : i < 25
  · exact lower i less
  by_cases high : 30 ≤ i
  · exact short i high
  obtain rfl | rfl | rfl | rfl | rfl : i = 25 ∨ i = 26 ∨ i = 27 ∨ i = 28 ∨ i = 29 := by omega
  · exact b25
  · exact b26
  · exact b27
  · exact b28
  · exact b29

theorem Short.xor {a b : BitVec 32} (first : Short a) (second : Short b) : Short (a ^^^ b) := by
  intro i high
  rw [BitVec.getLsbD_xor, first i high, second i high, Bool.xor_false]

theorem Short.next {chk : BitVec 32} : Short (next chk) := by
  rw [next_eq]
  apply Short.xor
  · intro i high
    rw [shifted_bit]
    simp [show ¬ i < 30 by omega]
  · intro i high
    by_cases inside : i < 32
    · have ends := combination_short (chk.getLsbD 25) (chk.getLsbD 26) (chk.getLsbD 27)
        (chk.getLsbD 28) (chk.getLsbD 29)
      rw [← generator_eq] at ends
      obtain rfl | rfl : i = 30 ∨ i = 31 := by omega
      · exact ends.1
      · exact ends.2
    · exact BitVec.getLsbD_of_ge _ _ (by omega)

theorem short_symbol {v : ℕ} (symbol : v < 32) : Short (BitVec.ofNat 32 v) := by
  intro i high
  rw [BitVec.getLsbD_ofNat, Nat.testBit_lt_two_pow]
  · exact Bool.and_false _
  · calc v < 2 ^ 5 := symbol
      _ ≤ 2 ^ i := Nat.pow_le_pow_right (by decide) (by omega)

theorem Short.step {chk : BitVec 32} {v : ℕ} (symbol : v < 32) : Short (polymodStep chk v) := by
  rw [polymodStep_next]
  exact Short.next.xor (short_symbol symbol)

theorem polymodStep_undo {v : ℕ} {r r' : BitVec 32} (short : Short r) (short' : Short r')
    (equal : polymodStep r v = polymodStep r' v) : r = r' := by
  rw [polymodStep_next, polymodStep_next] at equal
  have nexts : next r = next r' := by simpa using equal
  have zero : SegwitAddress.next (r ^^^ r') = 0#32 := by rw [next_xor, nexts, BitVec.xor_self]
  simpa using next_eq_zero (short.xor short') zero

theorem polymodStep_told {r : BitVec 32} {v v' : ℕ} (symbol : v < 32) (symbol' : v' < 32)
    (equal : polymodStep r v = polymodStep r v') : v = v' := by
  rw [polymodStep_next, polymodStep_next] at equal
  have words : BitVec.ofNat 32 v = BitVec.ofNat 32 v' := by simpa using equal
  have numbers := congrArg BitVec.toNat words
  rw [BitVec.toNat_ofNat, BitVec.toNat_ofNat, Nat.mod_eq_of_lt (by omega),
    Nat.mod_eq_of_lt (by omega)] at numbers
  exact numbers

theorem polymod_ne_of_single {front back : List ℕ} {x y : ℕ} (apart : x ≠ y)
    (symbols : ∀ v ∈ front ++ x :: back, v < 32) (symbol : y < 32) :
    bech32Polymod (front ++ x :: back) ≠ bech32Polymod (front ++ y :: back) := by
  have keeps : ∀ r v, Short r → v < 32 → Short (polymodStep r v) :=
    fun _ _ _ symbol => Short.step symbol
  have undo : ∀ v r r', Short r → Short r' → v < 32 → polymodStep r v = polymodStep r' v → r = r' :=
    fun _ _ _ short short' _ equal => polymodStep_undo short short' equal
  have told : ∀ r v v', v < 32 → v' < 32 → polymodStep r v = polymodStep r v' → v = v' :=
    fun _ _ _ symbol symbol' equal => polymodStep_told symbol symbol' equal
  exact foldl_ne_of_single keeps undo told (short_symbol (v := 1) (by decide)) apart symbols symbol

theorem polymod_eq_remainder (r : BitVec 32) (values : List ℕ) :
    values.foldl polymodStep r = remainder next r (values.map (BitVec.ofNat 32)) := by
  rw [remainder, List.foldl_map]
  congr 1
  funext chk v
  exact polymodStep_next chk v

theorem next_of_low {chk : BitVec 32} (low : ∀ i, 25 ≤ i → chk.getLsbD i = false) :
    next chk = chk <<< 5 := by
  have none : generator chk = 0#32 := by
    rw [generator_eq, low 25 (by decide), low 26 (by decide), low 27 (by decide),
      low 28 (by decide), low 29 (by decide)]
    rfl
  rw [next_eq, none, BitVec.xor_zero]
  apply BitVec.eq_of_getLsbD_eq
  intro i inside
  rw [shifted_bit, BitVec.getLsbD_shiftLeft]
  by_cases less : i < 5
  · simp [less]
  · by_cases high : i < 30
    · simp [less, high, inside, show 5 ≤ i by omega]
    · simp [less, high, low (i - 5) (by omega)]

theorem next_spell {p : BitVec 32} (short : Short p) (k : ℕ) :
    next (p >>> (5 * (k + 1))) ^^^ ((p >>> (5 * k)) &&& 31#32) = p >>> (5 * k) := by
  have low : ∀ i, 25 ≤ i → (p >>> (5 * (k + 1))).getLsbD i = false := by
    intro i high
    rw [BitVec.getLsbD_ushiftRight]
    exact short _ (by omega)
  rw [next_of_low low]
  apply BitVec.eq_of_getLsbD_eq
  intro i inside
  have mask : (31#32).getLsbD i = decide (i < 5) := by
    rw [BitVec.getLsbD_ofNat, show (31 : ℕ) = 2 ^ 5 - 1 by rfl, Nat.testBit_two_pow_sub_one]
    simp [inside]
  rw [BitVec.getLsbD_xor, BitVec.getLsbD_shiftLeft, BitVec.getLsbD_and, BitVec.getLsbD_ushiftRight,
    BitVec.getLsbD_ushiftRight, mask]
  by_cases less : i < 5
  · simp [less]
  · simp [less, inside, show 5 * (k + 1) + (i - 5) = 5 * k + i by omega]

theorem remainder_spell {p : BitVec 32} (short : Short p) :
    remainder next 0#32 ((List.range 6).map fun i => (p >>> (5 * (5 - i))) &&& 31#32) = p := by
  have first : p >>> (5 * 6) = 0#32 := by
    apply BitVec.eq_of_getLsbD_eq
    intro i inside
    rw [BitVec.getLsbD_ushiftRight, BitVec.getLsbD_zero]
    exact short _ (by omega)
  have spelled := fun k => next_spell short k
  simp only [remainder, List.range_succ, List.range_zero, List.nil_append, List.map_append,
    List.map_cons, List.map_nil, List.foldl_append, List.foldl_cons, List.foldl_nil]
  rw [← first, spelled 5, spelled 4, spelled 3, spelled 2, spelled 1, spelled 0]
  rfl

end Code

section Checksum

theorem length_checksum (s : List Char) (data : List ℕ) :
    (bech32CreateChecksum s data).length = 6 := by
  rw [bech32CreateChecksum, List.length_map, List.length_range]

theorem checksum_lt {s : List Char} {data : List ℕ} :
    ∀ v ∈ bech32CreateChecksum s data, v < 32 := by
  intro v mem
  obtain ⟨i, -, rfl⟩ := List.mem_map.mp mem
  rw [BitVec.toNat_and]
  exact Nat.lt_succ_of_le Nat.and_le_right

theorem short_checked (values : List ℕ) :
    Short (bech32Polymod (values ++ List.replicate 6 0) ^^^ 1#32) := by
  apply Short.xor
  · rw [bech32Polymod, List.replicate_succ', ← List.append_assoc, List.foldl_append,
      List.foldl_cons, List.foldl_nil]
    exact Short.step (by decide)
  · exact short_symbol (by decide)

theorem polymod_checksum (s : List Char) (data : List ℕ) :
    bech32Polymod (bech32HrpExpand s ++ data ++ bech32CreateChecksum s data) = 1#32 := by
  have short := short_checked (bech32HrpExpand s ++ data)
  have zeros : bech32Polymod (bech32HrpExpand s ++ data ++ List.replicate 6 0) =
      remainder next ((bech32HrpExpand s ++ data).foldl polymodStep 1#32) (List.replicate 6 0) := by
    rw [bech32Polymod, List.foldl_append, polymod_eq_remainder, List.map_replicate]
    rfl
  have symbols : (bech32CreateChecksum s data).map (BitVec.ofNat 32) =
      (List.range 6).map fun i =>
        ((bech32Polymod (bech32HrpExpand s ++ data ++ List.replicate 6 0) ^^^ 1#32) >>>
          (5 * (5 - i))) &&& 31#32 := by
    rw [bech32CreateChecksum, List.map_map]
    apply List.map_congr_left
    intro i mem
    exact BitVec.ofNat_toNat 32 _ |>.trans (BitVec.setWidth_eq _)
  rw [bech32Polymod, List.foldl_append, polymod_eq_remainder, symbols]
  apply remainder_checked next_xor
  rw [remainder_spell short, zeros, List.length_map, List.length_range]

end Checksum

section Address

/-- The text is the prefix, the separator, the version, the groups of five bits that have the bits
of the hash, and a checksum that verifies. -/
def Encodes (addr : Address) : Prop :=
  ∃ groups checksum : List ℕ, groups.length = 32 ∧ checksum.length = 6 ∧
    (∀ v ∈ 0 :: groups ++ checksum, v < 32) ∧
    numeral 32 groups = numeral 256 ((keyHash addr).map UInt8.toNat) ∧
    (bc1 addr).str = hrp ++ '1' :: (0 :: groups ++ checksum).map letter ∧
    bech32Polymod (bech32HrpExpand hrp ++ (0 :: groups ++ checksum)) = 1#32

/-- Every access of the conversion is to an element of its array. -/
def InBounds (addr : Address) : Prop := ∀ a ∈ (bc1 addr).accesses, a.2 < a.1.size

/-- The texts of other hashes are as long and differ in two symbols or more. -/
def Separated (addr : Address) : Prop :=
  ∀ other : Address, keyHash other ≠ keyHash addr →
    (bc1 other).str.length = (bc1 addr).str.length ∧
      2 ≤ distance (bc1 addr).str (bc1 other).str

structure Meets (addr : Address) : Prop where
  encodes : Encodes addr
  inBounds : InBounds addr
  separated : Separated addr

theorem length_keyHash (addr : Address) : (keyHash addr).length = 20 := by
  rw [keyHash, List.length_take, List.length_drop, addr.property]
  rfl

theorem byte_lt (bytes : List UInt8) : ∀ d ∈ bytes.map UInt8.toNat, d < 256 := by
  intro d mem
  obtain ⟨v, -, rfl⟩ := List.mem_map.mp mem
  exact UInt8.toNat_lt v

theorem regrouped (addr : Address) :
    ∃ groups : List ℕ, groups.length = 32 ∧ (∀ v ∈ groups, v < 32) ∧
      (regroup addr (start addr)).values = 0 :: groups ∧
      numeral 32 groups = numeral 256 ((keyHash addr).map UInt8.toNat) ∧
      (regroup addr (start addr)).str = hrp ++ '1' :: (0 :: groups).map letter ∧
      Visited (regroup addr (start addr)) := by
  obtain ⟨sound, visited, done⟩ := regroup_spec (Regrouped.start addr) (Visited.start addr)
    (Nat.zero_le _)
  have bits := sound.bits
  have count := sound.count
  have bytes := sound.bytes
  obtain ⟨u, below, -, told⟩ := sound.window
  have empty : (regroup addr (start addr)).wi = 0 := by omega
  have all : (regroup addr (start addr)).i = 20 := by omega
  have length : (regroup addr (start addr)).values.length = 33 := by omega
  rw [empty] at below told
  obtain rfl : u = 0 := by omega
  rw [Nat.pow_zero, Nat.mul_one, Nat.add_zero, all] at told
  obtain ⟨head, groups, values⟩ := List.exists_cons_of_length_eq_add_one length
  rw [values, List.length_cons, Nat.succ.injEq] at length
  have small := sound.small
  rw [values] at small told
  have less := numeral_lt (b := 256) (by decide) (byte_lt (keyHash addr))
  have bound : head * 32 ^ 32 < 32 ^ 32 := by
    rw [List.length_map, length_keyHash] at less
    calc head * 32 ^ 32 ≤ numeral 32 (head :: groups) := by
          rw [numeral_cons, length]
          exact Nat.le_add_right _ _
      _ < 256 ^ 20 := by
          rw [told]
          exact less
      _ = 32 ^ 32 := by norm_num
  have version : head = 0 := by
    by_contra nonzero
    exact absurd bound (Nat.not_lt.mpr (Nat.le_mul_of_pos_left _ (Nat.pos_of_ne_zero nonzero)))
  rw [version] at values told
  refine ⟨groups, length, ?_, values, ?_, ?_, visited⟩
  · intro v mem
    exact small v (List.mem_cons_of_mem head mem)
  · rw [← keyHash] at told
    rw [← told, numeral_cons, Nat.zero_mul, Nat.zero_add]
  · rw [sound.text, values, List.append_assoc]
    rfl

theorem bc1_encodes (addr : Address) : Encodes addr := by
  obtain ⟨groups, length, small, values, told, text, -⟩ := regrouped addr
  refine ⟨groups, bech32CreateChecksum hrp (0 :: groups), length, length_checksum _ _, ?_, told, ?_,
    ?_⟩
  · intro v mem
    rcases List.mem_append.mp mem with data | check
    · rcases List.mem_cons.mp data with rfl | group
      · decide
      · exact small v group
    · exact checksum_lt v check
  · rw [bc1]
    dsimp only
    rw [values, text, List.append_assoc, List.cons_append, List.map_append]
  · rw [← List.append_assoc]
    exact polymod_checksum hrp (0 :: groups)

theorem expand_lt : ∀ v ∈ bech32HrpExpand hrp, v < 32 := by decide

theorem letter_inj : ∀ v < 32, ∀ v' < 32, letter v = letter v' → v = v' := by decide

theorem bc1_separated (addr : Address) : Separated addr := by
  intro other apart
  obtain ⟨groups, checksum, length, length', small, told, text, valid⟩ := bc1_encodes addr
  obtain ⟨groups₁, checksum₁, length₁, length₁', small₁, told₁, text₁, valid₁⟩ := bc1_encodes other
  have lengths : (0 :: groups ++ checksum).length = (0 :: groups₁ ++ checksum₁).length := by
    rw [List.length_append, List.length_append, List.length_cons, List.length_cons, length, length',
      length₁, length₁']
  have differ : 0 :: groups ++ checksum ≠ 0 :: groups₁ ++ checksum₁ := by
    intro equal
    have data := (List.append_inj equal (by rw [List.length_cons, List.length_cons, length,
      length₁])).1
    have same : numeral 256 ((keyHash other).map UInt8.toNat) =
        numeral 256 ((keyHash addr).map UInt8.toNat) := by
      rw [← told, ← told₁, (List.cons.inj data).2]
    have bytes := numeral_inj (by decide) (by simp only [List.length_map, length_keyHash])
      (byte_lt _) (byte_lt _) same
    exact apart (List.map_injective_iff.mpr (fun _ _ => UInt8.toNat_inj.mp) bytes)
  have places : distance (bc1 addr).str (bc1 other).str =
      distance (0 :: groups ++ checksum) (0 :: groups₁ ++ checksum₁) := by
    rw [text, text₁, distance_append rfl, distance_self, distance, if_pos rfl, distance_map]
    · omega
    · intro v mem v' mem' equal
      exact letter_inj v (small v mem) v' (small₁ v' mem') equal
  refine ⟨?_, ?_⟩
  · simp only [text, text₁, List.length_append, List.length_cons, List.length_map, lengths]
  · rw [places]
    by_contra few
    have cases : distance (0 :: groups ++ checksum) (0 :: groups₁ ++ checksum₁) = 0 ∨
        distance (0 :: groups ++ checksum) (0 :: groups₁ ++ checksum₁) = 1 := by omega
    rcases cases with none | one
    · exact differ (eq_of_distance_zero lengths none)
    · obtain ⟨front, x, y, back, unequal, first, second⟩ := exists_of_distance_one lengths one
      rw [first] at small valid
      rw [second] at small₁ valid₁
      have symbol := small₁ y (List.mem_append_right front List.mem_cons_self)
      have symbols : ∀ v ∈ (bech32HrpExpand hrp ++ front) ++ x :: back, v < 32 := by
        intro v mem
        rw [List.append_assoc] at mem
        rcases List.mem_append.mp mem with expanded | rest
        · exact expand_lt v expanded
        · exact small v rest
      apply polymod_ne_of_single unequal symbols symbol
      rw [List.append_assoc, List.append_assoc, valid, valid₁]

theorem bc1_accesses (addr : Address) : ∀ a ∈ (bc1 addr).accesses,
    a.2 < a.1.size ∨ a = (.values, 32) := by
  obtain ⟨groups, length, small, values, told, text, visited⟩ := regrouped addr
  have long : (regroup addr (start addr)).values.length = 33 := by
    rw [values, List.length_cons, length]
  have expanded : (bech32HrpExpand hrp).length < Buffer.hrpData.size := by decide
  have behind : ∀ k < 33, k < Buffer.values.size ∨ k = 32 := by decide
  intro a mem
  obtain ⟨buffer, k⟩ := a
  rcases List.mem_append.mp mem with loop | later
  · rcases visited.inside _ loop with within | ⟨rfl, less⟩
    · exact Or.inl within
    · rw [long] at less
      rcases behind k less with within | rfl
      · exact Or.inl within
      · exact Or.inr rfl
  · rcases List.mem_append.mp later with earlier | ofTable
    · rcases List.mem_append.mp earlier with copied | ofChk
      · rcases List.mem_append.mp copied with ofHrp | ofValues
        · obtain ⟨i, inside, equal⟩ := List.mem_map.mp ofHrp
          cases equal
          exact Or.inl ((List.mem_range.mp inside).trans expanded)
        · obtain ⟨i, inside, equal⟩ := List.mem_map.mp ofValues
          cases equal
          rw [List.mem_range, long] at inside
          rcases behind k inside with within | rfl
          · exact Or.inl within
          · exact Or.inr rfl
      · obtain ⟨i, inside, equal⟩ := List.mem_map.mp ofChk
        cases equal
        exact Or.inl (List.mem_range.mp inside)
    · obtain ⟨v, inside, equal⟩ := List.mem_map.mp ofTable
      cases equal
      exact Or.inl (checksum_lt k inside)

theorem bc1_overruns (addr : Address) :
    ((Buffer.values, 32) : Buffer × ℕ) ∈ (bc1 addr).accesses := by
  obtain ⟨groups, length, small, values, told, text, visited⟩ := regrouped addr
  apply List.mem_append_left
  apply visited.each
  rw [values, List.length_cons, length]
  decide

/-- Of every hash the text is the right one, and of none is it made within the arrays. -/
theorem bc1_never_in_bounds (addr : Address) :
    (Encodes addr ∧ Separated addr ∧
      ∀ a ∈ (bc1 addr).accesses, a.2 < a.1.size ∨ a = (.values, 32)) ∧ ¬ Meets addr := by
  refine ⟨⟨bc1_encodes addr, bc1_separated addr, bc1_accesses addr⟩, ?_⟩
  intro meets
  exact absurd (meets.inBounds _ (bc1_overruns addr)) (by decide)

def zeroAddress : Address := ⟨List.replicate 25 0, by decide⟩

theorem zero_overruns : ¬ Meets zeroAddress := fun meets =>
  absurd (meets.inBounds _ (bc1_overruns zeroAddress)) (by decide)

end Address


end Epilog.Ec.SegwitAddress
