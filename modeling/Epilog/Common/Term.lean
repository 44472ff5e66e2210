/- Module: Epilog/Common/Term
   source: src/src/common/term.hpp, src/src/common/term.cpp (cells)
   digest: Tagged 64-bit cells: tags, pointers, constants, integers and data headers. -/

import Epilog.Common.Bits
import Mathlib.Tactic.IntervalCases

set_option autoImplicit false

namespace Epilog.Common.Term

abbrev Bytes := List UInt8

/-- `tag_t::kind_t` -/
inductive Tag
  | REF | RFW | INT | BIG | CON | STR | DAT | FWD
  deriving DecidableEq, Repr

namespace Tag

def code : Tag → ℕ
  | REF => 0 | RFW => 1 | INT => 2 | BIG => 3 | CON => 4 | STR => 5 | DAT => 6 | FWD => 7

/-- The tag in the lower three bits. -/
def ofCode : ℕ → Tag
  | 0 => REF | 1 => RFW | 2 => INT | 3 => BIG | 4 => CON | 5 => STR | 6 => DAT | _ => FWD

def isRef (t : Tag) : Bool := t = REF ∨ t = RFW

@[simp] theorem ofCode_code (t : Tag) : ofCode t.code = t := by cases t <;> rfl

theorem code_lt (t : Tag) : t.code < 8 := by cases t <;> decide

@[simp] theorem code_ofCode {k : ℕ} (small : k < 8) : (ofCode k).code = k := by
  interval_cases k <;> rfl

end Tag

/-- A cell: three bits of tag below 61 bits of value. -/
structure Cell where
  raw : BitVec 64
  deriving DecidableEq, Repr

namespace Cell

/-- `cell(tag, value)` -/
def make (t : Tag) (v : ℕ) : Cell := ⟨BitVec.ofNat 64 (8 * v + t.code)⟩

def tag (c : Cell) : Tag := Tag.ofCode (c.raw.toNat % 8)

def value (c : Cell) : ℕ := c.raw.toNat / 8

/-- `index` of a pointer cell -/
abbrev index (c : Cell) : ℕ := c.value

/-- `set_value`, `set_index` -/
def setValue (c : Cell) (v : ℕ) : Cell := make c.tag v

def unwatch (c : Cell) : Cell := make .REF c.index

theorem value_lt (c : Cell) : c.value < 2 ^ 61 := by
  have bound := c.raw.isLt
  unfold value
  omega

@[simp] theorem tag_make (t : Tag) (v : ℕ) : (make t v).tag = t := by
  have small := t.code_lt
  have low : (make t v).raw.toNat % 8 = t.code := by
    simp only [make, BitVec.toNat_ofNat]
    omega
  rw [tag, low, Tag.ofCode_code]

theorem value_make (t : Tag) (v : ℕ) : (make t v).value = v % 2 ^ 61 := by
  have small := t.code_lt
  simp only [value, make, BitVec.toNat_ofNat]
  omega

theorem value_make_of_lt (t : Tag) {v : ℕ} (fits : v < 2 ^ 61) : (make t v).value = v := by
  rw [value_make, Nat.mod_eq_of_lt fits]

@[simp] theorem make_tag_value (c : Cell) : make c.tag c.value = c := by
  obtain ⟨raw⟩ := c
  simp only [make, tag, value, Cell.mk.injEq]
  apply BitVec.eq_of_toNat_eq
  rw [BitVec.toNat_ofNat, Tag.code_ofCode (Nat.mod_lt _ (by omega))]
  have bound := raw.isLt
  omega

section Con

/-- `is_direct`: the name is in the cell. -/
def isDirect (c : Cell) : Bool := c.value / 2 ^ 60 % 2 = 1

/-- `arity` of a constant: 5 bits in a direct cell, 12 otherwise. -/
def arity (c : Cell) : ℕ := if c.isDirect then c.value % 2 ^ 5 else c.value % 2 ^ 12

/-- `to_atom` clears the lowest five bits of the value. -/
def toAtom (c : Cell) : Cell := c.setValue (c.value - c.value % 2 ^ 5)

def atomIndex (c : Cell) : ℕ := c.value / 2 ^ 13

def conOfIndex (atomIndex arity : ℕ) : Cell :=
  make .CON (BitVec.ofNat 64 (atomIndex * 2 ^ 13) ||| BitVec.ofNat 64 arity).toNat

/-- `con_cell(name, arity)`: up to seven characters and an arity of at most 31. -/
def conOfName (name : Bytes) (arity : ℕ) : Cell :=
  let chars := name.zipIdx.foldl
    (fun v (ch, i) => v ||| (BitVec.ofNat 64 (ch.toNat % 128 + 128) <<< (53 - i * 8)))
    (BitVec.ofNat 64 (2 ^ 60))
  make .CON (chars ||| BitVec.ofNat 64 arity).toNat

theorem value_conOfIndex {index arity : ℕ} (few : index < 2 ^ 47) (small : arity < 2 ^ 13) :
    (conOfIndex index arity).value = index * 2 ^ 13 + arity := by
  have fits : index * 2 ^ 13 + arity < 2 ^ 61 := by omega
  have width : index * 2 ^ 13 < 2 ^ 64 ∧ arity < 2 ^ 64 := by omega
  have disjoint : index * 2 ^ 13 ||| arity = index * 2 ^ 13 + arity := by
    rw [Nat.mul_comm, Nat.two_pow_add_eq_or_of_lt small]
  rw [conOfIndex, BitVec.toNat_or, BitVec.toNat_ofNat, BitVec.toNat_ofNat,
    Nat.mod_eq_of_lt width.1, Nat.mod_eq_of_lt width.2, disjoint]
  exact value_make_of_lt .CON fits

@[simp] theorem tag_conOfIndex (index arity : ℕ) : (conOfIndex index arity).tag = .CON :=
  tag_make _ _

theorem isDirect_conOfIndex {index arity : ℕ} (few : index < 2 ^ 47) (small : arity < 2 ^ 13) :
    (conOfIndex index arity).isDirect = false := by
  rw [isDirect, value_conOfIndex few small]
  simp only [decide_eq_false_iff_not]
  omega

theorem arity_conOfIndex {index arity : ℕ} (few : index < 2 ^ 47) (small : arity < 2 ^ 12) :
    (conOfIndex index arity).arity = arity := by
  rw [Cell.arity, isDirect_conOfIndex few (by omega), value_conOfIndex few (by omega)]
  simp only [Bool.false_eq_true, if_false]
  omega

theorem atomIndex_conOfIndex {index arity : ℕ} (few : index < 2 ^ 47) (small : arity < 2 ^ 12) :
    (conOfIndex index arity).atomIndex = index := by
  rw [atomIndex, value_conOfIndex few (by omega)]
  omega

theorem arity_conOfIndex_zero (index : ℕ) : (conOfIndex index 0).arity = 0 := by
  have zero : (BitVec.ofNat 64 (index * 2 ^ 13) ||| BitVec.ofNat 64 0).toNat =
      index * 2 ^ 13 % 2 ^ 64 := by
    rw [BitVec.toNat_or, BitVec.toNat_ofNat, BitVec.toNat_ofNat]
    simp
  unfold Cell.arity
  rw [conOfIndex, zero, value_make]
  split_ifs <;> omega

def useCompacted (name : Bytes) (arity : ℕ) : Bool := name.length ≤ 7 ∧ arity ≤ 31

def ascii (text : String) : Bytes := text.toList.map fun ch => UInt8.ofNat ch.toNat

def EMPTY_LIST : Cell := conOfName (ascii "[]") 0

def COIN : Cell := conOfName (ascii "$coin") 2

end Con

section Dat

/-- `num_bits` of a data header -/
def numBits (c : Cell) : ℕ := c.value % 2 ^ 29

def numHalfCells (c : Cell) : ℕ := 1 + (c.numBits + 31) / 32

/-- `num_cells`: the header and the data cells after it -/
def numCells (c : Cell) : ℕ := (c.numHalfCells + 1) / 2

theorem numCells_pos (c : Cell) : 0 < c.numCells := by
  unfold numCells numHalfCells
  omega

end Dat

end Cell

end Epilog.Common.Term
