/- Module: Epilog/Common/AtomPacking
   source: src/src/common/term.hpp, src/src/common/term.cpp (con_cell, functor, to_atom, to_functor)
   digest: Constants as cells: names packed into the cell or numbered in the atom tables. -/

import Epilog.Common.TermWalk
import Mathlib.Tactic.Ring

set_option autoImplicit false

namespace Epilog.Common.AtomPacking

open Epilog.Common.Term Epilog.Common.Heap Epilog.Common.TermWalk Epilog.Lib.FiniteMap

def MAX_ARITY : ℕ := 8192 - 1

def MAX_NAME_LENGTH : ℕ := 256

section Source

/-- `heap::functor(name, arity)`; there is no result where an assertion fails. -/
def functorOf (env : TermEnv) (name : Bytes) (arity : ℕ) : Option (Cell × TermEnv) :=
  if 7 < name.length then
    if name.length < MAX_NAME_LENGTH then
      let (index, env) := env.resolveAtomIndex name
      some (Cell.conOfIndex index arity, env)
    else none
  else if Cell.useCompacted name arity then some (Cell.conOfName name arity, env)
  else none

def toAtom (env : TermEnv) (c : Cell) : Option (Cell × TermEnv) :=
  if c.isDirect then some (c.toAtom, env) else functorOf env (atomName env c) 0

def toFunctor (env : TermEnv) (atom : Cell) (arity : ℕ) : Option (Cell × TermEnv) :=
  if 32 ≤ arity then functorOf env (atomName env atom) arity
  else if atom.isDirect then some (atom.setValue (atom.value ||| arity), env)
  else functorOf env (atomName env atom) arity

end Source

section Packed

/-- The characters of a name as the digits of a number, each with its high bit set. -/
def packed (m : ℕ) (name : Bytes) : ℕ :=
  name.foldl (fun m ch => m * 256 + (ch.toNat % 128 + 128)) m

theorem packed_cons (m : ℕ) (ch : UInt8) (name : Bytes) :
    packed m (ch :: name) = packed (m * 256 + (ch.toNat % 128 + 128)) name := rfl

theorem packed_eq (m : ℕ) (name : Bytes) :
    packed m name = m * 256 ^ name.length + packed 0 name := by
  induction name generalizing m with
  | nil => simp [packed]
  | cons ch name ih =>
    rw [packed_cons, packed_cons, ih, ih (0 * 256 + _), List.length_cons, pow_succ]
    ring

theorem packed_lt (name : Bytes) : packed 0 name < 256 ^ name.length := by
  induction name with
  | nil => simp [packed]
  | cons ch name ih =>
    rw [packed_cons, packed_eq, List.length_cons, pow_succ]
    have digit : ch.toNat % 128 + 128 ≤ 255 := by omega
    calc (0 * 256 + (ch.toNat % 128 + 128)) * 256 ^ name.length + packed 0 name
        < (0 * 256 + (ch.toNat % 128 + 128)) * 256 ^ name.length + 256 ^ name.length := by omega
      _ = (ch.toNat % 128 + 128 + 1) * 256 ^ name.length := by ring
      _ ≤ 256 * 256 ^ name.length := Nat.mul_le_mul_right _ (by omega)
      _ = 256 ^ name.length * 256 := Nat.mul_comm _ _

theorem packed_div (m : ℕ) (front back : Bytes) :
    packed m (front ++ back) / 256 ^ back.length = packed m front := by
  have split : packed m (front ++ back) = packed (packed m front) back := by
    unfold packed
    rw [List.foldl_append]
  rw [split, packed_eq, Nat.add_comm, Nat.add_mul_div_right _ _ (by positivity),
    Nat.div_eq_of_lt (packed_lt back), Nat.zero_add]

private theorem or_char {m i ch : ℕ} (room : i ≤ 6) (small : m < 256 ^ i) (byte : ch < 256) :
    BitVec.ofNat 64 (m * 2 ^ (61 - 8 * i)) ||| (BitVec.ofNat 64 ch <<< (53 - i * 8)) =
      BitVec.ofNat 64 ((m * 256 + ch) * 2 ^ (61 - 8 * (i + 1))) := by
  have lanes : 61 - 8 * (i + 1) = 53 - i * 8 := by omega
  have wide : 61 - 8 * i = 53 - i * 8 + 8 := by omega
  have below : m * 256 + ch < 2 ^ (8 * i + 8) := by
    rw [pow_add, pow_mul]
    norm_num
    omega
  have fits : (m * 256 + ch) * 2 ^ (53 - i * 8) < 2 ^ 64 :=
    calc (m * 256 + ch) * 2 ^ (53 - i * 8) < 2 ^ (8 * i + 8) * 2 ^ (53 - i * 8) :=
        Nat.mul_lt_mul_of_pos_right below (by positivity)
      _ = 2 ^ 61 := by rw [← pow_add]; congr 1; omega
      _ < 2 ^ 64 := by norm_num
  have disjoint : m * 256 * 2 ^ (53 - i * 8) ||| ch * 2 ^ (53 - i * 8) =
      (m * 256 + ch) * 2 ^ (53 - i * 8) := by
    rw [← Nat.shiftLeft_eq, ← Nat.shiftLeft_eq, ← Nat.shiftLeft_or_distrib, Nat.shiftLeft_eq,
      show m * 256 = 2 ^ 8 * m by omega, ← Nat.two_pow_add_eq_or_of_lt byte]
  apply BitVec.eq_of_toNat_eq
  have high : m * 256 * 2 ^ (53 - i * 8) < 2 ^ 64 := by
    refine lt_of_le_of_lt (Nat.mul_le_mul_right _ (Nat.le_add_right _ _)) fits
  have low : ch * 2 ^ (53 - i * 8) < 2 ^ 64 := by
    refine lt_of_le_of_lt (Nat.mul_le_mul_right _ (Nat.le_add_left _ _)) fits
  rw [BitVec.toNat_or, BitVec.toNat_shiftLeft, BitVec.toNat_ofNat, BitVec.toNat_ofNat,
    BitVec.toNat_ofNat, lanes, wide, pow_add, Nat.shiftLeft_eq,
    Nat.mod_eq_of_lt (show ch < 2 ^ 64 by omega), Nat.mod_eq_of_lt low,
    show m * (2 ^ (53 - i * 8) * 2 ^ 8) = m * 256 * 2 ^ (53 - i * 8) by ring,
    Nat.mod_eq_of_lt high, Nat.mod_eq_of_lt fits, disjoint]

private theorem foldl_chars (name : Bytes) {i m : ℕ} (room : i + name.length ≤ 7)
    (small : m < 256 ^ i) :
    (name.zipIdx i).foldl
        (fun v (ch, i) => v ||| (BitVec.ofNat 64 (ch.toNat % 128 + 128) <<< (53 - i * 8)))
        (BitVec.ofNat 64 (m * 2 ^ (61 - 8 * i))) =
      BitVec.ofNat 64 (packed m name * 2 ^ (61 - 8 * (i + name.length))) := by
  induction name generalizing i m with
  | nil => rfl
  | cons ch name ih =>
    rw [List.length_cons] at room
    have digit : ch.toNat % 128 + 128 < 256 := by omega
    have next : m * 256 + (ch.toNat % 128 + 128) < 256 ^ (i + 1) := by
      rw [pow_succ]
      omega
    rw [List.zipIdx_cons, List.foldl_cons]
    dsimp only
    rw [or_char (by omega) small digit, ih (by omega) next, packed_cons,
      List.length_cons, show i + 1 + name.length = i + (name.length + 1) by omega]

private theorem or_first {ch : ℕ} (high : 128 ≤ ch) (byte : ch < 256) :
    BitVec.ofNat 64 (2 ^ 60) ||| (BitVec.ofNat 64 ch <<< (53 - 0 * 8)) =
      BitVec.ofNat 64 (ch * 2 ^ (61 - 8 * 1)) := by
  interval_cases ch <;> decide

theorem value_conOfName {name : Bytes} {arity : ℕ} (named : name ≠ [])
    (short : name.length ≤ 7) (small : arity ≤ 31) :
    (Cell.conOfName name arity).value = packed 0 name * 2 ^ (61 - 8 * name.length) + arity := by
  obtain ⟨ch, rest, rfl⟩ := List.exists_cons_of_ne_nil named
  rw [List.length_cons] at short
  have digit : ch.toNat % 128 + 128 < 256 := by omega
  have chars := foldl_chars rest (i := 1) (by omega) (by simpa using digit)
  have lane : 61 - 8 * (rest.length + 1) = 5 + 8 * (6 - rest.length) := by omega
  have bound : packed 0 (ch :: rest) * 2 ^ (61 - 8 * (rest.length + 1)) + arity < 2 ^ 61 := by
    have below := packed_lt (ch :: rest)
    rw [List.length_cons] at below
    have total : 256 ^ (rest.length + 1) * 2 ^ (61 - 8 * (rest.length + 1)) = 2 ^ 61 := by
      rw [show (256 : ℕ) = 2 ^ 8 by norm_num, ← pow_mul, ← pow_add]
      congr 1
      omega
    have room : 32 ≤ 2 ^ (61 - 8 * (rest.length + 1)) := by
      rw [lane, pow_add]
      exact Nat.le_mul_of_pos_right _ (by positivity)
    have step := Nat.mul_le_mul_right (2 ^ (61 - 8 * (rest.length + 1))) below
    rw [Nat.succ_mul, total] at step
    omega
  have disjoint : packed 0 (ch :: rest) * 2 ^ (61 - 8 * (rest.length + 1)) ||| arity =
      packed 0 (ch :: rest) * 2 ^ (61 - 8 * (rest.length + 1)) + arity := by
    rw [Nat.mul_comm, Nat.two_pow_add_eq_or_of_lt]
    rw [lane, pow_add]
    exact lt_of_lt_of_le (show arity < 2 ^ 5 by omega)
      (Nat.le_mul_of_pos_right _ (by positivity))
  rw [Cell.conOfName, List.zipIdx_cons, List.foldl_cons]
  dsimp only
  rw [or_first (by omega) digit, chars,
    show packed (ch.toNat % 128 + 128) rest = packed 0 (ch :: rest) by
      rw [packed_cons, Nat.zero_mul, Nat.zero_add],
    Nat.add_comm 1, List.length_cons, BitVec.toNat_or, BitVec.toNat_ofNat, BitVec.toNat_ofNat,
    Nat.mod_eq_of_lt (by omega), Nat.mod_eq_of_lt (by omega), disjoint]
  exact Cell.value_make_of_lt .CON bound

end Packed

section Unpacked

variable {name : Bytes} {arity : ℕ}

private theorem value_div (named : name ≠ []) (short : name.length ≤ 7) (small : arity ≤ 31) :
    (Cell.conOfName name arity).value / 2 ^ (61 - 8 * name.length) = packed 0 name := by
  have room : 2 ^ 5 ≤ 2 ^ (61 - 8 * name.length) := Nat.pow_le_pow_right (by norm_num) (by omega)
  rw [value_conOfName named short small, Nat.add_comm,
    Nat.add_mul_div_right _ _ (by positivity), Nat.div_eq_of_lt (by omega), Nat.zero_add]

private theorem name_byte (short : name.length ≤ 7) (small : arity ≤ 31) {j : ℕ}
    (inside : j < name.length) :
    (Cell.conOfName name arity).value / 2 ^ (53 - j * 8) % 256 =
      name[j].toNat % 128 + 128 := by
  have named : name ≠ [] := List.ne_nil_of_length_pos (by omega)
  have lane : 53 - j * 8 = 61 - 8 * name.length + 8 * (name.length - (j + 1)) := by omega
  have parts := packed_div 0 (name.take (j + 1)) (name.drop (j + 1))
  rw [List.take_append_drop, List.length_drop] at parts
  rw [lane, pow_add, ← Nat.div_div_eq_div_mul, value_div named short small, pow_mul,
    show (2 : ℕ) ^ 8 = 256 by norm_num, parts, List.take_succ_eq_append_getElem inside, packed,
    List.foldl_append, List.foldl_cons, List.foldl_nil]
  omega

private theorem name_byte_after (arity : ℕ) (named : name ≠ []) (small : arity ≤ 31)
    (short : name.length < 7) :
    (Cell.conOfName name arity).value / 2 ^ (53 - name.length * 8) % 256 = 0 := by
  have lane : 61 - 8 * name.length = 8 + (53 - name.length * 8) := by omega
  have room : 2 ^ 5 ≤ 2 ^ (53 - name.length * 8) := Nat.pow_le_pow_right (by norm_num) (by omega)
  rw [value_conOfName named short.le small, lane, pow_add, Nat.add_comm, ← Nat.mul_assoc,
    Nat.add_mul_div_right _ _ (by positivity), Nat.div_eq_of_lt (by omega)]
  omega

theorem name_conOfName (named : name ≠ []) (short : name.length ≤ 7) (small : arity ≤ 31) :
    TermWalk.name (Cell.conOfName name arity) =
      name.map fun ch => UInt8.ofNat (ch.toNat % 128) := by
  have inside : (List.range name.length).map
      (fun i => (Cell.conOfName name arity).value / 2 ^ (53 - i * 8) % 256) =
      name.map fun ch => ch.toNat % 128 + 128 := by
    apply List.ext_getElem
    · simp
    · intro j below _
      have found := name_byte short small (j := j) (by simpa using below)
      simpa using found
  have stops : ((List.range (7 - name.length)).map fun i =>
      (Cell.conOfName name arity).value / 2 ^ (53 - (name.length + i) * 8) % 256).takeWhile
        (128 ≤ ·) = [] := by
    cases left : 7 - name.length with
    | zero => rfl
    | succ k =>
      have last := name_byte_after arity named small (by omega)
      rw [List.range_succ_eq_map, List.map_cons, Nat.add_zero, last]
      rfl
  have chars : (((List.range 7).map fun i =>
      (Cell.conOfName name arity).value / 2 ^ (53 - i * 8) % 256).takeWhile (128 ≤ ·)) =
      name.map fun ch => ch.toNat % 128 + 128 := by
    rw [show 7 = name.length + (7 - name.length) by omega, List.range_add, List.map_append,
      inside, List.map_map, List.takeWhile_append_of_pos (by simp)]
    simp only [Function.comp_def, stops, List.append_nil]
  rw [TermWalk.name, chars, List.map_map]
  apply List.map_congr_left
  intro ch _
  simp only [Function.comp_apply]
  congr 1
  omega

theorem isDirect_conOfName (named : name ≠ []) (short : name.length ≤ 7) (small : arity ≤ 31) :
    (Cell.conOfName name arity).isDirect = true := by
  have first := name_byte short small (List.length_pos_iff.2 named)
  have bound := (Cell.conOfName name arity).value_lt
  simp only [Cell.isDirect, decide_eq_true_eq]
  omega

theorem arity_conOfName (named : name ≠ []) (short : name.length ≤ 7) (small : arity ≤ 31) :
    (Cell.conOfName name arity).arity = arity := by
  have lane : 61 - 8 * name.length = 56 - 8 * name.length + 5 := by omega
  rw [Cell.arity, isDirect_conOfName named short small, if_pos rfl,
    value_conOfName named short small, lane, pow_add, ← Nat.mul_assoc]
  omega

theorem name_conOfName_eq_iff (named : name ≠ []) (short : name.length ≤ 7) (small : arity ≤ 31) :
    TermWalk.name (Cell.conOfName name arity) = name ↔ ∀ ch ∈ name, ch.toNat < 128 := by
  rw [name_conOfName named short small]
  constructor
  · intro same ch inside
    rw [← same] at inside
    obtain ⟨old, _, rfl⟩ := List.mem_map.1 inside
    rw [UInt8.toNat_ofNat']
    omega
  · intro ascii
    calc name.map (fun ch => UInt8.ofNat (ch.toNat % 128)) = name.map id := by
          apply List.map_congr_left
          intro ch inside
          rw [Nat.mod_eq_of_lt (ascii ch inside), UInt8.ofNat_toNat, id]
      _ = name := List.map_id name

theorem name_conOfName_nil (small : arity ≤ 31) :
    TermWalk.name (Cell.conOfName [] arity) = [0] := by
  interval_cases arity <;> decide

theorem length_name_le (c : Cell) : (TermWalk.name c).length ≤ 7 := by
  rw [TermWalk.name, List.length_map]
  refine (List.takeWhile_prefix _).length_le.trans ?_
  rw [List.length_map, List.length_range]

end Unpacked

section Indexed

theorem value_conOfIndex_mod (index : ℕ) {arity : ℕ} (small : arity < 2 ^ 13) :
    (Cell.conOfIndex index arity).value = (index * 2 ^ 13 + arity) % 2 ^ 61 := by
  have high : index * 2 ^ 13 % 2 ^ 64 = 2 ^ 13 * (index % 2 ^ 51) := by omega
  have disjoint : 2 ^ 13 * (index % 2 ^ 51) ||| arity = 2 ^ 13 * (index % 2 ^ 51) + arity :=
    (Nat.two_pow_add_eq_or_of_lt small _).symm
  rw [Cell.conOfIndex, BitVec.toNat_or, BitVec.toNat_ofNat, BitVec.toNat_ofNat, high,
    Nat.mod_eq_of_lt (show arity < 2 ^ 64 by omega), disjoint, Cell.value_make]
  omega

theorem atomName_conOfIndex {env : TermEnv} {index arity : ℕ} (few : index < 2 ^ 47)
    (small : arity < 2 ^ 12) :
    atomName env (Cell.conOfIndex index arity) = (env.atomIndexToName.lookup index).getD [] := by
  rw [atomName, Cell.isDirect_conOfIndex few (by omega), if_neg Bool.false_ne_true,
    Cell.atomIndex_conOfIndex few small]

theorem indexed_iff {env : TermEnv} (ok : env.AtomsOk) {name : Bytes} {index arity : ℕ}
    (known : env.atomNameToIndex.lookup name = some index) (long : 7 < name.length)
    (small : arity < 2 ^ 13) :
    atomName env (Cell.conOfIndex index arity) = name ∧
        (Cell.conOfIndex index arity).arity = arity ↔
      arity < 2 ^ 12 ∧ index < 2 ^ 47 := by
  have bits := value_conOfIndex_mod index small
  constructor
  · rintro ⟨sameName, sameArity⟩
    cases direct : (Cell.conOfIndex index arity).isDirect with
    | true =>
      rw [atomName, direct, if_pos rfl] at sameName
      have bound := length_name_le (Cell.conOfIndex index arity)
      rw [sameName] at bound
      omega
    | false =>
      have found : env.atomIndexToName.lookup (Cell.conOfIndex index arity).atomIndex =
          some name := by
        rw [atomName, direct, if_neg Bool.false_ne_true] at sameName
        cases entry : env.atomIndexToName.lookup (Cell.conOfIndex index arity).atomIndex with
        | none =>
          rw [entry, Option.getD_none] at sameName
          rw [← sameName] at long
          exact absurd long (by simp)
        | some other =>
          rw [entry, Option.getD_some] at sameName
          rw [sameName]
      have sameIndex : (Cell.conOfIndex index arity).atomIndex = index :=
        Option.some.inj (((ok.inverse _ _).2 found).symm.trans known)
      rw [Cell.arity, direct, if_neg Bool.false_ne_true, bits] at sameArity
      rw [Cell.atomIndex, bits] at sameIndex
      simp only [Cell.isDirect, bits, decide_eq_false_iff_not] at direct
      constructor <;> omega
  · rintro ⟨few12, few⟩
    refine ⟨?_, Cell.arity_conOfIndex few few12⟩
    rw [atomName_conOfIndex few few12, (ok.inverse _ _).1 known, Option.getD_some]

end Indexed

section Requests

/-- A constant reads as the given name and arity. -/
def Decodes (env : TermEnv) (c : Cell) (name : Bytes) (arity : ℕ) : Prop :=
  atomName env c = name ∧ c.arity = arity

/-- The calls of `functor` for a list of names and arities, one after the other. -/
def functors : TermEnv → List (Bytes × ℕ) → Option (List Cell × TermEnv)
  | env, [] => some ([], env)
  | env, (name, arity) :: rest => do
    let (c, env) ← functorOf env name arity
    let (cells, env) ← functors env rest
    return (c :: cells, env)

/-- The index that a name has or would get. -/
def indexFor (env : TermEnv) (name : Bytes) : ℕ :=
  (env.atomNameToIndex.lookup name).getD env.atomNameToIndex.keys.card

/-- What the two encodings have room for. -/
def Packable (env : TermEnv) (name : Bytes) (arity : ℕ) : Prop :=
  if 7 < name.length then arity < 2 ^ 12 ∧ indexFor env name < 2 ^ 47
  else name ≠ [] ∧ (∀ ch ∈ name, ch.toNat < 128) ∧ arity ≤ 31

/-- The tables after a request: a long name is known from then on. -/
def registered (env : TermEnv) (name : Bytes) : TermEnv :=
  if 7 < name.length then (env.resolveAtomIndex name).2 else env

/-- Each request finds room in the tables as they are then. -/
def AllPackable : TermEnv → List (Bytes × ℕ) → Prop
  | _, [] => True
  | env, (name, arity) :: rest => Packable env name arity ∧ AllPackable (registered env name) rest

/-- `to_atom` gives the constant of arity 0 with the same name, and `to_functor` leads back. -/
def Moves (env : TermEnv) (c : Cell) (name : Bytes) (arity : ℕ) : Prop :=
  ∃ atom, toAtom env c = some (atom, env) ∧ Decodes env atom name 0 ∧
    toFunctor env atom arity = some (c, env)

/-- The constants made for the requests read as what was asked for, are different for different
requests, and move between arity 0 and their arity. -/
def PackedRight (env : TermEnv) (requests : List (Bytes × ℕ)) : Prop :=
  ∃ cells last, functors env requests = some (cells, last) ∧
    List.Forall₂ (fun c r => Decodes last c r.1 r.2 ∧ Moves last c r.1 r.2) cells requests ∧
    ∀ i j : ℕ, requests[i]? ≠ requests[j]? → cells[i]? ≠ cells[j]?

end Requests

section Cells

variable {env : TermEnv} {name : Bytes} {arity : ℕ}

/-- The cell that `functor` makes for a request, seen with the tables of a later time. -/
inductive MadeIn (env : TermEnv) : Cell → Bytes × ℕ → Prop
  | direct {name : Bytes} {arity : ℕ} (short : ¬ 7 < name.length) (small : arity ≤ 31) :
      MadeIn env (Cell.conOfName name arity) (name, arity)
  | indexed {name : Bytes} {arity index : ℕ} (long : 7 < name.length)
      (fits : name.length < MAX_NAME_LENGTH)
      (known : env.atomNameToIndex.lookup name = some index) :
      MadeIn env (Cell.conOfIndex index arity) (name, arity)

/-- Every name known in the first tables has the same index in the second. -/
def Extends (env env' : TermEnv) : Prop :=
  ∀ name index, env.atomNameToIndex.lookup name = some index →
    env'.atomNameToIndex.lookup name = some index

theorem MadeIn.mono {env' : TermEnv} {c : Cell} {r : Bytes × ℕ} (made : MadeIn env c r)
    (grows : Extends env env') : MadeIn env' c r := by
  cases made with
  | direct short small => exact .direct short small
  | indexed long fits known => exact .indexed long fits (grows _ _ known)

theorem indexFor_of_known {index : ℕ} (known : env.atomNameToIndex.lookup name = some index) :
    indexFor env name = index := by
  rw [indexFor, known, Option.getD_some]

theorem resolveAtomIndex_fst (env : TermEnv) (name : Bytes) :
    (env.resolveAtomIndex name).1 = indexFor env name := by
  unfold TermEnv.resolveAtomIndex indexFor
  split
  case h_1 index known => rw [known, Option.getD_some]
  case h_2 fresh => rw [fresh, Option.getD_none]

theorem direct_iff (short : ¬ 7 < name.length) (small : arity ≤ 31) :
    Decodes env (Cell.conOfName name arity) name arity ↔
      name ≠ [] ∧ ∀ ch ∈ name, ch.toNat < 128 := by
  by_cases named : name = []
  · subst named
    constructor
    · rintro ⟨sameName, -⟩
      have direct : (Cell.conOfName [] arity).isDirect = true := by
        interval_cases arity <;> decide
      rw [atomName, direct, if_pos rfl, name_conOfName_nil small] at sameName
      exact absurd sameName (by simp)
    · exact fun packable => absurd rfl packable.1
  · have len : name.length ≤ 7 := by omega
    rw [Decodes, atomName, isDirect_conOfName named len small, if_pos rfl,
      arity_conOfName named len small, name_conOfName_eq_iff named len small]
    exact ⟨fun packed => ⟨named, packed.1⟩, fun packable => ⟨packable.2, rfl⟩⟩

theorem MadeIn.decodes_iff {c : Cell} {r : Bytes × ℕ} (made : MadeIn env c r) (ok : env.AtomsOk)
    (bound : r.2 ≤ MAX_ARITY) : Decodes env c r.1 r.2 ↔ Packable env r.1 r.2 := by
  cases made with
  | direct short small =>
    rw [direct_iff short small, Packable, if_neg short]
    exact ⟨fun packed => ⟨packed.1, packed.2, small⟩, fun packable => ⟨packable.1, packable.2.1⟩⟩
  | indexed long fits known =>
    have small : _ < 2 ^ 13 := lt_of_le_of_lt bound (by norm_num [MAX_ARITY])
    rw [Decodes, indexed_iff ok known long small, Packable, if_pos long, indexFor_of_known known]

private theorem tag_conOfName (name : Bytes) (arity : ℕ) :
    (Cell.conOfName name arity).tag = .CON := Cell.tag_make _ _

private theorem conOfName_eq (named : name ≠ []) (short : name.length ≤ 7) (small : arity ≤ 31) :
    Cell.conOfName name arity =
      Cell.make .CON (packed 0 name * 2 ^ (61 - 8 * name.length) + arity) := by
  rw [← value_conOfName named short small, ← tag_conOfName name arity, Cell.make_tag_value]

private theorem lane_eq (short : name.length ≤ 7) :
    packed 0 name * 2 ^ (61 - 8 * name.length) =
      2 ^ 5 * (packed 0 name * 2 ^ (56 - 8 * name.length)) := by
  rw [show 61 - 8 * name.length = 56 - 8 * name.length + 5 by omega, pow_add]
  ring

theorem direct_moves (named : name ≠ []) (short : name.length ≤ 7)
    (ascii : ∀ ch ∈ name, ch.toNat < 128) (small : arity ≤ 31) :
    Moves env (Cell.conOfName name arity) name arity := by
  have cleared : (Cell.conOfName name arity).toAtom = Cell.conOfName name 0 := by
    have low : 2 ^ 5 * (packed 0 name * 2 ^ (56 - 8 * name.length)) + arity -
        (2 ^ 5 * (packed 0 name * 2 ^ (56 - 8 * name.length)) + arity) % 2 ^ 5 =
        2 ^ 5 * (packed 0 name * 2 ^ (56 - 8 * name.length)) + 0 := by omega
    rw [Cell.toAtom, Cell.setValue, value_conOfName named short small, tag_conOfName,
      conOfName_eq named short (Nat.zero_le _), lane_eq short, low]
  refine ⟨Cell.conOfName name 0, ?_, ?_, ?_⟩
  · rw [toAtom, isDirect_conOfName named short small, if_pos rfl, cleared]
  · exact (direct_iff (by omega) (Nat.zero_le _)).2 ⟨named, ascii⟩
  · have set : (Cell.conOfName name 0).setValue ((Cell.conOfName name 0).value ||| arity) =
        Cell.conOfName name arity := by
      rw [conOfName_eq named short small, Cell.setValue, tag_conOfName,
        value_conOfName named short (Nat.zero_le _), Nat.add_zero, lane_eq short,
        ← Nat.two_pow_add_eq_or_of_lt (show arity < 2 ^ 5 by omega)]
    rw [toFunctor, if_neg (by omega), isDirect_conOfName named short (Nat.zero_le _), if_pos rfl,
      set]

theorem functorOf_known {index : ℕ} (long : 7 < name.length)
    (fits : name.length < MAX_NAME_LENGTH)
    (known : env.atomNameToIndex.lookup name = some index) (arity : ℕ) :
    functorOf env name arity = some (Cell.conOfIndex index arity, env) := by
  have same : env.resolveAtomIndex name = (index, env) := by
    rw [TermEnv.resolveAtomIndex, known]
  rw [functorOf, if_pos long, if_pos fits, same]

theorem indexed_moves (ok : env.AtomsOk) {index : ℕ} (long : 7 < name.length)
    (fits : name.length < MAX_NAME_LENGTH)
    (known : env.atomNameToIndex.lookup name = some index) (few : index < 2 ^ 47)
    (small : arity < 2 ^ 12) : Moves env (Cell.conOfIndex index arity) name arity := by
  have nameOf : ∀ {k : ℕ}, k < 2 ^ 12 → atomName env (Cell.conOfIndex index k) = name := by
    intro k small
    exact ((indexed_iff ok known long (by omega)).2 ⟨small, few⟩).1
  refine ⟨Cell.conOfIndex index 0, ?_, ?_, ?_⟩
  · rw [toAtom, Cell.isDirect_conOfIndex few (by omega), if_neg Bool.false_ne_true,
      nameOf small, functorOf_known long fits known]
  · exact (indexed_iff ok known long (by norm_num)).2 ⟨by norm_num, few⟩
  · rw [toFunctor, Cell.isDirect_conOfIndex few (by norm_num), if_neg Bool.false_ne_true, ite_self,
      nameOf (by norm_num), functorOf_known long fits known]

theorem MadeIn.moves {c : Cell} {r : Bytes × ℕ} (made : MadeIn env c r) (ok : env.AtomsOk)
    (packable : Packable env r.1 r.2) : Moves env c r.1 r.2 := by
  cases made with
  | direct short small =>
    rw [Packable, if_neg short] at packable
    exact direct_moves packable.1 (by omega) packable.2.1 small
  | indexed long fits known =>
    rw [Packable, if_pos long, indexFor_of_known known] at packable
    exact indexed_moves ok long fits known packable.2 packable.1

end Cells

section Run

theorem Extends.refl (env : TermEnv) : Extends env env := fun _ _ known => known

theorem Extends.trans {a b c : TermEnv} (first : Extends a b) (second : Extends b c) :
    Extends a c := fun name index known => second name index (first name index known)

theorem registered_ok {env : TermEnv} (ok : env.AtomsOk) (name : Bytes) :
    (registered env name).AtomsOk := by
  unfold registered
  split_ifs
  · exact TermEnv.resolveAtomIndex_ok ok name
  · exact ok

theorem registered_extends (env : TermEnv) (name : Bytes) : Extends env (registered env name) := by
  unfold registered
  split_ifs
  · exact fun _ _ known => TermEnv.lookup_resolveAtomIndex_of_some known
  · exact Extends.refl env

theorem packable_iff_of_extends {env last : TermEnv} {name : Bytes} (arity : ℕ)
    (grows : Extends (registered env name) last) :
    Packable env name arity ↔ Packable last name arity := by
  unfold Packable
  split_ifs with long
  · have known : last.atomNameToIndex.lookup name = some (indexFor env name) := by
      apply grows
      rw [registered, if_pos long, TermEnv.lookup_resolveAtomIndex, resolveAtomIndex_fst]
    rw [indexFor_of_known known]
  · rfl

theorem functorOf_made (env : TermEnv) {name : Bytes} (arity : ℕ) (named : name.length ≤ 255) :
    (∃ c, functorOf env name arity = some (c, registered env name) ∧
      MadeIn (registered env name) c (name, arity)) ∨
    functorOf env name arity = none ∧ ¬ Packable env name arity := by
  by_cases long : 7 < name.length
  · have fits : name.length < MAX_NAME_LENGTH := by
      unfold MAX_NAME_LENGTH
      omega
    refine .inl ⟨Cell.conOfIndex (env.resolveAtomIndex name).1 arity, ?_, .indexed long fits ?_⟩
    · rw [functorOf, if_pos long, if_pos fits, registered, if_pos long]
    · rw [registered, if_pos long, TermEnv.lookup_resolveAtomIndex]
  · by_cases small : arity ≤ 31
    · refine .inl ⟨Cell.conOfName name arity, ?_, .direct long small⟩
      rw [functorOf, if_neg long, registered, if_neg long, if_pos]
      simp only [Cell.useCompacted, decide_eq_true_eq]
      omega
    · refine .inr ⟨?_, fun packable => ?_⟩
      · rw [functorOf, if_neg long, if_neg]
        simp only [Cell.useCompacted, decide_eq_true_eq]
        omega
      · rw [Packable, if_neg long] at packable
        exact small packable.2.2

theorem functors_made {env : TermEnv} (ok : env.AtomsOk) {requests : List (Bytes × ℕ)}
    (named : ∀ r ∈ requests, r.1.length ≤ 255) :
    (∃ cells last, functors env requests = some (cells, last) ∧ last.AtomsOk ∧
      Extends env last ∧ List.Forall₂ (MadeIn last) cells requests ∧
      (AllPackable env requests ↔ ∀ r ∈ requests, Packable last r.1 r.2)) ∨
    functors env requests = none ∧ ¬ AllPackable env requests := by
  induction requests generalizing env with
  | nil => exact .inl ⟨[], env, rfl, ok, Extends.refl env, .nil, by simp [AllPackable]⟩
  | cons r rest ih =>
    obtain ⟨name, arity⟩ := r
    rw [List.forall_mem_cons] at named
    obtain ⟨c, called, made⟩ | ⟨failed, full⟩ := functorOf_made env arity named.1
    · obtain ⟨cells, last, ran, lastOk, grows, all, room⟩ | ⟨failed, full⟩ :=
        ih (registered_ok ok name) named.2
      · refine .inl ⟨c :: cells, last, ?_, lastOk, (registered_extends env name).trans grows,
          .cons (made.mono grows) all, ?_⟩
        · simp only [functors, called, Option.bind_eq_bind, Option.bind_some, ran]
          rfl
        · rw [AllPackable, List.forall_mem_cons, room, packable_iff_of_extends arity grows]
      · refine .inr ⟨?_, fun packable => full packable.2⟩
        simp only [functors, called, Option.bind_eq_bind, Option.bind_some, failed,
          Option.bind_none]
    · refine .inr ⟨?_, fun packable => full packable.1⟩
      simp only [functors, failed, Option.bind_eq_bind, Option.bind_none]

theorem distinct_of_decodes {last : TermEnv} {cells : List Cell} {requests : List (Bytes × ℕ)}
    (decodes : List.Forall₂ (fun c r => Decodes last c r.1 r.2) cells requests) :
    ∀ i j : ℕ, requests[i]? ≠ requests[j]? → cells[i]? ≠ cells[j]? := by
  have read : requests = cells.map fun c => (atomName last c, c.arity) := by
    induction decodes with
    | nil => rfl
    | cons first _ ih =>
      rw [List.map_cons, ← ih]
      exact congrArg (· :: _) (Prod.ext first.1.symm first.2.symm)
  intro i j different same
  apply different
  rw [read, List.getElem?_map, List.getElem?_map, same]

theorem allPackable_of_packedRight {env : TermEnv} (ok : env.AtomsOk)
    {requests : List (Bytes × ℕ)} (named : ∀ r ∈ requests, r.1.length ≤ 255 ∧ r.2 ≤ MAX_ARITY)
    (right : PackedRight env requests) : AllPackable env requests := by
  obtain ⟨cells', last', ran', decodes, -⟩ := right
  obtain ⟨cells, last, ran, lastOk, -, made, room⟩ | ⟨failed, -⟩ :=
    functors_made ok fun r inside => (named r inside).1
  · obtain ⟨rfl, rfl⟩ := Prod.mk.inj (Option.some.inj (ran.symm.trans ran'))
    rw [room]
    intro r inside
    obtain ⟨k, below, rfl⟩ := List.mem_iff_getElem.1 inside
    rw [List.forall₂_iff_get] at decodes made
    have low : k < cells.length := by omega
    exact ((made.2 k low below).decodes_iff lastOk (named _ inside).2).1
      (decodes.2 k low below).1
  · rw [failed] at ran'
    cases ran'

theorem packedRight_of_allPackable {env : TermEnv} (ok : env.AtomsOk)
    {requests : List (Bytes × ℕ)} (named : ∀ r ∈ requests, r.1.length ≤ 255 ∧ r.2 ≤ MAX_ARITY)
    (packable : AllPackable env requests) : PackedRight env requests := by
  obtain ⟨cells, last, ran, lastOk, -, made, room⟩ | ⟨-, full⟩ :=
    functors_made ok fun r inside => (named r inside).1
  · have right : List.Forall₂ (fun c r => Decodes last c r.1 r.2 ∧ Moves last c r.1 r.2)
        cells requests := by
      rw [room] at packable
      rw [List.forall₂_iff_get] at made ⊢
      refine ⟨made.1, fun k low below => ?_⟩
      have inside : requests.get ⟨k, below⟩ ∈ requests := List.get_mem _ _
      have fits := packable _ inside
      exact ⟨((made.2 k low below).decodes_iff lastOk (named _ inside).2).2 fits,
        (made.2 k low below).moves lastOk fits⟩
    exact ⟨cells, last, ran, right, distinct_of_decodes (right.imp fun _ _ both => both.1)⟩
  · exact absurd packable full

/-- Every list of requests up to 255 bytes and 8191 arguments is packed right just when each has
room in the encoding that its length selects. -/
theorem packedRight_iff {env : TermEnv} (ok : env.AtomsOk) {requests : List (Bytes × ℕ)}
    (named : ∀ r ∈ requests, r.1.length ≤ 255 ∧ r.2 ≤ MAX_ARITY) :
    PackedRight env requests ↔ AllPackable env requests :=
  ⟨allPackable_of_packedRight ok named, packedRight_of_allPackable ok named⟩

/-- A heap whose atom tables are empty. -/
def noAtoms : TermEnv := ⟨fun _ => Cell.make .REF 0, 0, ∅, ∅, ∅⟩

theorem noAtoms_ok : noAtoms.AtomsOk := ⟨by simp [noAtoms], by simp [noAtoms]⟩

/-- A short and a long name with three arguments. -/
theorem packedRight_two : PackedRight noAtoms
    [(Cell.ascii "f", 3), (Cell.ascii "functor8", 3)] := by
  have first : Packable noAtoms (Cell.ascii "f") 3 := by
    rw [Packable, if_neg (by decide)]
    refine ⟨by decide, fun ch inside => ?_, by norm_num⟩
    rw [show Cell.ascii "f" = [102] from rfl, List.mem_singleton] at inside
    rw [inside]
    decide
  have second : Packable noAtoms (Cell.ascii "functor8") 3 := by
    have fresh : indexFor noAtoms (Cell.ascii "functor8") = 0 := by simp [indexFor, noAtoms]
    rw [Packable, if_pos (by decide), fresh]
    norm_num
  have named : ∀ r ∈ [(Cell.ascii "f", 3), (Cell.ascii "functor8", 3)],
      r.1.length ≤ 255 ∧ r.2 ≤ MAX_ARITY := by
    simp only [List.forall_mem_cons, MAX_ARITY]
    refine ⟨⟨by decide, by norm_num⟩, ⟨by decide, by norm_num⟩, by simp⟩
  exact (packedRight_iff noAtoms_ok named).2 ⟨first, second, trivial⟩

/-- The arity of an indexed constant is set in 13 bits and read in 12. -/
theorem arity_5000_lost : ¬ ∀ (env : TermEnv) (requests : List (Bytes × ℕ)), env.AtomsOk →
    (∀ r ∈ requests, r.1.length ≤ 255 ∧ r.2 ≤ MAX_ARITY) → PackedRight env requests := by
  intro always
  have named : ∀ r ∈ [(Cell.ascii "functor8", 5000)], r.1.length ≤ 255 ∧ r.2 ≤ MAX_ARITY := by
    rw [List.forall_mem_singleton]
    exact ⟨by decide, by norm_num [MAX_ARITY]⟩
  have packable := (allPackable_of_packedRight noAtoms_ok named
    (always noAtoms _ noAtoms_ok named)).1
  rw [Packable, if_pos (by decide)] at packable
  exact absurd packable.1 (by norm_num)

end Run

end Epilog.Common.AtomPacking
