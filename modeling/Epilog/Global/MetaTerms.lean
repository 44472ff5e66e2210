/- Module: Epilog/Global/MetaTerms
   source: src/src/global/global.cpp (db_get_meta, db_parse_meta), src/src/pow/flt.hpp, fxp.hpp
   digest: Meta entries as terms, and what is read back of them. -/

import Epilog.Global.Chains

set_option autoImplicit false

namespace Epilog.Global.MetaTerms

open Epilog.Global.Chains

section Difficulty

/-- `pos_msb`: the highest bit of the absolute value, -1 for zero -/
def posMsb (v : UInt64) : ℤ :=
  if v = 0 then -1
  else if v >>> 63 ≠ 0 then (Nat.log2 (~~~v + 1).toNat : ℤ) else (Nat.log2 v.toNat : ℤ)

def isNegative (v : UInt64) : Bool := v >>> 63 ≠ 0

def FXP_MIN : UInt64 := 0x8000000000000000

def FXP_MAX : UInt64 := 0x7fffffffffffffff

/-- `fxp1648::operator <<` with its saturation -/
def fxpShiftLeft (v : UInt64) (n : ℕ) : UInt64 :=
  if isNegative v then
    if v = FXP_MIN ∨ 62 - posMsb v < n then FXP_MIN else UInt64.ofNat (v.toNat * 2 ^ n)
  else if 62 - posMsb v < n then FXP_MAX
  else UInt64.ofNat (v.toNat * 2 ^ n)

/-- `fxp1648::operator >>`, an arithmetic shift that does not reach zero -/
def fxpShiftRight (v : UInt64) (n : ℕ) : UInt64 :=
  if v = 0 then v
  else
    let shifted := UInt64.ofBitVec (v.toBitVec.sshiftRight n)
    if shifted = 0 ∨ shifted = 0xffffffffffffffff then
      (if isNegative v then 0xffffffffffffffff else 1)
    else shifted

/-- The constructor of `flt1648`, which normalizes: the mantissa gets its highest bit at 47. -/
def flt1648 (exponent : Int16) (mantissa : UInt64) : Flt1648 :=
  let e := posMsb mantissa - 47
  if e < 0 then
    { exponent := exponent + Int16.ofInt e, mantissa := fxpShiftLeft mantissa e.natAbs }
  else { exponent := exponent + Int16.ofInt e, mantissa := fxpShiftRight mantissa e.natAbs }

/-- The highest bit of the mantissa is at 47. -/
def Flt1648.Normal (d : Flt1648) : Prop := 2 ^ 47 ≤ d.mantissa.toNat ∧ d.mantissa.toNat < 2 ^ 48

end Difficulty

/-- An argument of a property: an integer, or a bignum with its bits and its big-endian value -/
inductive Arg
  | int (v : ℤ)
  | big (numBits value : ℕ)
  | other
  deriving DecidableEq

/-- `int_cell`: 61 bits with sign -/
def intCell (v : ℤ) : Arg := .int (v.bmod (2 ^ 61))

/-- A property of a meta term; the last two are other structures and no structures. -/
inductive Property
  | id (a : Arg)
  | previd (a : Arg)
  | version (a : Arg)
  | height (a : Arg)
  | time (a : Arg)
  | diff (exponent mantissa : Arg)
  | pow (a : Arg)
  | unrecognized
  | notStructure
  deriving DecidableEq

/-- A term `meta/1` with the elements of its list, or another term -/
inductive MetaTerm
  | meta1 (props : List Property)
  | other
  deriving DecidableEq

/-- The list that `db_get_meta` builds; the time goes out in seconds. -/
def properties (e : MetaEntry) : List Property :=
  [.id (.big 256 e.id.val), .previd (.big 256 e.previousId.val), .version (intCell e.version.toNat),
    .height (intCell e.height.toNat), .time (intCell (e.timestamp.toNat / 1000000 : ℕ)),
    .diff (intCell e.powDifficulty.exponent.toInt) (intCell e.powDifficulty.mantissa.toNat),
    .pow (.big 1152 e.powProof.val)]

def metaTerm (e : MetaEntry) : MetaTerm := .meta1 (properties e)

/-- `db_get_meta` without the state databases -/
def dbGetMeta (s : Blockchain) (rootId : MetaId) : MetaTerm :=
  match s.getMetaEntry rootId with
  | none => .other
  | some e => metaTerm e

/-- The exceptions of `db_parse_meta` and `db_put_meta` -/
inductive Failure
  | unexpectedProperty
  | unexpectedIdentifier
  | notVersion
  | notHeight
  | notTime
  | notExponent
  | notMantissa
  | notProof
  | powCheckFailed
  | missingPrevious (id : MetaId)
  | assertion
  deriving DecidableEq

/-- `get_number` for an unsigned type up to `max` -/
def getNumber (max : ℕ) : Arg → Option ℕ
  | .int v => if 0 ≤ v ∧ v ≤ max then some v.toNat else none
  | .big _ value => if value ≤ max then some value else none
  | .other => none

/-- `meta_id::from_term` -/
def getMetaId : Arg → Option MetaId
  | .big numBits value => if numBits = 256 then some (Fin.ofNat (2 ^ 256) value) else none
  | _ => none

def UINT64_MAX : ℕ := 2 ^ 64 - 1

def UINT32_MAX : ℕ := 2 ^ 32 - 1

def orThrow {α : Type} (failure : Failure) : Option α → Except Failure α
  | some a => .ok a
  | none => .error failure

/-- The loop body of `db_parse_meta` -/
def parseProperty (entry : MetaEntry) : Property → Except Failure MetaEntry
  | .id a => do
      let id ← orThrow .unexpectedIdentifier (getMetaId a)
      return { entry with id := id }
  | .previd a => do
      let previd ← orThrow .unexpectedIdentifier (getMetaId a)
      return { entry with previousId := previd }
  | .version a => do
      let ver ← orThrow .notVersion (getNumber UINT64_MAX a)
      if ver ≠ 1 then throw .notVersion
      else return { entry with version := UInt64.ofNat ver }
  | .height a => do
      let height ← orThrow .notHeight (getNumber UINT32_MAX a)
      return { entry with height := UInt32.ofNat height }
  | .time a => do
      let t ← orThrow .notTime (getNumber UINT64_MAX a)
      return { entry with timestamp := UInt64.ofNat t }
  | .diff exponent mantissa => do
      let exp ← orThrow .notExponent (getNumber UINT64_MAX exponent)
      let mantissa ← orThrow .notMantissa (getNumber UINT64_MAX mantissa)
      return { entry with powDifficulty := flt1648 (Int16.ofNat exp) (UInt64.ofNat mantissa) }
  | .pow a =>
      match a with
      | .big numBits value =>
          if (numBits + 7) / 8 = 144 then return { entry with powProof := Fin.ofNat (2 ^ 1152) value }
          else throw .notProof
      | _ => throw .notProof
  | .unrecognized => return entry
  | .notStructure => throw .unexpectedProperty

/-- The entry that `db_put_meta` starts from -/
def newEntry : MetaEntry := { id := 0, previousId := 0, height := 0 }

/-- `db_parse_meta`; nothing when the term is not a meta term. -/
def dbParseMeta : MetaTerm → Except Failure (Option MetaEntry)
  | .other => return none
  | .meta1 props => do
      let entry ← props.foldlM parseProperty newEntry
      return some entry

section ReadBack

theorem getNumber_intCell {n max : ℕ} (small : n < 2 ^ 60) (le : n ≤ max) :
    getNumber max (intCell n) = some n := by
  have same : ((n : ℤ).bmod (2 ^ 61)) = n := by
    apply Int.bmod_eq_of_le <;> omega
  rw [intCell, getNumber, same, if_pos ⟨by omega, by omega⟩, Int.toNat_natCast]

theorem getNumber_intCell_eq {v : ℤ} {n max : ℕ} (read : getNumber max (intCell v) = some n) :
    (n : ℤ) = v.bmod (2 ^ 61) := by
  rw [intCell, getNumber] at read
  split_ifs at read with inside
  cases read
  exact Int.toNat_of_nonneg inside.1

theorem posMsb_of_normal {v : UInt64} (low : 2 ^ 47 ≤ v.toNat) (high : v.toNat < 2 ^ 48) :
    posMsb v = 47 := by
  have nonzero : v ≠ 0 := by
    rintro rfl
    simp at low
  have positive : v >>> 63 = 0 := by
    apply UInt64.toNat_inj.mp
    rw [UInt64.toNat_shiftRight]
    simp [Nat.shiftRight_eq_div_pow]
    omega
  rw [posMsb, if_neg nonzero, if_neg (not_not.mpr positive)]
  have log : Nat.log2 v.toNat = 47 := by
    rw [Nat.log2_eq_iff (by omega)]
    exact ⟨low, high⟩
  rw [log]
  rfl

theorem flt1648_of_normal {d : Flt1648} (normal : Flt1648.Normal d) :
    flt1648 d.exponent d.mantissa = d := by
  have msb := posMsb_of_normal normal.1 normal.2
  have nonzero : d.mantissa ≠ 0 := by
    intro zero
    have low := normal.1
    rw [zero] at low
    simp at low
  have not_ones : d.mantissa ≠ 0xffffffffffffffff := by
    intro ones
    have high := normal.2
    rw [ones] at high
    exact absurd high (by decide)
  have kept : fxpShiftRight d.mantissa 0 = d.mantissa := by
    simp only [fxpShiftRight, BitVec.sshiftRight_zero, UInt64.ofBitVec_toBitVec,
      nonzero, not_ones, or_self, if_false]
  simp only [flt1648, msb, sub_self, lt_irrefl, if_false, Int.natAbs_zero, kept]
  simp

/-- The entry as another node has it: the time stamp is sent in other units, and left out. -/
structure ReadAs (e e' : MetaEntry) : Prop where
  id : e'.id = e.id
  previousId : e'.previousId = e.previousId
  height : e'.height = e.height
  powProof : e'.powProof = e.powProof
  version : e.version.toNat < 2 ^ 60 → e'.version = e.version
  powDifficulty : Flt1648.Normal e.powDifficulty → e'.powDifficulty = e.powDifficulty

section Properties

variable (entry e : MetaEntry)

private theorem getMetaId_eq (id : MetaId) : getMetaId (.big 256 id.val) = some id := by
  rw [getMetaId, if_pos rfl, Fin.ofNat_val_eq_self]

theorem parse_id (id : MetaId) :
    parseProperty entry (.id (.big 256 id.val)) = .ok { entry with id := id } := by
  rw [parseProperty, getMetaId_eq]
  rfl

theorem parse_previd (id : MetaId) :
    parseProperty entry (.previd (.big 256 id.val)) = .ok { entry with previousId := id } := by
  rw [parseProperty, getMetaId_eq]
  rfl

theorem parse_height (height : UInt32) :
    parseProperty entry (.height (intCell height.toNat)) = .ok { entry with height := height } := by
  have small := height.toNat_lt
  rw [parseProperty, getNumber_intCell (by omega) (by rw [UINT32_MAX]; omega)]
  change Except.ok { entry with height := UInt32.ofNat height.toNat } = _
  rw [UInt32.ofNat_toNat]

theorem parse_time (timestamp : UInt64) :
    parseProperty entry (.time (intCell (timestamp.toNat / 1000000 : ℕ))) =
      .ok { entry with timestamp := UInt64.ofNat (timestamp.toNat / 1000000) } := by
  have small := timestamp.toNat_lt
  rw [parseProperty, getNumber_intCell (by omega) (by rw [UINT64_MAX]; omega)]
  rfl

theorem parse_pow (proof : PowProof) :
    parseProperty entry (.pow (.big 1152 proof.val)) = .ok { entry with powProof := proof } := by
  rw [parseProperty, if_pos (by decide), Fin.ofNat_val_eq_self]
  rfl

theorem parse_version (version : UInt64) :
    parseProperty entry (.version (intCell version.toNat)) = .error .notVersion ∨
      parseProperty entry (.version (intCell version.toNat)) = .ok { entry with version := 1 } ∧
        (version.toNat < 2 ^ 60 → version = 1) := by
  rw [parseProperty]
  cases read : getNumber UINT64_MAX (intCell version.toNat) with
  | none => exact .inl rfl
  | some ver =>
    by_cases one : ver = 1
    · subst one
      refine .inr ⟨rfl, fun small => ?_⟩
      rw [getNumber_intCell small (by rw [UINT64_MAX]; omega)] at read
      injection read with same
      exact UInt64.toNat_inj.mp same
    · refine .inl ?_
      change (if ver ≠ 1 then throw Failure.notVersion else _ : Except Failure MetaEntry) = _
      rw [if_pos one]
      rfl

theorem parse_diff (d : Flt1648) :
    let exponent := intCell d.exponent.toInt
    let mantissa := intCell d.mantissa.toNat
    parseProperty entry (.diff exponent mantissa) = .error .notExponent ∨
      parseProperty entry (.diff exponent mantissa) = .error .notMantissa ∨
      ∃ d', parseProperty entry (.diff exponent mantissa) = .ok { entry with powDifficulty := d' } ∧
        (Flt1648.Normal d → d' = d) := by
  intro exponent mantissa
  rw [parseProperty]
  cases exp_read : getNumber UINT64_MAX exponent with
  | none => exact .inl rfl
  | some exp =>
    cases mantissa_read : getNumber UINT64_MAX mantissa with
    | none => exact .inr (.inl rfl)
    | some m =>
      refine .inr (.inr ⟨flt1648 (Int16.ofNat exp) (UInt64.ofNat m), rfl, fun normal => ?_⟩)
      have same : (exp : ℤ) = d.exponent.toInt := by
        rw [getNumber_intCell_eq exp_read]
        have low := d.exponent.le_toInt
        have high := d.exponent.toInt_lt
        apply Int.bmod_eq_of_le <;> omega
      have back : Int16.ofNat exp = d.exponent := by
        rw [← Int16.ofInt_eq_ofNat, same, Int16.ofInt_toInt]
      have small := normal.2
      rw [getNumber_intCell (by omega) (by rw [UINT64_MAX]; omega)] at mantissa_read
      injection mantissa_read with m_eq
      rw [back, ← m_eq, UInt64.ofNat_toNat]
      exact flt1648_of_normal normal

end Properties

theorem ok_bind {α β : Type} (a : α) (f : α → Except Failure β) :
    (Except.ok a >>= f) = f a := rfl

private theorem error_bind {α β : Type} (failure : Failure) (f : α → Except Failure β) :
    (Except.error failure >>= f) = .error failure := rfl

theorem parse_properties (entry e : MetaEntry) : (properties e).foldlM parseProperty entry = (do
    let entry ← parseProperty { entry with id := e.id, previousId := e.previousId }
      (.version (intCell e.version.toNat))
    let entry ← parseProperty
      { entry with
        height := e.height
        timestamp := UInt64.ofNat (e.timestamp.toNat / 1000000) }
      (.diff (intCell e.powDifficulty.exponent.toInt) (intCell e.powDifficulty.mantissa.toNat))
    return { entry with powProof := e.powProof }) := by
  rw [properties, List.foldlM_cons, parse_id, ok_bind, List.foldlM_cons, parse_previd, ok_bind,
    List.foldlM_cons]
  apply bind_congr
  intro entry
  rw [List.foldlM_cons, parse_height, ok_bind, List.foldlM_cons, parse_time, ok_bind,
    List.foldlM_cons]
  apply bind_congr
  intro entry
  rw [List.foldlM_cons, parse_pow, ok_bind, List.foldlM_nil]

theorem properties_read (entry e : MetaEntry) :
    (∃ failure, (properties e).foldlM parseProperty entry = .error failure ∧
      ∀ id, failure ≠ .missingPrevious id) ∨
      ∃ e', (properties e).foldlM parseProperty entry = .ok e' ∧ ReadAs e e' := by
  rw [parse_properties]
  rcases parse_version { entry with id := e.id, previousId := e.previousId } e.version with
    failed | ⟨read, version⟩
  · refine .inl ⟨.notVersion, ?_, fun _ => nofun⟩
    rw [failed, error_bind]
  rw [read, ok_bind]
  rcases parse_diff _ e.powDifficulty with failed | failed | ⟨d, read, difficulty⟩
  · refine .inl ⟨.notExponent, ?_, fun _ => nofun⟩
    rw [failed, error_bind]
  · refine .inl ⟨.notMantissa, ?_, fun _ => nofun⟩
    rw [failed, error_bind]
  rw [read, ok_bind]
  exact .inr ⟨_, rfl, rfl, rfl, rfl, rfl, fun small => (version small).symm, difficulty⟩

theorem read_back (e : MetaEntry) :
    (∃ failure, dbParseMeta (metaTerm e) = .error failure ∧
      ∀ id, failure ≠ .missingPrevious id) ∨
      ∃ e', dbParseMeta (metaTerm e) = .ok (some e') ∧ ReadAs e e' := by
  rcases properties_read newEntry e with ⟨failure, failed, other⟩ | ⟨e', read, same⟩
  · refine .inl ⟨failure, ?_, other⟩
    rw [metaTerm, dbParseMeta, failed, error_bind]
  · refine .inr ⟨e', ?_, same⟩
    rw [metaTerm, dbParseMeta, read, ok_bind]
    rfl

end ReadBack

end Epilog.Global.MetaTerms
