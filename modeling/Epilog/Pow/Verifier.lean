/- Module: Epilog/Pow/Verifier
   source: src/src/pow/pow_verifier.cpp, src/src/pow/pow_verifier.hpp, src/src/pow/galaxy.hpp, src/src/pow/camera.hpp
   digest: The verification of a proof of work, and which accepted proofs are proofs. -/

import Epilog.Global.MetaValidation
import Epilog.Pow.Dipper
import Epilog.Pow.Target
import Mathlib.Algebra.Order.BigOperators.Group.List
import Mathlib.Data.List.FinRange
import Mathlib.Data.UInt

set_option autoImplicit false

namespace Epilog.Pow.Verifier

open Epilog.Global.Chains Epilog.Global.MetaCodec Epilog.Global.MetaTerms
open Epilog.Global.MetaValidation (beBytes_beNat)
open Epilog.Pow.Dipper Epilog.Pow.Target

section Model

structure SiphashKeys where
  k0 : UInt64
  k1 : UInt64
  k2 : UInt64
  k3 : UInt64
  deriving DecidableEq

/-- Three words of `siphash`: a star, or the target of the camera -/
abbrev Words := UInt64 × UInt64 × UInt64

/-- What the verifier is given: the words of `siphash` in a range, the place on the screen at which
the camera of a super difficulty shows a star when it looks at a target, and the hash. -/
structure Sky where
  siphash : SiphashKeys → UInt64 → UInt64 → Words
  camera : ℕ → Words → Words → Option (Fin 4096 × Fin 4096)
  blake2 : Bytes → MetaId

/-- `pow_proof`: four rows of nine words -/
abbrev Proof := Fin 4 → Fin 9 → UInt32

def write (proof : Proof) : Bytes :=
  (List.finRange 4).flatMap fun row => (List.finRange 9).flatMap fun j =>
    beBytes 4 (proof row j).toNat

def read (bytes : Bytes) : Proof := fun row j =>
  UInt32.ofNat (beNat ((bytes.drop (4 * (row.val * 9 + j.val))).take 4))

variable (sky : Sky) (key : SiphashKeys) (superDifficulty : ℕ)

/-- `camera::set_target`: the nonce is multiplied in 32 bits. -/
def setTarget (nonceOffset : UInt64) (nonce : UInt32) : Words :=
  let nonceBegin := nonceOffset + (3 * nonce).toUInt64
  sky.siphash key nonceBegin (nonceBegin + 3)

def getStar (id : UInt32) : Words := sky.siphash key (3 * id).toUInt64 (3 * id + 3).toUInt64

def projectStar (target : Words) (id : UInt32) : Option (Fin 4096 × Fin 4096) :=
  sky.camera superDifficulty target (getStar sky key id)

/-- The stars of a row, the words after the first visible star and the nonce -/
def starId (row : Fin 9 → UInt32) (i : Fin 7) : UInt32 := row (Fin.natAdd 2 i)

def view (nonceOffset : UInt64) (row : Fin 9 → UInt32) (i : Fin 7) : Option (Fin 4096 × Fin 4096) :=
  projectStar sky key superDifficulty (setTarget sky key nonceOffset (row 1)) (starId row i)

/-- The checks of one row; the first star is looked for at nonce 0. -/
def verifyRow (nonceOffset : UInt64) (row : Fin 9 → UInt32) : Bool :=
  if (projectStar sky key superDifficulty (setTarget sky key nonceOffset 0) (row 0)).isNone then
    false
  else if shown : ∀ i, (view sky key superDifficulty nonceOffset row i).isSome then
    Stars.isDipper fun i => (view sky key superDifficulty nonceOffset row i).get (shown i)
  else false

/-- `nonce_sum += nonce + 1`, in 32 bits -/
def addNonce (nonceSum : UInt32) (row : Fin 9 → UInt32) : UInt32 :=
  UInt32.ofNat (nonceSum.toNat + ((row 1).toNat + 1))

def nonceOffset (nonceSum : UInt32) : UInt64 := nonceSum.toUInt64 <<< 32

/-- The loop over the rows, from the sum of the earlier nonces -/
def verifyRows : List (Fin 9 → UInt32) → UInt32 → Bool
  | [], _ => true
  | row :: rows, nonceSum =>
    verifyRow sky key superDifficulty (nonceOffset nonceSum) row &&
      verifyRows rows (addNonce nonceSum row)

/-- The comparison at the end: the proof itself stands where its hash should, which is not read. -/
def belowTarget (proof : Proof) (target : Bytes) : Bool :=
  memcmp ((write proof).take 32) target ≠ .gt

/-- `verify_pow`, of which the simple mode checks the first row only; `none` is a failed assertion
or a target that is written outside of its buffer. -/
def verifyPow (difficulty : Flt1648) (proof : Proof) (simple : Bool) : Option Bool :=
  if superDifficulty < 7 ∨ 9 < superDifficulty then none
  else
    let rows := if simple then [proof 0] else (List.finRange 4).map proof
    if verifyRows sky key superDifficulty rows 0 then
      (getTarget difficulty).map (belowTarget proof)
    else some false

end Model

section Serialization

variable {α : Type} {f : α → Bytes} {k : ℕ}

private theorem drop_flatMap (each : ∀ a, (f a).length = k) (l : List α) (i : ℕ) :
    (l.flatMap f).drop (k * i) = (l.drop i).flatMap f := by
  induction l generalizing i with
  | nil => rw [List.drop_nil, List.flatMap_nil, List.drop_nil]
  | cons a l ih =>
    cases i with
    | zero => rfl
    | succ i =>
      rw [List.flatMap_cons, Nat.mul_succ, Nat.add_comm, ← List.drop_drop, List.drop_left' (each a),
        ih, List.drop_succ_cons]

private theorem drop_flatMap_finRange {n : ℕ} {g : Fin n → Bytes} (each : ∀ a, (g a).length = k)
    (i : Fin n) : ∃ rest, ((List.finRange n).flatMap g).drop (k * i.val) = g i ++ rest := by
  have within : i.val < (List.finRange n).length := by rw [List.length_finRange]; exact i.isLt
  rw [drop_flatMap each, List.drop_eq_getElem_cons within, List.flatMap_cons, List.getElem_finRange]
  exact ⟨_, rfl⟩

theorem length_write (proof : Proof) : (write proof).length = 144 := by
  simp only [write, List.length_flatMap, length_beBytes, List.map_const', List.length_finRange,
    List.sum_replicate]
  rfl

theorem read_write (proof : Proof) : read (write proof) = proof := by
  funext row j
  have word (row : Fin 4) (j : Fin 9) : (beBytes 4 (proof row j).toNat).length = 4 :=
    length_beBytes ..
  have rowBytes (row : Fin 4) :
      ((List.finRange 9).flatMap fun j => beBytes 4 (proof row j).toNat).length = 36 := by
    simp only [List.length_flatMap, length_beBytes, List.map_const', List.length_finRange,
      List.sum_replicate]
    rfl
  obtain ⟨rows, before⟩ := drop_flatMap_finRange rowBytes row
  obtain ⟨words, there⟩ := drop_flatMap_finRange (word row) j
  have position : 4 * (row.val * 9 + j.val) = 36 * row.val + 4 * j.val := by omega
  have small := (proof row j).toNat_lt
  rw [read, position, ← List.drop_drop, write, before, List.drop_append_of_le_length, there,
    List.append_assoc, List.take_left' (word row j), beNat_beBytes, Nat.mod_eq_of_lt (by omega),
    UInt32.ofNat_toNat]
  rw [rowBytes]
  omega

/-- A list is put together from its pieces. -/
private theorem flatMap_chunks {k n : ℕ} (bytes : Bytes) (length : bytes.length = k * n) :
    ((List.finRange n).flatMap fun i => (bytes.drop (k * i.val)).take k) = bytes := by
  induction n generalizing bytes with
  | zero => exact (List.length_eq_zero_iff.1 length).symm
  | succ n ih =>
    have rest := ih (bytes.drop k) (by rw [List.length_drop, length, Nat.mul_succ]; omega)
    rw [List.finRange_succ, List.flatMap_cons, List.flatMap_map]
    simp only [List.drop_drop] at rest
    simp only [Fin.val_zero, Nat.mul_zero, List.drop_zero, Fin.val_succ, Nat.mul_succ,
      Nat.add_comm _ k, rest, List.take_append_drop]

theorem write_read {bytes : Bytes} (whole : bytes.length = 144) : write (read bytes) = bytes := by
  have word (row : Fin 4) (j : Fin 9) : beBytes 4 (read bytes row j).toNat =
      (((bytes.drop (36 * row)).take 36).drop (4 * j)).take 4 := by
    have four : ((bytes.drop (4 * (row * 9 + j))).take 4).length = 4 := by
      rw [List.length_take, List.length_drop]
      omega
    have small := beNat_lt ((bytes.drop (4 * (row * 9 + j))).take 4)
    rw [four] at small
    rw [read, UInt32.toNat_ofNat_of_lt' small, List.drop_take, List.drop_drop, List.take_take,
      Nat.min_eq_left (by omega), show 36 * row.val + 4 * j.val = 4 * (row * 9 + j) by omega]
    simpa only [four] using beBytes_beNat ((bytes.drop (4 * (row * 9 + j))).take 4)
  have part (row : Fin 4) : ((bytes.drop (36 * row)).take 36).length = 4 * 9 := by
    rw [List.length_take, List.length_drop]
    omega
  simp only [write, word, fun row => flatMap_chunks _ (part row)]
  exact flatMap_chunks bytes whole

/-- The proofs are written one to one as the strings of 144 bytes, and read back. -/
theorem proof_codec : (∀ proof, read (write proof) = proof) ∧
    ∀ bytes, (∃ proof, write proof = bytes) ↔ bytes.length = 144 := by
  refine ⟨read_write, fun bytes => ⟨?_, fun whole => ⟨read bytes, write_read whole⟩⟩⟩
  rintro ⟨proof, rfl⟩
  exact length_write proof

end Serialization

section Soundness

variable (sky : Sky) (key : SiphashKeys) (superDifficulty : ℕ) (difficulty : Flt1648)
  (proof : Proof)

def earlier (r : Fin 4) : List (Fin 9 → UInt32) := ((List.finRange 4).map proof).take r.val

/-- The sum of `nonce + 1` over the earlier rows -/
def nonceTotal (r : Fin 4) : ℕ := ((earlier proof r).map fun row => (row 1).toNat + 1).sum

/-- That sum as the code has it when it comes to a row -/
def nonceSum (r : Fin 4) : UInt32 := (earlier proof r).foldl addNonce 0

/-- The stars of a row are on the screen, at these places. -/
def Shown (offset : UInt64) (row : Fin 9 → UInt32) (stars : Stars) : Prop :=
  ∀ i, view sky key superDifficulty offset row i = some (stars i)

/-- A row at a nonce offset: its first star is visible at nonce 0, the others form the dipper. -/
def Seen (offset : UInt64) (row : Fin 9 → UInt32) : Prop :=
  (∃ place,
    projectStar sky key superDifficulty (setTarget sky key offset 0) (row 0) = some place) ∧
    ∃ stars, Shown sky key superDifficulty offset row stars ∧ stars.WithinTolerance

/-- The ids of a row are ids of stars in the galaxy. -/
def InGalaxy (row : Fin 9 → UInt32) : Prop :=
  (row 0).toNat < 2 ^ (3 * superDifficulty + 3) ∧
    ∀ i, (starId row i).toNat < 2 ^ (3 * superDifficulty + 3)

/-- What a proof of work is -/
structure IsProof (target : Bytes) : Prop where
  rows : ∀ r, ∃ offset : UInt64, offset.toNat = nonceTotal proof r * 2 ^ 32 ∧
    Seen sky key superDifficulty offset (proof r)
  inGalaxy : ∀ r, InGalaxy superDifficulty (proof r)
  hash : (sky.blake2 (write proof)).val ≤ beNat target

/-- The verifier accepts proofs of work only. -/
def Sound : Prop :=
  verifyPow sky key superDifficulty difficulty proof false = some true →
    ∃ target, getTarget difficulty = some target ∧ IsProof sky key superDifficulty proof target

/-- What the checks of the code leave open: the ids, the sum of the nonces, the products of the
geometry and the hash. -/
structure Unforged (target : Bytes) : Prop where
  inGalaxy : ∀ r, InGalaxy superDifficulty (proof r)
  nonces : nonceTotal proof 3 < 2 ^ 32
  fits : ∀ r stars,
    Shown sky key superDifficulty (nonceOffset (nonceSum proof r)) (proof r) stars → stars.Fits
  hash : (sky.blake2 (write proof)).val ≤ beNat target

/-- A proof whose rows pass their checks and whose first 32 bytes are not above the target leaves
none of it open. -/
def NotForged : Prop :=
  ∀ target, 7 ≤ superDifficulty → superDifficulty ≤ 9 → getTarget difficulty = some target →
    (∀ r, verifyRow sky key superDifficulty (nonceOffset (nonceSum proof r)) (proof r) = true) →
      beNat ((write proof).take 32) ≤ beNat target → Unforged sky key superDifficulty proof target

theorem toNat_foldl_addNonce (rows : List (Fin 9 → UInt32)) (s : UInt32) :
    (rows.foldl addNonce s).toNat =
      (s.toNat + (rows.map fun row => (row 1).toNat + 1).sum) % 2 ^ 32 := by
  induction rows generalizing s with
  | nil => exact (Nat.mod_eq_of_lt s.toNat_lt).symm
  | cons row rows ih =>
    rw [List.foldl_cons, ih, addNonce, UInt32.toNat_ofNat', List.map_cons, List.sum_cons,
      Nat.mod_add_mod, Nat.add_assoc]

theorem toNat_nonceOffset (s : UInt32) : (nonceOffset s).toNat = s.toNat * 2 ^ 32 := by
  have small := s.toNat_lt
  rw [nonceOffset, UInt64.toNat_shiftLeft, UInt32.toNat_toUInt64, Nat.shiftLeft_eq]
  change s.toNat * 2 ^ 32 % 2 ^ 64 = _
  omega

theorem nonceTotal_le_last (r : Fin 4) : nonceTotal proof r ≤ nonceTotal proof 3 := by
  have sub : (earlier proof r).Sublist (earlier proof 3) :=
    (List.take_prefix_take_left (by omega)).sublist
  exact (sub.map _).sum_le_sum fun _ _ => Nat.zero_le _

theorem offset_eq (nonces : nonceTotal proof 3 < 2 ^ 32) (r : Fin 4) :
    (nonceOffset (nonceSum proof r)).toNat = nonceTotal proof r * 2 ^ 32 := by
  have below := Nat.lt_of_le_of_lt (nonceTotal_le_last proof r) nonces
  have zero : (0 : UInt32).toNat = 0 := rfl
  rw [toNat_nonceOffset, nonceSum, toNat_foldl_addNonce, zero, Nat.zero_add, ← nonceTotal,
    Nat.mod_eq_of_lt below]

theorem verifyRows_iff (rows : List (Fin 9 → UInt32)) (s : UInt32) :
    verifyRows sky key superDifficulty rows s = true ↔
      ∀ i (_ : i < rows.length),
        verifyRow sky key superDifficulty (nonceOffset ((rows.take i).foldl addNonce s)) rows[i] =
          true := by
  induction rows generalizing s with
  | nil => exact ⟨fun _ i inside => absurd inside (Nat.not_lt_zero i), fun _ => rfl⟩
  | cons row rows ih =>
    rw [verifyRows, Bool.and_eq_true, ih]
    constructor
    · intro ⟨first, rest⟩ i inside
      cases i with
      | zero => exact first
      | succ i => exact rest i (Nat.lt_of_succ_lt_succ inside)
    · intro all
      exact ⟨all 0 (Nat.succ_pos _), fun i inside => all (i + 1) (Nat.succ_lt_succ inside)⟩

theorem verifyRow_iff (offset : UInt64) (row : Fin 9 → UInt32) :
    verifyRow sky key superDifficulty offset row = true ↔
      (∃ place,
        projectStar sky key superDifficulty (setTarget sky key offset 0) (row 0) = some place) ∧
      ∃ stars, Shown sky key superDifficulty offset row stars ∧ stars.isDipper = true := by
  unfold verifyRow
  rw [← Option.isSome_iff_exists]
  split
  · next hidden =>
    rw [Option.isNone_iff_eq_none] at hidden
    simp [hidden]
  · next visible =>
    have there : (projectStar sky key superDifficulty (setTarget sky key offset 0)
        (row 0)).isSome = true := by
      rwa [Option.isNone_iff_eq_none, ← Ne, Option.ne_none_iff_isSome] at visible
    split
    · next shown =>
      constructor
      · exact fun dipper => ⟨there, _, fun i => (Option.some_get (shown i)).symm, dipper⟩
      · rintro ⟨_, stars, places, dipper⟩
        have same : (fun i => (view sky key superDifficulty offset row i).get (shown i)) = stars :=
          funext fun i => Option.get_of_eq_some _ (places i)
        rwa [same]
    · next hidden =>
      constructor
      · exact fun none => nomatch none
      · rintro ⟨_, stars, places, _⟩
        exact absurd (fun i => Option.isSome_iff_exists.2 ⟨stars i, places i⟩) hidden

theorem belowTarget_iff {target : Bytes} (size : target.length = 32) :
    belowTarget proof target = true ↔ beNat ((write proof).take 32) ≤ beNat target := by
  have same : ((write proof).take 32).length = target.length := by
    rw [List.length_take, length_write, size]
    rfl
  rw [belowTarget, memcmp_eq same, decide_eq_true_iff]
  exact Nat.compare_ne_gt

theorem verifyPow_eq_true_iff :
    verifyPow sky key superDifficulty difficulty proof false = some true ↔
      (7 ≤ superDifficulty ∧ superDifficulty ≤ 9) ∧
      (∀ r, verifyRow sky key superDifficulty (nonceOffset (nonceSum proof r)) (proof r) = true) ∧
      ∃ target, getTarget difficulty = some target ∧
        beNat ((write proof).take 32) ≤ beNat target := by
  have rows : verifyRows sky key superDifficulty ((List.finRange 4).map proof) 0 = true ↔
      ∀ r, verifyRow sky key superDifficulty (nonceOffset (nonceSum proof r)) (proof r) = true := by
    rw [verifyRows_iff]
    constructor
    · intro all r
      have here := all r.val (by rw [List.length_map, List.length_finRange]; exact r.isLt)
      rwa [List.getElem_map, List.getElem_finRange] at here
    · intro all i inside
      rw [List.length_map, List.length_finRange] at inside
      rw [List.getElem_map, List.getElem_finRange]
      exact all ⟨i, inside⟩
  unfold verifyPow
  rw [← rows]
  split
  · next outside =>
    exact ⟨fun failed => (nomatch failed), fun ⟨⟨_, _⟩, _⟩ => by omega⟩
  · next inside =>
    have range : 7 ≤ superDifficulty ∧ superDifficulty ≤ 9 := by omega
    dsimp only
    rw [if_neg Bool.false_ne_true]
    split
    · next passes =>
      rw [Option.map_eq_some_iff]
      constructor
      · rintro ⟨target, made, below⟩
        exact ⟨range, passes, target, made,
          (belowTarget_iff proof (length_getTarget made)).1 below⟩
      · rintro ⟨_, _, target, made, below⟩
        exact ⟨target, made, (belowTarget_iff proof (length_getTarget made)).2 below⟩
    · next fails => exact ⟨fun wrong => (nomatch wrong), fun ⟨_, passes, _⟩ => absurd passes fails⟩

/-- The verifier accepts proofs of work only, exactly where no check leaves a forgery open. -/
theorem sound_iff :
    Sound sky key superDifficulty difficulty proof ↔
      NotForged sky key superDifficulty difficulty proof := by
  unfold Sound NotForged
  rw [verifyPow_eq_true_iff]
  constructor
  · intro sound target from7 to9 made passes below
    obtain ⟨target', made', genuine⟩ := sound ⟨⟨from7, to9⟩, passes, target, made, below⟩
    cases made.symm.trans made'
    have nonces : nonceTotal proof 3 < 2 ^ 32 := by
      obtain ⟨offset, exact, _⟩ := genuine.rows 3
      have word := offset.toNat_lt
      omega
    refine ⟨genuine.inGalaxy, nonces, fun r stars shown => ?_, genuine.hash⟩
    obtain ⟨offset, exact, _, stars', shown', within⟩ := genuine.rows r
    obtain ⟨_, stars'', shown'', dipper⟩ := (verifyRow_iff sky key superDifficulty _ _).1 (passes r)
    have same : offset = nonceOffset (nonceSum proof r) :=
      UInt64.toNat_inj.1 (exact.trans (offset_eq proof nonces r).symm)
    subst same
    have first : stars' = stars :=
      funext fun i => Option.some.inj ((shown' i).symm.trans (shown i))
    have second : stars'' = stars :=
      funext fun i => Option.some.inj ((shown'' i).symm.trans (shown i))
    subst first
    subst second
    exact (Stars.withinTolerance_iff_fits _ dipper).1 within
  · rintro notForged ⟨⟨from7, to9⟩, passes, target, made, below⟩
    have unforged := notForged target from7 to9 made passes below
    refine ⟨target, made, fun r => ?_, unforged.inGalaxy, unforged.hash⟩
    obtain ⟨visible, stars, shown, dipper⟩ :=
      (verifyRow_iff sky key superDifficulty _ _).1 (passes r)
    exact ⟨nonceOffset (nonceSum proof r), offset_eq proof unforged.nonces r, visible, stars, shown,
      (Stars.withinTolerance_iff_fits stars dipper).2 (unforged.fits r stars shown)⟩

/-- A sky in which every word of a star is its first number, and the camera shows it where the
third of that number says. -/
def plainSky : Sky where
  siphash := fun _ first _ => (first, first, first)
  camera := fun _ _ star =>
    some (Fin.ofNat 4096 (star.1.toNat / 3), Fin.ofNat 4096 (star.1.toNat / 3 / 4096))
  blake2 := fun _ => 0

/-- The dipper of the template, from stars with numbers after the last one of the galaxy -/
def farProof : Proof := fun _ =>
  ![2 ^ 24, 0, 2 ^ 24 + 4096 * 1000 + 100, 2 ^ 24 + 4096 * 1116 + 285, 2 ^ 24 + 4096 * 1099 + 425,
    2 ^ 24 + 4096 * 1093 + 602, 2 ^ 24 + 4096 * 970 + 688, 2 ^ 24 + 4096 * 1063 + 930,
    2 ^ 24 + 4096 * 1236 + 905]

/-- At super difficulty 7 there are 2^24 stars, and the proof is accepted at difficulty 1. -/
theorem stars_outside_the_galaxy : ¬ Sound plainSky ⟨0, 0, 0, 0⟩ 7 ONE farProof := by
  intro sound
  have accepted : verifyPow plainSky ⟨0, 0, 0, 0⟩ 7 ONE farProof false = some true := by
    decide
  obtain ⟨_, _, genuine⟩ := sound accepted
  exact absurd (genuine.inGalaxy 0).1 (by decide)

end Soundness

end Epilog.Pow.Verifier
