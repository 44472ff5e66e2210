/- Module: Epilog/Pow/CheckedVerifier
   source: src/src/pow/pow_verifier.cpp, src/src/pow/galaxy.hpp, src/src/pow/camera.hpp, src/src/pow/isqrt.hpp
   digest: The verification of a proof of work with every range and every number of it checked. -/

import Epilog.Pow.Camera

set_option autoImplicit false

namespace Epilog.Pow.CheckedVerifier

open Epilog.Global.Chains Epilog.Global.MetaCodec Epilog.Global.MetaTerms
open Epilog.Pow.Dipper Epilog.Pow.Siphash Epilog.Pow.Camera
open Epilog.Pow.Verifier (SiphashKeys Words Sky Proof starId nonceOffset addNonce belowTarget)

section Model

/-- A number of `int32_t`; `none` is one that wraps. -/
def checkedInt (v : ℤ) : Option ℤ := if -2 ^ 31 ≤ v ∧ v < 2 ^ 31 then some v else none

/-- A quotient of `int32_t`; `none` is a division by zero. -/
def checkedDiv (a b : ℤ) : Option ℤ := if b = 0 then none else checkedInt (a.tdiv b)

/-- A number of `uint32_t`; `none` is one that wraps. -/
def checkedUInt (n : ℕ) : Option UInt32 := if n < 2 ^ 32 then some (UInt32.ofNat n) else none

/-- The loop of `isqrt`, from the bit `n - 1` down -/
def checkedRootLoop : ℕ → ℤ → ℤ → Option ℤ
  | 0, _, g => some g
  | n + 1, val, g => do
    let temp ← checkedInt ((2 * g + 2 ^ n) * 2 ^ n)
    if temp ≤ val then checkedRootLoop n (val - temp) (g + 2 ^ n) else checkedRootLoop n val g

def checkedRoot (val : ℤ) : Option ℤ := checkedRootLoop 16 val 0

variable (keys : SiphashKeys) (numBits : ℕ)

def word (n : UInt64) : UInt64 := UInt64.ofBitVec (siphash1 keys n.toBitVec)

/-- A range of `siphash` into a buffer of three words; `none` is a range of another size. -/
def siphash3 (start stop : UInt64) : Option Words :=
  if (stop - start).toNat = 3 then
    some (word keys start, word keys (start + 1), word keys (start + 2))
  else none

def getStar (id : UInt32) : Option Words := do
  let start ← checkedUInt (3 * id.toNat)
  let stop ← checkedUInt (start.toNat + 3)
  siphash3 keys start.toUInt64 stop.toUInt64

/-- `camera::set_target`, whose end wraps together with its begin -/
def setTarget (nonceOffset : UInt64) (nonce : UInt32) : Option Vec3 := do
  let nonceBegin := nonceOffset + (3 * nonce).toUInt64
  let words ← siphash3 keys nonceBegin (nonceBegin + 3)
  some (Camera.setTarget words)

/-- `project_star`, with the numbers of the place checked -/
def projectStar (target : Vec3) (id : UInt32) : Option (Option (Fin 4096 × Fin 4096)) := do
  let star ← getStar keys id
  let shown ← project numBits target star
  match shown with
  | none => some none
  | some p =>
    if onScreen : p.x.toNat < 4096 ∧ p.y.toNat < 4096 ∧ p.r.toNat < 4096 then
      some (some (⟨p.x.toNat, onScreen.1⟩, ⟨p.y.toNat, onScreen.2.1⟩))
    else none

/-- The loop over the stars of a row, which ends at the first one that is not visible -/
def projectStars (target : Vec3) : List UInt32 → Option (Option (List (Fin 4096 × Fin 4096)))
  | [] => some (some [])
  | id :: ids => do
    match ← projectStar keys numBits target id with
    | none => some none
    | some place => do
      let places ← projectStars target ids
      some (places.map (place :: ·))

/-- What the check of a row computes before it looks at the other stars -/
structure Frame where
  d12 : ℤ
  x0 : ℤ
  y0 : ℤ
  r2 : ℤ
  r00 : ℤ
  r01 : ℤ
  r10 : ℤ
  r11 : ℤ

/-- The check of a row before its loop; `none` inside is a distance that is too small. -/
def frame (stars : Stars) : Option (Option Frame) := do
  let d12 ← checkedRoot (← checkedInt ((← checkedInt (dx12 * dx12)) + (← checkedInt (dy12 * dy12))))
  let x0 ← checkedInt (stars.x 0)
  let y0 ← checkedInt (stars.y 0)
  let x1 ← checkedInt (stars.x 1)
  let y1 ← checkedInt (stars.y 1)
  let dx01 ← checkedInt (x1 - x0)
  let dy01 ← checkedInt (y1 - y0)
  let distance2 ← checkedInt ((← checkedInt (dx01 * dx01)) + (← checkedInt (dy01 * dy01)))
  if distance2 < 25 then some none
  else do
    let d01 ← checkedRoot distance2
    let tol ← checkedDiv (← checkedInt (TOLERANCE * d01)) d12
    let r2 ← checkedDiv (← checkedInt (tol * tol)) 100
    let r00 ← checkedDiv
      (← checkedInt ((← checkedInt (dx12 * dx01)) + (← checkedInt (dy12 * dy01)))) d12
    let r01 ← checkedDiv
      (← checkedInt ((← checkedInt (dy12 * dx01)) - (← checkedInt (dx12 * dy01)))) d12
    let r10 ← checkedInt (-r01)
    some (some ⟨d12, x0, y0, r2, r00, r01, r10, r00⟩)

/-- The distance of a star from its place in the dipper, times 100 -/
def checkedMiss (f : Frame) (stars : Stars) (i : Fin 7) : Option ℤ := do
  let alongX ← checkedInt
    ((← checkedInt (f.r00 * dipperDx i)) + (← checkedInt (f.r01 * dipperDy i)))
  let xip ← checkedInt ((← checkedDiv alongX f.d12) + f.x0)
  let alongY ← checkedInt
    ((← checkedInt (f.r10 * dipperDx i)) + (← checkedInt (f.r11 * dipperDy i)))
  let yip ← checkedInt ((← checkedDiv alongY f.d12) + f.y0)
  let xi ← checkedInt (stars.x i)
  let yi ← checkedInt (stars.y i)
  let dx ← checkedInt (xi - xip)
  let dy ← checkedInt (yi - yip)
  let miss ← checkedInt ((← checkedInt (dx * dx)) + (← checkedInt (dy * dy)))
  checkedInt (100 * miss)

/-- The loop over the other stars -/
def nearPlaces (f : Frame) (stars : Stars) : List (Fin 7) → Option Bool
  | [] => some true
  | i :: is => do
    let miss ← checkedMiss f stars i
    if f.r2 < miss then some false else nearPlaces f stars is

/-- The stars of the loop, from `i = 2` on -/
def others : List (Fin 7) := [2, 3, 4, 5, 6]

def isDipper (stars : Stars) : Option Bool := do
  match ← frame stars with
  | none => some false
  | some f => nearPlaces f stars others

def starsOf (places : List (Fin 4096 × Fin 4096)) : Stars := fun i => places.getD i (0, 0)

def verifyRow (nonceOffset : UInt64) (row : Fin 9 → UInt32) : Option Bool := do
  let first ← setTarget keys nonceOffset 0
  match ← projectStar keys numBits first (row 0) with
  | none => some false
  | some _ => do
    let target ← setTarget keys nonceOffset (row 1)
    match ← projectStars keys numBits target ((List.finRange 7).map (starId row)) with
    | none => some false
    | some places => isDipper (starsOf places)

def verifyRows : List (Fin 9 → UInt32) → UInt32 → Option Bool
  | [], _ => some true
  | row :: rows, nonceSum => do
    if ← verifyRow keys numBits (nonceOffset nonceSum) row then do
      let next ← checkedUInt (nonceSum.toNat + ((row 1).toNat + 1))
      verifyRows rows next
    else some false

/-- `verify_pow`, where `none` is a range that is not of three words, a number that wraps, a
division by zero or a place outside of the screen. The target of the difficulty is not looked at. -/
def verifyPow (difficulty : Flt1648) (proof : Proof) (simple : Bool) : Option (Option Bool) := do
  let rows := if simple then [proof 0] else (List.finRange 4).map proof
  if ← verifyRows keys numBits rows 0 then
    some ((Target.getTarget difficulty).map (belowTarget proof))
  else some (some false)

end Model

section Ranges

variable (keys : SiphashKeys) (numBits : ℕ)

/-- The star is one of those whose words are at `3 * id` to `3 * id + 2` in 32 bits. -/
def Indexed (id : UInt32) : Prop := id.toNat ≤ 0x55555554

instance (id : UInt32) : Decidable (Indexed id) := inferInstanceAs (Decidable (_ ≤ _))

/-- The three words from a number on -/
def wordsFrom (start : UInt64) : Words :=
  (word keys start, word keys (start + 1), word keys (start + 2))

theorem siphash3_next (start : UInt64) :
    siphash3 keys start (start + 3) = some (wordsFrom keys start) := by
  have size : start + 3 - start = 3 := by rw [UInt64.add_comm, UInt64.add_sub_cancel]
  rw [siphash3, size, if_pos (show (3 : UInt64).toNat = 3 from rfl)]
  rfl

theorem setTarget_eq (offset : UInt64) (nonce : UInt32) : setTarget keys offset nonce =
    some (Camera.setTarget (wordsFrom keys (offset + (3 * nonce).toUInt64))) := by
  rw [setTarget]
  simp only [siphash3_next, Option.bind_eq_bind, Option.bind_some]

theorem toUInt64_index {id : UInt32} (indexed : Indexed id) :
    (UInt32.ofNat (3 * id.toNat)).toUInt64 = (3 * id).toUInt64 ∧
      (UInt32.ofNat (3 * id.toNat + 3)).toUInt64 = (3 * id).toUInt64 + 3 := by
  unfold Indexed at indexed
  have product : (3 * id).toNat = 3 * id.toNat := by
    rw [UInt32.toNat_mul]
    change 3 * id.toNat % 2 ^ 32 = _
    omega
  constructor <;> apply UInt64.toNat_inj.mp
  · rw [UInt32.toNat_toUInt64, UInt32.toNat_toUInt64, UInt32.toNat_ofNat', product]
    omega
  · rw [UInt64.toNat_add, UInt32.toNat_toUInt64, UInt32.toNat_toUInt64, UInt32.toNat_ofNat',
      product, Nat.mod_eq_of_lt (by omega)]
    exact (Nat.mod_eq_of_lt (show 3 * id.toNat + 3 < 2 ^ 64 by omega)).symm

theorem getStar_eq (id : UInt32) : getStar keys id =
    if Indexed id then some (wordsFrom keys (3 * id).toUInt64) else none := by
  rw [getStar]
  split_ifs with indexed
  · have own := toUInt64_index indexed
    unfold Indexed at indexed
    have plain : (UInt32.ofNat (3 * id.toNat)).toNat = 3 * id.toNat := by
      rw [UInt32.toNat_ofNat']
      omega
    rw [checkedUInt, if_pos (by omega), Option.bind_eq_bind, Option.bind_some, plain, checkedUInt,
      if_pos (by omega), Option.bind_some, own.1, own.2]
    exact siphash3_next keys _
  · unfold Indexed at indexed
    rw [checkedUInt]
    split_ifs with small
    · have plain : (UInt32.ofNat (3 * id.toNat)).toNat = 3 * id.toNat := by
        rw [UInt32.toNat_ofNat']
        omega
      rw [Option.bind_eq_bind, Option.bind_some, plain, checkedUInt, if_neg (by omega)]
      rfl
    · rfl

end Ranges

section Stars

variable (keys : SiphashKeys) {numBits : ℕ} (blake2 : Bytes → MetaId)

/-- The place of a star, where the camera shows it -/
def place (numBits : ℕ) (target : Vec3) (star : Words) : Option (Fin 4096 × Fin 4096) :=
  (project numBits target star).join.map fun p =>
    (Fin.ofNat 4096 p.x.toNat, Fin.ofNat 4096 p.y.toNat)

/-- The words of siphash and the camera of the source as the verifier is given them -/
def sky : Sky where
  siphash := fun keys start _ => wordsFrom keys start
  camera := fun numBits target star => place numBits (Camera.setTarget target) star
  blake2 := blake2

theorem projectStar_eq (from7 : 7 ≤ numBits) (to9 : numBits ≤ 9) (target : Vec3) (id : UInt32) :
    projectStar keys numBits target id =
      if Indexed id then some (place numBits target (wordsFrom keys (3 * id).toUInt64))
      else none := by
  rw [projectStar, getStar_eq]
  split_ifs with indexed
  · obtain ⟨shown, found, onScreen⟩ :=
      project_some from7 to9 target (wordsFrom keys (3 * id).toUInt64)
    rw [Option.bind_eq_bind, Option.bind_some, found, Option.bind_eq_bind, Option.bind_some, place,
      found]
    cases shown with
    | none => rfl
    | some p =>
      have inside := onScreen p rfl
      dsimp only
      rw [dif_pos inside]
      simp only [Option.join_some, Option.map_some, Option.some.injEq, Prod.mk.injEq]
      exact ⟨Fin.ext (Nat.mod_eq_of_lt inside.1).symm, Fin.ext (Nat.mod_eq_of_lt inside.2.1).symm⟩
  · rfl

variable (see : UInt32 → Option (Fin 4096 × Fin 4096))

/-- The ids that are looked up are those of stars with words of their own: the loop ends after the
first star that is not seen. -/
def IdsFit : List UInt32 → Prop
  | [] => True
  | id :: ids => Indexed id ∧ ((see id).isSome → IdsFit ids)

variable {see} {target : Vec3}

theorem projectStars_some
    (each : ∀ id, projectStar keys numBits target id = if Indexed id then some (see id) else none)
    {ids : List UInt32} (fits : IdsFit see ids) :
    projectStars keys numBits target ids = some (ids.mapM see) := by
  induction ids with
  | nil => rfl
  | cons id ids ih =>
    obtain ⟨indexed, rest⟩ := fits
    rw [projectStars, each, if_pos indexed, List.mapM_cons]
    cases seen : see id with
    | none => rfl
    | some here =>
      rw [seen] at rest
      rw [Option.bind_eq_bind, Option.bind_some]
      dsimp only
      rw [ih (rest rfl)]
      cases ids.mapM see <;> rfl

theorem projectStars_none
    (each : ∀ id, projectStar keys numBits target id = if Indexed id then some (see id) else none)
    {ids : List UInt32} (fits : ¬ IdsFit see ids) :
    projectStars keys numBits target ids = none := by
  induction ids with
  | nil => exact absurd trivial fits
  | cons id ids ih =>
    rw [projectStars, each]
    split_ifs with indexed
    · cases seen : see id with
      | none =>
        exact absurd ⟨indexed, fun visible => absurd (seen ▸ visible) (by decide)⟩ fits
      | some here =>
        rw [Option.bind_eq_bind, Option.bind_some]
        dsimp only
        rw [ih fun rest => fits ⟨indexed, fun _ => rest⟩]
        rfl
    · rfl

end Stars

section Geometry

open Stars

variable (stars : Stars) {i : Fin 7}

theorem bind_of_eq {α β : Type} {o : Option α} {a : α} (found : o = some a) (f : α → Option β) :
    (o >>= f) = f a := by
  rw [found]
  rfl

theorem checkedInt_of_abs {v c : ℤ} (bound : |v| ≤ c) (small : c < 2 ^ 31) :
    checkedInt v = some v := by
  obtain ⟨low, high⟩ := abs_le.mp bound
  rw [checkedInt, if_pos (by omega)]

theorem checkedDiv_of_abs {a b c : ℤ} (positive : 0 < b) (bound : |a| ≤ c) (small : c < 2 ^ 31) :
    checkedDiv a b = some (a.tdiv b) := by
  obtain ⟨low, high⟩ := abs_le.mp bound
  have size : (a.tdiv b).natAbs ≤ a.natAbs := Int.natAbs_tdiv_le_natAbs a b
  rw [checkedDiv, if_neg positive.ne', checkedInt, if_pos (by omega)]

theorem checkedRootLoop_eq {n : ℕ} {val g : ℤ} (root : 0 ≤ g) (left : 0 ≤ val)
    (small : g ^ 2 + val < 2 ^ 30) (bits : n ≤ 16) (start : g = 0 ∨ 2 ^ n ≤ g) :
    checkedRootLoop n val g = some (isqrtLoop n val g) := by
  induction n generalizing val g with
  | zero => rfl
  | succ n ih =>
    have bit : (0 : ℤ) < 2 ^ n := by positivity
    have top : (2 : ℤ) ^ n ≤ 2 ^ 15 := pow_le_pow_right₀ (by norm_num) (by omega)
    have inside : |(2 * g + 2 ^ n) * 2 ^ n| ≤ 2 ^ 30 + 2 ^ 28 := by
      rw [abs_of_nonneg (by positivity)]
      rcases start with rfl | large
      · nlinarith
      · rw [pow_succ] at large
        nlinarith
    rw [checkedRootLoop, isqrtLoop, checkedInt_of_abs inside (by norm_num), Option.bind_eq_bind,
      Option.bind_some]
    split_ifs with fits
    · refine ih (by positivity) (by linarith) ?_ (by omega) (.inr (by linarith))
      have square : (g + 2 ^ n) ^ 2 + (val - (2 * g + 2 ^ n) * 2 ^ n) = g ^ 2 + val := by ring
      rwa [square]
    · refine ih root left small (by omega) (start.imp_right fun large => ?_)
      rw [pow_succ] at large
      linarith

theorem checkedRoot_eq {val : ℤ} (left : 0 ≤ val) (small : val < 2 ^ 30) :
    checkedRoot val = some (isqrt val) :=
  checkedRootLoop_eq le_rfl left (by linarith) le_rfl (.inl rfl)

/-- What a row that is not too narrow is measured with -/
def frameOf : Frame where
  d12 := d12
  x0 := x stars 0
  y0 := y stars 0
  r2 := r2 stars
  r00 := r00 stars
  r01 := r01 stars
  r10 := -r01 stars
  r11 := r00 stars

theorem abs_coordinate (i : Fin 7) : |x stars i| ≤ 4095 ∧ |y stars i| ≤ 4095 := by
  have inside := coordinate_le stars i
  constructor <;> rw [abs_le] <;> omega

theorem abs_mul_le {a b m n : ℤ} (first : |a| ≤ m) (second : |b| ≤ n) : |a * b| ≤ m * n := by
  rw [abs_mul]
  exact mul_le_mul first second (abs_nonneg b) ((abs_nonneg a).trans first)

theorem frame_eq : frame stars =
    some (if distance2 stars < 25 then none else some (frameOf stars)) := by
  obtain ⟨onX, onY⟩ := abs_d01_le stars
  obtain ⟨nonneg, small⟩ := distance2_le stars
  obtain ⟨root, rootSmall⟩ := isqrt_distance2_le stars
  obtain ⟨tolNonneg, tolSmall⟩ := tol_le stars
  obtain ⟨rotation, rotation'⟩ := abs_rotation_le stars
  have inside (i : Fin 7) : checkedInt (x stars i) = some (x stars i) ∧
      checkedInt (y stars i) = some (y stars i) :=
    ⟨checkedInt_of_abs (abs_coordinate stars i).1 (by norm_num),
      checkedInt_of_abs (abs_coordinate stars i).2 (by norm_num)⟩
  have template : checkedInt (dx12 * dx12) = some (dx12 * dx12) ∧
      checkedInt (dy12 * dy12) = some (dy12 * dy12) ∧
      checkedInt (dx12 * dx12 + dy12 * dy12) = some (dx12 * dx12 + dy12 * dy12) := by decide
  have length : checkedRoot (dx12 * dx12 + dy12 * dy12) = some d12 :=
    checkedRoot_eq (by decide) (by decide)
  have positive : 0 < d12 := by rw [d12_eq]; norm_num
  have along : checkedInt (x stars 1 - x stars 0) = some (dx01 stars) ∧
      checkedInt (y stars 1 - y stars 0) = some (dy01 stars) :=
    ⟨checkedInt_of_abs onX (by norm_num), checkedInt_of_abs onY (by norm_num)⟩
  have squares : checkedInt (dx01 stars * dx01 stars) = some (dx01 stars * dx01 stars) ∧
      checkedInt (dy01 stars * dy01 stars) = some (dy01 stars * dy01 stars) :=
    ⟨checkedInt_of_abs (abs_mul_le onX onX) (by norm_num),
      checkedInt_of_abs (abs_mul_le onY onY) (by norm_num)⟩
  have sum : checkedInt (dx01 stars * dx01 stars + dy01 stars * dy01 stars) =
      some (distance2 stars) :=
    checkedInt_of_abs ((abs_of_nonneg nonneg).trans_le small) (by norm_num)
  have distance : checkedRoot (distance2 stars) = some (isqrt (distance2 stars)) :=
    checkedRoot_eq nonneg (by linarith)
  have scaled : |TOLERANCE * isqrt (distance2 stars)| ≤ 800 * 5791 :=
    abs_mul_le (by decide) ((abs_of_nonneg root).trans_le rootSmall)
  have tolerance : checkedInt (TOLERANCE * isqrt (distance2 stars)) =
        some (TOLERANCE * isqrt (distance2 stars)) ∧
      checkedDiv (TOLERANCE * isqrt (distance2 stars)) d12 = some (tol stars) :=
    ⟨checkedInt_of_abs scaled (by norm_num), checkedDiv_of_abs positive scaled (by norm_num)⟩
  have square : |tol stars * tol stars| ≤ 21251 * 21251 :=
    abs_mul_le ((abs_of_nonneg tolNonneg).trans_le tolSmall)
      ((abs_of_nonneg tolNonneg).trans_le tolSmall)
  have radius : checkedInt (tol stars * tol stars) = some (tol stars * tol stars) ∧
      checkedDiv (tol stars * tol stars) 100 = some (r2 stars) :=
    ⟨checkedInt_of_abs square (by norm_num), checkedDiv_of_abs (by norm_num) square (by norm_num)⟩
  have edge (a : ℤ) (side : |a| ≤ 185) : |a * dx01 stars| ≤ 185 * 4095 ∧
      |a * dy01 stars| ≤ 185 * 4095 := ⟨abs_mul_le side onX, abs_mul_le side onY⟩
  have wide := edge dx12 (by decide)
  have high := edge dy12 (by decide)
  have products : checkedInt (dx12 * dx01 stars) = some (dx12 * dx01 stars) ∧
      checkedInt (dy12 * dy01 stars) = some (dy12 * dy01 stars) ∧
      checkedInt (dy12 * dx01 stars) = some (dy12 * dx01 stars) ∧
      checkedInt (dx12 * dy01 stars) = some (dx12 * dy01 stars) :=
    ⟨checkedInt_of_abs wide.1 (by norm_num), checkedInt_of_abs high.2 (by norm_num),
      checkedInt_of_abs high.1 (by norm_num), checkedInt_of_abs wide.2 (by norm_num)⟩
  have first : |dx12 * dx01 stars + dy12 * dy01 stars| ≤ 2 * (185 * 4095) :=
    (abs_add_le _ _).trans (by linarith [wide.1, high.2])
  have second : |dy12 * dx01 stars - dx12 * dy01 stars| ≤ 2 * (185 * 4095) :=
    (abs_sub _ _).trans (by linarith [wide.2, high.1])
  have turned : checkedInt (dx12 * dx01 stars + dy12 * dy01 stars) =
        some (dx12 * dx01 stars + dy12 * dy01 stars) ∧
      checkedDiv (dx12 * dx01 stars + dy12 * dy01 stars) d12 = some (r00 stars) ∧
      checkedInt (dy12 * dx01 stars - dx12 * dy01 stars) =
        some (dy12 * dx01 stars - dx12 * dy01 stars) ∧
      checkedDiv (dy12 * dx01 stars - dx12 * dy01 stars) d12 = some (r01 stars) :=
    ⟨checkedInt_of_abs first (by norm_num), checkedDiv_of_abs positive first (by norm_num),
      checkedInt_of_abs second (by norm_num), checkedDiv_of_abs positive second (by norm_num)⟩
  have mirrored : checkedInt (-r01 stars) = some (-r01 stars) :=
    checkedInt_of_abs ((abs_neg _).trans_le rotation') (by norm_num)
  rw [frame, bind_of_eq template.1, bind_of_eq template.2.1, bind_of_eq template.2.2,
    bind_of_eq length, bind_of_eq (inside 0).1, bind_of_eq (inside 0).2, bind_of_eq (inside 1).1,
    bind_of_eq (inside 1).2, bind_of_eq along.1, bind_of_eq along.2, bind_of_eq squares.1,
    bind_of_eq squares.2, bind_of_eq sum]
  split_ifs with close
  · rfl
  · rw [bind_of_eq distance, bind_of_eq tolerance.1, bind_of_eq tolerance.2, bind_of_eq radius.1,
      bind_of_eq radius.2, bind_of_eq products.1, bind_of_eq products.2.1, bind_of_eq turned.1,
      bind_of_eq turned.2.1, bind_of_eq products.2.2.1, bind_of_eq products.2.2.2,
      bind_of_eq turned.2.2.1, bind_of_eq turned.2.2.2, bind_of_eq mirrored]
    rfl

theorem checkedInt_none {v : ℤ} (large : 2 ^ 31 ≤ v) : checkedInt v = none := by
  rw [checkedInt, if_neg (by omega)]

theorem checkedMiss_eq (i : Fin 7) : checkedMiss (frameOf stars) stars i =
    if 100 * miss stars i < 2 ^ 31 then some (100 * miss stars i) else none := by
  obtain ⟨rotation, rotation'⟩ := abs_rotation_le stars
  obtain ⟨onX, onY⟩ := abs_dipper_le i
  obtain ⟨placeX, placeY⟩ := abs_place_le stars i
  obtain ⟨offX, offY⟩ := abs_offset_le stars i
  have mirrored : |-r01 stars| ≤ 5654 := (abs_neg _).trans_le rotation'
  have positive : 0 < d12 := by rw [d12_eq]; norm_num
  have here := abs_coordinate stars i
  have first := abs_coordinate stars 0
  have products : checkedInt (r00 stars * dipperDx i) = some (r00 stars * dipperDx i) ∧
      checkedInt (r01 stars * dipperDy i) = some (r01 stars * dipperDy i) ∧
      checkedInt (-r01 stars * dipperDx i) = some (-r01 stars * dipperDx i) ∧
      checkedInt (r00 stars * dipperDy i) = some (r00 stars * dipperDy i) :=
    ⟨checkedInt_of_abs (abs_mul_le rotation onX) (by norm_num),
      checkedInt_of_abs (abs_mul_le rotation' onY) (by norm_num),
      checkedInt_of_abs (abs_mul_le mirrored onX) (by norm_num),
      checkedInt_of_abs (abs_mul_le rotation onY) (by norm_num)⟩
  have sums := checkedInt_of_abs placeX (by norm_num)
  have sums' := checkedInt_of_abs placeY (by norm_num)
  have quotients := checkedDiv_of_abs positive placeX (by norm_num)
  have quotients' := checkedDiv_of_abs positive placeY (by norm_num)
  have xip_ : checkedInt ((r00 stars * dipperDx i + r01 stars * dipperDy i).tdiv d12 + x stars 0) =
      some (xip stars i) := by
    have size : |xip stars i| ≤ 35842 + 4095 := by
      have split : xip stars i = x stars i - (x stars i - xip stars i) := by ring
      rw [split]
      exact (abs_sub _ _).trans (by linarith [here.1])
    exact checkedInt_of_abs size (by norm_num)
  have yip_ : checkedInt ((-r01 stars * dipperDx i + r00 stars * dipperDy i).tdiv d12 + y stars 0) =
      some (yip stars i) := by
    have size : |yip stars i| ≤ 35842 + 4095 := by
      have split : yip stars i = y stars i - (y stars i - yip stars i) := by ring
      rw [split]
      exact (abs_sub _ _).trans (by linarith [here.2])
    exact checkedInt_of_abs size (by norm_num)
  have squares := abs_mul_le offX offX
  have squares' := abs_mul_le offY offY
  rw [checkedMiss, frameOf, bind_of_eq products.1, bind_of_eq products.2.1, bind_of_eq sums,
    bind_of_eq quotients, bind_of_eq xip_, bind_of_eq products.2.2.1, bind_of_eq products.2.2.2,
    bind_of_eq sums', bind_of_eq quotients', bind_of_eq yip_,
    bind_of_eq (checkedInt_of_abs here.1 (by norm_num)),
    bind_of_eq (checkedInt_of_abs here.2 (by norm_num)),
    bind_of_eq (checkedInt_of_abs offX (by norm_num)),
    bind_of_eq (checkedInt_of_abs offY (by norm_num)),
    bind_of_eq (checkedInt_of_abs squares (by norm_num)),
    bind_of_eq (checkedInt_of_abs squares' (by norm_num))]
  have nonneg := miss_nonneg stars i
  change (checkedInt (miss stars i) >>= fun m => checkedInt (100 * m)) = _
  by_cases sum : miss stars i < 2 ^ 31
  · rw [bind_of_eq (checkedInt_of_abs (abs_of_nonneg nonneg).le sum)]
    split_ifs with fits
    · exact checkedInt_of_abs (abs_of_nonneg (by linarith)).le fits
    · exact checkedInt_none (not_lt.mp fits)
  · rw [checkedInt_none (not_lt.mp sum), if_neg (by linarith)]
    rfl

/-- The distances that the loop comes to fit into 32 bits. -/
def MissesFit : List (Fin 7) → Prop
  | [] => True
  | i :: is => 100 * miss stars i < 2 ^ 31 ∧ (100 * miss stars i ≤ r2 stars → MissesFit is)

theorem nearPlaces_some {is : List (Fin 7)} (fits : MissesFit stars is) :
    nearPlaces (frameOf stars) stars is =
      some (decide (∀ i ∈ is, int32 (100 * int32 (miss stars i)) ≤ r2 stars)) := by
  induction is with
  | nil => rfl
  | cons i is ih =>
    obtain ⟨small, rest⟩ := fits
    have nonneg := miss_nonneg stars i
    have plain : int32 (100 * int32 (miss stars i)) = 100 * miss stars i := by
      have inner : int32 (miss stars i) = miss stars i := int32_of_inInt32 ⟨by omega, by omega⟩
      rw [inner, int32_of_inInt32 ⟨by omega, by omega⟩]
    rw [nearPlaces, checkedMiss_eq, if_pos small, Option.bind_eq_bind, Option.bind_some]
    change (if r2 stars < 100 * miss stars i then some false else _) = _
    split_ifs with far
    · rw [eq_comm, Option.some_inj, decide_eq_false_iff_not]
      intro all
      have here := all i List.mem_cons_self
      rw [plain] at here
      omega
    · rw [ih (rest (not_lt.mp far)), Option.some_inj, decide_eq_decide, List.forall_mem_cons, plain]
      exact (and_iff_right (not_lt.mp far)).symm

theorem nearPlaces_none {is : List (Fin 7)} (fits : ¬ MissesFit stars is) :
    nearPlaces (frameOf stars) stars is = none := by
  induction is with
  | nil => exact absurd trivial fits
  | cons i is ih =>
    rw [nearPlaces, checkedMiss_eq]
    split_ifs with small
    · rw [Option.bind_eq_bind, Option.bind_some]
      change (if r2 stars < 100 * miss stars i then some false else _) = _
      have next : ¬ (100 * miss stars i ≤ r2 stars → MissesFit stars is) := fun rest =>
        fits ⟨small, rest⟩
      rw [if_neg (fun far => next fun near => absurd far (not_lt.mpr near))]
      exact ih fun rest => next fun _ => rest
    · rfl

/-- The distances fit, where the first two stars are far enough apart. -/
def GeometryFits : Prop := 25 ≤ distance2 stars → MissesFit stars others

theorem isDipper_some (fits : GeometryFits stars) :
    isDipper stars = some (Stars.isDipper stars) := by
  rw [isDipper, frame_eq, Option.bind_eq_bind, Option.bind_some, Stars.isDipper]
  split_ifs with close
  · rw [eq_comm, Option.some_inj, decide_eq_false_iff_not]
    exact fun both => absurd both.1 (not_le.mpr close)
  · dsimp only
    rw [nearPlaces_some stars (fits (not_lt.mp close)), Option.some_inj, decide_eq_decide]
    have members : ∀ i : Fin 7, i ∈ others ↔ 2 ≤ i := by decide
    constructor
    · exact fun all => ⟨not_lt.mp close, fun i from2 => all i ((members i).mpr from2)⟩
    · exact fun both i inside => both.2 i ((members i).mp inside)

theorem isDipper_none (fits : ¬ GeometryFits stars) : isDipper stars = none := by
  rw [GeometryFits, Classical.not_imp] at fits
  rw [isDipper, frame_eq, if_neg (not_lt.mpr fits.1), Option.bind_eq_bind, Option.bind_some]
  exact nearPlaces_none stars fits.2

end Geometry

section Rows

variable (keys : SiphashKeys) (numBits : ℕ) (blake2 : Bytes → MetaId)

/-- The places at which a row is seen from the camera after it was turned by a nonce -/
def seen (offset : UInt64) (nonce : UInt32) (id : UInt32) : Option (Fin 4096 × Fin 4096) :=
  Verifier.projectStar (sky blake2) keys numBits
    (Verifier.setTarget (sky blake2) keys offset nonce) id

/-- What a row leaves to be right: the ids that are looked up have words of their own, and the
distances that are compared fit. -/
structure RowFits (offset : UInt64) (row : Fin 9 → UInt32) : Prop where
  first : Indexed (row 0)
  stars : (seen keys numBits blake2 offset 0 (row 0)).isSome →
    IdsFit (seen keys numBits blake2 offset (row 1)) ((List.finRange 7).map (starId row))
  geometry : (seen keys numBits blake2 offset 0 (row 0)).isSome →
    ∀ stars, Verifier.Shown (sky blake2) keys numBits offset row stars → GeometryFits stars

theorem mapM_eq_some {α β : Type} {f : α → Option β} {l : List α} {out : List β} :
    l.mapM f = some out ↔ l.map f = out.map some := by
  induction l generalizing out with
  | nil => cases out <;> simp
  | cons a l ih =>
    rw [List.mapM_cons, List.map_cons]
    cases here : f a with
    | none =>
      refine iff_of_false (fun found => nomatch found) fun same => ?_
      cases out <;> simp at same
    | some b =>
      rw [Option.bind_eq_bind, Option.bind_some]
      cases rest : l.mapM f with
      | none =>
        refine iff_of_false (fun found => nomatch found) fun same => ?_
        cases out with
        | nil => simp at same
        | cons c out =>
          rw [List.map_cons, List.cons.injEq] at same
          exact absurd (rest.symm.trans (ih.mpr same.2)) (fun wrong => nomatch wrong)
      | some places =>
        have own := ih.mp rest
        constructor
        · intro found
          cases found
          rw [own]
          rfl
        · intro same
          cases out with
          | nil => simp at same
          | cons c out =>
            rw [List.map_cons, List.cons.injEq, Option.some_inj] at same
            have again := rest.symm.trans (ih.mpr same.2)
            rw [same.1, Option.some_inj.mp again]
            rfl

variable {keys numBits blake2} {offset : UInt64} {row : Fin 9 → UInt32}

theorem mapM_seen (stars : Stars) :
    ((List.finRange 7).map (starId row)).mapM (seen keys numBits blake2 offset (row 1)) =
        some (List.ofFn stars) ↔
      Verifier.Shown (sky blake2) keys numBits offset row stars := by
  rw [mapM_eq_some, List.map_map, List.map_ofFn, ← List.ofFn_eq_map]
  exact List.ofFn_inj.trans funext_iff

theorem starsOf_ofFn (stars : Stars) : starsOf (List.ofFn stars) = stars := by
  funext i
  rw [starsOf, List.getD_eq_getElem?_getD, List.getElem?_ofFn, dif_pos i.isLt]
  rfl

theorem mapM_cases (keys : SiphashKeys) (numBits : ℕ) (blake2 : Bytes → MetaId)
    (offset : UInt64) (row : Fin 9 → UInt32) :
    (∃ stars, Verifier.Shown (sky blake2) keys numBits offset row stars ∧
      ((List.finRange 7).map (starId row)).mapM (seen keys numBits blake2 offset (row 1)) =
        some (List.ofFn stars)) ∨
    ((¬ ∃ stars, Verifier.Shown (sky blake2) keys numBits offset row stars) ∧
      ((List.finRange 7).map (starId row)).mapM (seen keys numBits blake2 offset (row 1)) =
        none) := by
  by_cases shown : ∃ stars, Verifier.Shown (sky blake2) keys numBits offset row stars
  · obtain ⟨stars, places⟩ := shown
    exact .inl ⟨stars, places, (mapM_seen stars).mpr places⟩
  · refine .inr ⟨shown, ?_⟩
    rw [Option.eq_none_iff_forall_ne_some]
    intro out found
    have places := mapM_eq_some.mp found
    refine shown ⟨starsOf out, fun i => ?_⟩
    have size : out.length = 7 := by
      have lengths := congrArg List.length places
      rw [List.length_map, List.length_map, List.length_map, List.length_finRange] at lengths
      exact lengths.symm
    have here := congrArg (fun l => l[i.val]?) places
    have inside : i.val < out.length := by omega
    simp only [List.getElem?_map, List.getElem?_eq_getElem inside, Option.map_some] at here
    rw [List.getElem?_eq_getElem (by rw [List.length_finRange]; exact i.isLt),
      List.getElem_finRange, Option.map_some, Option.map_some, Option.some_inj] at here
    rw [starsOf, List.getD_eq_getElem?_getD, List.getElem?_eq_getElem inside]
    exact here

theorem verifyRow_eq_false (hidden :
    ¬ ∃ stars, Verifier.Shown (sky blake2) keys numBits offset row stars) :
    Verifier.verifyRow (sky blake2) keys numBits offset row = false := by
  rw [← Bool.not_eq_true, Verifier.verifyRow_iff]
  rintro ⟨-, stars, places, -⟩
  exact hidden ⟨stars, places⟩

theorem verifyRow_eq_isDipper {stars : Stars}
    (visible : (seen keys numBits blake2 offset 0 (row 0)).isSome)
    (places : Verifier.Shown (sky blake2) keys numBits offset row stars) :
    Verifier.verifyRow (sky blake2) keys numBits offset row = Stars.isDipper stars := by
  rw [Bool.eq_iff_iff, Verifier.verifyRow_iff]
  constructor
  · rintro ⟨-, stars', places', dipper⟩
    have same : stars' = stars :=
      funext fun i => Option.some.inj ((places' i).symm.trans (places i))
    rwa [same] at dipper
  · exact fun dipper => ⟨Option.isSome_iff_exists.mp visible, stars, places, dipper⟩

variable (from7 : 7 ≤ numBits) (to9 : numBits ≤ 9)

include from7 to9

theorem verifyRow_some (fits : RowFits keys numBits blake2 offset row) :
    verifyRow keys numBits offset row =
      some (Verifier.verifyRow (sky blake2) keys numBits offset row) := by
  have each (nonce : UInt32) (id : UInt32) : projectStar keys numBits
      (Camera.setTarget (wordsFrom keys (offset + (3 * nonce).toUInt64))) id =
        if Indexed id then some (seen keys numBits blake2 offset nonce id) else none :=
    projectStar_eq keys from7 to9 _ id
  rw [verifyRow, bind_of_eq (setTarget_eq keys offset 0), each, if_pos fits.first,
    Option.bind_eq_bind, Option.bind_some]
  cases visible : seen keys numBits blake2 offset 0 (row 0) with
  | none =>
    have hidden : ¬ Verifier.verifyRow (sky blake2) keys numBits offset row = true := by
      rw [Verifier.verifyRow_iff]
      rintro ⟨⟨place, there⟩, -⟩
      exact absurd (visible.symm.trans there) (fun wrong => nomatch wrong)
    rw [Bool.not_eq_true] at hidden
    rw [hidden]
  | some here =>
    have there : (seen keys numBits blake2 offset 0 (row 0)).isSome := by rw [visible]; rfl
    dsimp only
    rw [bind_of_eq (setTarget_eq keys offset (row 1)),
      bind_of_eq (projectStars_some keys (each (row 1)) (fits.stars there))]
    rcases mapM_cases keys numBits blake2 offset row with
      ⟨stars, places, found⟩ | ⟨hidden, found⟩
    · rw [found]
      dsimp only
      rw [starsOf_ofFn, isDipper_some stars (fits.geometry there stars places),
        verifyRow_eq_isDipper there places]
    · rw [found, verifyRow_eq_false hidden]

theorem verifyRow_none (fits : ¬ RowFits keys numBits blake2 offset row) :
    verifyRow keys numBits offset row = none := by
  have each (nonce : UInt32) (id : UInt32) : projectStar keys numBits
      (Camera.setTarget (wordsFrom keys (offset + (3 * nonce).toUInt64))) id =
        if Indexed id then some (seen keys numBits blake2 offset nonce id) else none :=
    projectStar_eq keys from7 to9 _ id
  rw [verifyRow, bind_of_eq (setTarget_eq keys offset 0), each]
  by_cases first : Indexed (row 0)
  · rw [if_pos first, Option.bind_eq_bind, Option.bind_some]
    cases visible : seen keys numBits blake2 offset 0 (row 0) with
    | none =>
      have hidden : ¬ (seen keys numBits blake2 offset 0 (row 0)).isSome := by
        rw [visible]
        exact Bool.false_ne_true
      exact absurd ⟨first, fun there => absurd there hidden, fun there => absurd there hidden⟩ fits
    | some here =>
      dsimp only
      rw [bind_of_eq (setTarget_eq keys offset (row 1))]
      by_cases ids : IdsFit (seen keys numBits blake2 offset (row 1))
          ((List.finRange 7).map (starId row))
      · rw [bind_of_eq (projectStars_some keys (each (row 1)) ids)]
        rcases mapM_cases keys numBits blake2 offset row with
          ⟨stars, places, found⟩ | ⟨hidden, found⟩
        · rw [found]
          dsimp only
          rw [starsOf_ofFn]
          refine isDipper_none stars fun geometry =>
            fits ⟨first, fun _ => ids, fun _ other shown => ?_⟩
          have same : other = stars :=
            funext fun i => Option.some.inj ((shown i).symm.trans (places i))
          rwa [same]
        · exact absurd ⟨first, fun _ => ids, fun _ stars shown => absurd ⟨stars, shown⟩ hidden⟩ fits
      · rw [projectStars_none keys (each (row 1)) ids]
        rfl
  · rw [if_neg first]
    rfl

end Rows

section Runs

variable {keys : SiphashKeys} {numBits : ℕ} {blake2 : Bytes → MetaId}

/-- Every row that the loop comes to fits, and so does the sum of the nonces after it. -/
def RunFits (keys : SiphashKeys) (numBits : ℕ) (blake2 : Bytes → MetaId) :
    List (Fin 9 → UInt32) → UInt32 → Prop
  | [], _ => True
  | row :: rows, nonceSum =>
    RowFits keys numBits blake2 (nonceOffset nonceSum) row ∧
      (Verifier.verifyRow (sky blake2) keys numBits (nonceOffset nonceSum) row = true →
        nonceSum.toNat + ((row 1).toNat + 1) < 2 ^ 32 ∧
          RunFits keys numBits blake2 rows (addNonce nonceSum row))

variable (from7 : 7 ≤ numBits) (to9 : numBits ≤ 9)

include from7 to9

theorem verifyRows_some {rows : List (Fin 9 → UInt32)} {nonceSum : UInt32}
    (fits : RunFits keys numBits blake2 rows nonceSum) :
    verifyRows keys numBits rows nonceSum =
      some (Verifier.verifyRows (sky blake2) keys numBits rows nonceSum) := by
  induction rows generalizing nonceSum with
  | nil => rfl
  | cons row rows ih =>
    obtain ⟨here, rest⟩ := fits
    rw [verifyRows, Verifier.verifyRows, bind_of_eq (verifyRow_some from7 to9 here)]
    cases passes : Verifier.verifyRow (sky blake2) keys numBits (nonceOffset nonceSum) row with
    | false => rfl
    | true =>
      obtain ⟨small, next⟩ := rest passes
      rw [if_pos rfl, checkedUInt, if_pos small, Option.bind_eq_bind, Option.bind_some,
        Bool.true_and]
      exact ih next

theorem verifyRows_none {rows : List (Fin 9 → UInt32)} {nonceSum : UInt32}
    (fits : ¬ RunFits keys numBits blake2 rows nonceSum) :
    verifyRows keys numBits rows nonceSum = none := by
  induction rows generalizing nonceSum with
  | nil => exact absurd trivial fits
  | cons row rows ih =>
    rw [verifyRows]
    by_cases here : RowFits keys numBits blake2 (nonceOffset nonceSum) row
    · rw [bind_of_eq (verifyRow_some from7 to9 here)]
      cases passes : Verifier.verifyRow (sky blake2) keys numBits (nonceOffset nonceSum) row with
      | false =>
        exact absurd ⟨here, fun passed => absurd (passes.symm.trans passed) Bool.false_ne_true⟩ fits
      | true =>
        rw [if_pos rfl, checkedUInt]
        split_ifs with small
        · rw [Option.bind_eq_bind, Option.bind_some]
          exact ih fun next => fits ⟨here, fun _ => ⟨small, next⟩⟩
        · rfl
    · rw [verifyRow_none from7 to9 here]
      rfl

omit from7 to9

/-- The rows that are looked at -/
def rowsOf (proof : Proof) (simple : Bool) : List (Fin 9 → UInt32) :=
  if simple then [proof 0] else (List.finRange 4).map proof

/-- Nothing wraps, and no range is of another size, exactly where the ids that are looked up have
words of their own, the distances that are compared fit, and so do the sums of the nonces; then the
verifier does what its plain model does. -/
theorem checked_iff_fits (keys : SiphashKeys) (blake2 : Bytes → MetaId) (difficulty : Flt1648)
    (proof : Proof) (simple : Bool) (from7 : 7 ≤ numBits) (to9 : numBits ≤ 9) :
    ((verifyPow keys numBits difficulty proof simple).isSome ↔
      RunFits keys numBits blake2 (rowsOf proof simple) 0) ∧
    (RunFits keys numBits blake2 (rowsOf proof simple) 0 →
      verifyPow keys numBits difficulty proof simple =
        some (Verifier.verifyPow (sky blake2) keys numBits difficulty proof simple)) := by
  have complete (fits : RunFits keys numBits blake2 (rowsOf proof simple) 0) :
      verifyPow keys numBits difficulty proof simple =
        some (Verifier.verifyPow (sky blake2) keys numBits difficulty proof simple) := by
    rw [verifyPow, Verifier.verifyPow, if_neg (show ¬ (numBits < 7 ∨ 9 < numBits) by omega)]
    change (verifyRows keys numBits (rowsOf proof simple) 0 >>= _) = _
    rw [bind_of_eq (verifyRows_some from7 to9 fits)]
    change _ = some (if Verifier.verifyRows (sky blake2) keys numBits (rowsOf proof simple) 0 = true
      then _ else _)
    split_ifs <;> rfl
  refine ⟨⟨fun safe => ?_, fun fits => ?_⟩, complete⟩
  · by_contra fits
    rw [verifyPow] at safe
    change (verifyRows keys numBits (rowsOf proof simple) 0 >>= _).isSome = true at safe
    rw [verifyRows_none from7 to9 fits] at safe
    exact Bool.false_ne_true safe
  · rw [complete fits]
    rfl

theorem runFits_constant (keys : SiphashKeys) (blake2 : Bytes → MetaId) {id : UInt32}
    (indexed : Indexed id) (rows : List (Fin 9 → UInt32)) (nonceSum : UInt32) :
    RunFits keys numBits blake2 ((fun _ => id) :: rows) nonceSum := by
  have close : ∀ stars, Verifier.Shown (sky blake2) keys numBits (nonceOffset nonceSum)
      (fun _ => id) stars → stars.distance2 = 0 := fun stars shown => by
    have same : stars 1 = stars 0 := Option.some.inj ((shown 1).symm.trans (shown 0))
    rw [Stars.distance2, Stars.dx01, Stars.dy01, Stars.x, Stars.y, Stars.x, Stars.y, same]
    ring
  refine ⟨⟨indexed, fun _ => ?_, fun _ stars shown far => ?_⟩, fun passes => ?_⟩
  · have all : ∀ n, IdsFit (seen keys numBits blake2 (nonceOffset nonceSum) id)
        (List.replicate n id) := fun n => by
      induction n with
      | zero => trivial
      | succ n ih => exact ⟨indexed, fun _ => ih⟩
    exact all 7
  · rw [close stars shown] at far
    norm_num at far
  · obtain ⟨-, stars, shown, dipper⟩ := (Verifier.verifyRow_iff _ _ _ _ _).mp passes
    have far := (of_decide_eq_true dipper).1
    rw [close stars shown] at far
    norm_num at far

/-- A proof of the star 0 alone is refused without harm. -/
theorem checked_iff_fits_zero :
    (verifyPow ⟨0, 0, 0, 0⟩ 7 Target.ONE (fun _ _ => 0) false).isSome :=
  (checked_iff_fits ⟨0, 0, 0, 0⟩ (fun _ => 0) Target.ONE (fun _ _ => 0) false (by decide)
    (by decide)).1.mpr (runFits_constant _ _ (by decide) _ _)

/-- The star 0x55555555 asks for the words from `2 ^ 32 - 1` to 2. -/
theorem star_overruns : (¬ ∀ keys numBits difficulty proof simple, 7 ≤ numBits → numBits ≤ 9 →
      (verifyPow keys numBits difficulty proof simple).isSome) ∧
    ((3 * 0x55555555 + 3 : UInt32).toUInt64 - (3 * 0x55555555 : UInt32).toUInt64).toNat =
      2 ^ 64 - 2 ^ 32 + 3 := by
  refine ⟨fun safe => ?_, by decide⟩
  have far : ¬ Indexed 0x55555555 := by decide
  have accepted := safe ⟨0, 0, 0, 0⟩ 7 Target.ONE (fun _ _ => 0x55555555) false (by decide)
    (by decide)
  have fits : ¬ RunFits ⟨0, 0, 0, 0⟩ 7 (fun _ => 0)
      ((List.finRange 4).map fun _ _ => 0x55555555) 0 := fun fits => far fits.1.first
  rw [verifyPow] at accepted
  change (verifyRows ⟨0, 0, 0, 0⟩ 7 ((List.finRange 4).map fun _ _ => 0x55555555) 0 >>= _).isSome =
    true at accepted
  rw [verifyRows_none (by decide) (by decide) fits] at accepted
  exact Bool.false_ne_true accepted

end Runs

end Epilog.Pow.CheckedVerifier
