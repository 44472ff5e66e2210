/- Module: Epilog/Ec/CommitProof
   source: src/src/ec/builtins.cpp (pproof_3, pverify_1), src/src/ec/keys.cpp (create_new),
     src/src/common/random.cpp, src/src/secp256k1/secp256k1.cpp
   digest: Proofs that a commitment is a sum of commitments: which are made and which accepted. -/

import Epilog.Ec.Arguments
import Epilog.Lib.Fuel
import Epilog.Lib.Numeral
import Mathlib.Algebra.BigOperators.Group.List.Basic
import Mathlib.Algebra.Module.NatInt
import Mathlib.Data.Nat.ModEq
import Mathlib.Data.ZMod.Basic
import Mathlib.Tactic.Abel

set_option autoImplicit false

namespace Epilog.Ec.CommitProof

open Epilog.Ec.Arguments Epilog.Ec.KeyDerivation Epilog.Lib.Fuel Epilog.Lib.Numeral

section Library

/-- The number of a key, its first byte the highest -/
def value {n : ℕ} (key : Bytes n) : ℕ := numeral 256 (key.val.map UInt8.toNat)

/-- The functions of the external library, with `none` and `false` for a result that is not 1 -/
structure Library where
  /-- `secp256k1_pedersen_commitment` -/
  Commitment : Type
  Pubkey : Type
  Signature : Type
  seckeyVerify : Bytes 32 → Bool
  /-- A blinding factor and a value, with the generator `secp256k1_generator_h` -/
  pedersenCommit : Bytes 32 → UInt64 → Option Commitment
  pedersenSerialize : Commitment → Bytes 33
  pedersenParse : Bytes 33 → Option Commitment
  /-- The first so many blinding factors count as positive. -/
  pedersenBlindSum : List (Bytes 32) → ℕ → Option (Bytes 32)
  verifyTally : List Commitment → List Commitment → Bool
  /-- `secp256k1_eckey_pubkey_parse` and `secp256k1_pedersen_commitment_save`, the former without a
  look at its result -/
  loadPubkey : Bytes 33 → Commitment
  pubkeyCreate : Bytes 32 → Option Pubkey
  pubkeySerialize : Pubkey → Bytes 33
  pubkeyParse : Bytes 33 → Option Pubkey
  ecdsaSign : Bytes 32 → Bytes 32 → Option Signature
  signatureSerialize : Signature → Bytes 64
  signatureParse : Bytes 64 → Option Signature
  ecdsaVerify : Signature → Bytes 32 → Pubkey → Bool

/-- What the library documents: commitments are points `b G + v H` and add as such, blinding factors
add modulo the order, and what a key signs is valid under its public key. -/
structure Documented (lib : Library) where
  Point : Type
  [group : AddCommGroup Point]
  order : ℕ
  G : Point
  H : Point
  nsmul_G_iff : ∀ k : ℕ, k • G = 0 ↔ order ∣ k
  commitment : lib.Commitment → Point
  pubkey : lib.Pubkey → Point
  seckeyVerify_iff : ∀ b, lib.seckeyVerify b = true ↔ 0 < value b ∧ value b < order
  pedersenCommit_isSome : ∀ b v, (lib.pedersenCommit b v).isSome ↔
    value b < order ∧ value b • G + v.toNat • H ≠ 0
  pedersenCommit_point : ∀ b v c, lib.pedersenCommit b v = some c →
    commitment c = value b • G + v.toNat • H
  pedersenParse_serialize : ∀ c, (lib.pedersenParse (lib.pedersenSerialize c)).map commitment =
    some (commitment c)
  pedersenBlindSum_eq : ∀ b b₁ b₂, value b < order → value b₁ < order → value b₂ < order →
    ∃ s, lib.pedersenBlindSum [b, b₁, b₂] 1 = some s ∧ value s < order ∧
      value s + value b₁ + value b₂ ≡ value b [MOD order]
  verifyTally_iff : ∀ pos neg, lib.verifyTally pos neg = true ↔
    (pos.map commitment).sum = (neg.map commitment).sum
  loadPubkey_point : ∀ raw p, lib.pubkeyParse raw = some p →
    commitment (lib.loadPubkey raw) = pubkey p
  pubkeyCreate_eq : ∀ b, lib.seckeyVerify b = true →
    ∃ p, lib.pubkeyCreate b = some p ∧ pubkey p = value b • G
  pubkeyParse_serialize : ∀ p, lib.pubkeyParse (lib.pubkeySerialize p) = some p
  ecdsaSign_eq : ∀ hash b p, lib.seckeyVerify b = true → lib.pubkeyCreate b = some p →
    ∃ sig, lib.ecdsaSign hash b = some sig ∧ lib.ecdsaVerify sig hash p = true
  signatureParse_serialize : ∀ sig, lib.signatureParse (lib.signatureSerialize sig) = some sig

attribute [instance] Documented.group

end Library

section Model

/-- What surrounds the builtins: the library, the numbers that `random_` draws, one after the other,
the checksum of a key and the double hash of bytes -/
structure Machine where
  lib : Library
  draws : ℕ → UInt32
  checksum : List UInt8 → Bytes 4
  hashed2 : List UInt8 → Bytes 32

/-- The times of the clock, which knows the years up to 9999 -/
abbrev Utime := {t : UInt64 // t.toNat < 253402300800000000}

def toBytes (t : UInt64) : List UInt8 :=
  (List.range 8).map fun i => (t >>> UInt64.ofNat (8 * (7 - i))).toUInt8

variable (m : Machine)

/-- `next_bytes`, from the draw with the number `pos` -/
def nextBytes (n pos : ℕ) : Bytes n :=
  ⟨(List.range n).map fun i => UInt8.ofNat ((m.draws (pos + i)).toNat % 256), by
    rw [List.length_map, List.length_range]⟩

/-- `next_int`, on 64 bits, which cannot divide by zero -/
def nextInt (max : UInt64) (pos : ℕ) : Option UInt64 :=
  if max = 0 then none else some ((m.draws pos).toUInt64 % max)

/-- `create_new`, with the number of the next draw -/
def createNew : ℕ → ℕ → Option (Bytes 32 × ℕ)
  | 0, _ => none
  | fuel + 1, pos =>
    let bytes := nextBytes m 32 pos
    if m.lib.seckeyVerify bytes then some (bytes, pos + 32) else createNew fuel (pos + 32)

/-- The split of the commitment, in the variables of the loop -/
structure Split where
  b₃ : Bytes 32
  commit₁ : m.lib.Commitment
  commit₂ : m.lib.Commitment
  commit₃ : m.lib.Commitment

/-- How the body of the loop ends -/
inductive Attempt
  | crashes
  /-- `continue`, with the number of the next draw -/
  | again (pos : ℕ)
  | splits (split : Split m)

/-- The body of the loop once there are two keys -/
def split (blinding : Bytes 32) (amount : UInt64) (b₁ b₂ : Bytes 32) (pos : ℕ) : Attempt m :=
  match m.lib.pedersenBlindSum [blinding, b₁, b₂] 1 with
  | none => .again pos
  | some b₃ =>
    match nextInt m amount pos with
    | none => .crashes
    | some v₁ =>
      let v₂ := amount - v₁
      match m.lib.pedersenCommit b₁ v₁ with
      | none => .again (pos + 1)
      | some commit₁ =>
        match m.lib.pedersenCommit b₂ v₂ with
        | none => .again (pos + 1)
        | some commit₂ =>
          match m.lib.pedersenCommit b₃ 0 with
          | none => .again (pos + 1)
          | some commit₃ => .splits ⟨b₃, commit₁, commit₂, commit₃⟩

/-- The body of the loop -/
def attempt (blinding : Bytes 32) (amount : UInt64) (fuel pos : ℕ) : Option (Attempt m) :=
  (createNew m fuel pos).bind fun first =>
    (createNew m fuel first.2).map fun second =>
      split m blinding amount first.1 second.1 second.2

/-- What comes of the loop or of the builtin: nothing yet, for want of fuel, or a crash -/
inductive Result (α : Type)
  | running
  | crashed
  | done (a : α)

/-- The loop -/
def splits (blinding : Bytes 32) (amount : UInt64) : ℕ → ℕ → Result (Split m)
  | 0, _ => .running
  | fuel + 1, pos =>
    match attempt m blinding amount fuel pos with
    | none => .running
    | some .crashes => .crashed
    | some (.again pos) => splits blinding amount fuel pos
    | some (.splits s) => .done s

/-- The small integer of a time, in the 61 bits of its cell -/
def intCell (t : UInt64) : Arg := .int ((BitVec.setWidth 61 t.toBitVec).toInt)

/-- The part of `pproof` after the loop -/
def finish (commit : m.lib.Commitment) (now : Utime) (s : Split m) : Option Arg :=
  if m.lib.verifyTally [commit] [s.commit₁, s.commit₂, s.commit₃] then
    match m.lib.pubkeyCreate s.b₃ with
    | none => none
    | some pubkey =>
      match m.lib.ecdsaSign (m.hashed2 (toBytes now.val)) s.b₃ with
      | none => none
      | some signature => some (.str "pproof" [newBignum (m.lib.pedersenSerialize commit),
          newBignum (m.lib.pedersenSerialize s.commit₁),
          newBignum (m.lib.pedersenSerialize s.commit₂),
          newBignum (m.lib.pubkeySerialize pubkey), intCell now.val,
          newBignum (m.lib.signatureSerialize signature)])
  else none

/-- `pproof`, with the term that its third argument becomes; the draws begin at `pos`. -/
def pproof (fuel pos : ℕ) (now : Utime) (blinding amount : Arg) : Result (Option Arg) :=
  match getPrivateKey m.checksum blinding, amount with
  | some b, .int v =>
    let value := UInt64.ofInt v
    match m.lib.pedersenCommit b value with
    | none => .done none
    | some commit =>
      match splits m b value fuel pos with
      | .running => .running
      | .crashed => .crashed
      | .done s => .done (finish m commit now s)
  | _, _ => .done none

def verifySignature (hash : Bytes 32) (pubkey : Bytes 33) (signature : Bytes 64) : Bool :=
  match m.lib.pubkeyParse pubkey, m.lib.signatureParse signature with
  | some p, some sig => m.lib.ecdsaVerify sig hash p
  | _, _ => false

def pverify : Arg → Bool
  | .str "pproof" [c, c₁, c₂, p, t, s] =>
    match getBignum 33 c, getBignum 33 c₁, getBignum 33 c₂, getBignum 33 p, getBignum 64 s, t with
    | some raw, some raw₁, some raw₂, some pubkey, some signature, .int time =>
      match m.lib.pedersenParse raw, m.lib.pedersenParse raw₁, m.lib.pedersenParse raw₂ with
      | some commit, some commit₁, some commit₂ =>
        m.lib.verifyTally [commit] [commit₁, commit₂, m.lib.loadPubkey pubkey] &&
          verifySignature m (m.hashed2 (toBytes (UInt64.ofInt time))) pubkey signature
      | _, _, _ => false
    | _, _, _, _, _, _ => false
  | _ => false

end Model
section Keys

variable (m : Machine)

theorem createNew_lasting (pos : ℕ) : Lasting fun fuel => createNew m fuel pos := by
  apply lasting_of_succ
  intro fuel found made
  induction fuel generalizing pos with
  | zero => cases made
  | succ fuel ih =>
    rw [createNew] at made ⊢
    split at made
    next valid => rw [if_pos valid, made]
    next invalid =>
      rw [if_neg invalid]
      exact ih _ made

theorem createNew_valid {fuel pos q : ℕ} {key : Bytes 32}
    (made : createNew m fuel pos = some (key, q)) : m.lib.seckeyVerify key = true := by
  induction fuel generalizing pos with
  | zero => cases made
  | succ fuel ih =>
    rw [createNew] at made
    split at made
    next valid =>
      cases made
      exact valid
    next => exact ih made

theorem attempt_lasting (b : Bytes 32) (v : UInt64) (pos : ℕ) :
    Lasting fun fuel => attempt m b v fuel pos := by
  apply Lasting.bind (createNew_lasting m pos)
  intro first n k a more found
  obtain ⟨second, made, rfl⟩ := Option.map_eq_some_iff.mp found
  exact Option.map_eq_some_iff.mpr ⟨second, createNew_lasting m first.2 n k second more made, rfl⟩

theorem splits_lasting {b : Bytes 32} {v : UInt64} {n k pos : ℕ} {s : Split m} (more : n ≤ k)
    (found : splits m b v n pos = .done s) : splits m b v k pos = .done s := by
  induction n generalizing k pos with
  | zero => cases found
  | succ n ih =>
    obtain ⟨k, rfl⟩ := Nat.exists_eq_succ_of_ne_zero (Nat.ne_of_gt (Nat.lt_of_lt_of_le
      (Nat.succ_pos n) more))
    have less := Nat.le_of_succ_le_succ more
    rw [splits] at found ⊢
    cases tried : attempt m b v n pos with
    | none =>
      rw [tried] at found
      cases found
    | some a =>
      have kept : attempt m b v k pos = some a := attempt_lasting m b v pos n k a less tried
      rw [kept]
      rw [tried] at found
      cases a with
      | crashes => cases found
      | again pos => exact ih less found
      | splits s => exact found

end Keys

section Loop

variable {m : Machine} (d : Documented m.lib) (b : Bytes 32) (v : UInt64)

/-- Two keys and a draw that give commitments: the third key is not zero, and no commitment is the
point at infinity. -/
structure Good (b₁ b₂ : Bytes 32) (draw : UInt32) : Prop where
  third : ¬ value b₁ + value b₂ ≡ value b [MOD d.order]
  first : value b₁ • d.G + (draw.toUInt64 % v).toNat • d.H ≠ 0
  second : value b₂ • d.G + (v - draw.toUInt64 % v).toNat • d.H ≠ 0

/-- From the draw with a number on, the draws come to good keys, two at a time with a draw after
them. -/
inductive Usable : ℕ → Prop
  | good {pos p q : ℕ} {b₁ b₂ : Bytes 32} (first : Finds (createNew m · pos) (b₁, p))
    (second : Finds (createNew m · p) (b₂, q)) (good : Good d b v b₁ b₂ (m.draws q)) : Usable pos
  | again {pos p q : ℕ} {b₁ b₂ : Bytes 32} (first : Finds (createNew m · pos) (b₁, p))
    (second : Finds (createNew m · p) (b₂, q)) (later : Usable (q + 1)) : Usable pos

/-- The third key of a split is valid, and the commitments add up to that of the whole. -/
structure Sums (s : Split m) : Prop where
  valid : m.lib.seckeyVerify s.b₃ = true
  third : d.commitment s.commit₃ = value s.b₃ • d.G
  total : d.commitment s.commit₁ + d.commitment s.commit₂ + value s.b₃ • d.G =
    value b • d.G + v.toNat • d.H

variable {d b v}

theorem nsmul_eq_of_modEq {i j : ℕ} (same : i ≡ j [MOD d.order]) : i • d.G = j • d.G := by
  obtain less | less := Nat.le_total i j
  · have zero := (d.nsmul_G_iff (j - i)).mpr ((Nat.modEq_iff_dvd' less).mp same)
    rw [← Nat.sub_add_cancel less, add_nsmul, zero, zero_add]
  · have zero := (d.nsmul_G_iff (i - j)).mpr ((Nat.modEq_iff_dvd' less).mp same.symm)
    rw [← Nat.sub_add_cancel less, add_nsmul, zero, zero_add]

theorem commit_isSome (d : Documented m.lib) {key : Bytes 32}
    (valid : m.lib.seckeyVerify key = true) (amount : UInt64) : (m.lib.pedersenCommit key amount).isSome ↔
      value key • d.G + amount.toNat • d.H ≠ 0 := by
  rw [d.pedersenCommit_isSome]
  exact and_iff_right ((d.seckeyVerify_iff key).mp valid).2

theorem split_spec (d : Documented m.lib) {b₁ b₂ : Bytes 32} (valid : m.lib.seckeyVerify b = true)
    (valid₁ : m.lib.seckeyVerify b₁ = true) (valid₂ : m.lib.seckeyVerify b₂ = true)
    (positive : v ≠ 0) (pos : ℕ) :
    (Good d b v b₁ b₂ (m.draws pos) ∧ (∃ s, split m b v b₁ b₂ pos = .splits s ∧ Sums d b v s)) ∨
      ¬ Good d b v b₁ b₂ (m.draws pos) ∧ split m b v b₁ b₂ pos = .again (pos + 1) := by
  obtain ⟨b₃, summed, less, congruent⟩ := d.pedersenBlindSum_eq b b₁ b₂
    ((d.seckeyVerify_iff b).mp valid).2 ((d.seckeyVerify_iff b₁).mp valid₁).2
    ((d.seckeyVerify_iff b₂).mp valid₂).2
  have drawn : nextInt m v pos = some ((m.draws pos).toUInt64 % v) := if_neg positive
  have third : value b₁ + value b₂ ≡ value b [MOD d.order] ↔ value b₃ • d.G = 0 := by
    rw [d.nsmul_G_iff, ← Nat.modEq_zero_iff_dvd]
    have moved : value b₃ + (value b₁ + value b₂) ≡ value b [MOD d.order] := by
      rw [← Nat.add_assoc]
      exact congruent
    constructor
    · intro same
      have zero : value b₃ + (value b₁ + value b₂) ≡ 0 + (value b₁ + value b₂) [MOD d.order] := by
        rw [Nat.zero_add]
        exact moved.trans same.symm
      exact Nat.ModEq.add_right_cancel' _ zero
    · intro zero
      have same := (zero.add_right (value b₁ + value b₂)).symm.trans moved
      rwa [Nat.zero_add] at same
  have some₃ : (m.lib.pedersenCommit b₃ 0).isSome ↔ value b₃ • d.G ≠ 0 := by
    rw [d.pedersenCommit_isSome, and_iff_right less]
    change value b₃ • d.G + 0 • d.H ≠ 0 ↔ _
    rw [zero_nsmul, add_zero]
  have some₁ := commit_isSome d valid₁ ((m.draws pos).toUInt64 % v)
  have some₂ := commit_isSome d valid₂ (v - (m.draws pos).toUInt64 % v)
  rw [split, summed]
  dsimp only
  rw [drawn]
  dsimp only
  cases made₁ : m.lib.pedersenCommit b₁ ((m.draws pos).toUInt64 % v) with
  | none =>
    rw [made₁] at some₁
    exact .inr ⟨fun good => Bool.noConfusion (some₁.mpr good.first), rfl⟩
  | some commit₁ =>
    rw [made₁] at some₁
    dsimp only
    cases made₂ : m.lib.pedersenCommit b₂ (v - (m.draws pos).toUInt64 % v) with
    | none =>
      rw [made₂] at some₂
      exact .inr ⟨fun good => Bool.noConfusion (some₂.mpr good.second), rfl⟩
    | some commit₂ =>
      rw [made₂] at some₂
      dsimp only
      cases made₃ : m.lib.pedersenCommit b₃ 0 with
      | none =>
        rw [made₃] at some₃
        exact .inr ⟨fun good => Bool.noConfusion
          (some₃.mpr fun zero => good.third (third.mpr zero)), rfl⟩
      | some commit₃ =>
        rw [made₃] at some₃
        have nonzero := some₃.mp rfl
        have total : value b₃ • d.G + (value b₁ • d.G + value b₂ • d.G) = value b • d.G := by
          rw [← add_nsmul, ← add_nsmul, ← Nat.add_assoc]
          exact nsmul_eq_of_modEq congruent
        have whole : ((m.draws pos).toUInt64 % v).toNat +
            (v - (m.draws pos).toUInt64 % v).toNat = v.toNat := by
          have below : (m.draws pos).toUInt64 % v ≤ v :=
            UInt64.le_iff_toNat_le.mpr (by
              rw [UInt64.toNat_mod]
              exact (Nat.mod_lt _ (Nat.pos_of_ne_zero fun zero =>
                positive (UInt64.toNat_inj.mp zero))).le)
          rw [UInt64.toNat_sub_of_le _ _ below]
          exact Nat.add_sub_cancel' (UInt64.le_iff_toNat_le.mp below)
        refine .inl ⟨⟨fun same => nonzero (third.mp same), some₁.mp rfl, some₂.mp rfl⟩,
          ⟨b₃, commit₁, commit₂, commit₃⟩, rfl, ?_, ?_, ?_⟩
        · rw [d.seckeyVerify_iff]
          refine ⟨Nat.pos_of_ne_zero fun zero => nonzero ?_, less⟩
          rw [zero, zero_nsmul]
        · rw [d.pedersenCommit_point b₃ 0 commit₃ made₃]
          change value b₃ • d.G + 0 • d.H = _
          rw [zero_nsmul, add_zero]
        · rw [d.pedersenCommit_point b₁ _ commit₁ made₁, d.pedersenCommit_point b₂ _ commit₂ made₂,
            ← total, ← whole, add_nsmul]
          abel

end Loop

section Loop

variable {m : Machine} {d : Documented m.lib} {b : Bytes 32} {v : UInt64}

theorem attempt_eq {n pos p q : ℕ} {b₁ b₂ : Bytes 32} (first : createNew m n pos = some (b₁, p))
    (second : createNew m n p = some (b₂, q)) :
    attempt m b v n pos = some (split m b v b₁ b₂ q) := by
  rw [attempt, first, Option.bind_some, second, Option.map_some]

theorem of_attempt {n pos : ℕ} {a : Attempt m} (tried : attempt m b v n pos = some a) :
    ∃ b₁ p b₂ q, createNew m n pos = some (b₁, p) ∧ createNew m n p = some (b₂, q) ∧
      split m b v b₁ b₂ q = a := by
  obtain ⟨⟨b₁, p⟩, first, tried⟩ := Option.bind_eq_some_iff.mp tried
  obtain ⟨⟨b₂, q⟩, second, splitted⟩ := Option.map_eq_some_iff.mp tried
  exact ⟨b₁, p, b₂, q, first, second, splitted⟩

theorem splits_of_usable (valid : m.lib.seckeyVerify b = true) (positive : v ≠ 0) {pos : ℕ}
    (usable : Usable d b v pos) : ∃ n s, splits m b v n pos = .done s ∧ Sums d b v s := by
  -- An attempt with enough fuel for both keys, before a run of the loop from the next draw
  have enough {pos p q : ℕ} {b₁ b₂ : Bytes 32} (first : Finds (createNew m · pos) (b₁, p))
      (second : Finds (createNew m · p) (b₂, q)) (k : ℕ) : ∃ n, k ≤ n ∧
        attempt m b v n pos = some (split m b v b₁ b₂ q) := by
    obtain ⟨n₁, first⟩ := first
    obtain ⟨n₂, second⟩ := second
    refine ⟨max (max n₁ n₂) k, Nat.le_max_right _ _, attempt_eq (p := p) ?_ ?_⟩
    · exact createNew_lasting m pos n₁ _ _ (by omega) first
    · exact createNew_lasting m p n₂ _ _ (by omega) second
  have key {pos q : ℕ} {b₁ : Bytes 32} (drawn : Finds (createNew m · pos) (b₁, q)) :
      m.lib.seckeyVerify b₁ = true := drawn.elim fun _ made => createNew_valid m made
  induction usable with
  | @good pos p q b₁ b₂ first second good =>
    obtain ⟨n, -, tried⟩ := enough first second 0
    obtain ⟨-, s, done, sums⟩ | ⟨bad, -⟩ :=
      split_spec d valid (key first) (key second) positive q
    · refine ⟨n + 1, s, ?_, sums⟩
      rw [splits, tried, done]
    · exact absurd good bad
  | @again pos p q b₁ b₂ first second later ih =>
    obtain ⟨k, s, done, sums⟩ := ih
    obtain ⟨n, more, tried⟩ := enough first second k
    obtain ⟨-, t, ended, sums'⟩ | ⟨-, repeated⟩ :=
      split_spec d valid (key first) (key second) positive q
    · refine ⟨n + 1, t, ?_, sums'⟩
      rw [splits, tried, ended]
    · refine ⟨n + 1, s, ?_, sums⟩
      rw [splits, tried, repeated]
      exact splits_lasting m more done

theorem usable_of_splits (d : Documented m.lib) (valid : m.lib.seckeyVerify b = true)
    (positive : v ≠ 0) {n pos : ℕ} {s : Split m} (done : splits m b v n pos = .done s) :
    Usable d b v pos := by
  induction n generalizing pos with
  | zero => cases done
  | succ n ih =>
    rw [splits] at done
    cases tried : attempt m b v n pos with
    | none =>
      rw [tried] at done
      cases done
    | some a =>
      obtain ⟨b₁, p, b₂, q, first, second, ended⟩ := of_attempt tried
      rw [tried, ← ended] at done
      obtain ⟨good, -⟩ | ⟨-, repeated⟩ := split_spec d valid (createNew_valid m first)
        (createNew_valid m second) positive q
      · exact .good ⟨n, first⟩ ⟨n, second⟩ good
      · rw [repeated] at done
        exact .again ⟨n, first⟩ ⟨n, second⟩ (ih done)

theorem splits_zero_ne (n pos : ℕ) (s : Split m) : splits m b 0 n pos ≠ .done s := by
  induction n generalizing pos with
  | zero => exact nofun
  | succ n ih =>
    rw [splits]
    cases tried : attempt m b 0 n pos with
    | none => exact nofun
    | some a =>
      obtain ⟨b₁, p, b₂, q, -, -, ended⟩ := of_attempt tried
      rw [← ended, split]
      cases m.lib.pedersenBlindSum [b, b₁, b₂] 1 with
      | none => exact ih q
      | some b₃ => exact nofun

end Loop

section Verification

variable {m : Machine}

/-- What `pverify` reads from a proof -/
structure Parsed (m : Machine) where
  commit : m.lib.Commitment
  commit₁ : m.lib.Commitment
  commit₂ : m.lib.Commitment
  raw : Bytes 33
  pubkey : m.lib.Pubkey
  time : ℤ
  signature : m.lib.Signature

structure Reads (m : Machine) (proof : Arg) (x : Parsed m) : Prop where
  term : ∃ c c₁ c₂ p s, proof = .str "pproof" [c, c₁, c₂, p, .int x.time, s] ∧
    (getBignum 33 c).bind m.lib.pedersenParse = some x.commit ∧
    (getBignum 33 c₁).bind m.lib.pedersenParse = some x.commit₁ ∧
    (getBignum 33 c₂).bind m.lib.pedersenParse = some x.commit₂ ∧
    getBignum 33 p = some x.raw ∧
    (getBignum 64 s).bind m.lib.signatureParse = some x.signature
  pubkey : m.lib.pubkeyParse x.raw = some x.pubkey

/-- The commitments add up with the public key, under which the signature of the time is valid. -/
structure Holds (d : Documented m.lib) (x : Parsed m) : Prop where
  sum : d.commitment x.commit = d.commitment x.commit₁ + d.commitment x.commit₂ + d.pubkey x.pubkey
  signed : m.lib.ecdsaVerify x.signature (m.hashed2 (toBytes (UInt64.ofInt x.time))) x.pubkey = true

theorem tally_iff (d : Documented m.lib) (x : Parsed m)
    (parsed : m.lib.pubkeyParse x.raw = some x.pubkey) :
    m.lib.verifyTally [x.commit] [x.commit₁, x.commit₂, m.lib.loadPubkey x.raw] = true ↔
      d.commitment x.commit =
        d.commitment x.commit₁ + d.commitment x.commit₂ + d.pubkey x.pubkey := by
  rw [d.verifyTally_iff, List.map_singleton, List.sum_singleton, List.map_cons, List.map_cons,
    List.map_singleton, List.sum_cons, List.sum_cons, List.sum_singleton,
    d.loadPubkey_point _ _ parsed, add_assoc]

theorem pverify_iff (d : Documented m.lib) (proof : Arg) :
    pverify m proof = true ↔ ∃ x, Reads m proof x ∧ Holds d x := by
  constructor
  · intro accepted
    unfold pverify at accepted
    split at accepted
    next c c₁ c₂ p t s =>
      split at accepted
      next raw raw₁ raw₂ pubkey signature time hc hc₁ hc₂ hp hs =>
        split at accepted
        next commit commit₁ commit₂ parsed parsed₁ parsed₂ =>
          rw [Bool.and_eq_true, verifySignature] at accepted
          obtain ⟨tally, signed⟩ := accepted
          split at signed
          next q sig keyRead sigRead =>
            let x : Parsed m := ⟨commit, commit₁, commit₂, pubkey, q, time, sig⟩
            refine ⟨x, ⟨⟨c, c₁, c₂, p, s, rfl, ?_, ?_, ?_, hp, ?_⟩, keyRead⟩,
              (tally_iff d x keyRead).mp tally, signed⟩
            · rw [hc, Option.bind_some, parsed]
            · rw [hc₁, Option.bind_some, parsed₁]
            · rw [hc₂, Option.bind_some, parsed₂]
            · rw [hs, Option.bind_some, sigRead]
          next => cases signed
        next => cases accepted
      next => cases accepted
    next => cases accepted
  · intro held
    obtain ⟨x, ⟨⟨c, c₁, c₂, p, s, rfl, hc, hc₁, hc₂, hp, hs⟩, keyRead⟩, sum, signed⟩ := held
    obtain ⟨raw, hc, parsed⟩ := Option.bind_eq_some_iff.mp hc
    obtain ⟨raw₁, hc₁, parsed₁⟩ := Option.bind_eq_some_iff.mp hc₁
    obtain ⟨raw₂, hc₂, parsed₂⟩ := Option.bind_eq_some_iff.mp hc₂
    obtain ⟨signature, hs, sigRead⟩ := Option.bind_eq_some_iff.mp hs
    have tally := (tally_iff d x keyRead).mpr sum
    simp only [pverify, hc, hc₁, hc₂, hp, hs, parsed, parsed₁, parsed₂, tally, verifySignature,
      keyRead, sigRead, signed, Bool.and_self]

theorem ofInt_natCast {n : ℕ} (small : n < 2 ^ 64) : UInt64.ofInt n = UInt64.ofNat n := by
  have same : ((n : ℤ) % 2 ^ 64).toNat = n := by omega
  rw [UInt64.ofInt, same]

theorem ofInt_intCell (now : Utime) : ∃ time, intCell now.val = .int time ∧
    UInt64.ofInt time = now.val := by
  refine ⟨_, rfl, ?_⟩
  have bound := now.property
  have width : (BitVec.setWidth 61 now.val.toBitVec).toNat = now.val.toNat := by
    rw [BitVec.toNat_setWidth]
    exact Nat.mod_eq_of_lt (Nat.lt_trans bound (by decide))
  have small : 2 * (BitVec.setWidth 61 now.val.toBitVec).toNat < 2 ^ 61 := by omega
  rw [BitVec.toInt_eq_toNat_of_lt small, width]
  rw [ofInt_natCast now.val.toNat_lt, UInt64.ofNat_toNat]

end Verification

section Completeness

variable {m : Machine}

theorem finish_accepted (d : Documented m.lib) {b : Bytes 32} {v : UInt64}
    {commit : m.lib.Commitment} (committed : m.lib.pedersenCommit b v = some commit) (now : Utime) {s : Split m}
    (sums : Sums d b v s) : ∃ proof, finish m commit now s = some proof ∧
      pverify m proof = true := by
  have whole := d.pedersenCommit_point b v commit committed
  obtain ⟨p, created, point⟩ := d.pubkeyCreate_eq s.b₃ sums.valid
  obtain ⟨sig, signed, verified⟩ := d.ecdsaSign_eq (m.hashed2 (toBytes now.val)) s.b₃ p sums.valid
    created
  have tally : m.lib.verifyTally [commit] [s.commit₁, s.commit₂, s.commit₃] = true := by
    rw [d.verifyTally_iff, List.map_singleton, List.sum_singleton, List.map_cons, List.map_cons,
      List.map_singleton, List.sum_cons, List.sum_cons, List.sum_singleton, whole, sums.third,
      ← add_assoc, sums.total]
  obtain ⟨time, cell, exact_⟩ := ofInt_intCell now
  have reread (c : m.lib.Commitment) : ∃ c', (getBignum 33 (newBignum (m.lib.pedersenSerialize
      c))).bind m.lib.pedersenParse = some c' ∧ d.commitment c' = d.commitment c := by
    rw [getBignum_newBignum, Option.bind_some]
    exact Option.map_eq_some_iff.mp (d.pedersenParse_serialize c)
  obtain ⟨c, readC, sameC⟩ := reread commit
  obtain ⟨c₁, readC₁, sameC₁⟩ := reread s.commit₁
  obtain ⟨c₂, readC₂, sameC₂⟩ := reread s.commit₂
  rw [finish, if_pos tally, created]
  dsimp only
  rw [signed]
  have readSig : (getBignum 64 (newBignum (m.lib.signatureSerialize sig))).bind
      m.lib.signatureParse = some sig := by
    rw [getBignum_newBignum, Option.bind_some]
    exact d.signatureParse_serialize sig
  have reads : Reads m (.str "pproof" [newBignum (m.lib.pedersenSerialize commit),
      newBignum (m.lib.pedersenSerialize s.commit₁), newBignum (m.lib.pedersenSerialize s.commit₂),
      newBignum (m.lib.pubkeySerialize p), intCell now.val,
      newBignum (m.lib.signatureSerialize sig)])
      ⟨c, c₁, c₂, m.lib.pubkeySerialize p, p, time, sig⟩ := by
    rw [cell]
    exact ⟨⟨_, _, _, _, _, rfl, readC, readC₁, readC₂, getBignum_newBignum _, readSig⟩,
      d.pubkeyParse_serialize p⟩
  refine ⟨_, rfl, (pverify_iff d _).mpr ⟨_, reads, ?_, ?_⟩⟩
  · rw [sameC, sameC₁, sameC₂, point, whole, sums.total]
  · rw [exact_]
    exact verified

/-- Proofs are made for the amounts above zero, while the draws come to good keys, and they are
accepted; what is accepted adds up and is signed. -/
theorem proofs_complete_iff (m : Machine) (d : Documented m.lib) (pos : ℕ) (now : Utime)
    (key : Arg) (b : Bytes 32) (isKey : getPrivateKey m.checksum key = some b)
    (valid : m.lib.seckeyVerify b = true) (v : ℕ) (cell : v < 2 ^ 60) :
    ((∃ fuel proof, pproof m fuel pos now key (.int v) = .done (some proof) ∧
        pverify m proof = true) ↔
      0 < v ∧ value b • d.G + v • d.H ≠ 0 ∧ Usable d b (UInt64.ofNat v) pos) ∧
    ∀ proof, pverify m proof = true → ∃ x, Reads m proof x ∧ Holds d x := by
  refine ⟨?_, fun proof accepted => (pverify_iff d proof).mp accepted⟩
  have fits : v < 2 ^ 64 := Nat.lt_trans cell (by decide)
  have back : (UInt64.ofNat v).toNat = v := UInt64.toNat_ofNat_of_lt' fits
  have some_iff := commit_isSome d valid (UInt64.ofNat v)
  rw [back] at some_iff
  have run (fuel : ℕ) : pproof m fuel pos now key (.int v) =
      match m.lib.pedersenCommit b (UInt64.ofNat v) with
      | none => .done none
      | some commit =>
        match splits m b (UInt64.ofNat v) fuel pos with
        | .running => .running
        | .crashed => .crashed
        | .done s => .done (finish m commit now s) := by
    unfold pproof
    rw [isKey, ← ofInt_natCast fits]
  constructor
  · intro made
    obtain ⟨fuel, proof, made, -⟩ := made
    rw [run] at made
    cases committed : m.lib.pedersenCommit b (UInt64.ofNat v) with
    | none =>
      rw [committed] at made
      cases made
    | some commit =>
      rw [committed] at made some_iff
      cases ended : splits m b (UInt64.ofNat v) fuel pos with
      | running =>
        rw [ended] at made
        cases made
      | crashed =>
        rw [ended] at made
        cases made
      | done s =>
        have positive : v ≠ 0 := by
          intro zero
          rw [zero] at ended
          exact splits_zero_ne fuel pos s ended
        refine ⟨Nat.pos_of_ne_zero positive, some_iff.mp rfl, usable_of_splits d valid ?_ ended⟩
        intro zero
        rw [zero] at back
        exact positive back.symm
  · intro good
    obtain ⟨positive, nonzero, usable⟩ := good
    have amount : UInt64.ofNat v ≠ 0 := by
      intro zero
      rw [zero] at back
      exact Nat.ne_of_gt positive back.symm
    obtain ⟨commit, committed⟩ := Option.isSome_iff_exists.mp (some_iff.mpr nonzero)
    obtain ⟨fuel, s, done, sums⟩ := splits_of_usable valid amount usable
    obtain ⟨proof, finished, accepted⟩ := finish_accepted d committed now sums
    refine ⟨fuel, proof, ?_, accepted⟩
    rw [run, committed]
    dsimp only
    rw [done]
    dsimp only
    rw [finished]

end Completeness

section Logarithms

/-- The order of secp256k1 -/
def order : ℕ := 0xFFFFFFFFFFFFFFFFFFFFFFFFFFFFFFFEBAAEDCE6AF48A03BBFD25E8CD0364141

theorem order_pos : 0 < order := by decide

/-- A second generator, by its logarithm -/
def logH : ℕ := 0x50929b74c1a04954b78b4b6035e97a5e078a5a0f28ec96d547bfee9ace803ac0

/-- The bytes of a number, the first one highest -/
def encode (n x : ℕ) : Bytes n :=
  ⟨(digits 256 n x).map UInt8.ofNat, by rw [List.length_map, digits, List.length_map,
    List.length_range]⟩

theorem value_encode (n x : ℕ) : value (encode n x) = x % 256 ^ n := by
  have whole : ((digits 256 n x).map UInt8.ofNat).map UInt8.toNat = digits 256 n x := by
    rw [List.map_map]
    conv_rhs => rw [← List.map_id (digits 256 n x)]
    apply List.map_congr_left
    intro e listed
    exact UInt8.toNat_ofNat_of_lt' (digits_lt (by decide) e listed)
  rw [value, encode, whole, numeral_digits]

abbrev Log := Fin order

def log (x : ℕ) : Log := ⟨x % order, Nat.mod_lt x order_pos⟩

theorem cast_log (x : ℕ) : ((log x).val : ZMod order) = x := ZMod.natCast_mod x order

theorem log_val (x : Log) : log x.val = x := Fin.ext (Nat.mod_eq_of_lt x.isLt)

theorem value_encode_log {n : ℕ} (enough : 32 ≤ n) (x : Log) : value (encode n x.val) = x.val := by
  rw [value_encode]
  exact Nat.mod_eq_of_lt (Nat.lt_of_lt_of_le x.isLt (Nat.le_trans (by decide)
    (Nat.pow_le_pow_right (by decide) enough)))

theorem log_value_encode {n : ℕ} (enough : 32 ≤ n) (x : Log) :
    log (value (encode n x.val)) = x := by
  rw [value_encode_log enough, log_val]

theorem log_eq_iff (x y : ℕ) : log x = log y ↔ (x : ZMod order) = y := by
  rw [ZMod.natCast_eq_natCast_iff, log, log, Fin.mk.injEq]
  rfl

def isKey (b : Bytes 32) : Bool := decide (0 < value b ∧ value b < order)

def commitLog (b : Bytes 32) (v : UInt64) : Option Log :=
  if value b < order ∧ log (value b + v.toNat * logH) ≠ log 0 then
    some (log (value b + v.toNat * logH))
  else none

theorem commitLog_cast (b : Bytes 32) (v : UInt64) :
    ((value b + v.toNat * logH : ℕ) : ZMod order) =
      value b • (1 : ZMod order) + v.toNat • (logH : ZMod order) := by
  rw [nsmul_one, nsmul_eq_mul, Nat.cast_add, Nat.cast_mul]

theorem commitLog_isSome (b : Bytes 32) (v : UInt64) : (commitLog b v).isSome ↔
    value b < order ∧ value b • (1 : ZMod order) + v.toNat • (logH : ZMod order) ≠ 0 := by
  rw [commitLog, Option.isSome_ite, ne_eq, log_eq_iff, commitLog_cast, Nat.cast_zero]

theorem commitLog_point (b : Bytes 32) (v : UInt64) (c : Log) (committed : commitLog b v = some c) :
    (c.val : ZMod order) = value b • (1 : ZMod order) + v.toNat • (logH : ZMod order) := by
  rw [commitLog, Option.ite_none_right_eq_some, Option.some.injEq] at committed
  rw [← committed.2, cast_log, commitLog_cast]

def blindSum : List (Bytes 32) → ℕ → Option (Bytes 32)
  | [b, b₁, b₂], 1 =>
    if value b < order ∧ value b₁ < order ∧ value b₂ < order then
      some (encode 32 (log (value b + (order - value b₁) + (order - value b₂))).val)
    else none
  | _, _ => none

theorem blindSum_eq (b b₁ b₂ : Bytes 32) (less : value b < order) (less₁ : value b₁ < order)
    (less₂ : value b₂ < order) : ∃ s, blindSum [b, b₁, b₂] 1 = some s ∧ value s < order ∧
      value s + value b₁ + value b₂ ≡ value b [MOD order] := by
  have shifted {n x y z : ℕ} (lessY : y < n) (lessZ : z < n) :
      x + (n - y) + (n - z) + y + z = x + n * 2 := by omega
  rw [blindSum, if_pos ⟨less, less₁, less₂⟩]
  refine ⟨_, rfl, ?_⟩
  rw [value_encode_log (Nat.le_refl 32)]
  refine ⟨Fin.isLt _, ?_⟩
  have reduced : (log (value b + (order - value b₁) + (order - value b₂))).val ≡
      value b + (order - value b₁) + (order - value b₂) [MOD order] := Nat.mod_modEq _ _
  have sum := (reduced.add_right (value b₁)).add_right (value b₂)
  rw [shifted less₁ less₂] at sum
  have wrapped (x : ℕ) : x + order * 2 ≡ x [MOD order] := Nat.add_mul_mod_self_left x order 2
  exact sum.trans (wrapped (value b))

def tallyLog (pos neg : List Log) : Bool :=
  decide (log (pos.map Fin.val).sum = log (neg.map Fin.val).sum)

theorem tallyLog_iff (pos neg : List Log) : tallyLog pos neg = true ↔
    (pos.map fun c => (c.val : ZMod order)).sum = (neg.map fun c => (c.val : ZMod order)).sum := by
  have cast (l : List Log) : ((l.map Fin.val).sum : ZMod order) =
      (l.map fun c => (c.val : ZMod order)).sum := by
    induction l with
    | nil => exact Nat.cast_zero
    | cons c l ih =>
      rw [List.map_cons, List.sum_cons, Nat.cast_add, ih, List.map_cons, List.sum_cons]
  rw [← cast, ← cast, ← log_eq_iff]
  exact decide_eq_true_iff

def createLog (b : Bytes 32) : Option Log := if isKey b then some (log (value b)) else none

theorem createLog_eq (b : Bytes 32) (valid : isKey b = true) :
    ∃ p, createLog b = some p ∧ (p.val : ZMod order) = value b • (1 : ZMod order) := by
  refine ⟨log (value b), if_pos valid, ?_⟩
  rw [cast_log, nsmul_one]

/-- A signature is the hash beside the key. -/
def signLog (hash b : Bytes 32) : Option (Bytes 32 × Log) := (createLog b).map fun p => (hash, p)

def writeSignature (sig : Bytes 32 × Log) : Bytes 64 := ⟨sig.1.val ++ (encode 32 sig.2.val).val, by
  rw [List.length_append, sig.1.property, (encode 32 sig.2.val).property]⟩

def readSignature (raw : Bytes 64) : Option (Bytes 32 × Log) :=
  let key : Bytes 32 := ⟨raw.val.drop 32, by rw [List.length_drop, raw.property]⟩
  some (⟨raw.val.take 32, by
    rw [List.length_take, raw.property]
    rfl⟩, log (value key))

theorem readSignature_write (sig : Bytes 32 × Log) :
    readSignature (writeSignature sig) = some sig := by
  have first : (sig.1.val ++ (encode 32 sig.2.val).val).take 32 = sig.1.val :=
    List.take_left' sig.1.property
  have second : (sig.1.val ++ (encode 32 sig.2.val).val).drop 32 = (encode 32 sig.2.val).val :=
    List.drop_left' sig.1.property
  simp only [readSignature, writeSignature, first, second, Subtype.coe_eta,
    log_value_encode (Nat.le_refl 32), Prod.mk.eta]

/-- The library on logarithms -/
def logarithms : Library where
  Commitment := Log
  Pubkey := Log
  Signature := Bytes 32 × Log
  seckeyVerify := isKey
  pedersenCommit := commitLog
  pedersenSerialize := fun c => encode 33 c.val
  pedersenParse := fun raw => some (log (value raw))
  pedersenBlindSum := blindSum
  verifyTally := tallyLog
  loadPubkey := fun raw => log (value raw)
  pubkeyCreate := createLog
  pubkeySerialize := fun p => encode 33 p.val
  pubkeyParse := fun raw => some (log (value raw))
  ecdsaSign := signLog
  signatureSerialize := writeSignature
  signatureParse := readSignature
  ecdsaVerify := fun sig hash p => decide (sig = (hash, p))

def logarithmsDocumented : Documented logarithms where
  Point := ZMod order
  order := order
  G := 1
  H := logH
  nsmul_G_iff := by
    intro k
    rw [nsmul_one, ZMod.natCast_eq_zero_iff]
  commitment := fun c => (Fin.val c : ZMod order)
  pubkey := fun p => (Fin.val p : ZMod order)
  seckeyVerify_iff := fun b => decide_eq_true_iff
  pedersenCommit_isSome := commitLog_isSome
  pedersenCommit_point := commitLog_point
  pedersenParse_serialize := fun c =>
    congrArg (fun x => some (Fin.val x : ZMod order)) (log_value_encode (n := 33) (by decide) c)
  pedersenBlindSum_eq := blindSum_eq
  verifyTally_iff := tallyLog_iff
  loadPubkey_point := by
    intro raw p parsed
    cases parsed
    rfl
  pubkeyCreate_eq := createLog_eq
  pubkeyParse_serialize := fun p => congrArg some (log_value_encode (n := 33) (by decide) p)
  ecdsaSign_eq := fun hash b p _ created =>
    ⟨(hash, p), congrArg (Option.map fun p => (hash, p)) created, decide_eq_true rfl⟩
  signatureParse_serialize := readSignature_write

end Logarithms

section Vector

/-- A machine whose draws are all one, so that the random keys are bytes of ones -/
def vector : Machine where
  lib := logarithms
  draws := fun _ => 1
  checksum := fun _ => Bytes.zero 4
  hashed2 := fun data => encode 32 (numeral 256 (data.map UInt8.toNat))

def ones : Bytes 32 := ⟨List.replicate 32 1, List.length_replicate⟩

def blinding : Bytes 32 := encode 32 5

def now : Utime := ⟨1700000000000000, by decide⟩

theorem isKey_ones : isKey ones = true := by decide

theorem createNew_vector (pos : ℕ) : Finds (createNew vector · pos) (ones, pos + 32) := by
  have drawn : nextBytes vector 32 pos = ones := rfl
  refine ⟨1, ?_⟩
  dsimp only
  rw [createNew, drawn]
  exact if_pos isKey_ones

theorem usable_vector :
    Usable (m := vector) logarithmsDocumented blinding (UInt64.ofNat 3) 0 := by
  refine .good (createNew_vector 0) (createNew_vector 32) ⟨by decide, ?_, ?_⟩
  · exact ((commitLog_isSome ones 1).mp (by decide)).2
  · exact ((commitLog_isSome ones 2).mp (by decide)).2

/-- The amount 3 is split into 1 and 2. -/
theorem proofs_complete_iff_three : ∃ fuel proof,
    pproof vector fuel 0 now (newBignum blinding) (.int (3 : ℕ)) = .done (some proof) ∧
      pverify vector proof = true :=
  (proofs_complete_iff vector logarithmsDocumented 0 now (newBignum blinding) blinding rfl
    (by decide) 3 (by decide)).1.mpr ⟨by decide,
      ((commitLog_isSome blinding 3).mp (by decide)).2, usable_vector⟩

/-- For the amount zero the remainder of the first draw divides by zero. -/
theorem zero_amount_crashes :
    pproof vector 2 0 now (newBignum blinding) (.int 0) = .crashed ∧
      ¬ ∃ fuel proof, pproof vector fuel 0 now (newBignum blinding) (.int 0) =
        .done (some proof) ∧ pverify vector proof = true := by
  refine ⟨rfl, ?_⟩
  intro made
  obtain ⟨fuel, proof, made, -⟩ := made
  have read : getPrivateKey vector.checksum (newBignum blinding) = some blinding := rfl
  unfold pproof at made
  rw [read] at made
  dsimp only at made
  split at made
  · cases made
  · split at made
    · cases made
    · cases made
    next s done => exact splits_zero_ne fuel 0 s done

end Vector

end Epilog.Ec.CommitProof
