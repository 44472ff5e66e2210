/- Module: Epilog/Db/RangeEnd
   source: src/src/db/triedb.cpp (validate_end), src/src/db/triedb.hpp (merkle_root)
   digest: Whether a part of a trie shows that no key is greater, and when that is right. -/

import Epilog.Db.Traversal

set_option autoImplicit false

namespace Epilog.Db.RangeEnd

open Epilog.Lib.DigitTree Epilog.Lib.TreeShape Epilog.Common.Bits Epilog.Db.Branch
open Epilog.Db.Store Epilog.Db.Representation Epilog.Db.PathUpdate Epilog.Db.Iterator
open Epilog.Db.Merkle Epilog.Db.Upkeep Epilog.Db.Canonicity Epilog.Db.Hashes Epilog.Db.Extract
open Epilog.Db.Versioned Epilog.Db.Replication

section Model

/-- `merkle_branch::validate_end` and `merkle_leaf::validate_end` -/
def validateEnd : MerkleNode → UInt64 → UInt64 → UInt64 → Bool
  | .null, _, _, _ => false
  | .leaf key _ _, _, _, fromKey => key ≤ fromKey
  | .branch depth mask child _, keyOffset, keyStep, fromKey =>
      if fromKey > keyEnd keyOffset keyStep then true
      else
        let sub := subIndex depth.toNat fromKey
        let m := mask >>> sub.val
        if m = 0 then true
        else if m > 1 then false
        else if (child sub).isNull then false
        else validateEnd (child sub) (keyOffset + UInt64.ofNat sub.val * (keyStep >>> 5))
          (keyStep >>> 5) fromKey

def validateRootEnd (mr : MerkleRoot) (fromKey : UInt64) : Bool :=
  validateEnd mr.node 0 mr.keyStep fromKey

end Model

section Bare

/-- A node without the data of its leaves -/
def bare : MerkleNode → MerkleNode
  | .null => .null
  | .leaf key _ h => .leaf key none h
  | .branch depth mask child h => .branch depth mask (fun i => bare (child i)) h

/-- A root without the data of its leaves -/
def bareRoot (mr : MerkleRoot) : MerkleRoot := { mr with child := fun i => bare (mr.child i) }

@[simp] theorem bareRoot_node (mr : MerkleRoot) : (bareRoot mr).node = bare mr.node := rfl

theorem isNull_bare (m : MerkleNode) : (bare m).isNull = m.isNull := by
  cases m <;> rfl

theorem validateEnd_bare (m : MerkleNode) (keyOffset keyStep fromKey : UInt64) :
    validateEnd (bare m) keyOffset keyStep fromKey = validateEnd m keyOffset keyStep fromKey := by
  induction m generalizing keyOffset keyStep with
  | null => rfl
  | leaf key data h => rfl
  | branch depth mask child h ih =>
    rw [bare, validateEnd, validateEnd]
    simp only [isNull_bare, ih]

variable {s : Triedb} {fromKey toKey : UInt64}

theorem bare_update (child : Fin 32 → MerkleNode) (i : Fin 32) (m : MerkleNode) :
    (fun j => bare (Function.update child i m j)) =
      Function.update (fun j => bare (child j)) i (bare m) := by
  funext j
  rw [Function.update_apply, Function.update_apply]
  split_ifs
  · rfl
  · rfl

theorem getChildren_bare
    {sub sub' : TriedbBranch → Fin 32 → Tally → Option (MerkleRoot × Bool × Tally)}
    (calls : ∀ b i tally, sub' b i tally = (sub b i tally).map fun x => (bareRoot x.1, x.2))
    (br : TriedbBranch) (todo : List ℕ) (child : Fin 32 → MerkleNode) (mask : BitVec 32)
    (tally : Tally) :
    getChildren s false {} sub' br todo (fun i => bare (child i)) mask tally =
      (getChildren s true {} sub br todo child mask tally).map
        fun x => (fun i => bare (x.1 i), x.2) := by
  induction todo generalizing child mask tally with
  | nil => rfl
  | cons i rest ih =>
    rw [getChildren, getChildren]
    by_cases isBranch : br.isBranch (Fin.ofNat 32 i) = true
    · simp only [isBranch, if_true, Option.bind_eq_bind]
      cases branchAt s (br.getChildPointer (Fin.ofNat 32 i)) with
      | none => rfl
      | some b =>
        simp only [Option.bind_some, calls]
        cases sub b (Fin.ofNat 32 i) tally with
        | none => rfl
        | some x =>
          simp only [Option.map_some, Option.bind_some, bareRoot_node, ← bare_update]
          exact ih _ _ _
    · simp only [isBranch, Option.bind_eq_bind]
      cases leafAt s (br.getChildPointer (Fin.ofNat 32 i)) with
      | none => rfl
      | some l =>
        simp only [Option.bind_some]
        have leaf : (MerkleNode.leaf l.key none l.hash) =
            bare (.leaf l.key (some l.customData) l.hash) := rfl
        simp only [Bool.false_eq_true, if_false, if_true, leaf, ← bare_update]
        exact ih _ _ _

theorem getPart_bare (fuel : ℕ) (br : TriedbBranch) (keyOffset keyStep : UInt64) (tally : Tally) :
    getPart s fromKey toKey false {} fuel br keyOffset keyStep tally =
      (getPart s fromKey toKey true {} fuel br keyOffset keyStep tally).map
        fun x => (bareRoot x.1, x.2) := by
  induction fuel generalizing br keyOffset keyStep tally with
  | zero => rfl
  | succ fuel ih =>
    rw [getPart, getPart]
    split_ifs
    · rfl
    · rfl
    · simp only [Option.bind_eq_bind]
      have loop := getChildren_bare (s := s)
        (fun b (i : Fin 32) tally =>
          ih b (keyOffset + UInt64.ofNat i.val * (keyStep >>> 5)) (keyStep >>> 5) tally)
        br (maskLoop 32 br.mask) (fun _ => .null) 0 tally
      simp only [bare] at loop
      rw [loop]
      cases getChildren s true {} _ br (maskLoop 32 br.mask) (fun _ => .null) 0 tally with
      | none => rfl
      | some x => rfl

theorem get_bare (r : RootId) : Extract.get s fromKey toKey false {} r =
    (Extract.get s fromKey toKey true {} r).map fun x => (bareRoot x.1, x.2) := by
  unfold Extract.get
  cases s.roots.lookup r with
  | none => rfl
  | some root =>
    simp only [Option.bind_eq_bind, Option.bind_some]
    cases branchAt s root.ptr with
    | none => rfl
    | some br =>
      simp only [Option.bind_some, getPart_bare]
      cases getPart s fromKey toKey true {} br.depth br 0 (1 <<< (UInt64.ofNat br.depth * 5)) {} with
      | none => rfl
      | some x => rfl

end Bare

section Path

theorem bitVec_gt_one {m : BitVec 32} : m > 1 ↔ ∃ i, 1 ≤ i ∧ m.getLsbD i = true := by
  constructor
  · intro more
    by_contra none_
    push Not at none_
    have low : m.toNat / 2 = 0 := by
      apply Nat.eq_of_testBit_eq
      intro i
      rw [Nat.zero_testBit, Nat.testBit_div_two]
      have clear := none_ (i + 1) (by omega)
      exact Bool.eq_false_iff.2 clear
    have big : 1 < m.toNat := more
    omega
  · rintro ⟨i, pos, set⟩
    have large := Nat.ge_two_pow_of_testBit (show m.toNat.testBit i = true from set)
    have two : 2 ^ 1 ≤ 2 ^ i := Nat.pow_le_pow_right (by omega) pos
    show 1 < m.toNat
    omega

theorem mask_shift (c : Fin 32 → Tree 32 Bytes) (i : Fin 32) :
    ((maskOf c >>> i.val) = 0 ↔ ∀ j, i ≤ j → c j = .empty) ∧
      ((maskOf c >>> i.val) > 1 ↔ ∃ j, i < j ∧ c j ≠ .empty) := by
  have bit : ∀ k, (maskOf c >>> i.val).getLsbD k = true ↔
      ∃ j : Fin 32, j.val = i.val + k ∧ c j ≠ .empty := by
    intro k
    rw [BitVec.getLsbD_ushiftRight]
    constructor
    · intro set
      have small : i.val + k < 32 := by
        by_contra large
        rw [BitVec.getLsbD_of_ge _ _ (by omega)] at set
        cases set
      refine ⟨⟨i.val + k, small⟩, rfl, ?_⟩
      rw [show i.val + k = (⟨i.val + k, small⟩ : Fin 32).val from rfl, getLsbD_maskOf,
        Bool.not_eq_true', Bool.eq_false_iff, ne_eq, Tree.isEmpty_iff] at set
      exact set
    · rintro ⟨j, same, full⟩
      rw [← same, getLsbD_maskOf, Bool.not_eq_true', Bool.eq_false_iff, ne_eq, Tree.isEmpty_iff]
      exact full
  constructor
  · constructor
    · intro zero j le
      by_contra full
      have set := (bit (j.val - i.val)).2 ⟨j, by have : i.val ≤ j.val := le; omega, full⟩
      rw [zero] at set
      simp at set
    · intro clear
      apply BitVec.eq_of_getLsbD_eq
      intro k _
      rw [show BitVec.getLsbD (0 : BitVec 32) k = false from BitVec.getLsbD_zero,
        Bool.eq_false_iff]
      intro set
      obtain ⟨j, same, full⟩ := (bit k).1 set
      exact full (clear j (by rw [Fin.le_def]; omega))
  · rw [bitVec_gt_one]
    constructor
    · rintro ⟨k, pos, set⟩
      obtain ⟨j, same, full⟩ := (bit k).1 set
      exact ⟨j, by rw [Fin.lt_def]; omega, full⟩
    · rintro ⟨j, less, full⟩
      have less : i.val < j.val := less
      exact ⟨j.val - i.val, by omega, (bit _).2 ⟨j, by omega, full⟩⟩

theorem key_compare {d q key other : ℕ} {i : Fin 32} (path : key / 32 ^ (d + 1) = q)
    (below : other / 32 ^ d = q * 32 + i.val) :
    (i < digit 32 d key → other < key) ∧ (digit 32 d key < i → key < other) := by
  have here := Tree.div_eq_of_digit path
  constructor
  · intro less
    have less : i.val < (digit 32 d key).val := less
    by_contra ge
    have mono := Nat.div_le_div_right (c := 32 ^ d) (not_lt.1 ge)
    omega
  · intro less
    have less : (digit 32 d key).val < i.val := less
    by_contra ge
    have mono := Nat.div_le_div_right (c := 32 ^ d) (not_lt.1 ge)
    omega

end Path

section Walk

variable {P : TriedbParams} {fromKey toKey fromKey' toKey' keyOffset keyStep : UInt64} {d q : ℕ}

/-- No key of the tree is greater. -/
def EndsAt (t : Tree 32 Bytes) (key : ℕ) : Prop := ∀ k v, (k, v) ∈ t.leaves → k ≤ key

theorem endsAt_branch {c : Fin 32 → Tree 32 Bytes} {key : ℕ} (tidy : Tidy (.branch c))
    (fits : (Tree.branch c).Fits (d + 1) q) (path : key / 32 ^ (d + 1) = q) :
    EndsAt (.branch c) key ↔
      (∀ j, digit 32 d key < j → c j = .empty) ∧ EndsAt (c (digit 32 d key)) key := by
  constructor
  · intro ends
    refine ⟨fun j less => ?_, fun k v member => ?_⟩
    · by_contra full
      have filled := tidy.2 j (Fin.pos_iff_ne_zero.1 (lt_of_le_of_lt (Fin.zero_le _) less))
      obtain ⟨⟨k, v⟩, inside⟩ := List.exists_mem_of_ne_nil _ (filled.leaves_ne_nil full)
      have below := Tree.key_div_of_mem_leaves (fits j) inside
      have greater := (key_compare path below).2 less
      exact absurd (ends k v ((Tree.mem_leaves_branch c _).2 ⟨j, inside⟩)) (not_le.2 greater)
    · exact ends k v ((Tree.mem_leaves_branch c _).2 ⟨_, member⟩)
  · rintro ⟨later, ends⟩ k v member
    obtain ⟨j, inside⟩ := (Tree.mem_leaves_branch c _).1 member
    have below := Tree.key_div_of_mem_leaves (fits j) inside
    rcases lt_trichotomy j (digit 32 d key) with less | rfl | more
    · exact ((key_compare path below).1 less).le
    · exact ends k v inside
    · rw [later j more] at inside
      cases inside

theorem endsAt_empty (key : ℕ) : EndsAt .empty key := fun _ _ member => nomatch member

theorem tidy_child {c : Fin 32 → Tree 32 Bytes} (tidy : Tidy (.branch c)) (i : Fin 32) :
    Tidy (c i) := by
  by_cases zero : i = 0
  · rw [zero]
    exact tidy.1
  · exact (tidy.2 i zero).tidy

theorem validateEnd_branch {c : Children} (tidy : Tidy (.branch c))
    (fits : (Tree.branch c).Fits (d + 1) q)
    (path : fromKey.toNat / 32 ^ (d + 1) = q) (shallow : d + 1 ≤ MAX_DEPTH)
    (inside : ¬ fromKey > keyEnd keyOffset keyStep)
    (meets : rangesIntersect keyOffset keyStep fromKey toKey = true)
    (child : ∀ i, i = digit 32 d fromKey.toNat → c i ≠ .empty →
      (validateEnd (partOf P fromKey toKey d (c i) (keyOffset + UInt64.ofNat i.val * (keyStep >>> 5))
        (keyStep >>> 5)) (keyOffset + UInt64.ofNat i.val * (keyStep >>> 5)) (keyStep >>> 5) fromKey =
          true ↔ EndsAt (c i) fromKey.toNat)) :
    validateEnd (partOf P fromKey toKey (d + 1) (.branch c) keyOffset keyStep) keyOffset keyStep
      fromKey = true ↔ EndsAt (.branch c) fromKey.toNat := by
  have depth : (UInt8.ofNat (d + 1)).toNat = d + 1 := by
    rw [UInt8.toNat_ofNat', Nat.mod_eq_of_lt]
    simp only [MAX_DEPTH] at shallow
    omega
  obtain ⟨none_, more⟩ := mask_shift c (digit 32 d fromKey.toNat)
  rw [endsAt_branch tidy fits path, partOf, if_pos meets, validateEnd, if_neg inside]
  simp only [depth, subIndex_eq shallow]
  split_ifs with clear right missing
  · rw [none_] at clear
    refine iff_of_true rfl ⟨fun j less => clear j less.le, ?_⟩
    rw [clear _ le_rfl]
    exact endsAt_empty _
  · obtain ⟨j, less, full⟩ := more.1 right
    exact iff_of_false not_false fun ends => full (ends.1 j less)
  · rw [isNull_partOf (fits _), Tree.isEmpty_iff] at missing
    refine absurd (none_.2 fun j le => ?_) clear
    rcases le.eq_or_lt with rfl | less
    · exact missing
    · by_contra full
      exact right (more.2 ⟨j, less, full⟩)
  · rw [isNull_partOf (fits _), Tree.isEmpty_iff] at missing
    have later : ∀ j, digit 32 d fromKey.toNat < j → c j = .empty := by
      intro j less
      by_contra full
      exact right (more.2 ⟨j, less, full⟩)
    rw [child _ rfl missing, and_iff_right later]

theorem place_meets (place : Place fromKey toKey fromKey' toKey' keyOffset keyStep d q)
    (le : fromKey ≤ toKey) (path : fromKey.toNat / 32 ^ d = q) :
    ¬ fromKey > keyEnd keyOffset keyStep ∧
      rangesIntersect keyOffset keyStep fromKey toKey = true := by
  obtain ⟨above, below⟩ := place.leaf path
  refine ⟨UInt64.not_lt.2 below, ?_⟩
  rw [rangesIntersect, Bool.and_eq_true, decide_eq_true_eq, decide_eq_true_eq]
  exact ⟨UInt64.le_trans above le, below⟩

theorem validateEnd_partOf {t : Tree 32 Bytes} (tidy : Tidy t) (fits : t.Fits d q)
    (keys : ∀ k v, (k, v) ∈ t.leaves → k < 2 ^ 64) (le : fromKey ≤ toKey)
    (path : fromKey.toNat / 32 ^ d = q) (shallow : d ≤ MAX_DEPTH) (occupied : t ≠ .empty)
    (place : Place fromKey toKey fromKey' toKey' keyOffset keyStep d q) :
    validateEnd (partOf P fromKey toKey d t keyOffset keyStep) keyOffset keyStep fromKey = true ↔
      EndsAt t fromKey.toNat := by
  induction t generalizing d q keyOffset keyStep fromKey' toKey' with
  | empty => exact absurd rfl occupied
  | leaf key data =>
    have small := keys key data (by simp)
    rw [partOf_leaf, validateEnd, decide_eq_true_eq, UInt64.le_iff_toNat_le,
      UInt64.toNat_ofNat_of_lt' small]
    constructor
    · intro below k v member
      cases List.mem_singleton.1 member
      exact below
    · intro all
      exact all key data (by simp)
  | branch c ih =>
    cases d with
    | zero => exact fits.elim
    | succ d =>
      obtain ⟨inside, meets⟩ := place_meets place le path
      refine validateEnd_branch tidy fits path shallow inside meets ?_
      rintro i rfl full
      exact ih _ (tidy_child tidy _) (fits _)
        (fun k v member => keys k v ((Tree.mem_leaves_branch c _).2 ⟨_, member⟩))
        (Tree.div_eq_of_digit path) (by omega) full (place.sub _)

end Walk

section Root

variable {P : TriedbParams} {fromKey toKey : UInt64} {d : ℕ} {c : Children}

/-- The last key of the span that a root is taken to cover. For depth 13 the shift of `key_step`
is 65, of which 1 is left. -/
def spanEnd (d : ℕ) : ℕ := if d ≤ 12 then 32 ^ d - 1 else 1

theorem spanEnd_eq {mr : MerkleRoot} (shallow : d ≤ MAX_DEPTH) (depth : mr.depth = UInt8.ofNat d) :
    (keyEnd 0 mr.keyStep).toNat = spanEnd d := by
  have depth_eq : mr.depth.toNat = d := by
    rw [depth, UInt8.toNat_ofNat', Nat.mod_eq_of_lt]
    simp only [MAX_DEPTH] at shallow
    omega
  unfold spanEnd
  split_ifs with low
  · have span := span_root (show mr.depth.toNat ≤ 12 by omega)
    rw [span.keyEnd, depth_eq, Nat.zero_mul, Nat.zero_add]
  · have deep : d = 13 := by
      simp only [MAX_DEPTH] at shallow
      omega
    rw [MerkleRoot.keyStep, depth, deep]
    decide

theorem validateRootEnd_eq {mr : MerkleRoot} (tidy : Tidy (.branch c)) (shallow : d ≤ MAX_DEPTH)
    (fits : (Tree.branch c).Fits d 0) (keys : ∀ k v, (k, v) ∈ (Tree.branch c).leaves → k < 2 ^ 64)
    (node : mr.node = partOf P fromKey toKey d (.branch c) 0 mr.keyStep)
    (depth : mr.depth = UInt8.ofNat d) (le : fromKey ≤ toKey) :
    validateRootEnd mr fromKey = true ↔
      spanEnd d < fromKey.toNat ∨ EndsAt (.branch c) fromKey.toNat := by
  have last := spanEnd_eq shallow depth
  have outside : fromKey > keyEnd 0 mr.keyStep ↔ spanEnd d < fromKey.toNat := by
    rw [gt_iff_lt, UInt64.lt_iff_toNat_lt, last]
  rw [validateRootEnd]
  by_cases beyond : spanEnd d < fromKey.toNat
  · rw [MerkleRoot.node, validateEnd, if_pos (outside.2 beyond)]
    exact iff_of_true rfl (.inl beyond)
  rw [or_iff_right beyond, node]
  by_cases low : d ≤ 12
  · have depth_eq : mr.depth.toNat = d := by
      rw [depth, UInt8.toNat_ofNat', Nat.mod_eq_of_lt (by omega)]
    have span := span_root (show mr.depth.toNat ≤ 12 by omega)
    rw [depth_eq] at span
    have path : fromKey.toNat / 32 ^ d = 0 := by
      have pos : 0 < 32 ^ d := Nat.pow_pos (by omega)
      rw [spanEnd, if_pos low] at beyond
      exact Nat.div_eq_of_lt (by omega)
    exact validateEnd_partOf tidy fits keys le path shallow (Tree.branch_ne_empty c)
      (.span span ⟨.inl (Eq.refl fromKey), .inl (Eq.refl toKey)⟩)
  · have deep : d = 13 := by
      simp only [MAX_DEPTH] at shallow
      omega
    subst deep
    have step : mr.keyStep = 2 := by
      rw [MerkleRoot.keyStep, depth]
      decide
    have small : fromKey.toNat ≤ 1 := not_lt.1 beyond
    have path : fromKey.toNat / 32 ^ 13 = 0 := Nat.div_eq_of_lt (by omega)
    have least : ∀ k : UInt64, 0 ≤ k := fun k => by
      rw [UInt64.le_iff_toNat_le]
      exact Nat.zero_le _
    rw [step] at outside ⊢
    have inside : ¬ fromKey > keyEnd 0 2 := fun more => beyond (outside.1 more)
    refine validateEnd_branch tidy fits path shallow inside ?_ ?_
    · rw [rangesIntersect, Bool.and_eq_true, decide_eq_true_eq, decide_eq_true_eq]
      exact ⟨least toKey, UInt64.not_lt.1 inside⟩
    · rintro i rfl full
      rw [show (2 : UInt64) >>> 5 = 0 by decide, UInt64.mul_zero, UInt64.add_zero]
      exact validateEnd_partOf (tidy_child tidy _) (fits _)
        (fun k v member => keys k v ((Tree.mem_leaves_branch c _).2 ⟨_, member⟩)) le
        (Tree.div_eq_of_digit path) (by omega) full
          (show Place fromKey toKey fromKey toKey 0 0 12 _ from .wrapped)

theorem spanEnd_lt_iff (fits : (Tree.branch c).Fits d 0)
    (more : ¬ EndsAt (.branch c) fromKey.toNat) :
    ¬ spanEnd d < fromKey.toNat ↔ d ≤ 12 ∨ fromKey ≤ 1 := by
  rw [spanEnd, UInt64.le_iff_toNat_le]
  split_ifs with low
  · simp only [low, true_or, iff_true, not_lt]
    by_contra beyond
    refine more fun k v member => ?_
    have below := Tree.key_div_of_mem_leaves fits member
    have inside := (Nat.div_eq_zero_iff_lt (Nat.pow_pos (by omega))).1 below
    omega
  · simp only [low, false_or, not_lt]
    rfl

end Root

section Run

variable {P : TriedbParams} {s s' : Triedb}

/-- The shape of a tidy tree, for a root. -/
def TidyShape (_ : ℕ) (c : Children) : Prop := Tidy (.branch c)

theorem closed_tidy : Closed (hashUpkeep P) TidyShape where
  nothing := trivial
  fresh := ⟨trivial, fun _ _ => trivial⟩
  write tidy fits grown inside _ := tidy_put (grown.tidy tidy) (grown.fits fits) inside

theorem kept_tidy_run {ops : List Op} (kept : Kept (hashUpkeep P) TidyShape s)
    (ran : runOps P s ops = some s') : Kept (hashUpkeep P) TidyShape s' := by
  induction ops generalizing s with
  | nil =>
    cases ran
    exact kept
  | cons op ops ih =>
    obtain ⟨⟨reply, s₁⟩, stepped, rest⟩ := Option.bind_eq_some_iff.mp ran
    refine ih (kept.step closed_tidy ?_ ?_ stepped) rest
    · exact fun r key _ root d b c _ _ => quiet_hashes P d c key.toNat
    · exact fun r key _ d c tidy => tidy_erase d key.toNat tidy

end Run

section Claim

variable {s : Triedb} {r : RootId} {fromKey : UInt64}

/-- The root has no key above this one. -/
def NoneGreater (s : Triedb) (r : RootId) (fromKey : UInt64) : Prop :=
  ∀ key data, Finds s r key (some data) → key ≤ fromKey

theorem Finds.unique {key : UInt64} {data data' : Option Bytes} (one : Finds s r key data)
    (other : Finds s r key data') : data = data' := by
  obtain ⟨found, ⟨n, enough⟩, -, rfl⟩ := one
  obtain ⟨found', ⟨m, enough'⟩, -, rfl⟩ := other
  have first := enough (max n m) (le_max_left n m)
  rw [enough' (max n m) (le_max_right n m)] at first
  cases first
  rfl

theorem noneGreater_iff {d : ℕ} {c : Children}
    (fits : (Tree.branch c).Fits d 0) (keys : ∀ k v, (k, v) ∈ (Tree.branch c).leaves → k < 2 ^ 64)
    (finds : ∀ key, Finds s r key ((Tree.branch c).lookup d key.toNat)) :
    NoneGreater s r fromKey ↔ EndsAt (.branch c) fromKey.toNat := by
  constructor
  · intro none_ k v member
    have small := keys k v member
    have found := finds (UInt64.ofNat k)
    rw [UInt64.toNat_ofNat_of_lt' small, Tree.lookup_of_mem_leaves fits member] at found
    have below := UInt64.le_iff_toNat_le.1 (none_ _ v found)
    rwa [UInt64.toNat_ofNat_of_lt' small] at below
  · intro none_ key data found
    have same := Finds.unique (finds key) found
    exact UInt64.le_iff_toNat_le.2 (none_ _ _ (Tree.mem_leaves_of_lookup same))

/-- For every root of every reachable database, the answer for the unlimited part from a key on,
with or without data, is right below depth 13, for the keys 0 and 1, and where it is true. -/
theorem validate_end_iff (P : TriedbParams) (ops : List Op) (ran : runOps P {} ops = some s)
    (root : TriedbRoot) (entry : s.roots.lookup r = some root) :
    ∃ b, s.nodes root.ptr = some (.branch b) ∧ ∀ fromKey toKey includeData, fromKey ≤ toKey →
      ∃ mr size, Extract.get s fromKey toKey includeData {} r = some (mr, true, size) ∧
        ((validateRootEnd mr fromKey = true ↔ NoneGreater s r fromKey) ↔
          (b.depth ≤ 12 ∨ fromKey ≤ 1 ∨ NoneGreater s r fromKey)) := by
  have kept := kept_tidy_run (P := P) kept_empty ran
  obtain ⟨d, b, c, held⟩ := kept.roots r root entry
  refine ⟨b, held.stored, fun fromKey toKey includeData le => ?_⟩
  have depth_eq : b.depth = d := held.ann.rep.depth_eq
  have keys : ∀ k v, (k, v) ∈ (Tree.branch c).leaves → k < 2 ^ 64 :=
    fun k v => key_lt_of_mem_leaves held.ann.rep
  have greater : NoneGreater s r fromKey ↔ EndsAt (.branch c) fromKey.toNat := by
    refine noneGreater_iff held.fits keys fun key => ?_
    exact find_eq key (kept.nonzero r root entry) entry held.shallow held.stored held.ann.rep
      held.fits
  obtain ⟨mr, size, taken, depth, -, node⟩ := get_eq fromKey toKey entry held
  have answer := validateRootEnd_eq held.shaped held.shallow held.fits keys node depth le
  rw [← greater] at answer
  have right : (validateRootEnd mr fromKey = true ↔ NoneGreater s r fromKey) ↔
      (b.depth ≤ 12 ∨ fromKey ≤ 1 ∨ NoneGreater s r fromKey) := by
    rw [answer, depth_eq]
    by_cases none_ : NoneGreater s r fromKey
    · simp only [none_, or_true]
    · have last := spanEnd_lt_iff held.fits (mt greater.2 none_)
      simp only [none_, or_false, iff_false, last]
  cases includeData with
  | true => exact ⟨mr, size, taken, right⟩
  | false =>
    refine ⟨bareRoot mr, size, by rw [get_bare, taken]; rfl, ?_⟩
    have same : validateRootEnd (bareRoot mr) fromKey = validateRootEnd mr fromKey :=
      validateEnd_bare mr.node 0 mr.keyStep fromKey
    rw [same]
    exact right

/-- A key that only a root of depth 13 can hold. -/
def highest : List Op := [.newRoot, .insert 20 1152921504606846976 [1]]

theorem highest_ran : runOps plainParams {} highest = some (after highest) := by
  obtain ⟨s, ran⟩ := Option.isSome_iff_exists.1
    (by decide +kernel : (runOps plainParams {} highest).isSome = true)
  rw [after, ran]
  rfl

theorem highest_entry : ((after highest).roots.lookup 20).isSome = true := by decide +kernel

theorem highest_answers : ∃ root b, (after highest).roots.lookup 20 = some root ∧
    (after highest).nodes root.ptr = some (.branch b) ∧
    ∀ fromKey toKey includeData, fromKey ≤ toKey → ∃ mr size,
      Extract.get (after highest) fromKey toKey includeData {} 20 = some (mr, true, size) ∧
        ((validateRootEnd mr fromKey = true ↔ NoneGreater (after highest) 20 fromKey) ↔
          (b.depth ≤ 12 ∨ fromKey ≤ 1 ∨ NoneGreater (after highest) 20 fromKey)) := by
  obtain ⟨root, entry⟩ := Option.isSome_iff_exists.1 highest_entry
  obtain ⟨b, stored, answers⟩ := validate_end_iff plainParams highest highest_ran root entry
  exact ⟨root, b, entry, stored, answers⟩

/-- The part from key 2 on is taken for the end, although the key is greater. -/
theorem highest_missed : runOps plainParams {} highest = some (after highest) ∧
    ((Extract.get (after highest) 2 18446744073709551615 true {} 20).map
      fun x => validateRootEnd x.1 2) = some true ∧ ¬ NoneGreater (after highest) 20 2 := by
  refine ⟨highest_ran, by decide +kernel, fun none_ => ?_⟩
  obtain ⟨found, here⟩ := Option.isSome_iff_exists.1
    (by decide +kernel : (find (after highest) 20 20 1152921504606846976).isSome = true)
  have shape : (find (after highest) 20 20 1152921504606846976).map
      (fun found => found.map fun l => (l.key, l.customData)) =
        some (some (1152921504606846976, [1])) := by decide +kernel
  rw [here] at shape
  cases found with
  | none => cases shape
  | some l =>
    have parts := Option.some.inj (Option.some.inj shape)
    have finds : Finds (after highest) 20 1152921504606846976 (some [1]) := by
      refine ⟨some l, ⟨20, fun fuel large => ?_⟩, ?_, ?_⟩
      · exact find_lasting 20 1152921504606846976 20 fuel _ large here
      · rintro _ ⟨⟩
        exact congrArg Prod.fst parts
      · exact congrArg (fun x => some x.2) parts
    have impossible := none_ _ _ finds
    revert impossible
    decide

end Claim

end Epilog.Db.RangeEnd
