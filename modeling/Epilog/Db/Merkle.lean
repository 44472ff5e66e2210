/- Module: Epilog/Db/Merkle
   source: src/src/db/triedb.cpp (validate), src/src/db/triedb.hpp (merkle nodes)
   digest: Partial Merkle trees received for a key range, against the hash of an honest trie. -/

import Epilog.Db.Store
import Epilog.Lib.DigitTree

set_option autoImplicit false

namespace Epilog.Db.Merkle

open Epilog.Lib.DigitTree Epilog.Common.Bits Epilog.Db.Branch Epilog.Db.Store

/-- `merkle_node`; `null` is an empty `unique_ptr`, and a leaf may come without data. -/
inductive MerkleNode
  | null
  | leaf (key : UInt64) (data : Option Bytes) (hash : Bytes)
  | branch (depth : UInt8) (mask : BitVec 32) (child : Fin 32 → MerkleNode) (hash : Bytes)

namespace MerkleNode

def isNull : MerkleNode → Bool
  | null => true
  | _ => false

def hash : MerkleNode → Bytes
  | null => []
  | leaf _ _ h => h
  | branch _ _ _ h => h

/-- The leaves of a received tree, with their data. -/
def leaves : MerkleNode → List (UInt64 × Bytes)
  | null => []
  | leaf key data _ => data.toList.map (key, ·)
  | branch _ _ child _ => (List.finRange 32).flatMap fun i => (child i).leaves

theorem isNull_iff (m : MerkleNode) : m.isNull = true ↔ m = .null := by
  cases m <;> simp [isNull]

theorem isNull_of_mem_leaves {m : MerkleNode} {x : UInt64 × Bytes} (member : x ∈ m.leaves) :
    m.isNull = false := by
  cases m with
  | null => cases member
  | leaf key data h => rfl
  | branch depth mask child h => rfl

end MerkleNode

open MerkleNode

/-- What `leaf_hasher` feeds to the digest. -/
def leafString (key : UInt64) (data : Bytes) : Bytes := writeUint64 key.toBitVec ++ data

/-- What `branch_hasher` and `validate` feed to the digest. -/
def branchString (depth : UInt8) (mask : BitVec 32) (hashes : Bytes) : Bytes :=
  depth :: writeUint32 mask ++ hashes

/-- Last key of the span that starts at `keyOffset`. -/
def keyEnd (keyOffset keyStep : UInt64) : UInt64 := keyOffset + keyStep - 1

def rangesIntersect (keyOffset keyStep fromKey toKey : UInt64) : Bool :=
  keyOffset ≤ toKey && keyEnd keyOffset keyStep ≥ fromKey

def clipFrom (keyOffset fromKey : UInt64) : UInt64 := if fromKey < keyOffset then keyOffset else fromKey

def clipTo (keyOffset keyStep toKey : UInt64) : UInt64 :=
  if toKey > keyEnd keyOffset keyStep then keyEnd keyOffset keyStep else toKey

section Validate

variable (P : TriedbParams)

/-- `merkle_leaf::validate` and `merkle_branch::validate`; `db` tells whether the database pointer
is set. A leaf without data is dereferenced there, so it is never accepted. -/
def validate (db : Bool) : MerkleNode → UInt64 → UInt64 → UInt64 → UInt64 → Bool
  | .null, _, _, _, _ => false
  | .leaf key data h, keyOffset, keyStep, _, _ =>
      if key < keyOffset || key > keyEnd keyOffset keyStep then false
      else if !db then true
      else match data with
        | none => false
        | some data => P.blake2b (leafString key data) == h
  | .branch depth mask child h, keyOffset, keyStep, fromKey, toKey =>
      if !rangesIntersect keyOffset keyStep fromKey toKey then true
      else
        ((List.finRange 32).all fun i =>
          if (child i).isNull then !mask.getLsbD i.val
          else mask.getLsbD i.val &&
            validate db (child i) (keyOffset + UInt64.ofNat i.val * (keyStep >>> 5)) (keyStep >>> 5)
              (clipFrom keyOffset fromKey) (clipTo keyOffset keyStep toKey)) &&
        h.length == 32 &&
        h == P.blake2b (branchString depth mask
          ((List.finRange 32).flatMap fun i => (child i).hash))

/-- `merkle_root`, which is a branch. -/
structure MerkleRoot where
  depth : UInt8
  mask : BitVec 32
  child : Fin 32 → MerkleNode
  hash : Bytes

namespace MerkleRoot

def node (mr : MerkleRoot) : MerkleNode := .branch mr.depth mr.mask mr.child mr.hash

/-- The span of keys a root of this depth is taken to cover; the shift is modulo 64. -/
def keyStep (mr : MerkleRoot) : UInt64 := 1 <<< (mr.depth.toUInt64 * 5)

end MerkleRoot

def validateRoot (db : Bool) (mr : MerkleRoot) (fromKey toKey : UInt64) : Bool :=
  validate P db mr.node 0 mr.keyStep fromKey (clipTo 0 mr.keyStep toKey)

end Validate

section Honest

/-- The mask of a branch with these children. -/
def maskOf (c : Fin 32 → Tree 32 Bytes) : BitVec 32 :=
  (BitVec.ofBoolListLE ((List.finRange 32).map fun i => !(c i).isEmpty)).setWidth 32

@[simp] theorem getLsbD_maskOf (c : Fin 32 → Tree 32 Bytes) (i : Fin 32) :
    (maskOf c).getLsbD i.val = !(c i).isEmpty := by
  rw [maskOf, BitVec.getLsbD_setWidth, BitVec.getLsbD_ofBoolListLE, List.getD_eq_getElem?_getD]
  simp

variable (P : TriedbParams)

/-- The hash that an honest trie has at a node of depth `d`. -/
def treeHash : ℕ → Tree 32 Bytes → Bytes
  | _, .empty => []
  | _, .leaf key data => P.blake2b (leafString (UInt64.ofNat key) data)
  | 0, .branch _ => []
  | d + 1, .branch c =>
      P.blake2b (branchString (UInt8.ofNat (d + 1)) (maskOf c)
        ((List.finRange 32).flatMap fun i => treeHash d (c i)))

/-- The leaf strings and the branch strings behind the hash of an honest trie. -/
def treeStrings : ℕ → Tree 32 Bytes → List Bytes × List Bytes
  | _, .empty => ([], [])
  | _, .leaf key data => ([leafString (UInt64.ofNat key) data], [])
  | 0, .branch _ => ([], [])
  | d + 1, .branch c =>
      ((List.finRange 32).flatMap fun i => (treeStrings d (c i)).1,
        branchString (UInt8.ofNat (d + 1)) (maskOf c)
            ((List.finRange 32).flatMap fun i => treeHash P d (c i)) ::
          (List.finRange 32).flatMap fun i => (treeStrings d (c i)).2)

@[simp] theorem treeHash_empty (d : ℕ) : treeHash P d .empty = [] := by
  cases d <;> rfl

@[simp] theorem treeHash_leaf (d key : ℕ) (data : Bytes) : treeHash P d (.leaf key data) =
    P.blake2b (leafString (UInt64.ofNat key) data) := by
  cases d <;> rfl

@[simp] theorem treeStrings_leaf (d key : ℕ) (data : Bytes) :
    treeStrings P d (.leaf key data) = ([leafString (UInt64.ofNat key) data], []) := by
  cases d <;> rfl

/-- The leaf strings and the branch strings of a received tree. -/
def nodeStrings : MerkleNode → List Bytes × List Bytes
  | .null => ([], [])
  | .leaf key data _ => (data.toList.map (leafString key), [])
  | .branch depth mask child _ =>
      ((List.finRange 32).flatMap fun i => (nodeStrings (child i)).1,
        branchString depth mask ((List.finRange 32).flatMap fun i => (child i).hash) ::
          (List.finRange 32).flatMap fun i => (nodeStrings (child i)).2)

/-- The digest is injective on the given strings, and leaf strings are no branch strings. -/
structure CollisionFree (leafStrings branchStrings : List Bytes) : Prop where
  injective : ∀ x ∈ leafStrings ++ branchStrings, ∀ y ∈ leafStrings ++ branchStrings,
    P.blake2b x = P.blake2b y → x = y
  apart : ∀ x ∈ leafStrings, ∀ y ∈ branchStrings, x ≠ y

end Honest

section Skipped

/-- The leaves under the subtrees that `validate` does not look at. -/
def skippedLeaves : MerkleNode → UInt64 → UInt64 → UInt64 → UInt64 → List (UInt64 × Bytes)
  | .null, _, _, _, _ => []
  | .leaf _ _ _, _, _, _, _ => []
  | .branch depth mask child h, keyOffset, keyStep, fromKey, toKey =>
      if !rangesIntersect keyOffset keyStep fromKey toKey then
        (MerkleNode.branch depth mask child h).leaves
      else (List.finRange 32).flatMap fun i =>
        skippedLeaves (child i) (keyOffset + UInt64.ofNat i.val * (keyStep >>> 5)) (keyStep >>> 5)
          (clipFrom keyOffset fromKey) (clipTo keyOffset keyStep toKey)

/-- The hashes of the subtrees that `validate` does not look at. -/
def skippedHashes : MerkleNode → UInt64 → UInt64 → UInt64 → UInt64 → List Bytes
  | .null, _, _, _, _ => []
  | .leaf _ _ _, _, _, _, _ => []
  | .branch _ _ child h, keyOffset, keyStep, fromKey, toKey =>
      if !rangesIntersect keyOffset keyStep fromKey toKey then [h]
      else (List.finRange 32).flatMap fun i =>
        skippedHashes (child i) (keyOffset + UInt64.ofNat i.val * (keyStep >>> 5)) (keyStep >>> 5)
          (clipFrom keyOffset fromKey) (clipTo keyOffset keyStep toKey)

theorem skippedLeaves_subset {m : MerkleNode} {keyOffset keyStep fromKey toKey : UInt64} :
    skippedLeaves m keyOffset keyStep fromKey toKey ⊆ m.leaves := by
  induction m generalizing keyOffset keyStep fromKey toKey with
  | null => exact List.nil_subset _
  | leaf key data h => exact List.nil_subset _
  | branch depth mask child h ih =>
      intro x member
      rw [skippedLeaves] at member
      split at member
      · exact member
      · obtain ⟨i, inside, member⟩ := List.mem_flatMap.mp member
        exact List.mem_flatMap.mpr ⟨i, inside, ih i member⟩

end Skipped

section Strings

private theorem bytes_injective {w : ℕ} {places : List ℕ} {v u : BitVec w}
    (covered : ∀ j < w, j / 8 * 8 ∈ places)
    (same : (places.map fun k => UInt8.ofBitVec ((v >>> k).setWidth 8)) =
      places.map fun k => UInt8.ofBitVec ((u >>> k).setWidth 8)) : v = u := by
  rw [List.map_inj_left] at same
  apply BitVec.eq_of_getLsbD_eq
  intro j less
  have byte : (v >>> (j / 8 * 8)).setWidth 8 = (u >>> (j / 8 * 8)).setWidth 8 := by
    have := same _ (covered j less)
    injection this
  have bit := congrArg (fun b => b.getLsbD (j % 8)) byte
  have split : j / 8 * 8 + j % 8 = j := by omega
  have small : j % 8 < 8 := by omega
  simpa [small, split] using bit

theorem writeUint64_injective : Function.Injective writeUint64 :=
  fun _ _ same => bytes_injective (by decide) same

theorem writeUint32_injective : Function.Injective writeUint32 :=
  fun _ _ same => bytes_injective (by decide) same

theorem leafString_inj {key key' : UInt64} {data data' : Bytes}
    (same : leafString key data = leafString key' data') : key = key' ∧ data = data' := by
  obtain ⟨keys, datas⟩ := List.append_inj same rfl
  have bits := writeUint64_injective keys
  exact ⟨UInt64.toBitVec_inj.mp bits, datas⟩

theorem branchString_inj {depth depth' : UInt8} {mask mask' : BitVec 32} {hashes hashes' : Bytes}
    (same : branchString depth mask hashes = branchString depth' mask' hashes') :
    depth = depth' ∧ mask = mask' ∧ hashes = hashes' := by
  injection same with depths rest
  obtain ⟨masks, tails⟩ := List.append_inj rest rfl
  exact ⟨depths, writeUint32_injective masks, tails⟩

theorem flatMap_inj {ι β : Type} {l : List ι} {f g : ι → List β}
    (lengths : ∀ i ∈ l, (f i).length = (g i).length) (same : l.flatMap f = l.flatMap g) :
    ∀ i ∈ l, f i = g i := by
  induction l with
  | nil => simp
  | cons a l ih =>
      rw [List.flatMap_cons, List.flatMap_cons] at same
      obtain ⟨head, tail⟩ := List.append_inj same (lengths a (by simp))
      intro i member
      rcases List.mem_cons.mp member with rfl | member
      · exact head
      · exact ih (fun i member => lengths i (by simp [member])) tail i member

end Strings

section Span

/-- The keys with prefix `q` above `d` digits, as the offset and the step of `validate`. -/
structure Span (keyOffset keyStep : UInt64) (d q : ℕ) : Prop where
  offset : keyOffset.toNat = q * 32 ^ d
  step : keyStep.toNat = 32 ^ d
  inside : (q + 1) * 32 ^ d ≤ 2 ^ 60

variable {keyOffset keyStep : UInt64} {d q : ℕ}

theorem Span.keyEnd (span : Span keyOffset keyStep d q) :
    (keyEnd keyOffset keyStep).toNat = q * 32 ^ d + 32 ^ d - 1 := by
  have pos : 0 < 32 ^ d := Nat.pow_pos (by omega)
  have inside := span.inside
  rw [Nat.add_one_mul] at inside
  rw [Merkle.keyEnd, UInt64.toNat_sub, UInt64.toNat_add, span.offset, span.step,
    Nat.mod_eq_of_lt (by omega : q * 32 ^ d + 32 ^ d < 2 ^ 64), show UInt64.toNat 1 = 1 from rfl]
  omega

theorem Span.sub (span : Span keyOffset keyStep (d + 1) q) (i : Fin 32) :
    Span (keyOffset + UInt64.ofNat i.val * (keyStep >>> 5)) (keyStep >>> 5) d (q * 32 + i.val) := by
  have step : (keyStep >>> 5).toNat = 32 ^ d := by
    rw [UInt64.toNat_shiftRight, span.step, show UInt64.toNat 5 % 64 = 5 from rfl,
      Nat.shiftRight_eq_div_pow, pow_succ]
    omega
  have inside := span.inside
  have room : (q * 32 + i.val + 1) * 32 ^ d ≤ 2 ^ 60 := by
    calc (q * 32 + i.val + 1) * 32 ^ d ≤ ((q + 1) * 32) * 32 ^ d :=
          Nat.mul_le_mul_right _ (by omega)
      _ = (q + 1) * 32 ^ (d + 1) := by ring
      _ ≤ 2 ^ 60 := inside
  refine ⟨?_, step, room⟩
  have small : i.val * 32 ^ d ≤ 2 ^ 60 :=
    le_trans (Nat.mul_le_mul_right _ (by omega)) room
  have index : (UInt64.ofNat i.val).toNat = i.val := by
    rw [UInt64.toNat_ofNat']
    omega
  have offset : keyOffset.toNat = q * 32 * 32 ^ d := by rw [span.offset]; ring
  have bound : (q * 32 + i.val) * 32 ^ d ≤ 2 ^ 60 := le_trans (Nat.mul_le_mul_right _ (by omega)) room
  rw [Nat.add_mul] at bound ⊢
  rw [UInt64.toNat_add, UInt64.toNat_mul, step, index, offset,
    Nat.mod_eq_of_lt (by omega : i.val * 32 ^ d < 2 ^ 64),
    Nat.mod_eq_of_lt (by omega : q * 32 * 32 ^ d + i.val * 32 ^ d < 2 ^ 64)]

theorem Span.mem_iff (span : Span keyOffset keyStep d q) (key : UInt64) :
    key.toNat / 32 ^ d = q ↔
      keyOffset ≤ key ∧ key ≤ Merkle.keyEnd keyOffset keyStep := by
  have pos : 0 < 32 ^ d := Nat.pow_pos (by omega)
  rw [UInt64.le_iff_toNat_le, UInt64.le_iff_toNat_le, span.keyEnd, span.offset,
    Nat.div_eq_iff pos]

end Span

section Soundness

variable (P : TriedbParams)

theorem length_treeHash {t : Tree 32 Bytes} {d q : ℕ} (fits : t.Fits d q) :
    (treeHash P d t).length = if t.isEmpty then 0 else 32 := by
  cases t with
  | empty => rw [treeHash_empty]; rfl
  | leaf key data => rw [treeHash_leaf]; exact P.blake2b_length _
  | branch c =>
      cases d with
      | zero => exact fits.elim
      | succ d => exact P.blake2b_length _

theorem length_hash_of_validate {m : MerkleNode} {keyOffset keyStep fromKey toKey : UInt64}
    (some_node : m.isNull = false)
    (accepted : validate P true m keyOffset keyStep fromKey toKey = true)
    (aligned : ∀ h ∈ skippedHashes m keyOffset keyStep fromKey toKey, h.length = 32) :
    m.hash.length = 32 := by
  cases m with
  | null => cases some_node
  | leaf key data h =>
      cases data with
      | none => simp [validate] at accepted
      | some data =>
          simp only [validate, Bool.not_true, Bool.false_eq_true, if_false, Bool.if_false_left,
            Bool.and_eq_true, beq_iff_eq] at accepted
          rw [MerkleNode.hash, ← accepted.2]
          exact P.blake2b_length _
  | branch depth mask child h =>
      cases meets : rangesIntersect keyOffset keyStep fromKey toKey with
      | false => exact aligned h (by simp [skippedHashes, meets])
      | true =>
          simp only [validate, meets, Bool.not_true, Bool.false_eq_true, if_false,
            Bool.and_eq_true, beq_iff_eq] at accepted
          exact accepted.1.2

/-- The two ways in which an accepted node and an honest tree with the same hash agree. -/
structure Agrees (m : MerkleNode) (t : Tree 32 Bytes) (keyOffset keyStep fromKey toKey : UInt64) :
    Prop where
  honest : ∀ x ∈ m.leaves, x ∈ skippedLeaves m keyOffset keyStep fromKey toKey ∨
    (x.1.toNat, x.2) ∈ t.leaves
  complete : ∀ key data, fromKey ≤ key → key ≤ toKey → (key.toNat, data) ∈ t.leaves →
    (key, data) ∈ m.leaves

theorem le_clipFrom {keyOffset fromKey key : UInt64} (above : fromKey ≤ key)
    (inside : keyOffset ≤ key) : clipFrom keyOffset fromKey ≤ key := by
  unfold clipFrom
  split <;> assumption

theorem clipTo_le {keyOffset keyStep toKey key : UInt64} (below : key ≤ toKey)
    (inside : key ≤ keyEnd keyOffset keyStep) : key ≤ clipTo keyOffset keyStep toKey := by
  unfold clipTo
  split <;> assumption

section Agrees

variable {L B : List Bytes} {t : Tree 32 Bytes} {d q : ℕ}
  {keyOffset keyStep fromKey toKey : UInt64} {depth : UInt8} {mask : BitVec 32}
  {child : Fin 32 → MerkleNode} {h : Bytes}

theorem hash_ne_nil {bytes : Bytes} : P.blake2b bytes ≠ [] := by
  intro empty
  have length := congrArg List.length empty
  rw [P.blake2b_length] at length
  cases length

theorem agrees_leaf (free : CollisionFree P L B) {key : UInt64} {data : Bytes}
    (span : Span keyOffset keyStep d q) (fits : t.Fits d q)
    (hashes : P.blake2b (leafString key data) = treeHash P d t)
    (tree_strings : (treeStrings P d t).1 ⊆ L ∧ (treeStrings P d t).2 ⊆ B)
    (mine : leafString key data ∈ L) :
    Agrees (.leaf key (some data) h) t keyOffset keyStep fromKey toKey := by
  cases t with
  | empty =>
      rw [treeHash_empty] at hashes
      exact absurd hashes (hash_ne_nil P)
  | leaf k w =>
      have theirs : leafString (UInt64.ofNat k) w ∈ L := tree_strings.1 (by simp)
      rw [treeHash_leaf] at hashes
      obtain ⟨keys, datas⟩ := leafString_inj (free.injective _
        (List.mem_append_left _ mine) _ (List.mem_append_left _ theirs) hashes)
      have small : k < 2 ^ 64 := by
        have below : k / 32 ^ d = q := fits
        have := span.inside
        have := Nat.lt_mul_of_div_lt (show k / 32 ^ d < q + 1 by omega)
          (Nat.pow_pos (by omega))
        have := span.inside
        rw [Nat.mul_comm] at this
        omega
      have key_eq : key.toNat = k := by
        rw [keys, UInt64.toNat_ofNat', Nat.mod_eq_of_lt small]
      constructor
      · intro x member
        right
        have : x = (key, data) := by simpa [MerkleNode.leaves] using member
        simp [this, key_eq, datas]
      · intro key' data' _ _ member
        have : key'.toNat = k ∧ data' = w := by simpa using member
        obtain rfl : key' = key := UInt64.toNat_inj.mp (this.1.trans key_eq.symm)
        rw [this.2, ← datas]
        exact List.mem_singleton.mpr rfl
  | branch c =>
      cases d with
      | zero => exact fits.elim
      | succ d =>
          have theirs : branchString (UInt8.ofNat (d + 1)) (maskOf c)
              ((List.finRange 32).flatMap fun i => treeHash P d (c i)) ∈ B :=
            tree_strings.2 (by simp [treeStrings])
          exact absurd (free.injective _ (List.mem_append_left _ mine) _
            (List.mem_append_right _ theirs) hashes) (free.apart _ mine _ theirs)

theorem agrees_skipped (span : Span keyOffset keyStep d q) (fits : t.Fits d q)
    (meets : rangesIntersect keyOffset keyStep fromKey toKey = false) :
    Agrees (.branch depth mask child h) t keyOffset keyStep fromKey toKey := by
  constructor
  · intro x member
    left
    simpa [skippedLeaves, meets] using member
  · intro key data above below member
    obtain ⟨first, last⟩ := (span.mem_iff key).mp (Tree.key_div_of_mem_leaves fits member)
    have : rangesIntersect keyOffset keyStep fromKey toKey = true := by
      simp only [rangesIntersect, Bool.and_eq_true, decide_eq_true_eq]
      exact ⟨UInt64.le_trans first below, UInt64.le_trans above last⟩
    rw [meets] at this
    cases this

theorem branch_of_hash (free : CollisionFree P L B) (fits : t.Fits d q)
    (hashes : P.blake2b (branchString depth mask
      ((List.finRange 32).flatMap fun i => (child i).hash)) = treeHash P d t)
    (tree_strings : (treeStrings P d t).1 ⊆ L ∧ (treeStrings P d t).2 ⊆ B)
    (mine : branchString depth mask ((List.finRange 32).flatMap fun i => (child i).hash) ∈ B) :
    ∃ c d', t = .branch c ∧ d = d' + 1 ∧ mask = maskOf c ∧
      ((List.finRange 32).flatMap fun i => (child i).hash) =
        (List.finRange 32).flatMap fun i => treeHash P d' (c i) := by
  cases t with
  | empty =>
      rw [treeHash_empty] at hashes
      exact absurd hashes (hash_ne_nil P)
  | leaf k w =>
      have theirs : leafString (UInt64.ofNat k) w ∈ L := tree_strings.1 (by simp)
      rw [treeHash_leaf] at hashes
      exact absurd (free.injective _ (List.mem_append_right _ mine) _
        (List.mem_append_left _ theirs) hashes).symm (free.apart _ theirs _ mine)
  | branch c =>
      cases d with
      | zero => exact fits.elim
      | succ d =>
          have theirs : branchString (UInt8.ofNat (d + 1)) (maskOf c)
              ((List.finRange 32).flatMap fun i => treeHash P d (c i)) ∈ B :=
            tree_strings.2 (by simp [treeStrings])
          obtain ⟨-, masks, tails⟩ := branchString_inj (free.injective _
            (List.mem_append_right _ mine) _ (List.mem_append_right _ theirs) hashes)
          exact ⟨c, d, rfl, rfl, masks, tails⟩

theorem agrees_branch {c : Fin 32 → Tree 32 Bytes} (span : Span keyOffset keyStep d q)
    (fits : (Tree.branch c).Fits d q)
    (meets : rangesIntersect keyOffset keyStep fromKey toKey = true)
    (null_iff : ∀ i, (child i).isNull = (c i).isEmpty)
    (agrees : ∀ i, (child i).isNull = false → Agrees (child i) (c i)
      (keyOffset + UInt64.ofNat i.val * (keyStep >>> 5)) (keyStep >>> 5)
      (clipFrom keyOffset fromKey) (clipTo keyOffset keyStep toKey)) :
    Agrees (.branch depth mask child h) (.branch c) keyOffset keyStep fromKey toKey := by
  constructor
  · intro x member
    obtain ⟨i, _, member⟩ := List.mem_flatMap.mp member
    have present := isNull_of_mem_leaves member
    rcases (agrees i present).honest x member with skipped | found
    · left
      simp only [skippedLeaves, meets, Bool.not_true, Bool.false_eq_true, if_false]
      exact List.mem_flatMap.mpr ⟨i, List.mem_finRange i, skipped⟩
    · exact .inr ((Tree.mem_leaves_branch c _).mpr ⟨i, found⟩)
  · intro key data above below member
    obtain ⟨first, last⟩ := (span.mem_iff key).mp (Tree.key_div_of_mem_leaves fits member)
    obtain ⟨i, member⟩ := (Tree.mem_leaves_branch c _).mp member
    have present : (child i).isNull = false := by
      rw [null_iff, Bool.eq_false_iff, ne_eq, Tree.isEmpty_iff]
      rintro empty
      rw [empty] at member
      cases member
    have found := (agrees i present).complete key data (le_clipFrom above first)
      (clipTo_le below last) member
    exact List.mem_flatMap.mpr ⟨i, List.mem_finRange i, found⟩

end Agrees

theorem agrees_of_validate {L B : List Bytes} (free : CollisionFree P L B) {m : MerkleNode}
    {t : Tree 32 Bytes} {d q : ℕ} {keyOffset keyStep fromKey toKey : UInt64}
    (span : Span keyOffset keyStep d q) (fits : t.Fits d q) (some_node : m.isNull = false)
    (same : m.hash = treeHash P d t)
    (accepted : validate P true m keyOffset keyStep fromKey toKey = true)
    (aligned : ∀ h ∈ skippedHashes m keyOffset keyStep fromKey toKey, h.length = 32)
    (tree_strings : (treeStrings P d t).1 ⊆ L ∧ (treeStrings P d t).2 ⊆ B)
    (node_strings : (nodeStrings m).1 ⊆ L ∧ (nodeStrings m).2 ⊆ B) :
    Agrees m t keyOffset keyStep fromKey toKey := by
  induction m generalizing t d q keyOffset keyStep fromKey toKey with
  | null => cases some_node
  | leaf key data h =>
      cases data with
      | none => simp [validate] at accepted
      | some data =>
          simp only [validate, Bool.not_true, Bool.false_eq_true, if_false, Bool.if_false_left,
            Bool.and_eq_true, beq_iff_eq] at accepted
          exact agrees_leaf P free span fits (accepted.2.trans same) tree_strings
            (node_strings.1 (by simp [nodeStrings]))
  | branch depth mask child h ih =>
      cases meets : rangesIntersect keyOffset keyStep fromKey toKey with
      | false => exact agrees_skipped span fits meets
      | true =>
          simp only [validate, meets, Bool.not_true, Bool.false_eq_true, if_false,
            Bool.and_eq_true, beq_iff_eq, List.all_eq_true] at accepted
          obtain ⟨⟨children, -⟩, hashed⟩ := accepted
          obtain ⟨c, d, rfl, rfl, masks, tails⟩ := branch_of_hash P free fits
            (hashed.symm.trans same) tree_strings (node_strings.2 (by simp [nodeStrings]))
          have sub_aligned : ∀ i : Fin 32, ∀ h ∈ skippedHashes (child i)
              (keyOffset + UInt64.ofNat i.val * (keyStep >>> 5)) (keyStep >>> 5)
              (clipFrom keyOffset fromKey) (clipTo keyOffset keyStep toKey),
              h.length = 32 := by
            intro i h member
            apply aligned h
            simp only [skippedHashes, meets, Bool.not_true, Bool.false_eq_true, if_false]
            exact List.mem_flatMap.mpr ⟨i, List.mem_finRange i, member⟩
          have null_iff : ∀ i, (child i).isNull = (c i).isEmpty := by
            intro i
            have := children i (List.mem_finRange i)
            rw [masks, getLsbD_maskOf] at this
            cases null : (child i).isNull with
            | true => simpa [null] using this.symm
            | false =>
                rw [null, if_neg Bool.false_ne_true, Bool.and_eq_true] at this
                simpa using this.1.symm
          have sub_accepted : ∀ i, (child i).isNull = false →
              validate P true (child i) (keyOffset + UInt64.ofNat i.val * (keyStep >>> 5))
                (keyStep >>> 5) (clipFrom keyOffset fromKey)
                (clipTo keyOffset keyStep toKey) = true := by
            intro i present
            have := children i (List.mem_finRange i)
            rw [present, if_neg Bool.false_ne_true, Bool.and_eq_true] at this
            exact this.2
          -- hashes of equal lengths, so that the children have the hashes one by one
          have lengths : ∀ i ∈ List.finRange 32,
              (child i).hash.length = (treeHash P d (c i)).length := by
            intro i _
            rw [length_treeHash P (fits i), ← null_iff]
            cases present : (child i).isNull with
            | true =>
                rw [(isNull_iff _).mp present]
                rfl
            | false =>
                exact length_hash_of_validate P present (sub_accepted i present)
                  (sub_aligned i)
          have hash_eq := fun i => flatMap_inj lengths tails i (List.mem_finRange i)
          refine agrees_branch span fits meets null_iff fun i present => ?_
          refine ih i (span.sub i) (fits i) present (hash_eq i) (sub_accepted i present)
            (sub_aligned i) ⟨?_, ?_⟩ ⟨?_, ?_⟩
          · exact fun x member => tree_strings.1
              (List.mem_flatMap.mpr ⟨i, List.mem_finRange i, member⟩)
          · exact fun x member => tree_strings.2 (List.mem_cons_of_mem _
              (List.mem_flatMap.mpr ⟨i, List.mem_finRange i, member⟩))
          · exact fun x member => node_strings.1
              (List.mem_flatMap.mpr ⟨i, List.mem_finRange i, member⟩)
          · exact fun x member => node_strings.2 (List.mem_cons_of_mem _
              (List.mem_flatMap.mpr ⟨i, List.mem_finRange i, member⟩))

/-- The leaves of the received tree in the range are exactly those of the honest trie. -/
def RangeExact (mr : MerkleRoot) (c : Fin 32 → Tree 32 Bytes) (fromKey toKey : UInt64) : Prop :=
  ∀ key data, fromKey ≤ key → key ≤ toKey →
    ((key, data) ∈ mr.node.leaves ↔ (key.toNat, data) ∈ (Tree.branch c).leaves)

/-- The range meets the span of the root, whose depth is small enough for the shift, and every
subtree that `validate` passes over carries a hash of 32 bytes. -/
structure Covered (mr : MerkleRoot) (fromKey toKey : UInt64) : Prop where
  shallow : mr.depth.toNat ≤ 12
  meets : fromKey.toNat < 32 ^ mr.depth.toNat
  aligned : ∀ h ∈ skippedHashes mr.node 0 mr.keyStep fromKey (clipTo 0 mr.keyStep toKey),
    h.length = 32

/-- Every leaf of the range that `validate` passes over is a leaf of the honest trie. -/
def SkippedHonest (mr : MerkleRoot) (c : Fin 32 → Tree 32 Bytes) (fromKey toKey : UInt64) : Prop :=
  ∀ x ∈ skippedLeaves mr.node 0 mr.keyStep fromKey (clipTo 0 mr.keyStep toKey),
    fromKey ≤ x.1 → x.1 ≤ toKey → (x.1.toNat, x.2) ∈ (Tree.branch c).leaves

/-- What the strings behind the two hashes have to satisfy. -/
def Unforgeable (d : ℕ) (c : Fin 32 → Tree 32 Bytes) (mr : MerkleRoot) : Prop :=
  CollisionFree P ((treeStrings P d (.branch c)).1 ++ (nodeStrings mr.node).1)
    ((treeStrings P d (.branch c)).2 ++ (nodeStrings mr.node).2)

theorem span_root {mr : MerkleRoot} (shallow : mr.depth.toNat ≤ 12) :
    Span 0 mr.keyStep mr.depth.toNat 0 := by
  have pow : (32 : ℕ) ^ mr.depth.toNat = 2 ^ (mr.depth.toNat * 5) := by
    rw [Nat.mul_comm, pow_mul]
    rfl
  have amount : (mr.depth.toUInt64 * 5).toNat = mr.depth.toNat * 5 := by
    rw [UInt64.toNat_mul, UInt8.toNat_toUInt64, show UInt64.toNat 5 = 5 from rfl]
    omega
  refine ⟨by simp, ?_, ?_⟩
  · rw [MerkleRoot.keyStep, UInt64.toNat_shiftLeft, amount, pow,
      show UInt64.toNat 1 = 1 from rfl, Nat.one_shiftLeft,
      Nat.mod_eq_of_lt (by omega : mr.depth.toNat * 5 < 64)]
    exact Nat.mod_eq_of_lt (Nat.pow_lt_pow_right (by omega) (by omega))
  · rw [pow, zero_add, one_mul]
    exact Nat.pow_le_pow_right (by omega) (by omega)

private theorem depth_eq {d : ℕ} {c : Fin 32 → Tree 32 Bytes} {mr : MerkleRoot} {fromKey toKey : UInt64}
    (unforgeable : Unforgeable P d c mr) (deep : d < 256) (fits : (Tree.branch c).Fits d 0)
    (same : mr.hash = treeHash P d (.branch c))
    (accepted : validateRoot P true mr fromKey toKey = true)
    (covered : Covered mr fromKey toKey) : mr.depth.toNat = d := by
  have span := span_root covered.shallow
  have last := span.keyEnd
  have pos : 0 < 32 ^ mr.depth.toNat := Nat.pow_pos (by omega)
  have meets : rangesIntersect 0 mr.keyStep fromKey (clipTo 0 mr.keyStep toKey) = true := by
    have below := covered.meets
    simp only [rangesIntersect, Bool.and_eq_true, decide_eq_true_eq, ge_iff_le]
    refine ⟨UInt64.le_iff_toNat_le.mpr (Nat.zero_le _), UInt64.le_iff_toNat_le.mpr ?_⟩
    rw [last]
    omega
  simp only [validateRoot, MerkleRoot.node, validate, meets, Bool.not_true, Bool.false_eq_true,
    if_false, Bool.and_eq_true, beq_iff_eq] at accepted
  cases d with
  | zero => exact fits.elim
  | succ d =>
      have strings := unforgeable.injective _
        (List.mem_append_right _ (List.mem_append_right _ (by simp [nodeStrings, MerkleRoot.node])))
        _ (List.mem_append_right _ (List.mem_append_left _ (by simp [treeStrings])))
        (accepted.2.symm.trans same)
      obtain ⟨depths, -, -⟩ := branchString_inj strings
      rw [depths, UInt8.toNat_ofNat', Nat.mod_eq_of_lt deep]

/-- A received root that is accepted and carries the hash of an honest trie, and that is covered,
holds exactly the leaves of the range if and only if the leaves of the range under its skipped
subtrees are leaves of the trie. -/
theorem validateRoot_exact_iff {d : ℕ} {c : Fin 32 → Tree 32 Bytes} {mr : MerkleRoot}
    {fromKey toKey : UInt64} (unforgeable : Unforgeable P d c mr) (deep : d < 256)
    (fits : (Tree.branch c).Fits d 0) (same : mr.hash = treeHash P d (.branch c))
    (accepted : validateRoot P true mr fromKey toKey = true)
    (covered : Covered mr fromKey toKey) :
    RangeExact mr c fromKey toKey ↔ SkippedHonest mr c fromKey toKey := by
  obtain rfl := depth_eq P unforgeable deep fits same accepted covered
  have span := span_root covered.shallow
  have agrees := agrees_of_validate P unforgeable (m := mr.node) span fits rfl same accepted covered.aligned
    ⟨fun _ member => List.mem_append_left _ member, fun _ member => List.mem_append_left _ member⟩
    ⟨fun _ member => List.mem_append_right _ member, fun _ member => List.mem_append_right _ member⟩
  constructor
  · rintro exact ⟨key, data⟩ member above below
    exact (exact key data above below).mp (skippedLeaves_subset member)
  · intro honest key data above below
    constructor
    · intro member
      rcases agrees.honest _ member with skipped | found
      · exact honest _ skipped above below
      · exact found
    · intro member
      have last := ((span.mem_iff key).mp (Tree.key_div_of_mem_leaves fits member)).2
      exact agrees.complete key data above (clipTo_le below last) member

end Soundness

section Pruned

/-- Pad or cut to 32 bytes in place of the digest. -/
def paddingParams : TriedbParams where
  bucketSize := 4096
  bucketSize_pos := by decide
  useHashing := true
  blake2b s := (s ++ List.replicate 32 0).take 32
  blake2b_length s := by simp

/-- A trie of depth 1 with the one entry 5 ↦ [1]. -/
def oneLeaf : Fin 32 → Tree 32 Bytes := Function.update (fun _ => .empty) 5 (.leaf 5 [1])

private theorem oneLeaf_fits : (Tree.branch oneLeaf).Fits 1 0 := by
  intro i
  by_cases same : i = 5
  · subst same
    rw [oneLeaf, Function.update_self]
    rfl
  · rw [oneLeaf, Function.update_of_ne same]
    trivial

/-- The root that sends the whole trie. -/
def fullRoot : MerkleRoot where
  depth := 1
  mask := maskOf oneLeaf
  child := Function.update (fun _ => .null) 5
    (.leaf 5 (some [1]) (paddingParams.blake2b (leafString 5 [1])))
  hash := treeHash paddingParams 1 (.branch oneLeaf)

theorem fullRoot_exact_iff :
    RangeExact fullRoot oneLeaf 1 31 ↔ SkippedHonest fullRoot oneLeaf 1 31 :=
  validateRoot_exact_iff paddingParams
    ⟨by decide, by decide⟩ (by decide) oneLeaf_fits rfl
    (by decide) ⟨by decide, by decide, by decide⟩

/-- A root of depth 0 spans the key 0 only, so nothing of it is looked at. -/
def prunedRoot : MerkleRoot where
  depth := 0
  mask := 0
  child _ := .null
  hash := treeHash paddingParams 1 (.branch oneLeaf)

theorem prunedRoot_not_exact :
    Unforgeable paddingParams 1 oneLeaf prunedRoot ∧
      prunedRoot.hash = treeHash paddingParams 1 (.branch oneLeaf) ∧
      validateRoot paddingParams true prunedRoot 1 40 = true ∧
      ¬ RangeExact prunedRoot oneLeaf 1 40 := by
  refine ⟨⟨by decide, by decide⟩, rfl, by decide, fun exact => ?_⟩
  have found : (5, [1]) ∈ (Tree.branch oneLeaf).leaves := by decide
  have missing : (5, [1]) ∉ prunedRoot.node.leaves := by decide
  exact missing ((exact 5 [1] (by decide) (by decide)).mpr found)

end Pruned

end Epilog.Db.Merkle
