/- Module: Epilog/Db/Extract
   source: src/src/db/triedb.cpp (get), src/src/db/triedb.hpp (merkle nodes)
   digest: The Merkle part for a key range, and that it passes its own validation. -/

import Epilog.Db.Hashes

set_option autoImplicit false

namespace Epilog.Db.Extract

open Epilog.Lib.DigitTree Epilog.Lib.TreeShape Epilog.Common.Bits Epilog.Db.Branch
open Epilog.Db.Store Epilog.Db.Representation Epilog.Db.PathUpdate Epilog.Db.Iterator
open Epilog.Db.Merkle Epilog.Db.Annotation Epilog.Db.Upkeep Epilog.Db.Hashes

/-- `sizeof(merkle_node)`: the virtual table and the hash with its size. -/
def MERKLE_NODE_SIZE : ℕ := 24

/-- `limit_size` and `num_keys` of a `merkle_root`; `none` is the largest `size_t`. -/
structure Limits where
  size : Option ℕ := none
  numKeys : Option ℕ := none

/-- `current_size` and `num_keys` -/
structure Tally where
  currentSize : ℕ := 0
  numKeys : ℕ := 0

def Limits.sizeExceeded (limits : Limits) (tally : Tally) : Bool :=
  limits.size.any fun limit => tally.currentSize > limit

def Limits.keysReached (limits : Limits) (tally : Tally) : Bool :=
  limits.numKeys.any fun limit => tally.numKeys ≥ limit

section Get

variable (s : Triedb) (fromKey toKey : UInt64) (includeData : Bool) (limits : Limits)

/-- The loop of `get` over the children; `sub` is the recursive call. -/
def getChildren (sub : TriedbBranch → Fin 32 → Tally → Option (MerkleRoot × Bool × Tally))
    (br : TriedbBranch) : List ℕ → (Fin 32 → MerkleNode) → BitVec 32 → Tally →
      Option ((Fin 32 → MerkleNode) × BitVec 32 × Bool × Tally)
  | [], child, mask, tally => some (child, mask, true, tally)
  | i :: rest, child, mask, tally => do
      let subIndex := Fin.ofNat 32 i
      let (node, tally) ←
        if br.isBranch subIndex then do
          let subBranch ← branchAt s (br.getChildPointer subIndex)
          let (subMerkle, _, tally) ← sub subBranch subIndex tally
          some (subMerkle.node,
            { currentSize := tally.currentSize +
                (MERKLE_NODE_SIZE + subMerkle.hash.length + 1 + 4 + 8 * 32)
              numKeys := tally.numKeys + 1 })
        else do
          let subLeaf ← leafAt s (br.getChildPointer subIndex)
          some (.leaf subLeaf.key (if includeData then some subLeaf.customData else none)
              subLeaf.hash,
            { tally with
              currentSize := tally.currentSize +
                (MERKLE_NODE_SIZE + subLeaf.hash.length + 8 + 8 + subLeaf.customData.length) })
      let child := Function.update child subIndex node
      let mask := mask ||| (1#32 <<< i)
      if limits.sizeExceeded tally then some (child, mask, false, tally)
      else getChildren sub br rest child mask tally

/-- `get` below a branch, into a new `merkle_branch`. The fuel is the depth. -/
def getPart : ℕ → TriedbBranch → UInt64 → UInt64 → Tally → Option (MerkleRoot × Bool × Tally)
  | 0, _, _, _, _ => none
  | fuel + 1, br, keyOffset, keyStep, tally =>
      let mbr : MerkleRoot :=
        { depth := UInt8.ofNat br.depth, mask := 0, child := fun _ => .null, hash := br.hash }
      if !rangesIntersect keyOffset keyStep fromKey toKey then some (mbr, true, tally)
      else if limits.keysReached tally then some (mbr, true, tally)
      else do
        let subStep := keyStep >>> 5
        let sub := fun subBranch (subIndex : Fin 32) =>
          getPart fuel subBranch (keyOffset + UInt64.ofNat subIndex.val * subStep) subStep
        let (child, mask, complete, tally) ←
          getChildren s includeData limits sub br (maskLoop 32 br.mask) mbr.child mbr.mask tally
        some ({ mbr with child := child, mask := mask }, complete, tally)

/-- `triedb::get` into a new `merkle_root`, with the value returned and the total size -/
def get (atRoot : RootId) : Option (MerkleRoot × Bool × ℕ) := do
  let root ← s.roots.lookup atRoot
  let br ← branchAt s root.ptr
  let keyStep := 1 <<< (UInt64.ofNat br.depth * 5)
  let (result, complete, tally) ← getPart s fromKey toKey includeData limits br.depth br 0 keyStep {}
  some (result, complete, tally.currentSize)

end Get

section Part

variable (P : TriedbParams) (fromKey toKey : UInt64)

/-- The part of a tree for a range: branches outside the range come as hashes only. -/
def partOf : ℕ → Tree 32 Bytes → UInt64 → UInt64 → MerkleNode
  | _, .empty, _, _ => .null
  | _, .leaf key data, _, _ =>
      .leaf (UInt64.ofNat key) (some data) (storedHash P 0 (.leaf key data))
  | 0, .branch _, _, _ => .null
  | d + 1, .branch c, keyOffset, keyStep =>
      if rangesIntersect keyOffset keyStep fromKey toKey then
        .branch (UInt8.ofNat (d + 1)) (maskOf c)
          (fun i => partOf d (c i) (keyOffset + UInt64.ofNat i.val * (keyStep >>> 5)) (keyStep >>> 5))
          (storedHash P (d + 1) (.branch c))
      else .branch (UInt8.ofNat (d + 1)) 0 (fun _ => .null) (storedHash P (d + 1) (.branch c))

variable {P fromKey toKey}

theorem partOf_leaf (d : ℕ) (key : ℕ) (data : Bytes) (keyOffset keyStep : UInt64) :
    partOf P fromKey toKey d (.leaf key data) keyOffset keyStep =
      .leaf (UInt64.ofNat key) (some data) (storedHash P 0 (.leaf key data)) := by
  cases d <;> rfl

theorem partOf_empty (d : ℕ) (keyOffset keyStep : UInt64) :
    partOf P fromKey toKey d .empty keyOffset keyStep = .null := by
  cases d <;> rfl

theorem getChildren_eq {s : Triedb}
    {sub : TriedbBranch → Fin 32 → Tally → Option (MerkleRoot × Bool × Tally)} {br : TriedbBranch}
    {node : Fin 32 → MerkleNode}
    (branch : ∀ i, br.isBranch i = true → ∃ b, branchAt s (br.getChildPointer i) = some b ∧
      ∀ tally, ∃ mr complete tally', sub b i tally = some (mr, complete, tally') ∧ mr.node = node i)
    (leaf : ∀ i, br.isLeaf i = true → ∃ l, leafAt s (br.getChildPointer i) = some l ∧
      node i = .leaf l.key (some l.customData) l.hash)
    (todo : List ℕ) (inside : ∀ i ∈ todo, i < 32 ∧ br.mask.getLsbD i = true)
    (child : Fin 32 → MerkleNode) (mask : BitVec 32) (tally : Tally) :
    ∃ child' mask' tally',
      getChildren s true {} sub br todo child mask tally = some (child', mask', true, tally') ∧
      (∀ i : Fin 32, child' i = if i.val ∈ todo then node i else child i) ∧
      (∀ i : Fin 32, mask'.getLsbD i.val = (mask.getLsbD i.val || decide (i.val ∈ todo))) := by
  induction todo generalizing child mask tally with
  | nil => exact ⟨child, mask, tally, rfl, fun i => by simp, fun i => by simp⟩
  | cons k rest ih =>
    obtain ⟨small, occupied⟩ := inside k (by simp)
    have val : (Fin.ofNat 32 k).val = k := Nat.mod_eq_of_lt small
    have taken : ∃ tally₁, getChildren s true {} sub br (k :: rest) child mask tally =
        getChildren s true {} sub br rest
          (Function.update child (Fin.ofNat 32 k) (node (Fin.ofNat 32 k))) (mask ||| (1#32 <<< k))
          tally₁ := by
      by_cases isBranch : br.isBranch (Fin.ofNat 32 k) = true
      · obtain ⟨b, stored, call⟩ := branch _ isBranch
        obtain ⟨mr, complete, tally', ran, same⟩ := call tally
        refine ⟨{
          currentSize := tally'.currentSize + (MERKLE_NODE_SIZE + mr.hash.length + 1 + 4 + 8 * 32)
          numKeys := tally'.numKeys + 1 }, ?_⟩
        rw [getChildren]
        simp only [isBranch, stored, ran, same, if_true, Option.bind_eq_bind, Option.bind_some]
        rfl
      · have isLeaf : br.isLeaf (Fin.ofNat 32 k) = true := by
          rw [isBranch_eq, val, occupied] at isBranch
          rw [isLeaf_eq, val, occupied]
          simpa using isBranch
        obtain ⟨l, stored, same⟩ := leaf _ isLeaf
        refine ⟨{ tally with
          currentSize := tally.currentSize +
            (MERKLE_NODE_SIZE + l.hash.length + 8 + 8 + l.customData.length) }, ?_⟩
        rw [getChildren]
        simp only [isBranch, stored, same, Option.bind_eq_bind, Option.bind_some]
        rfl
    obtain ⟨tally₁, call⟩ := taken
    obtain ⟨child', mask', tally', ran, children, bits⟩ :=
      ih (fun i member => inside i (by simp [member]))
        (Function.update child (Fin.ofNat 32 k) (node (Fin.ofNat 32 k))) (mask ||| (1#32 <<< k))
        tally₁
    refine ⟨child', mask', tally', call.trans ran, ?_, ?_⟩
    · intro i
      rw [children i, Function.update_apply]
      by_cases here : i.val = k
      · have same : i = Fin.ofNat 32 k := Fin.ext (here.trans val.symm)
        rw [if_pos same, if_pos (show i.val ∈ k :: rest by simp [here]), same, ite_self]
      · have other : i ≠ Fin.ofNat 32 k := fun same => here ((congrArg Fin.val same).trans val)
        rw [if_neg other]
        simp only [List.mem_cons, here, false_or]
    · intro i
      have bit := getLsbD_set mask (Fin.ofNat 32 k) i
      rw [val, Function.update_apply] at bit
      rw [bits i, bit]
      by_cases here : i.val = k <;> simp [here]

theorem getPart_eq (fromKey toKey : UInt64) {s : Triedb} {d : ℕ} {b : TriedbBranch} {c : Children}
    (ann : Annotated (hashNotes P) s d b c) (noted : (hashNotes P).branch d b c)
    (keyOffset keyStep : UInt64) (tally : Tally) :
    ∃ mr tally', getPart s fromKey toKey true {} d b keyOffset keyStep tally =
        some (mr, true, tally') ∧
      mr.node = partOf P fromKey toKey d (.branch c) keyOffset keyStep := by
  induction d generalizing b c keyOffset keyStep tally with
  | zero => exact ann.elim
  | succ d ih =>
    have depth := ann.rep.depth_eq
    change b.hash = storedHash P (d + 1) (.branch c) at noted
    have visited : ∀ i : Fin 32, (i.val ∈ maskLoop 32 b.mask) ↔ b.mask.getLsbD i.val = true := by
      intro i
      rw [maskLoop_eq, List.mem_filter, List.mem_range]
      exact and_iff_right i.isLt
    have todo : ∀ i ∈ maskLoop 32 b.mask, i < 32 ∧ b.mask.getLsbD i = true := by
      intro i member
      rwa [maskLoop_eq, List.mem_filter, List.mem_range] at member
    by_cases meets : rangesIntersect keyOffset keyStep fromKey toKey = true
    · have branch : ∀ i, b.isBranch i = true → ∃ b', branchAt s (b.getChildPointer i) = some b' ∧
          ∀ tally, ∃ mr complete tally', getPart s fromKey toKey true {} d b'
            (keyOffset + UInt64.ofNat i.val * (keyStep >>> 5)) (keyStep >>> 5) tally =
              some (mr, complete, tally') ∧
            mr.node = partOf P fromKey toKey d (c i)
              (keyOffset + UInt64.ofNat i.val * (keyStep >>> 5)) (keyStep >>> 5) := by
        intro i isBranch
        have slot := ann.2.2 i
        cases here : b.slot i with
        | empty =>
          rw [isBranch_eq, (slot_eq_empty_iff b i).mp here] at isBranch
          cases isBranch
        | leaf p =>
          obtain ⟨occupied, bit, -⟩ := of_slot_leaf here
          rw [isBranch_eq, occupied, bit] at isBranch
          cases isBranch
        | branch p =>
          obtain ⟨-, -, pointer⟩ := of_slot_branch here
          rw [here] at slot
          obtain ⟨b', c', stored, shape, noted', below⟩ := slot
          refine ⟨b', by rw [pointer]; exact branchAt_eq stored, fun tally => ?_⟩
          obtain ⟨mr, tally', ran, same⟩ := ih below noted'
            (keyOffset + UInt64.ofNat i.val * (keyStep >>> 5)) (keyStep >>> 5) tally
          exact ⟨mr, true, tally', ran, by rw [same, shape]⟩
      have leaf : ∀ i, b.isLeaf i = true → ∃ l, leafAt s (b.getChildPointer i) = some l ∧
          partOf P fromKey toKey d (c i) (keyOffset + UInt64.ofNat i.val * (keyStep >>> 5))
            (keyStep >>> 5) = .leaf l.key (some l.customData) l.hash := by
        intro i isLeaf
        have slot := ann.2.2 i
        cases here : b.slot i with
        | empty =>
          rw [isLeaf_eq, (slot_eq_empty_iff b i).mp here] at isLeaf
          cases isLeaf
        | branch p =>
          obtain ⟨occupied, bit, -⟩ := of_slot_branch here
          rw [isLeaf_eq, occupied, bit] at isLeaf
          cases isLeaf
        | leaf p =>
          obtain ⟨-, -, pointer⟩ := of_slot_leaf here
          rw [here] at slot
          obtain ⟨l, stored, shape, noted'⟩ := slot
          refine ⟨l, by rw [pointer]; exact leafAt_eq stored, ?_⟩
          rw [shape, partOf_leaf, UInt64.ofNat_toNat, ← noted'.1]
      obtain ⟨child, mask, tally', ran, children, bits⟩ :=
        getChildren_eq branch leaf (maskLoop 32 b.mask) todo (fun _ => .null) 0 tally
      refine ⟨{ depth := UInt8.ofNat b.depth, mask := mask, child := child, hash := b.hash },
        tally', ?_, ?_⟩
      · unfold getPart
        simp only [meets, Bool.not_true, Bool.false_eq_true, if_false, Limits.keysReached,
          Option.any_none, ran, Option.bind_eq_bind, Option.bind_some]
      · have same_mask : mask = maskOf c := by
          rw [← mask_eq_maskOf ann.rep]
          apply BitVec.eq_of_getLsbD_eq
          intro j less
          have bit := bits ⟨j, less⟩
          have iff := visited ⟨j, less⟩
          simp only at bit iff
          rw [bit]
          simp [iff]
        have same_child : child = fun i => partOf P fromKey toKey d (c i)
            (keyOffset + UInt64.ofNat i.val * (keyStep >>> 5)) (keyStep >>> 5) := by
          funext i
          rw [children i]
          simp only [visited i]
          split
          · rfl
          · rename_i free
            rw [(Represents.child_eq_empty_iff ann.rep i).mp (by simpa using free), partOf_empty]
        simp only [MerkleRoot.node, partOf, meets, if_true, depth, noted, same_mask, same_child]
    · refine ⟨{ depth := UInt8.ofNat b.depth, mask := 0, child := fun _ => .null, hash := b.hash },
        tally, ?_, ?_⟩
      · unfold getPart
        rw [if_pos (by simpa using meets)]
      · simp only [MerkleRoot.node, partOf, meets, depth, noted]
        rfl

end Part

section Validation

variable {P : TriedbParams} {fromKey toKey : UInt64}

theorem hash_partOf (hashing : P.useHashing = true) {d q : ℕ} {t : Tree 32 Bytes} (fits : t.Fits d q)
    (keyOffset keyStep : UInt64) :
    (partOf P fromKey toKey d t keyOffset keyStep).hash = treeHash P d t := by
  cases t with
  | empty => rw [partOf_empty, treeHash_empty]; rfl
  | leaf key data =>
    rw [partOf_leaf, storedHash, if_pos hashing]
    exact (treeHash_leaf_eq d key data).symm
  | branch c =>
    cases d with
    | zero => exact fits.elim
    | succ d =>
      unfold partOf
      split <;> exact if_pos hashing

theorem isNull_partOf {d q : ℕ} {t : Tree 32 Bytes} (fits : t.Fits d q)
    (keyOffset keyStep : UInt64) :
    (partOf P fromKey toKey d t keyOffset keyStep).isNull = t.isEmpty := by
  cases t with
  | empty => rw [partOf_empty]; rfl
  | leaf key data => rw [partOf_leaf]; rfl
  | branch c =>
    cases d with
    | zero => exact fits.elim
    | succ d =>
      unfold partOf
      split <;> rfl

/-- How the range has been narrowed on the way down to a span. -/
structure Clipped (fromKey toKey fromKey' toKey' keyOffset last : UInt64) : Prop where
  lower : fromKey' = fromKey ∨ (fromKey ≤ fromKey' ∧ fromKey' ≤ keyOffset)
  upper : toKey' = toKey ∨ (toKey' ≤ toKey ∧ last ≤ toKey')

/-- The spans that occur below the root. Under a root of depth 13 the step is shifted out, and
every span is the whole key space. -/
inductive Place (fromKey toKey : UInt64) : UInt64 → UInt64 → UInt64 → UInt64 → ℕ → ℕ → Prop
  | span {fromKey' toKey' keyOffset keyStep : UInt64} {d q : ℕ} (span : Span keyOffset keyStep d q)
      (clipped : Clipped fromKey toKey fromKey' toKey' keyOffset (keyEnd keyOffset keyStep)) :
      Place fromKey toKey fromKey' toKey' keyOffset keyStep d q
  | wrapped {fromKey' toKey' : UInt64} {d q : ℕ} : Place fromKey toKey fromKey' toKey' 0 0 d q

theorem Span.le_keyEnd {keyOffset keyStep : UInt64} {d q : ℕ} (span : Span keyOffset keyStep d q) :
    keyOffset ≤ keyEnd keyOffset keyStep := by
  have pos : 0 < 32 ^ d := Nat.pow_pos (by omega)
  rw [UInt64.le_iff_toNat_le, span.keyEnd, span.offset]
  omega

variable {fromKey' toKey' keyOffset keyStep : UInt64} {d q : ℕ}

theorem Place.meets (place : Place fromKey toKey fromKey' toKey' keyOffset keyStep d q) :
    rangesIntersect keyOffset keyStep fromKey' toKey' =
      rangesIntersect keyOffset keyStep fromKey toKey := by
  cases place with
  | wrapped =>
    have last : keyEnd 0 0 = 18446744073709551615 := by decide
    have all : ∀ k : UInt64, k ≤ 18446744073709551615 := fun k => by
      have := k.toNat_lt
      rw [UInt64.le_iff_toNat_le, show UInt64.toNat 18446744073709551615 = 2 ^ 64 - 1 from rfl]
      omega
    have least : ∀ k : UInt64, 0 ≤ k := fun k => by
      rw [UInt64.le_iff_toNat_le]
      exact Nat.zero_le _
    simp only [rangesIntersect, last, ge_iff_le, all, least]
  | span span clipped =>
    have nonempty := Span.le_keyEnd span
    have left : keyOffset ≤ toKey' ↔ keyOffset ≤ toKey := by
      rcases clipped.upper with same | ⟨le, last⟩
      · rw [same]
      · exact ⟨fun h => UInt64.le_trans h le, fun _ => UInt64.le_trans nonempty last⟩
    have right : fromKey' ≤ keyEnd keyOffset keyStep ↔ fromKey ≤ keyEnd keyOffset keyStep := by
      rcases clipped.lower with same | ⟨le, first⟩
      · rw [same]
      · exact ⟨fun h => UInt64.le_trans le h, fun _ => UInt64.le_trans first nonempty⟩
    simp only [rangesIntersect, ge_iff_le, left, right]

theorem Span.sub_le {keyOffset keyStep : UInt64} {d q : ℕ} (span : Span keyOffset keyStep (d + 1) q)
    (i : Fin 32) :
    keyOffset ≤ keyOffset + UInt64.ofNat i.val * (keyStep >>> 5) ∧
      keyEnd (keyOffset + UInt64.ofNat i.val * (keyStep >>> 5)) (keyStep >>> 5) ≤
        keyEnd keyOffset keyStep := by
  have sub := span.sub i
  have pos : 0 < 32 ^ d := Nat.pow_pos (by omega)
  rw [UInt64.le_iff_toNat_le, UInt64.le_iff_toNat_le, span.keyEnd, sub.keyEnd, span.offset,
    sub.offset]
  have whole : (q * 32 + i.val) * 32 ^ d = q * 32 ^ (d + 1) + i.val * 32 ^ d := by ring
  have top : i.val * 32 ^ d + 32 ^ d ≤ 32 ^ (d + 1) := by
    calc i.val * 32 ^ d + 32 ^ d = (i.val + 1) * 32 ^ d := by ring
      _ ≤ 32 * 32 ^ d := Nat.mul_le_mul_right _ (by omega)
      _ = 32 ^ (d + 1) := by ring
  rw [whole]
  constructor <;> omega

theorem Place.sub (place : Place fromKey toKey fromKey' toKey' keyOffset keyStep (d + 1) q)
    (i : Fin 32) :
    Place fromKey toKey (clipFrom keyOffset fromKey') (clipTo keyOffset keyStep toKey')
      (keyOffset + UInt64.ofNat i.val * (keyStep >>> 5)) (keyStep >>> 5) d (q * 32 + i.val) := by
  cases place with
  | wrapped =>
    have zero : (0 : UInt64) >>> 5 = 0 := by decide
    rw [zero, UInt64.mul_zero, UInt64.add_zero]
    exact .wrapped
  | span span clipped =>
    obtain ⟨first, last⟩ := Span.sub_le span i
    refine .span (span.sub i) ⟨?_, ?_⟩
    · unfold clipFrom
      split
      · rename_i less
        refine .inr ⟨?_, first⟩
        rcases clipped.lower with same | ⟨le, -⟩
        · exact same ▸ UInt64.le_of_lt less
        · exact UInt64.le_trans le (UInt64.le_of_lt less)
      · rcases clipped.lower with same | ⟨le, below⟩
        · exact .inl same
        · exact .inr ⟨le, UInt64.le_trans below first⟩
    · unfold clipTo
      split
      · rename_i more
        refine .inr ⟨?_, last⟩
        rcases clipped.upper with same | ⟨le, -⟩
        · exact same ▸ UInt64.le_of_lt more
        · exact UInt64.le_trans (UInt64.le_of_lt more) le
      · rcases clipped.upper with same | ⟨le, above⟩
        · exact .inl same
        · exact .inr ⟨le, UInt64.le_trans last above⟩

theorem Place.leaf (place : Place fromKey toKey fromKey' toKey' keyOffset keyStep d q)
    {key : UInt64} (below : key.toNat / 32 ^ d = q) :
    keyOffset ≤ key ∧ key ≤ keyEnd keyOffset keyStep := by
  cases place with
  | span span clipped => exact (span.mem_iff key).mp below
  | wrapped =>
    have last : keyEnd 0 0 = 18446744073709551615 := by decide
    rw [last, UInt64.le_iff_toNat_le, UInt64.le_iff_toNat_le,
      show UInt64.toNat 18446744073709551615 = 2 ^ 64 - 1 from rfl]
    have := key.toNat_lt
    constructor
    · exact Nat.zero_le _
    · omega

theorem validate_branch (hashing : P.useHashing = true) {c : Children}
    (fits : (Tree.branch c).Fits (d + 1) q)
    (meets : rangesIntersect keyOffset keyStep fromKey' toKey' =
      rangesIntersect keyOffset keyStep fromKey toKey)
    (children : ∀ i, c i ≠ .empty → validate P true
      (partOf P fromKey toKey d (c i) (keyOffset + UInt64.ofNat i.val * (keyStep >>> 5))
        (keyStep >>> 5))
      (keyOffset + UInt64.ofNat i.val * (keyStep >>> 5)) (keyStep >>> 5)
      (clipFrom keyOffset fromKey') (clipTo keyOffset keyStep toKey') = true) :
    validate P true (partOf P fromKey toKey (d + 1) (.branch c) keyOffset keyStep) keyOffset keyStep
      fromKey' toKey' = true := by
  unfold partOf
  cases looked : rangesIntersect keyOffset keyStep fromKey toKey with
  | false =>
    rw [if_neg Bool.false_ne_true]
    unfold validate
    rw [meets, looked]
    rfl
  | true =>
    rw [if_pos rfl]
    unfold validate
    rw [meets, looked]
    have hashes : ((List.finRange 32).flatMap fun i => (partOf P fromKey toKey d (c i)
        (keyOffset + UInt64.ofNat i.val * (keyStep >>> 5)) (keyStep >>> 5)).hash) =
        (List.finRange 32).flatMap fun i => treeHash P d (c i) := by
      congr 1
      funext i
      exact hash_partOf hashing (fits i) _ _
    simp only [Bool.not_true, Bool.false_eq_true, if_false, Bool.and_eq_true, List.all_eq_true,
      hashes, storedHash, hashing, if_true]
    refine ⟨⟨?_, ?_⟩, ?_⟩
    · intro i _
      rw [isNull_partOf (fits i), getLsbD_maskOf]
      by_cases free : c i = .empty
      · rw [free]
        rfl
      · have full : (c i).isEmpty = false := by
          rw [Bool.eq_false_iff, ne_eq, Tree.isEmpty_iff]
          exact free
        simp only [full, Bool.not_false, Bool.false_eq_true, if_false, Bool.true_and]
        exact children i free
    · rw [treeHash, P.blake2b_length]
      rfl
    · rw [treeHash]
      exact beq_self_eq_true _

theorem validate_partOf (hashing : P.useHashing = true) {t : Tree 32 Bytes} (fits : t.Fits d q)
    (keys : ∀ k v, (k, v) ∈ t.leaves → k < 2 ^ 64) (occupied : t ≠ .empty)
    (place : Place fromKey toKey fromKey' toKey' keyOffset keyStep d q) :
    validate P true (partOf P fromKey toKey d t keyOffset keyStep) keyOffset keyStep fromKey' toKey' =
      true := by
  induction t generalizing d q keyOffset keyStep fromKey' toKey' with
  | empty => exact absurd rfl occupied
  | leaf key data =>
    have small := keys key data (by simp)
    have back : (UInt64.ofNat key).toNat = key := UInt64.toNat_ofNat_of_lt' small
    obtain ⟨above, below⟩ := place.leaf
      (show (UInt64.ofNat key).toNat / 32 ^ d = q by rw [back]; exact fits)
    rw [partOf_leaf]
    unfold validate
    have inside : (decide (UInt64.ofNat key < keyOffset) ||
        decide (UInt64.ofNat key > keyEnd keyOffset keyStep)) = false := by
      rw [Bool.or_eq_false_iff]
      constructor
      · exact decide_eq_false (UInt64.not_lt.mpr above)
      · exact decide_eq_false (UInt64.not_lt.mpr below)
    rw [inside, storedHash, if_pos hashing]
    exact beq_self_eq_true _
  | branch c ih =>
    cases d with
    | zero => exact fits.elim
    | succ d =>
      apply validate_branch hashing fits place.meets
      intro i full
      exact ih i (fits i) (fun k v member => keys k v ((Tree.mem_leaves_branch c _).mpr ⟨i, member⟩))
        full (place.sub i)

theorem validate_root (hashing : P.useHashing = true) {mr : MerkleRoot} {c : Children}
    (shallow : d ≤ MAX_DEPTH) (fits : (Tree.branch c).Fits d 0)
    (keys : ∀ k v, (k, v) ∈ (Tree.branch c).leaves → k < 2 ^ 64)
    (node : mr.node = partOf P fromKey toKey d (.branch c) 0 mr.keyStep)
    (depth : mr.depth = UInt8.ofNat d) : validateRoot P true mr fromKey toKey = true := by
  have depth_eq : mr.depth.toNat = d := by
    rw [depth, UInt8.toNat_ofNat', Nat.mod_eq_of_lt]
    simp only [MAX_DEPTH] at shallow
    omega
  unfold validateRoot
  rw [node]
  by_cases low : d ≤ 12
  · have span := span_root (show mr.depth.toNat ≤ 12 by omega)
    rw [depth_eq] at span
    refine validate_partOf hashing fits keys (Tree.branch_ne_empty c) (.span span ⟨.inl rfl, ?_⟩)
    unfold clipTo
    split
    · rename_i more
      exact .inr ⟨UInt64.le_of_lt more, UInt64.le_refl _⟩
    · exact .inl rfl
  · have deep : d = 13 := by
      simp only [MAX_DEPTH] at shallow
      omega
    subst deep
    have step : mr.keyStep = 2 := by
      rw [MerkleRoot.keyStep, depth]
      decide
    have last : keyEnd 0 2 = 1 := by decide
    have none : (2 : UInt64) >>> 5 = 0 := by decide
    have least : ∀ k : UInt64, 0 ≤ k := fun k => by
      rw [UInt64.le_iff_toNat_le]
      exact Nat.zero_le _
    rw [step]
    apply validate_branch hashing fits
    · simp only [rangesIntersect, least]
    · intro i full
      rw [none, UInt64.mul_zero, UInt64.add_zero]
      exact validate_partOf hashing (fits i)
        (fun k v member => keys k v ((Tree.mem_leaves_branch c _).mpr ⟨i, member⟩)) full .wrapped

theorem get_eq (fromKey toKey : UInt64) {shape : ℕ → Children → Prop} {s : Triedb} {r : RootId} {root : TriedbRoot}
    {b : TriedbBranch} {c : Children} (entry : s.roots.lookup r = some root)
    (held : RootKept (hashUpkeep P) shape s root d b c) :
    ∃ mr size, get s fromKey toKey true {} r = some (mr, true, size) ∧
      mr.depth = UInt8.ofNat d ∧ mr.hash = b.hash ∧
      mr.node = partOf P fromKey toKey d (.branch c) 0 mr.keyStep := by
  have depth := held.ann.rep.depth_eq
  obtain ⟨mr, tally, ran, node⟩ := getPart_eq fromKey toKey held.ann
    held.noted 0 (1 <<< (UInt64.ofNat d * 5)) {}
  have parts : mr.depth = UInt8.ofNat d ∧ mr.hash = storedHash P d (.branch c) := by
    cases d with
    | zero => exact held.ann.elim
    | succ d =>
      unfold partOf at node
      split at node
      all_goals
        injection node with depth _ _ hash
        exact ⟨depth, hash⟩
  have small : UInt64.ofNat d = (UInt8.ofNat d).toUInt64 := by
    have shallow := held.shallow
    simp only [MAX_DEPTH] at shallow
    rw [← UInt64.toNat_inj, UInt8.toNat_toUInt64, UInt64.toNat_ofNat', UInt8.toNat_ofNat']
    omega
  refine ⟨mr, tally.currentSize, ?_, parts.1, parts.2.trans held.noted.symm, ?_⟩
  · unfold get
    simp only [entry, branchAt_eq held.stored, depth, ran, Option.bind_eq_bind, Option.bind_some]
  · rw [node, MerkleRoot.keyStep, parts.1, small]

end Validation

end Epilog.Db.Extract
