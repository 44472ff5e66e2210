/- Module: Epilog/Db/Hashes
   source: src/src/db/triedb.cpp (leaf_hasher, branch_hasher)
   digest: Stored nodes carry the hash of the tree they represent. -/

import Epilog.Db.Merkle
import Epilog.Db.Upkeep

set_option autoImplicit false

namespace Epilog.Db.Hashes

open Epilog.Lib.DigitTree Epilog.Lib.TreeShape Epilog.Common.Bits Epilog.Db.Branch
open Epilog.Db.Store Epilog.Db.Representation Epilog.Db.PathUpdate Epilog.Db.Merkle
open Epilog.Db.Annotation Epilog.Db.Upkeep Epilog.Db.Iterator

variable (P : TriedbParams)

/-- The hash that goes with a tree; without hashing there is none. -/
def storedHash (d : ℕ) (t : Tree 32 Bytes) : Bytes :=
  if P.useHashing then treeHash P d t else []

/-- Every node has the hash of its tree, and every leaf has passed the limit of its size. -/
def hashNotes : Notes where
  leaf _ l := l.hash = storedHash P 0 (.leaf l.key.toNat l.customData) ∧
    leafSerializationSize l < LEAF_MAX_SIZE_IN_BYTES
  branch d b c := b.hash = storedHash P d (.branch c)

theorem newLeaf_hash (key : UInt64) (data : Bytes) :
    (newLeaf P key data).hash = storedHash P 0 (.leaf key.toNat data) := by
  simp only [newLeaf, storedHash]
  split
  · simp [leafHasher, treeHash, leafString]
  · rfl

section BranchHasher

variable {P} {s : Triedb} {d : ℕ} {b : TriedbBranch} {c : Children}

theorem mapM_eq {α β : Type} {f : α → Access β} {g : α → β} {s : Triedb} {l : List α}
    (each : ∀ a ∈ l, f a s = .ok (g a) s) : l.mapM f s = .ok (l.map g) s := by
  induction l with
  | nil => rfl
  | cons a l ih =>
    have rest := ih fun b member => each b (by simp [member])
    rw [List.mapM_cons, bind_ok (each a (by simp)), bind_ok rest]
    rfl

theorem flatMap_filter {α β : Type} {p : α → Bool} {f : α → List β} {l : List α}
    (others : ∀ a ∈ l, p a = false → f a = []) : (l.filter p).flatMap f = l.flatMap f := by
  induction l with
  | nil => rfl
  | cons a l ih =>
    have rest := ih fun b member => others b (by simp [member])
    cases keep : p a with
    | true => rw [List.filter_cons_of_pos keep, List.flatMap_cons, List.flatMap_cons, rest]
    | false =>
      rw [List.filter_cons_of_neg (by simp [keep]), List.flatMap_cons, others a (by simp) keep, rest]
      rfl

theorem treeHash_leaf_eq (d : ℕ) (key : ℕ) (data : Bytes) :
    treeHash P d (.leaf key data) = treeHash P 0 (.leaf key data) := by
  cases d <;> rfl

theorem childHash_eq (hashing : P.useHashing = true) (ann : Annotated (hashNotes P) s (d + 1) b c)
    {i : Fin 32} (occupied : b.mask.getLsbD i.val = true) :
    childHash b i s = .ok (treeHash P d (c i)) s := by
  have slot := ann.2.2 i
  unfold childHash
  cases here : b.slot i with
  | empty =>
    rw [(slot_eq_empty_iff b i).mp here] at occupied
    cases occupied
  | leaf p =>
    obtain ⟨-, bit, pointer⟩ := of_slot_leaf here
    rw [here] at slot
    obtain ⟨l, stored, shape, noted⟩ := slot
    have noted : l.hash = storedHash P 0 _ := noted.1
    rw [storedHash, if_pos hashing] at noted
    simp only [isBranch_eq, isLeaf_eq, occupied, bit, pointer]
    rw [if_neg (by simp), if_pos (by simp), bind_ok (getLeaf_ok stored), shape, treeHash_leaf_eq,
      ← noted]
    rfl
  | branch p =>
    obtain ⟨-, bit, pointer⟩ := of_slot_branch here
    rw [here] at slot
    obtain ⟨b', c', stored, shape, noted, -⟩ := slot
    change b'.hash = storedHash P d _ at noted
    rw [storedHash, if_pos hashing] at noted
    simp only [isBranch_eq, occupied, bit, pointer]
    rw [if_pos (by simp), bind_ok (getBranch_ok stored), shape, ← noted]
    rfl

theorem mask_eq_maskOf (rep : Represents s d b c) : b.mask = maskOf c := by
  apply BitVec.eq_of_getLsbD_eq
  intro j less
  have := Represents.child_eq_empty_iff rep ⟨j, less⟩
  rw [getLsbD_maskOf c ⟨j, less⟩]
  cases bit : b.mask.getLsbD j with
  | false => simp [this.mp bit]
  | true =>
    have occupied : c ⟨j, less⟩ ≠ .empty := by
      intro shape
      rw [this.mpr shape] at bit
      cases bit
    cases full : c ⟨j, less⟩ with
    | empty => exact absurd full occupied
    | leaf k v => rfl
    | branch c' => rfl

theorem branchHasher_eq (ann : Annotated (hashNotes P) s d b c) :
    branchHasher P b s = .ok (b.setHash (storedHash P d (.branch c))) s := by
  cases d with
  | zero => exact ann.elim
  | succ d =>
    unfold branchHasher storedHash
    cases hashing : P.useHashing with
    | false => rfl
    | true =>
      have each : ∀ i ∈ maskLoop 32 b.mask, childHash b (Fin.ofNat 32 i) s =
          .ok (treeHash P d (c (Fin.ofNat 32 i))) s := by
        intro i member
        rw [maskLoop_eq, List.mem_filter, List.mem_range] at member
        apply childHash_eq hashing ann
        rw [Fin.val_ofNat, Nat.mod_eq_of_lt member.1]
        exact member.2
      have hashes : ((maskLoop 32 b.mask).map fun i => treeHash P d (c (Fin.ofNat 32 i))).flatten =
          (List.finRange 32).flatMap fun i => treeHash P d (c i) := by
        rw [maskLoop_eq, ← List.flatMap_def, ← List.map_coe_finRange_eq_range, List.filter_map,
          List.flatMap_map]
        have same : ∀ i : Fin 32, Fin.ofNat 32 i.val = i := fun i => Fin.ofNat_val_eq_self i
        simp only [same]
        apply flatMap_filter
        intro i _ free
        rw [(Represents.child_eq_empty_iff ann.rep i).mp free, treeHash_empty]
      simp only [Bool.not_true, Bool.false_eq_true, if_false, if_true]
      rw [bind_ok (mapM_eq each), hashes, ann.rep.depth_eq, mask_eq_maskOf ann.rep]
      rfl

end BranchHasher

/-- Hashes are kept up by all operations. -/
def hashUpkeep : Upkeep P where
  toNotes := hashNotes P
  draft _ _ := True
  newLeaf_noted key data _ small := by
    refine ⟨?_, small⟩
    rw [newLeaf_hash, newLeaf_key, newLeaf_customData]
  draft_of_noted _ := trivial
  finished ann _ ran := by
    rw [branchHasher_eq ann] at ran
    cases ran
    rfl
  draft_put _ _ _ _ := trivial
  draft_erase _ _ := trivial

theorem quiet_hashes (d : ℕ) (c : Children) (key : ℕ) : Quiet (hashUpkeep P) d c key where
  growing _ _ _ := trivial
  splitting _ _ _ _ _ := trivial

end Epilog.Db.Hashes
