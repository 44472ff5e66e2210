/- Module: Epilog/Db/Frames
   source: src/src/db/triedb.cpp (branch_hasher, update_part, remove_part)
   digest: What an operation on a trie keeps: what appending nodes and writing a root keep. -/

import Epilog.Db.Store
import Epilog.Lib.StateFrames

set_option autoImplicit false

namespace Epilog.Db.Frames

open Epilog.Lib.StateFrames Epilog.Db.Branch Epilog.Db.Store

variable {P : TriedbParams} {R : Triedb → Triedb → Prop} [IsPreorder Triedb R]

theorem frames_getLeaf (p : ℕ) : Frames R (getLeaf p) := by
  intro s
  unfold getLeaf
  split <;> exact refl_of R s

theorem frames_getBranch (p : ℕ) : Frames R (getBranch p) := by
  intro s
  unfold getBranch
  split <;> exact refl_of R s

theorem frames_getRoot (r : RootId) : Frames R (getRoot r) := by
  intro s
  unfold getRoot
  split <;> exact refl_of R s

theorem frames_branchHasher (b : TriedbBranch) : Frames R (branchHasher P b) := by
  have child (i : Fin 32) : Frames R (childHash b i) :=
    .ite ((frames_getBranch _).bind fun _ => .pure _)
      (.ite ((frames_getLeaf _).bind fun _ => .pure _) (.pure _))
  exact .ite (.pure _) ((Frames.mapM (fun i => child _) _).bind fun _ => .pure _)

/-! What is kept when a leaf or a branch is appended is kept by everything that is put together of
these. -/

variable (leaves : ∀ l, Frames R (appendLeafNode P l))
  (branches : ∀ b, Frames R (appendBranchNode P b))

include branches

theorem frames_finishBranch (b : TriedbBranch) : Frames R (finishBranch P b) :=
  (frames_branchHasher b).bind fun b' => (branches b').bind fun _ => .pure _

theorem frames_growRoot (keyBits fuel : ℕ) (root : TriedbBranch) (ptr depth : ℕ) :
    Frames R (growRoot P keyBits fuel root ptr depth) := by
  induction fuel generalizing root ptr depth with
  | zero => exact .throw _
  | succ fuel ih =>
    unfold growRoot
    exact .ite ((frames_finishBranch branches _).bind fun _ => ih _ _ _) (.pure _)

theorem frames_removePart (atRoot : RootId) (fuel : ℕ) (node : TriedbBranch) (key : UInt64) :
    Frames R (removePart P atRoot fuel node key) := by
  induction fuel generalizing node with
  | zero => exact .throw _
  | succ fuel ih =>
    unfold removePart
    refine .ite (.throw _) (.ite ((frames_getLeaf _).bind fun leaf => ?_) ?_)
    · exact .ite (.throw _) (frames_finishBranch branches _)
    · exact (frames_getBranch _).bind fun child => (ih child).bind fun _ =>
        frames_finishBranch branches _

include leaves

theorem frames_updatePart (fuel : ℕ) (node : TriedbBranch) (key : UInt64) (data : Bytes)
    (doInsert : Bool) : Frames R (updatePart P fuel node key data doInsert) := by
  induction fuel generalizing node with
  | zero => exact .throw _
  | succ fuel ih =>
    have leafThenBranch (l : TriedbLeaf) (hang : ℕ → TriedbBranch) (isNew : Bool) :
        Frames R (appendLeafNode P l >>= fun leafPtr =>
          finishBranch P (hang leafPtr) >>= fun p => pure (p.1, p.2, isNew)) :=
      (leaves l).bind fun _ => (frames_finishBranch branches _).bind fun _ => .pure _
    unfold updatePart
    refine .ite (leafThenBranch _ _ _) (.ite ((frames_getLeaf _).bind fun leaf => ?_) ?_)
    · refine .ite (.ite (.throw _) (leafThenBranch _ _ _)) ?_
      exact (ih _).bind fun _ => (frames_finishBranch branches _).bind fun _ => .pure _
    · exact (frames_getBranch _).bind fun child => (ih child).bind fun _ =>
        (frames_finishBranch branches _).bind fun _ => .pure _

/-! An operation writes the root at last, after it has counted its entries. -/

variable {r : RootId} (counted : ∀ f, Frames R (modifyNumEntries r f))
  (moved : ∀ offset, Frames R (setRoot r offset))

include counted moved

theorem frames_insertOrUpdate (key : UInt64) (data : Bytes) (doInsert : Bool) :
    Frames R (insertOrUpdate P r key data doInsert) := by
  unfold insertOrUpdate
  refine (frames_getRoot r).bind fun root => (frames_getBranch _).bind fun branch =>
    (frames_growRoot branches _ _ _ _ _).bind fun grown =>
      (frames_updatePart leaves branches _ _ _ _ _).bind ?_
  rintro ⟨_, ptr, newEntry⟩
  cases newEntry with
  | true => exact (counted _).bind fun _ => moved ptr
  | false => exact moved ptr

omit leaves in
theorem frames_remove (key : UInt64) : Frames R (remove P r key) := by
  unfold remove
  refine Frames.get.bind fun s => ?_
  cases s.roots.lookup r with
  | none => exact .throw _
  | some root =>
    refine (frames_getBranch _).bind fun branch => .ite (.throw _) ?_
    exact (frames_removePart branches r _ _ _).bind fun _ => (counted _).bind fun _ => moved _

end Epilog.Db.Frames
