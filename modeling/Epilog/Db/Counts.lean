/- Module: Epilog/Db/Counts
   source: src/src/db/triedb.cpp (num_entries in update_part, remove_part and the growth of a root)
   digest: Branches count the leaves below them, as long as no branch starts at zero above some. -/

import Epilog.Db.Upkeep

set_option autoImplicit false

namespace Epilog.Db.Counts

open Epilog.Lib.DigitTree Epilog.Lib.TreeShape Epilog.Db.Branch Epilog.Db.Store
open Epilog.Db.Representation Epilog.Db.PathUpdate Epilog.Db.Versioned Epilog.Db.Annotation
open Epilog.Db.Upkeep

/-- A branch counts the leaves below it, and no leaf stands at the pointer that means nothing. -/
def countNotes : Notes where
  leaf p _ := 0 < p
  branch _ b c := b.num = UInt64.ofNat (size (.branch c))

variable {P : TriedbParams}

theorem num_branchHasher {s s' : Triedb} {d : ℕ} {b b' : TriedbBranch} {c : Children}
    (rep : Represents s d b c) (ran : branchHasher P b s = .ok b' s') : b'.num = b.num := by
  obtain ⟨h, hashed⟩ := branchHasher_ok P rep
  rw [hashed] at ran
  cases ran
  rfl

def countUpkeep : Upkeep P where
  toNotes := countNotes
  draft n c := n = UInt64.ofNat (size (.branch c))
  newLeaf_noted _ _ pos _ := pos
  draft_of_noted noted := noted
  finished ann draft ran := (num_branchHasher ann.rep ran).trans draft
  draft_put _ fits below draft := by
    rw [size_put fits below, draft]
    split
    · rw [ofNat_succ]
    · rfl
  draft_erase found draft := count_erase found draft

/-- The write puts a new branch, whose count starts at zero, above entries that are there: growth
does so for all entries of the root, and a split for the leaf in the way. -/
def Miscounts (d : ℕ) (c : Children) (key : ℕ) : Prop :=
  if key / 32 ^ d = 0 then splits d c key = true else size (.branch c) ≠ 0

instance (d : ℕ) (c : Children) (key : ℕ) : Decidable (Miscounts d c key) := by
  unfold Miscounts
  infer_instance

theorem quiet_counts {d : ℕ} {c : Children} {key : ℕ} (counts : ¬ Miscounts d c key) :
    Quiet (countUpkeep (P := P)) d c key where
  growing high c' same := by
    rw [Miscounts, if_neg high, not_not] at counts
    change 0 = UInt64.ofNat (size (.branch c'))
    rw [same, counts]
    rfl
  splitting inside splitting := by
    rw [Miscounts, if_pos inside] at counts
    exact absurd splitting counts

/-- Nothing is asked of the shapes. -/
def AnyShape (_ : ℕ) (_ : Children) : Prop := True

theorem closed_counts : Closed (countUpkeep (P := P)) AnyShape where
  nothing := by
    change 0 = UInt64.ofNat (size _)
    rw [size_childless]
    rfl
  fresh := trivial
  write _ _ _ _ _ := trivial

end Epilog.Db.Counts
