/- Module: Epilog/Db/EntryCounts
   source: src/src/db/triedb.cpp (num_entries of roots and branches)
   digest: Runs in which all counts of entries stay exact. -/

import Epilog.Db.Canonicity
import Epilog.Db.Merge
import Mathlib.Data.Set.Card

set_option autoImplicit false

namespace Epilog.Db.EntryCounts

open Epilog.Lib.DigitTree Epilog.Lib.TreeShape Epilog.Common.Bits Epilog.Db.Branch
open Epilog.Db.Store Epilog.Db.Representation Epilog.Db.Versioned Epilog.Db.Iterator
open Epilog.Db.Annotation Epilog.Db.Merkle Epilog.Db.Upkeep Epilog.Db.Canonicity
open Epilog.Db.Counts Epilog.Db.Merge

/-- The operations of a run, with both meanings of `update` -/
inductive CountOp
  | op (op : Op)
  | updatePart (atRoot : RootId) (part : MerkleRoot)

/-- One operation; a failed assertion ends the run. -/
def perform (P : TriedbParams) (s : Triedb) : CountOp → Option Triedb
  | .op op => (step P s op).map (·.2)
  | .updatePart atRoot part =>
      match updateRoot P atRoot part s with
      | .ok _ s' => some s'
      | .error _ _ => none

/-- A branch and the branches that its pointers lead to -/
inductive Below (s : Triedb) : TriedbBranch → TriedbBranch → Prop
  | refl (b : TriedbBranch) : Below s b b
  | child {b b' b'' : TriedbBranch} {i : Fin 32} (isBranch : b.isBranch i = true)
      (stored : s.nodes (b.getChildPointer i) = some (.branch b')) (below : Below s b' b'') :
      Below s b b''

/-- All counts are exact: of every branch from the root on the number of leaves below it, of the
root the size of its map. -/
structure CountsExact (s : Triedb) (root : TriedbRoot) : Prop where
  branches : ∀ b b', s.nodes root.ptr = some (.branch b) → Below s b b' →
    ∃ d c, Represents s d b' c ∧ b'.num = UInt64.ofNat (size (.branch c))
  entries : ∃ f, RootRepresents s root f ∧
    root.numEntries = UInt64.ofNat {key | f key ≠ none}.ncard

/-- The step puts no new branch above entries that are there, and a part stands over the tree of
its root with leaves over leaves and branches over branches. -/
def Harmless (s : Triedb) : CountOp → Prop
  | .op op => ∀ r key, written op = some (r, key) → ∀ root d b c, s.roots.lookup r = some root →
      s.nodes root.ptr = some (.branch b) → Represents s d b c → ¬ Miscounts d c key.toNat
  | .updatePart r part => ∀ root d b c, s.roots.lookup r = some root →
      s.nodes root.ptr = some (.branch b) → Represents s d b c → Accepts d c part

/-- The states of runs in which every step is harmless -/
inductive Reached (P : TriedbParams) : Triedb → Prop
  | empty : Reached P {}
  | step {s s' : Triedb} {op : CountOp} (before : Reached P s) (harmless : Harmless s op)
      (ran : perform P s op = some s') : Reached P s'

variable {P : TriedbParams} {s s' : Triedb} {d : ℕ} {b : TriedbBranch} {c : Children}

theorem size_eq_ncard (rep : Represents s d b c) (fits : (Tree.branch c).Fits d 0) :
    size (.branch c) = {key : UInt64 | (Tree.branch c).lookup d key.toNat ≠ none}.ncard := by
  have sorted := (List.pairwise_map (f := Prod.fst)).mpr (Tree.leaves_sorted fits)
  have nodup : ((Tree.branch c).leaves.map Prod.fst).Nodup :=
    sorted.imp fun less => Nat.ne_of_lt less
  have image : UInt64.toNat '' {key : UInt64 | (Tree.branch c).lookup d key.toNat ≠ none} =
      ((Tree.branch c).leaves.map Prod.fst).toFinset := by
    ext key
    simp only [Set.mem_image, Set.mem_ofPred_eq, List.coe_toFinset, List.mem_map, Prod.exists,
      exists_and_right, exists_eq_right]
    constructor
    · rintro ⟨key, found, rfl⟩
      obtain ⟨v, hv⟩ := Option.ne_none_iff_exists'.mp found
      exact ⟨v, Tree.mem_leaves_of_lookup hv⟩
    · rintro ⟨v, member⟩
      have back : (UInt64.ofNat key).toNat = key :=
        UInt64.toNat_ofNat_of_lt' (key_lt_of_mem_leaves rep member)
      refine ⟨UInt64.ofNat key, ?_, back⟩
      rw [back, Tree.lookup_of_mem_leaves fits member]
      exact Option.some_ne_none v
  rw [← Set.ncard_image_of_injective _ fun _ _ same => UInt64.toNat_inj.mp same, image,
    Set.ncard_coe_finset, List.toFinset_card_of_nodup nodup, List.length_map, size]

theorem counted_below {b' : TriedbBranch} (counted : Counted s d b c) (below : Below s b b') :
    ∃ d' c', Counted s d' b' c' := by
  induction below generalizing d c with
  | refl b => exact ⟨d, c, counted⟩
  | @child b b' b'' i isBranch stored _ ih =>
    obtain ⟨num, ann⟩ := counted
    cases d with
    | zero => exact ann.elim
    | succ d =>
      have slot := ann.2.2 i
      cases here : b.slot i with
      | empty =>
        rw [isBranch_eq, (slot_eq_empty_iff b i).mp here] at isBranch
        cases isBranch
      | leaf p =>
        obtain ⟨occupied, bit, -⟩ := of_slot_leaf here
        rw [isBranch_eq, occupied, bit] at isBranch
        cases isBranch
      | branch p =>
        obtain ⟨-, -, pointer⟩ := of_slot_branch here
        rw [here] at slot
        obtain ⟨b₁, c₁, stored₁, -, counted₁⟩ := slot
        rw [pointer, stored₁] at stored
        cases stored
        exact ih counted₁

theorem countsExact_of_held {root : TriedbRoot}
    (held : RootKept (countUpkeep (P := P)) AnyShape s root d b c) : CountsExact s root where
  branches b₁ b' stored below := by
    rw [held.stored] at stored
    cases stored
    obtain ⟨d', c', num, ann⟩ := counted_below ⟨held.noted, held.ann⟩ below
    exact ⟨d', c', ann.rep, num⟩
  entries := by
    refine ⟨fun key => (Tree.branch c).lookup d key.toNat, ⟨d, b, c, held.shallow, held.stored,
      held.ann.rep, held.fits, fun _ => rfl⟩, ?_⟩
    rw [held.count, size_eq_ncard held.ann.rep held.fits]

theorem kept_mergePart {r : RootId} {root' : TriedbRoot} {part : MerkleRoot} {b' : TriedbBranch}
    {c' : Children} (kept : Kept (countUpkeep (P := P)) AnyShape s) (nonzero : r ≠ 0)
    (after : PartMerged P s s' r part c root' b' c') :
    Kept (countUpkeep (P := P)) AnyShape s' where
  fresh := after.fresh
  rootsPos_pos := after.rootsPos_pos
  nonzero q root entry := by
    rw [after.lookup] at entry
    split_ifs at entry with here
    · rw [here]
      exact nonzero
    · exact kept.nonzero q root entry
  roots q root entry := by
    rw [after.lookup] at entry
    split_ifs at entry with here
    · cases entry
      exact ⟨_, _, _, after.held⟩
    · obtain ⟨d, b, c, held⟩ := kept.roots q root entry
      exact ⟨d, b, c, held.mono after.keep rfl rfl⟩

theorem kept_perform {op : CountOp} (kept : Kept (countUpkeep (P := P)) AnyShape s)
    (harmless : Harmless s op) (ran : perform P s op = some s') :
    Kept (countUpkeep (P := P)) AnyShape s' := by
  cases op with
  | op op =>
    obtain ⟨⟨reply, s₁⟩, stepped, rfl⟩ := Option.map_eq_some_iff.mp ran
    refine kept.step closed_counts ?_ (fun _ _ _ _ _ _ => trivial) stepped
    intro r key writes root d b c entry held
    exact quiet_counts (harmless r key writes root d b c entry held.stored held.ann.rep)
  | updatePart r part =>
    simp only [perform] at ran
    cases entry : s.roots.lookup r with
    | none =>
      have failed : updateRoot P r part s = .error .assertion s := bind_error (getRoot_error entry)
      rw [failed] at ran
      cases ran
    | some root =>
      obtain ⟨d, b, c, held⟩ := kept.roots r root entry
      obtain ⟨done, failed⟩ := updateRoot_outcome kept.fresh entry held
        (harmless root d b c entry held.stored held.ann.rep)
      by_cases fitting : Fitting part.node
      · obtain ⟨s₁, root', b', c', updated, after⟩ := done fitting
        rw [updated] at ran
        cases ran
        exact kept_mergePart kept (kept.nonzero r root entry) after
      · obtain ⟨s₁, thrown⟩ := failed fitting
        rw [thrown] at ran
        cases ran

/-- In every state that harmless steps lead to, all counts are exact. -/
theorem counts_exact (P : TriedbParams) {s : Triedb} (reached : Reached P s) {r : RootId}
    {root : TriedbRoot} (entry : s.roots.lookup r = some root) : CountsExact s root := by
  have kept : Kept (countUpkeep (P := P)) AnyShape s := by
    clear entry
    induction reached with
    | empty => exact kept_empty
    | step _ harmless ran ih => exact kept_perform ih harmless ran
  obtain ⟨d, b, c, held⟩ := kept.roots r root entry
  exact countsExact_of_held held

section Growth

theorem childless_of_mask (rep : Represents s d b c) (none_used : b.mask = 0) (i : Fin 32) :
    c i = .empty := by
  apply Represents.child_eq_empty rep
  rw [none_used]
  exact BitVec.getLsbD_zero

/-- A first entry under a fresh root -/
theorem insertFive_exact : CountsExact (after insertFive) (rootAfter insertFive) := by
  have fresh_root : ∀ root, (after [.newRoot]).roots.lookup 20 = some root →
      root = rootAfter [.newRoot] := fun root entry => by
    rw [rootAfter, entry]
    rfl
  have childless : ∀ b, (after [.newRoot]).nodes (rootAfter [.newRoot]).ptr = some (.branch b) →
      b = branchAfter [.newRoot] := fun b stored => by
    rw [branchAfter, branchAt_eq stored]
    rfl
  have first : Reached plainParams (after [.newRoot]) :=
    .step .empty (show Harmless {} (.op .newRoot) by rintro _ _ ⟨⟩) rfl
  have harmless : Harmless (after [.newRoot]) (.op (.insert 20 5 [1])) := by
    rintro _ _ ⟨⟩ root d b c entry stored rep
    obtain rfl := fresh_root root entry
    obtain rfl := childless b stored
    have depth : d = 1 := rep.depth_eq.symm.trans (by decide)
    subst depth
    have none_used := childless_of_mask rep (by decide)
    unfold Miscounts splits
    rw [if_pos (by decide), none_used]
    exact Bool.false_ne_true
  exact counts_exact plainParams (.step first harmless rfl) (r := 20) rfl

/-- An entry that the first root branch has no room for -/
def grown : List Op := [.newRoot, .insert 20 5 [1], .insert 20 100 [2]]

/-- The branch above the old root branch counts the new entry only. -/
theorem grown_not_exact : runOps plainParams {} grown = some (after grown) ∧
    (after grown).roots.lookup 20 = some (rootAfter grown) ∧
    ¬ CountsExact (after grown) (rootAfter grown) := by
  refine ⟨rfl, rfl, fun exact => ?_⟩
  have stored : (after grown).nodes (rootAfter grown).ptr = some (.branch (branchAfter grown)) := by
    decide
  obtain ⟨d, c, rep, num⟩ := exact.branches _ _ stored (.refl _)
  obtain ⟨f, ⟨d', b', c', -, stored', rep', fits, same⟩, count⟩ := exact.entries
  rw [stored] at stored'
  cases stored'
  obtain ⟨rfl, rfl⟩ := represents_unique rep rep'
  have keys : {key | f key ≠ none} =
      {key : UInt64 | (Tree.branch c).lookup d key.toNat ≠ none} := by
    ext key
    rw [Set.mem_ofPred_eq, Set.mem_ofPred_eq, same key]
  rw [keys, ← size_eq_ncard rep fits, ← num] at count
  exact absurd count (by decide)

end Growth

end Epilog.Db.EntryCounts
