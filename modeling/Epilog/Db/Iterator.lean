/- Module: Epilog/Db/Iterator
   source: src/src/db/triedb.hpp (triedb_iterator, find), src/src/db/triedb.cpp
   digest: The cursor spine of an iterator, and lookup through the first key not below a bound. -/

import Mathlib.Data.List.TakeWhile
import Epilog.Db.PathUpdate
import Epilog.Lib.Fuel

set_option autoImplicit false

namespace Epilog.Db.Iterator

open Epilog.Lib.DigitTree Epilog.Common.Bits Epilog.Db.Branch Epilog.Db.Store
open Epilog.Db.Representation Epilog.Db.PathUpdate Epilog.Lib.Fuel

/-- `triedb_iterator::cursor`: the pointer of a branch and a position in it. -/
structure Cursor where
  parentPtr : ℕ
  subIndex : Fin 32
  deriving DecidableEq, Repr

/-- The cursors from the branch at the back of the spine up to the root. -/
abbrev Spine := List Cursor

def branchAt (s : Triedb) (offset : ℕ) : Option TriedbBranch :=
  match s.nodes offset with
  | some (.branch b) => some b
  | _ => none

def leafAt (s : Triedb) (offset : ℕ) : Option TriedbLeaf :=
  match s.nodes offset with
  | some (.leaf l) => some l
  | _ => none

/-- The lowest set bit as a position. -/
def lowestIndex (m : BitVec 32) : Fin 32 := Fin.ofNat 32 (lsb32 m)

/-- Drop the cursors whose branch has no children. -/
def popChildless (s : Triedb) : Spine → Option Spine
  | [] => some []
  | cur :: rest => do
      let parent ← branchAt s cur.parentPtr
      if parent.mask = 0 then popChildless s rest else some (cur :: rest)

mutual

/-- `next`: each pop of a finished branch is one call. -/
def next (s : Triedb) : ℕ → Spine → Option Spine
  | 0, _ => none
  | _ + 1, [] => some []
  | fuel + 1, cur :: rest => do
      let parent ← branchAt s cur.parentPtr
      let maskNext := parent.mask &&& aboveMask cur.subIndex.val
      if maskNext = 0 then next s fuel rest
      else leftmost s fuel ({ cur with subIndex := lowestIndex maskNext } :: rest)

def leftmost (s : Triedb) : ℕ → Spine → Option Spine
  | 0, _ => none
  | fuel + 1, spine => do
      match ← popChildless s spine with
      | [] => some []
      | spine => descend s fuel spine

/-- The loop of `leftmost` that goes down to the first leaf. -/
def descend (s : Triedb) : ℕ → Spine → Option Spine
  | 0, _ => none
  | _ + 1, [] => some []
  | fuel + 1, cur :: rest => do
      let parent ← branchAt s cur.parentPtr
      if parent.isBranch cur.subIndex then
        let parentPtr := parent.getChildPointer cur.subIndex
        let child ← branchAt s parentPtr
        if child.mask = 0 then next s fuel (cur :: rest)
        else
          descend s fuel ({ parentPtr := parentPtr, subIndex := lowestIndex child.mask } :: cur :: rest)
      else some (cur :: rest)

end

/-- The leaf the iterator stands on. -/
def current (s : Triedb) : Spine → Option TriedbLeaf
  | [] => none
  | cur :: _ => do
      let parent ← branchAt s cur.parentPtr
      leafAt s (parent.getChildPointer cur.subIndex)

/-- Go on until the key is reached or passed. -/
def adjust (s : Triedb) (key : UInt64) : ℕ → Spine → Option Spine
  | 0, _ => none
  | _ + 1, [] => some []
  | fuel + 1, spine => do
      let leaf ← current s spine
      if leaf.key ≥ key then some spine
      else
        let spine ← next s fuel spine
        adjust s key fuel spine

/-- Follow the digits of the key while they lead to branches. -/
def followKey (s : Triedb) (key : UInt64) : ℕ → ℕ → Spine → Option (ℕ × TriedbBranch × Fin 32 × Spine)
  | 0, _, _ => none
  | fuel + 1, parentPtr, spine => do
      let parent ← branchAt s parentPtr
      let sub := subIndex parent.depth key
      if !parent.isEmpty sub && parent.isBranch sub then
        followKey s key fuel (parent.getChildPointer sub)
          ({ parentPtr := parentPtr, subIndex := sub } :: spine)
      else some (parentPtr, parent, sub, spine)

def startFromKey (s : Triedb) (key : UInt64) (fuel parentPtr : ℕ) : Option Spine := do
  let parent ← branchAt s parentPtr
  let sub := subIndex parent.depth key
  if msb64 key.toBitVec ≥ parent.depth * MAX_BRANCH_BITS then some []
  else if parent.isEmpty sub then
    let m := parent.mask &&& aboveMask sub.val
    if m = 0 then some []
    else
      let spine ← leftmost s fuel [{ parentPtr := parentPtr, subIndex := lowestIndex m }]
      adjust s key fuel spine
  else
    let (parentPtr, parent, sub, spine) ← followKey s key fuel parentPtr []
    if parent.isEmpty sub then
      let m := parent.mask &&& aboveMask sub.val
      if m = 0 then
        let spine ← next s fuel ({ parentPtr := parentPtr, subIndex := 31 } :: spine)
        adjust s key fuel spine
      else
        let spine ← leftmost s fuel ({ parentPtr := parentPtr, subIndex := lowestIndex m } :: spine)
        adjust s key fuel spine
    else adjust s key fuel ({ parentPtr := parentPtr, subIndex := sub } :: spine)

/-- `begin(at_root, key)` -/
def beginAt (s : Triedb) (fuel : ℕ) (atRoot : RootId) (key : UInt64) : Option Spine :=
  if s.isEmpty then some []
  else do
    let root ← s.roots.lookup atRoot
    startFromKey s key fuel root.ptr

/-- Compare the key with the one the iterator stands on. -/
def leafWithKey (s : Triedb) (key : UInt64) : Spine → Option (Option TriedbLeaf)
  | [] => some none
  | it => do
      let leaf ← current s it
      if leaf.key ≠ key then some none else some (some leaf)

/-- `find`; the outer option is a failed assertion or too little fuel. -/
def find (s : Triedb) (fuel : ℕ) (atRoot : RootId) (key : UInt64) : Option (Option TriedbLeaf) :=
  if atRoot = 0 then some none
  else do
    let it ← beginAt s fuel atRoot key
    leafWithKey s key it

section Spec

variable {s : Triedb}

/-- The leaves at the positions of a branch above `i`. -/
def afterSlot (c : Children) (i : Fin 32) : List (ℕ × Bytes) :=
  ((List.finRange 32).filter (i < ·)).flatMap fun j => (c j).leaves

/-- The leaves at the positions of a branch below `i`. -/
def beforeSlot (c : Children) (i : Fin 32) : List (ℕ × Bytes) :=
  ((List.finRange 32).filter (· < i)).flatMap fun j => (c j).leaves

/-- `l` lists the leaves to the right of every cursor of the spine. -/
def RightOf (s : Triedb) : Spine → List (ℕ × Bytes) → Prop
  | [], l => l = []
  | cur :: rest, l => ∃ d b c l', s.nodes cur.parentPtr = some (.branch b) ∧ Represents s d b c ∧
      l = afterSlot c cur.subIndex ++ l' ∧ RightOf s rest l'

/-- The spine stands on the first leaf of `l`, or is empty when there is none. -/
def Settled (s : Triedb) (spine : Spine) : List (ℕ × Bytes) → Prop
  | [] => spine = []
  | x :: l => RightOf s spine l ∧
      ∃ leaf, current s spine = some leaf ∧ x = (leaf.key.toNat, leaf.customData)

/-- With enough fuel the step ends in a spine standing on the first leaf of `l`. -/
def Reaches (s : Triedb) (step : ℕ → Option Spine) (l : List (ℕ × Bytes)) : Prop :=
  ∃ spine, Settled s spine l ∧ ∃ n, ∀ fuel ≥ n, step fuel = some spine

theorem branchAt_eq {p : ℕ} {b : TriedbBranch} (stored : s.nodes p = some (.branch b)) :
    branchAt s p = some b := by
  simp only [branchAt, stored]

theorem leafAt_eq {p : ℕ} {l : TriedbLeaf} (stored : s.nodes p = some (.leaf l)) :
    leafAt s p = some l := by
  simp only [leafAt, stored]

theorem lowestIndex_lowest {m : BitVec 32} (nonzero : m ≠ 0) :
    m.getLsbD (lowestIndex m).val = true ∧ ∀ j : Fin 32, j < lowestIndex m → m.getLsbD j.val = false := by
  have low := lsb32_lowest nonzero
  have val : (lowestIndex m).val = lsb32 m := Nat.mod_eq_of_lt low.lt
  refine ⟨val ▸ low.1, fun j less => low.2 j.val ?_⟩
  rw [← val]
  exact less

theorem Represents.child_eq_empty {d : ℕ} {b : TriedbBranch} {c : Children}
    (rep : Represents s d b c) {i : Fin 32} (free : b.mask.getLsbD i.val = false) :
    c i = .empty := by
  cases d with
  | zero => exact rep.elim
  | succ d =>
      have slot := rep.2.2 i
      rwa [(slot_eq_empty_iff b i).mpr free] at slot

theorem Represents.child_eq_empty_iff {d : ℕ} {b : TriedbBranch} {c : Children}
    (rep : Represents s d b c) (i : Fin 32) : b.mask.getLsbD i.val = false ↔ c i = .empty := by
  refine ⟨Represents.child_eq_empty rep, fun shape => ?_⟩
  cases d with
  | zero => exact rep.elim
  | succ d =>
      have slot := rep.2.2 i
      rw [← slot_eq_empty_iff]
      cases here : b.slot i with
      | empty => rfl
      | leaf p =>
          rw [here] at slot
          obtain ⟨l, _, other⟩ := slot
          cases shape.symm.trans other
      | branch p =>
          rw [here] at slot
          obtain ⟨_, _, _, other, _⟩ := slot
          cases shape.symm.trans other

theorem Represents.leaf_of_child {d k : ℕ} {v : Bytes} {b : TriedbBranch} {c : Children}
    (rep : Represents s d b c) {i : Fin 32} (shape : c i = .leaf k v) :
    ∃ leaf, b.isBranch i = false ∧ s.nodes (b.getChildPointer i) = some (.leaf leaf) ∧
      (k, v) = (leaf.key.toNat, leaf.customData) := by
  cases d with
  | zero => exact rep.elim
  | succ d =>
      have slot := rep.2.2 i
      cases here : b.slot i with
      | empty =>
          rw [here] at slot
          cases shape.symm.trans slot
      | leaf p =>
          obtain ⟨occupied, bit, pointer⟩ := of_slot_leaf here
          rw [here] at slot
          obtain ⟨leaf, stored, other⟩ := slot
          rw [shape] at other
          injection other with key data
          exact ⟨leaf, by rw [isBranch_eq, occupied, bit]; rfl, pointer ▸ stored, by rw [key, data]⟩
      | branch p =>
          rw [here] at slot
          obtain ⟨_, _, _, other, _⟩ := slot
          cases shape.symm.trans other

theorem Represents.child_leaf {d : ℕ} {b : TriedbBranch} {c : Children}
    (rep : Represents s d b c) {i : Fin 32} (used : ¬ b.isEmpty i = true)
    (off : b.isBranch i = false) : ∃ k v, c i = .leaf k v := by
  cases d with
  | zero => exact rep.elim
  | succ d =>
      have slot := rep.2.2 i
      rw [isEmpty_eq, Bool.not_eq_true', Bool.not_eq_false] at used
      rw [isBranch_eq, used, Bool.true_and, Bool.not_eq_false'] at off
      have shape : b.slot i = .leaf (b.getChildPointer i) := by
        simp [TriedbBranch.slot, used, off]
      rw [shape] at slot
      obtain ⟨l, _, other⟩ := slot
      exact ⟨_, _, other⟩

theorem Represents.branch_of_child {d : ℕ} {b : TriedbBranch} {c c' : Children}
    (rep : Represents s d b c) {i : Fin 32} (shape : c i = .branch c') :
    ∃ b' d', b.isBranch i = true ∧ s.nodes (b.getChildPointer i) = some (.branch b') ∧
      Represents s d' b' c' := by
  cases d with
  | zero => exact rep.elim
  | succ d =>
      have slot := rep.2.2 i
      cases here : b.slot i with
      | empty =>
          rw [here] at slot
          cases shape.symm.trans slot
      | leaf p =>
          rw [here] at slot
          obtain ⟨_, _, other⟩ := slot
          cases shape.symm.trans other
      | branch p =>
          obtain ⟨occupied, bit, pointer⟩ := of_slot_branch here
          rw [here] at slot
          obtain ⟨b', c'', stored, other, below⟩ := slot
          rw [shape] at other
          injection other with same
          subst same
          exact ⟨b', d, by rw [isBranch_eq, occupied, bit]; rfl, pointer ▸ stored, below⟩

theorem finRange_split : ∀ j : Fin 32, List.finRange 32 =
    (List.finRange 32).filter (· < j) ++ j :: (List.finRange 32).filter (j < ·) := by
  decide

private theorem flatMap_region {c : Children} (region : Fin 32 → Bool) {j : Fin 32}
    (inside : region j = true) (upward : ∀ k, j < k → region k = true)
    (clear : ∀ k < j, region k = true → c k = .empty) :
    (((List.finRange 32).filter region).flatMap fun k => (c k).leaves) =
      (c j).leaves ++ afterSlot c j := by
  rw [finRange_split j, List.filter_append, List.filter_cons, if_pos inside, List.flatMap_append,
    List.flatMap_cons, List.filter_filter, List.filter_filter]
  have below : (((List.finRange 32).filter fun k => region k && decide (k < j)).flatMap
      fun k => (c k).leaves) = [] := by
    rw [List.flatMap_eq_nil_iff]
    intro k member
    simp only [List.mem_filter, Bool.and_eq_true, decide_eq_true_eq] at member
    rw [clear k member.2.2 member.2.1]
    rfl
  have above : ((List.finRange 32).filter fun k => region k && decide (j < k)) =
      (List.finRange 32).filter (j < ·) := by
    apply List.filter_congr
    intro k _
    by_cases less : j < k
    · simp [less, upward k less]
    · simp [less]
  rw [below, above]
  rfl

theorem leaves_split (c : Children) (i : Fin 32) :
    (Tree.branch c).leaves = beforeSlot c i ++ ((c i).leaves ++ afterSlot c i) := by
  conv_lhs => rw [Tree.leaves, finRange_split i, List.flatMap_append, List.flatMap_cons]
  rfl

section Region

variable {d : ℕ} {b : TriedbBranch} {c : Children}

theorem afterSlot_eq_nil (rep : Represents s d b c) {i : Fin 32}
    (last : b.mask &&& aboveMask i.val = 0) : afterSlot c i = [] := by
  rw [afterSlot, List.flatMap_eq_nil_iff]
  intro k member
  have less : i < k := by simpa using member
  have bit := congrArg (fun m => BitVec.getLsbD m k.val) last
  simp only [BitVec.getLsbD_and, getLsbD_aboveMask k.isLt] at bit
  rw [Represents.child_eq_empty rep (i := k)]
  · rfl
  · simpa [Fin.lt_def.mp less] using bit

theorem afterSlot_eq (rep : Represents s d b c) {i : Fin 32}
    (more : b.mask &&& aboveMask i.val ≠ 0) :
    b.mask.getLsbD (lowestIndex (b.mask &&& aboveMask i.val)).val = true ∧
      i < lowestIndex (b.mask &&& aboveMask i.val) ∧
      afterSlot c i = (c (lowestIndex (b.mask &&& aboveMask i.val))).leaves ++
        afterSlot c (lowestIndex (b.mask &&& aboveMask i.val)) := by
  obtain ⟨bit, lower⟩ := lowestIndex_lowest more
  generalize lowestIndex (b.mask &&& aboveMask i.val) = j at bit lower ⊢
  rw [BitVec.getLsbD_and, getLsbD_aboveMask j.isLt, Bool.and_eq_true, decide_eq_true_eq] at bit
  refine ⟨bit.1, bit.2, flatMap_region (i < ·) (by simpa using bit.2) (fun k less => ?_)
    fun k less above => ?_⟩
  · simpa using lt_trans (Fin.lt_def.mpr bit.2) less
  · have unset := lower k less
    have above : i < k := by simpa using above
    rw [BitVec.getLsbD_and, getLsbD_aboveMask k.isLt] at unset
    exact Represents.child_eq_empty rep (by simpa [Fin.lt_def.mp above] using unset)

theorem leaves_eq_of_lowest (rep : Represents s d b c) (nonzero : b.mask ≠ 0) :
    b.mask.getLsbD (lowestIndex b.mask).val = true ∧ (Tree.branch c).leaves =
      (c (lowestIndex b.mask)).leaves ++ afterSlot c (lowestIndex b.mask) := by
  obtain ⟨bit, lower⟩ := lowestIndex_lowest nonzero
  refine ⟨bit, ?_⟩
  have whole := flatMap_region (c := c) (fun _ => true) (j := lowestIndex b.mask) rfl
    (fun _ _ => rfl) fun k less _ => Represents.child_eq_empty rep (lower k less)
  rwa [List.filter_true] at whole

theorem leaves_eq_nil (rep : Represents s d b c) (zero : b.mask = 0) :
    (Tree.branch c).leaves = [] := by
  rw [Tree.leaves, List.flatMap_eq_nil_iff]
  intro k _
  rw [(Tree.isEmpty_iff _).mp ((Represents.mask_eq_zero_iff rep).mp zero k)]
  rfl

end Region

theorem Reaches.succ {step step' : ℕ → Option Spine} {l : List (ℕ × Bytes)}
    (reaches : Reaches s step l) (call : ∀ fuel, step' (fuel + 1) = step fuel) :
    Reaches s step' l := by
  obtain ⟨spine, settled, n, enough⟩ := reaches
  refine ⟨spine, settled, n + 1, fun fuel large => ?_⟩
  obtain ⟨k, rfl⟩ := Nat.exists_eq_add_of_le' (show 1 ≤ fuel by omega)
  rw [call]
  exact enough k (by omega)

section Calls

variable {b : TriedbBranch} {cur : Cursor} (rest : Spine) (fuel : ℕ)

theorem next_last (stored : s.nodes cur.parentPtr = some (.branch b))
    (last : b.mask &&& aboveMask cur.subIndex.val = 0) :
    next s (fuel + 1) (cur :: rest) = next s fuel rest := by
  simp only [next, branchAt_eq stored, Option.bind_eq_bind, Option.bind_some, if_pos last]

theorem next_more (stored : s.nodes cur.parentPtr = some (.branch b))
    (more : b.mask &&& aboveMask cur.subIndex.val ≠ 0) :
    next s (fuel + 1) (cur :: rest) = leftmost s fuel
      ({ cur with subIndex := lowestIndex (b.mask &&& aboveMask cur.subIndex.val) } :: rest) := by
  simp only [next, branchAt_eq stored, Option.bind_eq_bind, Option.bind_some, if_neg more]

theorem leftmost_cons (stored : s.nodes cur.parentPtr = some (.branch b)) (nonzero : b.mask ≠ 0) :
    leftmost s (fuel + 1) (cur :: rest) = descend s fuel (cur :: rest) := by
  simp only [leftmost, popChildless, branchAt_eq stored, Option.bind_eq_bind, Option.bind_some,
    if_neg nonzero]

theorem descend_leaf (stored : s.nodes cur.parentPtr = some (.branch b))
    (here : b.isBranch cur.subIndex = false) :
    descend s (fuel + 1) (cur :: rest) = some (cur :: rest) := by
  simp only [descend, branchAt_eq stored, Option.bind_eq_bind, Option.bind_some, here,
    Bool.false_eq_true, if_false]

theorem descend_branch {b' : TriedbBranch} (stored : s.nodes cur.parentPtr = some (.branch b))
    (here : b.isBranch cur.subIndex = true)
    (child : s.nodes (b.getChildPointer cur.subIndex) = some (.branch b')) :
    descend s (fuel + 1) (cur :: rest) =
      if b'.mask = 0 then next s fuel (cur :: rest)
      else descend s fuel
        (⟨b.getChildPointer cur.subIndex, lowestIndex b'.mask⟩ :: cur :: rest) := by
  simp only [descend, branchAt_eq stored, branchAt_eq child, Option.bind_eq_bind,
    Option.bind_some, here, if_true]

theorem current_cons {l : TriedbLeaf} (stored : s.nodes cur.parentPtr = some (.branch b))
    (leaf : s.nodes (b.getChildPointer cur.subIndex) = some (.leaf l)) :
    current s (cur :: rest) = some l := by
  simp [current, branchAt_eq stored, leafAt_eq leaf]

end Calls

/-- Going down from a cursor that stands on `t` finds the leaves of `t` first. -/
def Descends (s : Triedb) (t : Tree 32 Bytes) : Prop :=
  ∀ d b c cur rest l, s.nodes cur.parentPtr = some (.branch b) → Represents s d b c →
    c cur.subIndex = t → b.mask.getLsbD cur.subIndex.val = true →
    RightOf s (cur :: rest) l → Reaches s (fun fuel => next s fuel (cur :: rest)) l →
    Reaches s (fun fuel => descend s fuel (cur :: rest)) (t.leaves ++ l)

theorem next_reaches {d p : ℕ} {b : TriedbBranch} {c : Children} {rest : Spine}
    {l : List (ℕ × Bytes)} (stored : s.nodes p = some (.branch b)) (rep : Represents s d b c)
    (right : RightOf s rest l) (up : Reaches s (fun fuel => next s fuel rest) l)
    (below : ∀ j, Descends s (c j)) (i : Fin 32) :
    Reaches s (fun fuel => next s fuel ({ parentPtr := p, subIndex := i } :: rest))
      (afterSlot c i ++ l) := by
  induction measure : 32 - i.val using Nat.strong_induction_on generalizing i with
  | _ m ih =>
      by_cases last : b.mask &&& aboveMask i.val = 0
      · rw [afterSlot_eq_nil rep last, List.nil_append]
        exact up.succ fun fuel => next_last rest fuel stored last
      · obtain ⟨bit, less, after⟩ := afterSlot_eq rep last
        have nonzero : b.mask ≠ 0 := by
          rintro zero
          rw [zero] at last
          exact last BitVec.zero_and
        have here : s.nodes (Cursor.mk p i).parentPtr = some (.branch b) := stored
        have call := fun fuel => next_more rest fuel here last
        dsimp only at call
        generalize lowestIndex (b.mask &&& aboveMask i.val) = j at bit less after call
        rw [after, List.append_assoc]
        have later := ih (32 - j.val) (by have := Fin.lt_def.mp less; omega) j rfl
        have first := below j d b c { parentPtr := p, subIndex := j } rest _ stored rep rfl bit
          ⟨d, b, c, l, stored, rep, rfl, right⟩ later
        have started : Reaches s (fun fuel => leftmost s fuel
            ({ parentPtr := p, subIndex := j } :: rest)) _ :=
          first.succ fun fuel => leftmost_cons rest fuel stored nonzero
        exact started.succ call

theorem descends (t : Tree 32 Bytes) : Descends s t := by
  induction t with
  | empty =>
      intro d b c cur rest l stored rep shape bit
      rw [(Represents.child_eq_empty_iff rep cur.subIndex).mpr shape] at bit
      cases bit
  | leaf k v =>
      intro d b c cur rest l stored rep shape bit right skip
      obtain ⟨leaf, off, node, same⟩ := Represents.leaf_of_child rep shape
      refine ⟨cur :: rest, ⟨right, leaf, current_cons rest stored node, same⟩, 1, ?_⟩
      intro fuel large
      obtain ⟨fuel, rfl⟩ := Nat.exists_eq_add_of_le' large
      exact descend_leaf rest fuel stored off
  | branch c' ih =>
      intro d b c cur rest l stored rep shape bit right skip
      obtain ⟨b', d', on, node, rep'⟩ := Represents.branch_of_child rep shape
      have call := fun fuel => descend_branch rest fuel stored on node
      by_cases zero : b'.mask = 0
      · rw [leaves_eq_nil rep' zero, List.nil_append]
        exact skip.succ fun fuel => (call fuel).trans (if_pos zero)
      · obtain ⟨bit', leaves_eq⟩ := leaves_eq_of_lowest rep' zero
        rw [leaves_eq, List.append_assoc]
        have deeper := ih (lowestIndex b'.mask) d' b' c'
          { parentPtr := b.getChildPointer cur.subIndex, subIndex := lowestIndex b'.mask }
          (cur :: rest) _ node rep' rfl bit' ⟨d', b', c', l, node, rep', rfl, right⟩
          (next_reaches node rep' right skip ih _)
        exact deeper.succ fun fuel => (call fuel).trans (if_neg zero)

theorem next_reaches_of_rightOf {spine : Spine} {l : List (ℕ × Bytes)} (right : RightOf s spine l) :
    Reaches s (fun fuel => next s fuel spine) l := by
  induction spine generalizing l with
  | nil =>
      obtain rfl : l = [] := right
      refine ⟨[], rfl, 1, fun fuel large => ?_⟩
      obtain ⟨fuel, rfl⟩ := Nat.exists_eq_add_of_le' large
      rfl
  | cons cur rest ih =>
      obtain ⟨d, b, c, l', stored, rep, rfl, right⟩ := right
      exact next_reaches stored rep right (ih right) (fun j => descends (c j)) cur.subIndex

theorem adjust_reaches (key : UInt64) {l : List (ℕ × Bytes)} {spine : Spine}
    (settled : Settled s spine l) :
    Reaches s (fun fuel => adjust s key fuel spine) (l.dropWhile (·.1 < key.toNat)) := by
  induction l generalizing spine with
  | nil =>
      obtain rfl : spine = [] := settled
      refine ⟨[], rfl, 1, fun fuel large => ?_⟩
      obtain ⟨fuel, rfl⟩ := Nat.exists_eq_add_of_le' large
      rfl
  | cons x l ih =>
      obtain ⟨right, leaf, here, rfl⟩ := settled
      have call : ∀ fuel, adjust s key (fuel + 1) spine =
          if leaf.key ≥ key then some spine
          else (next s fuel spine).bind (adjust s key fuel) := by
        intro fuel
        cases spine with
        | nil => cases here
        | cons cur rest => simp only [adjust, here, Option.bind_eq_bind, Option.bind_some]
      by_cases reached : leaf.key ≥ key
      · have stop : ¬ leaf.key.toNat < key.toNat := Nat.not_lt.mpr (UInt64.le_iff_toNat_le.mp reached)
        rw [List.dropWhile_cons_of_neg (by simpa using stop)]
        refine ⟨spine, ⟨right, leaf, here, rfl⟩, 1, fun fuel large => ?_⟩
        obtain ⟨fuel, rfl⟩ := Nat.exists_eq_add_of_le' large
        exact (call fuel).trans (if_pos reached)
      · have below : leaf.key.toNat < key.toNat :=
          Nat.not_le.mp fun le => reached (UInt64.le_iff_toNat_le.mpr le)
        rw [List.dropWhile_cons_of_pos (by simpa using below)]
        obtain ⟨spine₁, settled₁, n₁, moved⟩ := next_reaches_of_rightOf right
        obtain ⟨spine₂, settled₂, n₂, rest⟩ := ih settled₁
        refine ⟨spine₂, settled₂, max n₁ n₂ + 1, fun fuel large => ?_⟩
        obtain ⟨fuel, rfl⟩ := Nat.exists_eq_add_of_le' (show 1 ≤ fuel by omega)
        have first : next s fuel spine = some spine₁ := moved fuel (by omega)
        change adjust s key (fuel + 1) spine = _
        rw [call, if_neg reached, first, Option.bind_some]
        exact rest fuel (by omega)

private theorem adjusted {step : ℕ → Option Spine} (key : UInt64) {l : List (ℕ × Bytes)}
    (reaches : Reaches s step l) :
    Reaches s (fun fuel => (step fuel).bind (adjust s key fuel))
      (l.dropWhile (·.1 < key.toNat)) := by
  obtain ⟨spine₁, settled₁, n₁, moved⟩ := reaches
  obtain ⟨spine₂, settled₂, n₂, rest⟩ := adjust_reaches key settled₁
  refine ⟨spine₂, settled₂, max n₁ n₂, fun fuel large => ?_⟩
  dsimp only
  rw [moved fuel (by omega), Option.bind_some]
  exact rest fuel (by omega)

private theorem dropWhile_below {key : ℕ} {before after : List (ℕ × Bytes)}
    (small : ∀ x ∈ before, x.1 < key) :
    (before ++ after).dropWhile (·.1 < key) = after.dropWhile (·.1 < key) := by
  rw [List.dropWhile_append_of_pos]
  simpa using small

private theorem before_slot_lt {d q key : ℕ} {c : Children} (fits : (Tree.branch c).Fits (d + 1) q)
    (below : key / 32 ^ (d + 1) = q) :
    ∀ x ∈ beforeSlot c (digit 32 d key), x.1 < key := by
  intro x member
  obtain ⟨k, inside, member⟩ := List.mem_flatMap.mp member
  have less : k < digit 32 d key := by simpa using inside
  have high := Tree.div_eq_of_digit below
  have low := Tree.key_div_of_mem_leaves (fits k) member
  apply Nat.lt_of_div_lt_div (c := 32 ^ d)
  rw [high, low]
  exact Nat.add_lt_add_left less _

theorem followKey_stops (key : UInt64) {d q p : ℕ} {b : TriedbBranch} {c : Children}
    {spine : Spine} {l : List (ℕ × Bytes)} (shallow : d ≤ MAX_DEPTH)
    (stored : s.nodes p = some (.branch b)) (rep : Represents s d b c)
    (fits : (Tree.branch c).Fits d q) (below : key.toNat / 32 ^ d = q) (right : RightOf s spine l) :
    ∃ p' b' i spine', (∀ fuel ≥ d, followKey s key fuel p spine = some (p', b', i, spine')) ∧
      b'.isBranch i = false ∧ ∃ d' c' l', s.nodes p' = some (.branch b') ∧
        Represents s d' b' c' ∧ RightOf s spine' l' ∧ ∃ before, (∀ x ∈ before, x.1 < key.toNat) ∧
          (Tree.branch c).leaves ++ l = before ++ ((c' i).leaves ++ (afterSlot c' i ++ l')) := by
  induction d generalizing q p b c spine l with
  | zero => exact rep.elim
  | succ d ih =>
      have sub_eq : subIndex b.depth key = digit 32 d key.toNat := by
        rw [rep.1]
        exact subIndex_eq shallow key
      have here := Tree.div_eq_of_digit below
      have small := before_slot_lt fits below
      have split := leaves_split c (digit 32 d key.toNat)
      have call : ∀ fuel, followKey s key (fuel + 1) p spine =
          if b.isBranch (digit 32 d key.toNat) then
            followKey s key fuel (b.getChildPointer (digit 32 d key.toNat))
              (⟨p, digit 32 d key.toNat⟩ :: spine)
          else some (p, b, digit 32 d key.toNat, spine) := by
        intro fuel
        simp only [followKey, branchAt_eq stored, Option.bind_eq_bind, Option.bind_some, sub_eq]
        congr 1
        rw [isEmpty_eq, isBranch_eq, Bool.not_not]
        cases b.mask.getLsbD (digit 32 d key.toNat).val <;> simp
      have child_fits := fits (digit 32 d key.toNat)
      generalize digit 32 d key.toNat = i at *
      cases on : b.isBranch i with
      | false =>
          simp only [on, if_neg Bool.false_ne_true] at call
          refine ⟨p, b, i, spine, fun fuel large => ?_, on, d + 1, c, l, stored, rep, right,
            beforeSlot c i, small, by rw [split, List.append_assoc, List.append_assoc]⟩
          obtain ⟨fuel, rfl⟩ := Nat.exists_eq_add_of_le' (show 1 ≤ fuel by omega)
          exact call fuel
      | true =>
          simp only [on, if_true] at call
          have slot := rep.2.2 i
          have shape : b.slot i = .branch (b.getChildPointer i) := by
            rw [isBranch_eq, Bool.and_eq_true] at on
            simp only [TriedbBranch.slot, isEmpty_eq, isLeaf_eq, on.1]
            simpa using on.2
          rw [shape] at slot
          obtain ⟨b', c', node, child, rep'⟩ := slot
          rw [child] at child_fits
          have right' : RightOf s (⟨p, i⟩ :: spine) (afterSlot c i ++ l) :=
            ⟨d + 1, b, c, l, stored, rep, rfl, right⟩
          obtain ⟨p₂, b₂, i₂, spine₂, ran, off, d₂, c₂, l₂, node₂, rep₂, right₂, before, small₂,
            leaves_eq⟩ := ih (by omega) node rep' child_fits here right'
          refine ⟨p₂, b₂, i₂, spine₂, fun fuel large => ?_, off, d₂, c₂, l₂, node₂, rep₂, right₂,
            beforeSlot c i ++ before, ?_, ?_⟩
          · obtain ⟨fuel, rfl⟩ := Nat.exists_eq_add_of_le' (show 1 ≤ fuel by omega)
            exact (call fuel).trans (ran fuel (by omega))
          · intro x member
            rcases List.mem_append.mp member with member | member
            · exact small x member
            · exact small₂ x member
          · rw [split, child, List.append_assoc, List.append_assoc, List.append_assoc, ← leaves_eq]

theorem leftmost_reaches {d p : ℕ} {b : TriedbBranch} {c : Children} {rest : Spine}
    {l : List (ℕ × Bytes)} (stored : s.nodes p = some (.branch b)) (rep : Represents s d b c)
    (right : RightOf s rest l) {i : Fin 32} (more : b.mask &&& aboveMask i.val ≠ 0) :
    Reaches s (fun fuel => leftmost s fuel
      (⟨p, lowestIndex (b.mask &&& aboveMask i.val)⟩ :: rest)) (afterSlot c i ++ l) := by
  have nonzero : b.mask ≠ 0 := by
    rintro zero
    rw [zero] at more
    exact more BitVec.zero_and
  obtain ⟨bit, _, after⟩ := afterSlot_eq rep more
  generalize lowestIndex (b.mask &&& aboveMask i.val) = j at bit after ⊢
  have right' : RightOf s (⟨p, j⟩ :: rest) (afterSlot c j ++ l) := ⟨d, b, c, l, stored, rep, rfl, right⟩
  rw [after, List.append_assoc]
  exact (descends (c j) d b c ⟨p, j⟩ rest _ stored rep rfl bit right'
    (next_reaches_of_rightOf right')).succ fun fuel => leftmost_cons rest fuel stored nonzero

private theorem msb64_lt {key : UInt64} {d : ℕ} (pos : 1 ≤ d) :
    msb64 key.toBitVec < d * MAX_BRANCH_BITS ↔ key.toNat / 32 ^ d = 0 := by
  rw [← computeMaxKeyBits_le pos, computeMaxKeyBits]
  simp only [MAX_BRANCH_BITS]
  omega

theorem startFromKey_reaches (key : UInt64) {d p : ℕ} {b : TriedbBranch} {c : Children}
    (shallow : d ≤ MAX_DEPTH) (stored : s.nodes p = some (.branch b)) (rep : Represents s d b c)
    (fits : (Tree.branch c).Fits d 0) :
    Reaches s (fun fuel => startFromKey s key fuel p)
      ((Tree.branch c).leaves.dropWhile (·.1 < key.toNat)) := by
  have none_left : ∀ {before : List (ℕ × Bytes)}, (∀ x ∈ before, x.1 < key.toNat) →
      before.dropWhile (·.1 < key.toNat) = [] := by
    intro before small
    rw [← List.append_nil before, dropWhile_below small]
    rfl
  have call : ∀ fuel, startFromKey s key fuel p =
      if msb64 key.toBitVec ≥ d * MAX_BRANCH_BITS then some []
      else if b.isEmpty (subIndex d key) then
        if b.mask &&& aboveMask (subIndex d key).val = 0 then some []
        else (leftmost s fuel [⟨p, lowestIndex (b.mask &&& aboveMask (subIndex d key).val)⟩]).bind
          (adjust s key fuel)
      else (followKey s key fuel p []).bind fun (p, b, sub, spine) =>
        if b.isEmpty sub then
          if b.mask &&& aboveMask sub.val = 0 then
            (next s fuel (⟨p, 31⟩ :: spine)).bind (adjust s key fuel)
          else (leftmost s fuel (⟨p, lowestIndex (b.mask &&& aboveMask sub.val)⟩ :: spine)).bind
            (adjust s key fuel)
        else adjust s key fuel (⟨p, sub⟩ :: spine) := by
    intro fuel
    simp only [startFromKey, branchAt_eq stored, Option.bind_eq_bind, Option.bind_some,
      rep.depth_eq]
  by_cases high : msb64 key.toBitVec ≥ d * MAX_BRANCH_BITS
  · rw [none_left]
    · exact ⟨[], rfl, 0, fun fuel _ => (call fuel).trans (if_pos high)⟩
    · intro x member
      have := Tree.key_div_of_mem_leaves fits member
      rw [Nat.div_eq_zero_iff_lt (Nat.pow_pos (by omega))] at this
      by_contra above
      have low : msb64 key.toBitVec < d * MAX_BRANCH_BITS :=
        (msb64_lt rep.pos).mpr (Nat.div_eq_of_lt (by omega))
      omega
  have inside : key.toNat / 32 ^ d = 0 := (msb64_lt rep.pos).mp (by omega)
  obtain ⟨e, rfl⟩ := Nat.exists_eq_add_of_le' rep.pos
  have small := before_slot_lt fits inside
  have split := leaves_split c (digit 32 e key.toNat)
  simp only [if_neg high, subIndex_eq shallow] at call
  by_cases free : b.isEmpty (digit 32 e key.toNat) = true
  · simp only [if_pos free] at call
    rw [isEmpty_eq, Bool.not_eq_true'] at free
    rw [split, dropWhile_below small, Represents.child_eq_empty rep free, Tree.leaves_empty,
      List.nil_append]
    by_cases last : b.mask &&& aboveMask (digit 32 e key.toNat).val = 0
    · rw [afterSlot_eq_nil rep last]
      exact ⟨[], rfl, 0, fun fuel _ => (call fuel).trans (if_pos last)⟩
    · have started := leftmost_reaches stored rep (show RightOf s [] [] from rfl) last
      rw [List.append_nil] at started
      obtain ⟨spine, settled, n, enough⟩ := adjusted key started
      exact ⟨spine, settled, n, fun fuel large =>
        ((call fuel).trans (if_neg last)).trans (enough fuel large)⟩
  · simp only [if_neg free] at call
    obtain ⟨p₂, b₂, i, spine, ran, off, d₂, c₂, l, node, rep₂, right, before, small₂, leaves_eq⟩ :=
      followKey_stops key shallow stored rep fits inside
        (show RightOf s [] [] from rfl)
    rw [List.append_nil] at leaves_eq
    rw [leaves_eq, dropWhile_below small₂]
    have reach : Reaches s (fun fuel =>
        if b₂.isEmpty i then
          if b₂.mask &&& aboveMask i.val = 0 then
            (next s fuel (⟨p₂, 31⟩ :: spine)).bind (adjust s key fuel)
          else (leftmost s fuel (⟨p₂, lowestIndex (b₂.mask &&& aboveMask i.val)⟩ :: spine)).bind
            (adjust s key fuel)
        else adjust s key fuel (⟨p₂, i⟩ :: spine))
        (((c₂ i).leaves ++ (afterSlot c₂ i ++ l)).dropWhile (·.1 < key.toNat)) := by
      by_cases vacant : b₂.isEmpty i = true
      · simp only [if_pos vacant]
        rw [isEmpty_eq, Bool.not_eq_true'] at vacant
        rw [Represents.child_eq_empty rep₂ vacant, Tree.leaves_empty, List.nil_append]
        by_cases last : b₂.mask &&& aboveMask i.val = 0
        · simp only [if_pos last]
          rw [afterSlot_eq_nil rep₂ last]
          exact adjusted key (next_reaches_of_rightOf ⟨d₂, b₂, c₂, l, node, rep₂, rfl, right⟩)
        · simp only [if_neg last]
          exact adjusted key (leftmost_reaches node rep₂ right last)
      · simp only [if_neg vacant]
        obtain ⟨k, v, shape⟩ := Represents.child_leaf rep₂ vacant off
        obtain ⟨leaf, -, stored', same⟩ := Represents.leaf_of_child rep₂ shape
        rw [shape]
        exact adjust_reaches key ⟨⟨d₂, b₂, c₂, l, node, rep₂, rfl, right⟩, leaf,
          current_cons spine node stored', same⟩
    obtain ⟨last, settled, n, enough⟩ := reach
    refine ⟨last, settled, max n (e + 1), fun fuel large => ?_⟩
    refine (call fuel).trans ?_
    rw [ran fuel (by omega)]
    exact enough fuel (by omega)

theorem find_eq {r : RootId} {root : TriedbRoot} (key : UInt64) {d : ℕ} {b : TriedbBranch}
    {c : Children} (nonzero : r ≠ 0) (known : s.roots.lookup r = some root)
    (shallow : d ≤ MAX_DEPTH) (stored : s.nodes root.ptr = some (.branch b))
    (rep : Represents s d b c) (fits : (Tree.branch c).Fits d 0) :
    ∃ found : Option TriedbLeaf, (∃ n, ∀ fuel ≥ n, find s fuel r key = some found) ∧
      (∀ l ∈ found, l.key = key) ∧
      found.map (·.customData) = (Tree.branch c).lookup d key.toNat := by
  obtain ⟨spine, settled, n, enough⟩ := startFromKey_reaches key shallow stored rep fits
  have sorted := Tree.leaves_sorted fits
  have occupied : s.isEmpty = false := by
    cases roots : s.roots with
    | nil => simp [roots] at known
    | cons x l => simp [Triedb.isEmpty, roots]
  have call : ∀ fuel ≥ n, find s fuel r key = leafWithKey s key spine := by
    intro fuel large
    simp only [find, if_neg nonzero, beginAt, occupied, known, Bool.false_eq_true, if_false,
      Option.bind_eq_bind, Option.bind_some, enough fuel large]
  generalize rest_eq : (Tree.branch c).leaves.dropWhile (·.1 < key.toNat) = rest at settled
  have leaves_eq : (Tree.branch c).leaves =
      (Tree.branch c).leaves.takeWhile (·.1 < key.toNat) ++ rest := by
    rw [← rest_eq, List.takeWhile_append_dropWhile]
  have passed : ∀ v, (key.toNat, v) ∈ (Tree.branch c).leaves → (key.toNat, v) ∈ rest := by
    intro v member
    rw [leaves_eq] at member
    refine (List.mem_append.mp member).resolve_left fun early => ?_
    simpa using List.mem_takeWhile_imp early
  cases rest with
  | nil =>
      obtain rfl : spine = [] := settled
      refine ⟨none, ⟨n, call⟩, by simp, ?_⟩
      symm
      by_contra found
      obtain ⟨v, hv⟩ := Option.ne_none_iff_exists'.mp found
      cases passed v (Tree.mem_leaves_of_lookup hv)
  | cons x rest =>
      obtain ⟨_, leaf, here, rfl⟩ := settled
      have first_mem : (leaf.key.toNat, leaf.customData) ∈ (Tree.branch c).leaves := by
        rw [leaves_eq]
        simp
      have reached : ∀ fuel ≥ n, find s fuel r key =
          if leaf.key ≠ key then some none else some (some leaf) := by
        intro fuel large
        rw [call fuel large]
        cases spine with
        | nil => cases here
        | cons cur spine => simp only [leafWithKey, here, Option.bind_eq_bind, Option.bind_some]
      by_cases same : leaf.key = key
      · refine ⟨some leaf, ⟨n, fun fuel large => ?_⟩, by simpa using same, ?_⟩
        · rw [reached fuel large, if_neg (not_not.mpr same)]
        · rw [← same]
          exact (Tree.lookup_of_mem_leaves fits first_mem).symm
      · refine ⟨none, ⟨n, fun fuel large => ?_⟩, by simp, ?_⟩
        · rw [reached fuel large, if_pos same]
        · symm
          by_contra found
          obtain ⟨v, hv⟩ := Option.ne_none_iff_exists'.mp found
          have later := passed v (Tree.mem_leaves_of_lookup hv)
          have not_less : ¬ leaf.key.toNat < key.toNat := by
            have := List.head?_dropWhile_not (fun x : ℕ × Bytes => decide (x.1 < key.toNat))
              (Tree.branch c).leaves
            rw [rest_eq] at this
            simpa using this
          rcases List.mem_cons.mp later with equal | later
          · exact same (UInt64.toNat_inj.mp (by injection equal with h _; exact h.symm))
          · rw [leaves_eq] at sorted
            have := (List.pairwise_cons.mp (List.pairwise_append.mp sorted).2.1).1 _ later
            exact not_less this

end Spec

section Fuel

variable {s : Triedb}

theorem walks_succ (n : ℕ) :
    (∀ spine r, next s n spine = some r → next s (n + 1) spine = some r) ∧
    (∀ spine r, leftmost s n spine = some r → leftmost s (n + 1) spine = some r) ∧
    ∀ spine r, descend s n spine = some r → descend s (n + 1) spine = some r := by
  induction n with
  | zero => exact ⟨nofun, nofun, nofun⟩
  | succ n ih =>
    obtain ⟨ihNext, ihLeftmost, ihDescend⟩ := ih
    refine ⟨?_, ?_, ?_⟩
    · intro spine r found
      cases spine with
      | nil => exact found
      | cons cur rest =>
        rw [next] at found ⊢
        obtain ⟨parent, atParent, found⟩ := Option.bind_eq_some_iff.1 found
        refine Option.bind_eq_some_iff.2 ⟨parent, atParent, ?_⟩
        dsimp only at found ⊢
        split_ifs at found ⊢
        · exact ihNext _ _ found
        · exact ihLeftmost _ _ found
    · intro spine r found
      rw [leftmost] at found ⊢
      obtain ⟨spine', popped, found⟩ := Option.bind_eq_some_iff.1 found
      refine Option.bind_eq_some_iff.2 ⟨spine', popped, ?_⟩
      cases spine' with
      | nil => exact found
      | cons cur rest => exact ihDescend _ _ found
    · intro spine r found
      cases spine with
      | nil => exact found
      | cons cur rest =>
        rw [descend] at found ⊢
        obtain ⟨parent, atParent, found⟩ := Option.bind_eq_some_iff.1 found
        refine Option.bind_eq_some_iff.2 ⟨parent, atParent, ?_⟩
        split_ifs at found ⊢
        · obtain ⟨child, atChild, found⟩ := Option.bind_eq_some_iff.1 found
          refine Option.bind_eq_some_iff.2 ⟨child, atChild, ?_⟩
          split_ifs at found ⊢
          · exact ihNext _ _ found
          · exact ihDescend _ _ found
        · exact found

theorem next_lasting (spine : Spine) : Lasting fun n => next s n spine :=
  lasting_of_succ fun n r found => (walks_succ n).1 spine r found

theorem leftmost_lasting (spine : Spine) : Lasting fun n => leftmost s n spine :=
  lasting_of_succ fun n r found => (walks_succ n).2.1 spine r found

theorem adjust_lasting (key : UInt64) (spine : Spine) : Lasting fun n => adjust s key n spine := by
  intro n m r more found
  dsimp only at found ⊢
  induction n generalizing m spine with
  | zero => exact nomatch found
  | succ n ih =>
    obtain ⟨m, rfl⟩ : ∃ k, m = k + 1 := ⟨m - 1, by omega⟩
    cases spine with
    | nil => exact found
    | cons cur rest =>
      rw [adjust] at found ⊢
      obtain ⟨leaf, atLeaf, found⟩ := Option.bind_eq_some_iff.1 found
      refine Option.bind_eq_some_iff.2 ⟨leaf, atLeaf, ?_⟩
      split_ifs at found ⊢
      · exact found
      · obtain ⟨spine, moved, found⟩ := Option.bind_eq_some_iff.1 found
        exact Option.bind_eq_some_iff.2
          ⟨spine, next_lasting _ n m spine (by omega) moved, ih spine m (by omega) found⟩
      all_goals exact nofun

theorem followKey_lasting (key : UInt64) (parentPtr : ℕ) (spine : Spine) :
    Lasting fun n => followKey s key n parentPtr spine := by
  intro n m r more found
  dsimp only at found ⊢
  induction n generalizing m parentPtr spine with
  | zero => exact nomatch found
  | succ n ih =>
    obtain ⟨m, rfl⟩ : ∃ k, m = k + 1 := ⟨m - 1, by omega⟩
    rw [followKey] at found ⊢
    obtain ⟨parent, atParent, found⟩ := Option.bind_eq_some_iff.1 found
    refine Option.bind_eq_some_iff.2 ⟨parent, atParent, ?_⟩
    dsimp only at found ⊢
    split_ifs at found ⊢
    · exact ih _ _ m (by omega) found
    · exact found

theorem startFromKey_lasting (key : UInt64) (parentPtr : ℕ) :
    Lasting fun n => startFromKey s key n parentPtr := by
  refine (Lasting.const _).bind fun parent => ?_
  refine .ite (.const _) (.ite (.ite (.const _) ?_) ?_)
  · exact (leftmost_lasting _).bind fun spine => adjust_lasting key spine
  · refine (followKey_lasting key parentPtr []).bind fun ⟨parentPtr, parent, sub, spine⟩ => ?_
    refine .ite (.ite ?_ ?_) (adjust_lasting key _)
    · exact (next_lasting _).bind fun spine => adjust_lasting key spine
    · exact (leftmost_lasting _).bind fun spine => adjust_lasting key spine

theorem find_lasting (atRoot : RootId) (key : UInt64) : Lasting fun n => find s n atRoot key := by
  refine .ite (.const _) ?_
  refine Lasting.bind ?_ fun spine => .const _
  exact .ite (.const _) ((Lasting.const _).bind fun root => startFromKey_lasting key root.ptr)

end Fuel

end Epilog.Db.Iterator
