/- Module: Epilog/Common/MerkleIterator
   source: src/src/common/merkle_trie.hpp (merkle_trie_iterator)
   digest: Iterators over the trie in memory, and when they list its keys in order. -/

import Epilog.Common.MerkleMap
import Epilog.Db.Walk

set_option autoImplicit false

namespace Epilog.Common.MerkleIterator

open Epilog.Lib.PackedSlots Epilog.Lib.DigitTree Epilog.Lib.DigitTree.Tree Epilog.Lib.TreeShape
open Epilog.Lib.CompactTree Epilog.Common.Bits Epilog.Common.MerkleTrie Epilog.Common.MerkleMap
open Epilog.Db.Iterator (lowestIndex lowestIndex_lowest finRange_split)
open Epilog.Db.Walk (Side rightward leftward)

variable {V : Type}

/-- `merkle_trie_iterator::cursor` -/
structure Cursor (V : Type) where
  node : Branch V
  index : Fin 32

/-- The cursors from the back of `spine` to its front; an iterator at the end has none. -/
abbrev Spine (V : Type) := List (Cursor V)

/-- Drop the cursors whose branch has no children. -/
def popChildless : Spine V → Spine V
  | [] => []
  | cur :: rest => if cur.node.mask = 0 then popChildless rest else cur :: rest

/-- The loop of `leftmost` and `rightmost`; `fuel` bounds how deep it goes. -/
def dive (side : Side) : ℕ → Spine V → Option (Spine V)
  | 0, _ => none
  | _ + 1, [] => some []
  | fuel + 1, cur :: rest =>
      if cur.node.isBranch cur.index then do
        let node ← getBranch cur.node cur.index
        dive side fuel ({ node, index := side.nearest node.mask } :: cur :: rest)
      else some (cur :: rest)

def extreme (side : Side) (spine : Spine V) : Option (Spine V) :=
  dive side PARTS (popChildless spine)

def leftmost : Spine V → Option (Spine V) := extreme rightward

def rightmost : Spine V → Option (Spine V) := extreme leftward

/-- The loop of `next` and `previous`: go up until there are children beyond the cursor. -/
def climb (side : Side) : Spine V → Spine V
  | [] => []
  | cur :: rest =>
      let mask := cur.node.mask &&& side.beyond cur.index
      if mask = 0 then climb side rest else { cur with index := side.nearest mask } :: rest

/-- `next`, which has no defined meaning at the end -/
def next : Spine V → Option (Spine V)
  | [] => none
  | cur :: rest => leftmost (climb rightward (cur :: rest))

def previous (root : Branch V) : Spine V → Option (Spine V)
  | [] => rightmost [{ node := root, index := 0 }]
  | cur :: rest => rightmost (climb leftward (cur :: rest))

/-- The leaf that an iterator stands on -/
def current : Spine V → Option (MerkleTrieLeaf V)
  | [] => none
  | cur :: _ => getLeaf cur.node cur.index

/-- Follow the parts of the key while they lead to branches. -/
def followKey (key : UInt64) : ℕ → Branch V → Spine V → Option (Fin 32 × Branch V × Spine V)
  | 0, _, _ => none
  | parts + 1, node, spine =>
      let index := subIndex parts key
      if !node.isEmpty index && node.isBranch index then do
        let child ← getBranch node index
        followKey key parts child ({ node, index } :: spine)
      else some (index, node, spine)

/-- The end of `start_from_key`, where the parts of the key lead to a leaf or to nothing -/
def settleKey (key : UInt64) (index : Fin 32) (node : Branch V) (spine : Spine V) :
    Option (Spine V) :=
  if node.isEmpty index then
    let m := node.mask &&& aboveMask index.val
    if m = 0 then next ({ node, index := 31 } :: spine)
    else leftmost ({ node, index := lowestIndex m } :: spine)
  else do
    let leaf ← getLeaf node index
    if leaf.key < key then next ({ node, index } :: spine) else some ({ node, index } :: spine)

def startFromKey (root : Branch V) (key : UInt64) : Option (Spine V) :=
  let index := subIndex (PARTS - 1) key
  if root.isEmpty index then
    let m := root.mask &&& aboveMask index.val
    if m = 0 then some [] else leftmost [{ node := root, index := lowestIndex m }]
  else do
    let (index, node, spine) ← followKey key PARTS root []
    settleKey key index node spine

section Base

variable (H : Hashing V)

def begin (t : MerkleTrieBase V) : Option (Spine V) := leftmost [{ node := t.root, index := 0 }]

/-- `begin(key)` -/
def beginAt (t : MerkleTrieBase V) (key : UInt64) : Option (Spine V) := startFromKey t.root key

/-- `erase`, with the iterator behind the erased key -/
def erase (t : MerkleTrieBase V) (it : Spine V) : Option (MerkleTrieBase V × Spine V) := do
  let leaf ← current it
  let t ← t.remove H leaf.key
  let it ← startFromKey t.root leaf.key
  some (t, it)

inductive Op (V : Type)
  | insert (key : UInt64) (value : V)
  | remove (key : UInt64)
  | erase (key : UInt64)

def Op.key : Op V → UInt64
  | .insert key _ => key
  | .remove key => key
  | .erase key => key

/-- An operation; what is erased is the first key from `key` on, when there is one. -/
def step (t : MerkleTrieBase V) : Op V → Option (MerkleTrieBase V)
  | .insert key value => t.insert H key value
  | .remove key => t.remove H key
  | .erase key => do
      let it ← beginAt t key
      if it.isEmpty then some t else (erase H t it).map Prod.fst

def run : MerkleTrieBase V → List (Op V) → Option (MerkleTrieBase V)
  | t, [] => some t
  | t, op :: ops => (step H t op).bind fun t => run t ops

end Base

section Walks

/-- The leaves of a tree in the order of a side -/
def treeWalk (side : Side) : Tree 32 V → List (ℕ × V)
  | .empty => []
  | .leaf k v => [(k, v)]
  | .branch c => side.order.flatMap fun i => treeWalk side (c i)

/-- The leaves of the children beyond a position -/
def beyond (side : Side) (c : Children V) (i : Fin 32) : List (ℕ × V) :=
  (side.order.filter fun k => (side.beyond i).getLsbD k.val).flatMap fun k => treeWalk side (c k)

/-- The trees and positions that the cursors of a spine stand for -/
abbrev Path (V : Type) := List (Children V × Fin 32)

/-- The leaves behind a path -/
def after (side : Side) (path : Path V) : List (ℕ × V) :=
  path.flatMap fun x => beyond side x.1 x.2

@[simp] theorem after_nil (side : Side) : after side ([] : Path V) = [] := rfl

@[simp] theorem after_cons (side : Side) (x : Children V × Fin 32) (path : Path V) :
    after side (x :: path) = beyond side x.1 x.2 ++ after side path := rfl

theorem treeWalk_rightward (t : Tree 32 V) : treeWalk rightward t = t.leaves := by
  induction t with
  | empty => rfl
  | leaf k v => rfl
  | branch c ih => exact congrArg List.flatten (List.map_congr_left fun i _ => ih i)

theorem treeWalk_leftward (t : Tree 32 V) : treeWalk leftward t = t.leaves.reverse := by
  induction t with
  | empty => rfl
  | leaf k v => rfl
  | branch c ih =>
    change ((List.finRange 32).reverse.flatMap fun i => treeWalk leftward (c i)) =
      ((List.finRange 32).flatMap fun i => (c i).leaves).reverse
    rw [List.reverse_flatMap]
    exact congrArg List.flatten (List.map_congr_left fun i _ => ih i)

end Walks

section Cursors

variable {H : Hashing V} {rehash : Bool} {side : Side} {b : Branch V} {c : Children V}

/-- A cursor stands for a position of a compact branch, not deeper than the parts of a key. -/
structure Points (H : Hashing V) (rehash : Bool) (cur : Cursor V) (x : Children V × Fin 32) :
    Prop where
  holds : Holds H rehash cur.node x.1
  index : cur.index = x.2
  compact : ∀ i, Compact (x.1 i)
  shallow : ∃ d q, d < PARTS ∧ (branch x.1).Fits (d + 1) q

/-- The cursors of a spine stand for the trees and positions of a path. -/
abbrev Aligned (H : Hashing V) (rehash : Bool) : Spine V → Path V → Prop :=
  List.Forall₂ (Points H rehash)

/-- The leaves an iterator has before it, the one it stands on first -/
def Remaining (H : Hashing V) (rehash : Bool) (side : Side) (spine : Spine V)
    (l : List (ℕ × V)) : Prop :=
  (spine = [] ∧ l = []) ∨ ∃ leaf path, current spine = some leaf ∧ Aligned H rehash spine path ∧
    l = (leaf.key.toNat, leaf.value) :: after side path

theorem mask_ne_zero (holds : Holds H rehash b c) {i : Fin 32} (occupied : c i ≠ .empty) :
    b.mask ≠ 0 := by
  intro zero
  apply occupied
  rw [holds.empty_iff, zero]
  simp

theorem nearest_occupied (side : Side) (holds : Holds H rehash b c) {mask : BitVec 32}
    (nonzero : mask ≠ 0)
    (below : ∀ k : Fin 32, mask.getLsbD k.val = true → b.mask.getLsbD k.val = true) :
    c (side.nearest mask) ≠ .empty := by
  rw [Ne, holds.empty_iff, below _ (Db.Walk.nearest_mem side nonzero)]
  decide

theorem flatMap_used (holds : Holds H rehash b c) (l : List (Fin 32)) :
    l.flatMap (fun k => treeWalk side (c k)) =
      (l.filter fun k => b.mask.getLsbD k.val).flatMap fun k => treeWalk side (c k) := by
  induction l with
  | nil => rfl
  | cons k l ih =>
    rw [List.flatMap_cons, List.filter_cons, ih]
    cases used : b.mask.getLsbD k.val with
    | false =>
      rw [(holds.empty_iff k).2 used]
      rfl
    | true => rfl

theorem beyond_occupied (holds : Holds H rehash b c) (i : Fin 32) : beyond side c i =
    (side.occupied (b.mask &&& side.beyond i)).flatMap fun k => treeWalk side (c k) := by
  rw [beyond, flatMap_used holds, List.filter_filter, Side.occupied]
  congr 1
  apply List.filter_congr
  intro k _
  rw [BitVec.getLsbD_and]

theorem beyond_eq_nil (holds : Holds H rehash b c) {i : Fin 32}
    (last : b.mask &&& side.beyond i = 0) : beyond side c i = [] := by
  rw [beyond_occupied holds, last, Db.Walk.occupied_zero, List.flatMap_nil]

theorem beyond_eq (holds : Holds H rehash b c) {i : Fin 32}
    (more : b.mask &&& side.beyond i ≠ 0) : beyond side c i =
      treeWalk side (c (side.nearest (b.mask &&& side.beyond i))) ++
        beyond side c (side.nearest (b.mask &&& side.beyond i)) := by
  rw [beyond_occupied holds, Db.Walk.occupied_beyond more, List.flatMap_cons,
    ← beyond_occupied holds]

theorem treeWalk_branch (holds : Holds H rehash b c) (nonzero : b.mask ≠ 0) :
    treeWalk side (.branch c) =
      treeWalk side (c (side.nearest b.mask)) ++ beyond side c (side.nearest b.mask) := by
  rw [treeWalk, flatMap_used holds, beyond_occupied holds]
  exact (congrArg (List.flatMap _) (side.nearest_first b.mask nonzero)).trans List.flatMap_cons

theorem exists_occupied (compact : Compact (.branch c)) : ∃ i, c i ≠ .empty := by
  by_contra none_left
  push Not at none_left
  have large := compact.1
  rw [size_branch, Finset.sum_eq_zero fun i _ => by rw [none_left i, size_empty]] at large
  exact absurd large (by decide)

theorem dive_remaining (side : Side) {t : Tree 32 V} {d q : ℕ} {rest : Spine V} {path : Path V}
    {i : Fin 32} (points : Points H rehash ⟨b, i⟩ (c, i)) (above : Aligned H rehash rest path)
    (slot : c i = t) (occupied : t ≠ .empty) (fits : t.Fits d q) (shallow : d < PARTS) {fuel : ℕ}
    (enough : d < fuel) : ∃ spine, dive side fuel (⟨b, i⟩ :: rest) = some spine ∧
      Remaining H rehash side spine (treeWalk side t ++ after side ((c, i) :: path)) := by
  obtain ⟨fuel, rfl⟩ := Nat.exists_eq_add_of_le' (Nat.one_le_of_lt enough)
  have used : b.mask.getLsbD i.val = true := by
    rw [← Bool.not_eq_false]
    exact fun free => occupied (slot.symm.trans ((points.holds.empty_iff i).2 free))
  induction t generalizing b c i d q rest path fuel with
  | empty => exact absurd rfl occupied
  | leaf k v =>
    have bit : b.leaf.getLsbD i.val = true := by
      rw [← Bool.not_eq_false]
      intro off
      obtain ⟨b', c', -, other, -⟩ := points.holds.branch_of_bits used off
      cases slot.symm.trans other
    obtain ⟨l, read, here⟩ := points.holds.leaf_of_bits used bit
    obtain ⟨rfl, rfl⟩ := Tree.leaf.inj (slot.symm.trans here)
    refine ⟨⟨b, i⟩ :: rest, ?_, .inr ⟨l, (c, i) :: path, read, .cons points above, rfl⟩⟩
    rw [dive, BranchOf.isBranch, isLeaf_eq, bit]
    rfl
  | branch c' ih =>
    have bit : b.leaf.getLsbD i.val = false := by
      rw [← Bool.not_eq_true]
      intro on
      obtain ⟨l, -, other⟩ := points.holds.leaf_of_bits used on
      cases slot.symm.trans other
    obtain ⟨b', c'', read, here, holds, -⟩ := points.holds.branch_of_bits used bit
    obtain rfl := Tree.branch.inj (slot.symm.trans here)
    have compact : Compact (c i) := points.compact i
    rw [slot] at compact
    obtain ⟨o, some_left⟩ := exists_occupied compact
    have nonzero := mask_ne_zero holds some_left
    have first : c' (side.nearest b'.mask) ≠ .empty :=
      nearest_occupied side holds nonzero fun _ set => set
    have near := Db.Walk.nearest_mem side nonzero
    cases d with
    | zero => exact fits.elim
    | succ d =>
      obtain ⟨fuel, rfl⟩ := Nat.exists_eq_add_of_le' (show 1 ≤ fuel by omega)
      have points' : Points H rehash ⟨b', side.nearest b'.mask⟩ (c', side.nearest b'.mask) :=
        ⟨holds, rfl, compact.2, d, q, by omega, fits⟩
      obtain ⟨spine, ran, remaining⟩ := ih _ points' (.cons points above) rfl first (fits _)
        (by omega) fuel (by omega) near
      refine ⟨spine, ?_, ?_⟩
      · rw [dive, BranchOf.isBranch, isLeaf_eq, bit, read]
        exact ran
      · rwa [treeWalk_branch holds nonzero, List.append_assoc]

theorem popChildless_cons {i : Fin 32} {rest : Spine V} (nonzero : b.mask ≠ 0) :
    popChildless (⟨b, i⟩ :: rest) = ⟨b, i⟩ :: rest := if_neg nonzero

theorem extreme_remaining (side : Side) {rest : Spine V} {path : Path V} {i : Fin 32}
    (points : Points H rehash ⟨b, i⟩ (c, i)) (above : Aligned H rehash rest path)
    (occupied : c i ≠ .empty) : ∃ spine, extreme side (⟨b, i⟩ :: rest) = some spine ∧
      Remaining H rehash side spine (treeWalk side (c i) ++ after side ((c, i) :: path)) := by
  obtain ⟨d, q, shallow, fits⟩ := points.shallow
  rw [extreme, popChildless_cons (mask_ne_zero points.holds occupied)]
  exact dive_remaining side points above rfl occupied (fits i) shallow shallow

theorem climb_remaining (side : Side) {spine : Spine V} {path : Path V}
    (aligned : Aligned H rehash spine path) :
    ∃ spine', extreme side (climb side spine) = some spine' ∧
      Remaining H rehash side spine' (after side path) := by
  induction aligned with
  | nil => exact ⟨[], rfl, .inl ⟨rfl, rfl⟩⟩
  | @cons cur x spine path points above ih =>
    obtain ⟨node, i⟩ := cur
    obtain ⟨c, i'⟩ := x
    obtain rfl : i = i' := points.index
    rw [climb, after_cons]
    by_cases last : node.mask &&& side.beyond i = 0
    · rw [if_pos last, beyond_eq_nil points.holds last, List.nil_append]
      exact ih
    · have moved : Points H rehash ⟨node, side.nearest (node.mask &&& side.beyond i)⟩
          (c, side.nearest (node.mask &&& side.beyond i)) :=
        ⟨points.holds, rfl, points.compact, points.shallow⟩
      have occupied : c (side.nearest (node.mask &&& side.beyond i)) ≠ .empty := by
        apply nearest_occupied side points.holds last
        intro k set
        rw [BitVec.getLsbD_and, Bool.and_eq_true] at set
        exact set.1
      rw [if_neg last, beyond_eq points.holds last, List.append_assoc]
      exact extreme_remaining side moved above occupied

end Cursors

/-- What an iterator gives on the way to the end -/
def Enumerates (step : Spine V → Option (Spine V)) : Spine V → List (ℕ × V) → Prop
  | spine, [] => spine = []
  | spine, x :: l =>
      (∃ leaf, current spine = some leaf ∧ (leaf.key.toNat, leaf.value) = x) ∧
        ∃ spine', step spine = some spine' ∧ Enumerates step spine' l

theorem Enumerates.unique {step : Spine V → Option (Spine V)} {spine : Spine V}
    {l l' : List (ℕ × V)} (one : Enumerates step spine l) (other : Enumerates step spine l') :
    l = l' := by
  induction l generalizing spine l' with
  | nil =>
    cases l' with
    | nil => rfl
    | cons x l' =>
      obtain ⟨⟨leaf, here, -⟩, -⟩ := other
      obtain rfl : spine = [] := one
      cases here
  | cons x l ih =>
    obtain ⟨⟨leaf, here, value⟩, spine', ran, rest⟩ := one
    cases l' with
    | nil =>
      obtain rfl : spine = [] := other
      cases here
    | cons x' l' =>
      obtain ⟨⟨leaf', here', value'⟩, spine'', ran', rest'⟩ := other
      obtain rfl := Option.some.inj (here.symm.trans here')
      obtain rfl := Option.some.inj (ran.symm.trans ran')
      rw [← value, ← value', ih rest rest']

section Order

variable {H : Hashing V} {rehash : Bool} {side : Side} {b : Branch V} {c : Children V}
  {t : MerkleTrieBase V}

theorem enumerates_of_remaining {step : Spine V → Option (Spine V)}
    (steps : ∀ cur rest, step (cur :: rest) = extreme side (climb side (cur :: rest)))
    {spine : Spine V} {l : List (ℕ × V)} (remaining : Remaining H rehash side spine l) :
    Enumerates step spine l := by
  induction l generalizing spine with
  | nil =>
    rcases remaining with ⟨ended, -⟩ | ⟨leaf, path, -, -, other⟩
    · exact ended
    · cases other
  | cons x l ih =>
    rcases remaining with ⟨-, other⟩ | ⟨leaf, path, here, aligned, split⟩
    · cases other
    · obtain ⟨rfl, rfl⟩ := List.cons.inj split
      obtain ⟨spine', ran, remaining⟩ := climb_remaining side aligned
      cases spine with
      | nil => cases here
      | cons cur rest => exact ⟨⟨leaf, here, rfl⟩, spine', (steps cur rest).trans ran, ih remaining⟩

theorem beyond_rightward (c : Children V) (i : Fin 32) : beyond rightward c i =
    ((List.finRange 32).filter (i < ·)).flatMap fun k => (c k).leaves := by
  have places : ((List.finRange 32).filter fun k => (aboveMask i.val).getLsbD k.val) =
      (List.finRange 32).filter (i < ·) := by
    apply List.filter_congr
    intro k _
    rw [getLsbD_aboveMask k.isLt]
    rfl
  refine (congrArg (List.flatMap _) places).trans ?_
  exact congrArg List.flatten (List.map_congr_left fun k _ => treeWalk_rightward (c k))

theorem leaves_around (c : Children V) (i : Fin 32) : (branch c).leaves =
    (((List.finRange 32).filter (· < i)).flatMap fun k => (c k).leaves) ++
      ((c i).leaves ++ beyond rightward c i) := by
  rw [beyond_rightward, leaves]
  conv_lhs => rw [finRange_split i]
  rw [List.flatMap_append, List.flatMap_cons]

theorem filter_leaves {d q key : ℕ} (fits : (branch c).Fits (d + 1) q)
    (below : key / 32 ^ (d + 1) = q) : (branch c).leaves.filter (fun x => key ≤ x.1) =
      (c (digit 32 d key)).leaves.filter (fun x => key ≤ x.1) ++
        beyond rightward c (digit 32 d key) := by
  have here := div_eq_of_digit below
  have compare : ∀ (j : Fin 32) (x : ℕ × V), x ∈ (c j).leaves →
      (j < digit 32 d key → x.1 < key) ∧ (digit 32 d key < j → key < x.1) := by
    intro j x member
    have place := key_div_of_mem_leaves (fits j) member
    refine ⟨fun less => Nat.lt_of_div_lt_div (c := 32 ^ d) ?_,
      fun less => Nat.lt_of_div_lt_div (c := 32 ^ d) ?_⟩ <;>
    · rw [place, here]
      exact Nat.add_lt_add_left less _
  rw [leaves_around c (digit 32 d key), List.filter_append, List.filter_append,
    List.filter_eq_nil_iff.2, List.nil_append, beyond_rightward]
  · congr 1
    rw [List.filter_eq_self]
    intro x member
    obtain ⟨j, place, inside⟩ := List.mem_flatMap.1 member
    have more := (compare j x inside).2 (of_decide_eq_true (List.mem_filter.1 place).2)
    exact decide_eq_true more.le
  · intro x member
    obtain ⟨j, place, inside⟩ := List.mem_flatMap.1 member
    have less := (compare j x inside).1 (of_decide_eq_true (List.mem_filter.1 place).2)
    simpa using less

theorem settleKey_empty {key : UInt64} {index : Fin 32} {spine : Spine V}
    (free : b.mask.getLsbD index.val = false) :
    settleKey key index b spine = leftmost (climb rightward (⟨b, index⟩ :: spine)) := by
  have last : b.mask &&& aboveMask (31 : Fin 32).val = 0 := by
    have none_above : aboveMask (31 : Fin 32).val = 0 := by decide
    rw [none_above]
    exact BitVec.and_zero
  rw [settleKey, isEmpty_eq, free, Bool.not_false, if_pos rfl]
  change (if b.mask &&& aboveMask index.val = 0 then leftmost (climb rightward (⟨b, 31⟩ :: spine))
    else leftmost (⟨b, lowestIndex (b.mask &&& aboveMask index.val)⟩ :: spine)) = leftmost
      (if b.mask &&& aboveMask index.val = 0 then climb rightward spine
        else ⟨b, lowestIndex (b.mask &&& aboveMask index.val)⟩ :: spine)
  have final : climb rightward (⟨b, 31⟩ :: spine) = climb rightward spine := if_pos last
  rw [final]
  split <;> rfl

theorem followKey_remaining (key : UInt64) {d q : ℕ} {spine : Spine V} {path : Path V}
    (holds : Holds H rehash b c) (compact : ∀ i, Compact (c i)) (fits : (branch c).Fits d q)
    (shallow : d ≤ PARTS) (below : key.toNat / 32 ^ d = q) (above : Aligned H rehash spine path) :
    ∃ index node spine₁ spine₂, followKey key d b spine = some (index, node, spine₁) ∧
      settleKey key index node spine₁ = some spine₂ ∧ Remaining H rehash rightward spine₂
        ((branch c).leaves.filter (fun x => key.toNat ≤ x.1) ++ after rightward path) := by
  induction d generalizing q b c spine path with
  | zero => exact fits.elim
  | succ d ih =>
    have child := fits (digit 32 d key.toNat)
    have points : Points H rehash ⟨b, digit 32 d key.toNat⟩ (c, digit 32 d key.toNat) :=
      ⟨holds, rfl, compact, d, q, shallow, fits⟩
    obtain ⟨spine', stepped, remaining⟩ :=
      climb_remaining rightward (List.Forall₂.cons points above)
    rw [filter_leaves fits below, List.append_assoc]
    rw [followKey]
    simp only [subIndex_eq, isEmpty_eq, BranchOf.isBranch, isLeaf_eq]
    cases used : b.mask.getLsbD (digit 32 d key.toNat).val with
    | false =>
      rw [(holds.empty_iff _).2 used]
      exact ⟨_, _, _, spine', rfl, (settleKey_empty used).trans stepped, remaining⟩
    | true =>
      cases bit : b.leaf.getLsbD (digit 32 d key.toNat).val with
      | true =>
        obtain ⟨l, read, slot⟩ := holds.leaf_of_bits used bit
        have settled : settleKey key (digit 32 d key.toNat) b spine = if l.key < key then
            next (⟨b, digit 32 d key.toNat⟩ :: spine) else
              some (⟨b, digit 32 d key.toNat⟩ :: spine) := by
          rw [settleKey, isEmpty_eq, used, read]
          rfl
        rw [slot, leaves_leaf]
        by_cases less : l.key < key
        · rw [List.filter_cons_of_neg (by simpa using UInt64.lt_iff_toNat_lt.1 less)]
          exact ⟨_, _, _, spine', rfl, settled.trans ((if_pos less).trans stepped), remaining⟩
        · rw [List.filter_cons_of_pos (by simpa [UInt64.lt_iff_toNat_lt] using less)]
          exact ⟨_, _, _, _, rfl, settled.trans (if_neg less),
            .inr ⟨l, _, read, .cons points above, rfl⟩⟩
      | false =>
        obtain ⟨b', c', read, slot, holds', -⟩ := holds.branch_of_bits used bit
        have compact' := compact (digit 32 d key.toNat)
        rw [slot] at child compact'
        rw [slot, read]
        exact ih holds' compact'.2 child (by omega) (div_eq_of_digit below) (.cons points above)

end Order

section Firsts

variable {H : Hashing V} {rehash : Bool} {side : Side} {b : Branch V} {c : Children V}
  {t : MerkleTrieBase V}

theorem Points.root (represents : Represents H rehash t c) (i : Fin 32) :
    Points H rehash ⟨t.root, i⟩ (c, i) :=
  ⟨represents.holds, rfl, represents.compact, 11, 0, by decide, represents.fits⟩

theorem startFromKey_eq (root : Branch V) (key : UInt64) : startFromKey root key =
    (followKey key PARTS root []).bind fun x => settleKey key x.1 x.2.1 x.2.2 := by
  unfold startFromKey
  dsimp only
  cases free : root.isEmpty (subIndex (PARTS - 1) key) with
  | false => exact if_neg Bool.false_ne_true
  | true =>
    have unset : root.mask.getLsbD (subIndex (PARTS - 1) key).val = false := by
      simpa using free
    have stays : followKey key PARTS root [] = some (subIndex (PARTS - 1) key, root, []) := by
      change (if (!root.isEmpty (subIndex (PARTS - 1) key) && _) = true then _ else _) = _
      rw [free]
      rfl
    rw [if_pos rfl, stays]
    refine Eq.trans ?_ (settleKey_empty unset).symm
    change (if root.mask &&& aboveMask (subIndex (PARTS - 1) key).val = 0 then some [] else
      leftmost _) = leftmost (if root.mask &&& aboveMask (subIndex (PARTS - 1) key).val = 0 then
        [] else _)
    split <;> rfl

theorem beginAt_remaining (represents : Represents H rehash t c) {key : UInt64}
    (inside : key.toNat < 2 ^ 60) : ∃ spine, beginAt t key = some spine ∧
      Remaining H rehash rightward spine
        ((branch c).leaves.filter fun x => key.toNat ≤ x.1) := by
  obtain ⟨index, node, spine₁, spine₂, followed, settled, remaining⟩ :=
    followKey_remaining key represents.holds represents.compact represents.fits le_rfl
      (Nat.div_eq_of_lt inside) .nil
  rw [after_nil, List.append_nil] at remaining
  refine ⟨spine₂, ?_, remaining⟩
  rw [beginAt, startFromKey_eq, followed]
  exact settled

theorem cell_zero (nonzero : b.mask ≠ 0) : b.cell 0 = b.entry (lowestIndex b.mask) := by
  obtain ⟨used, lower⟩ := lowestIndex_lowest nonzero
  have first : rank b.mask.getLsbD (lowestIndex b.mask).val = 0 :=
    rank_eq_zero_iff.2 fun j less => lower ⟨j, less.trans (Fin.is_lt _)⟩ less
  have start : rank b.mask.getLsbD (0 : Fin 32).val = 0 := rfl
  rw [BranchOf.cell, getChildIndex_eq, start, BranchOf.entry, slot, if_pos used, first]

theorem dive_first (side : Side) (represents : Represents H rehash t c) (free : c 0 = .empty)
    (nonzero : t.root.mask ≠ 0) {b' : Branch V} {c' : Children V}
    (read : getBranch t.root (lowestIndex t.root.mask) = some b')
    (slot : c (lowestIndex t.root.mask) = .branch c') (holds : Holds H rehash b' c') :
    ∃ spine, extreme side [⟨t.root, 0⟩] = some spine ∧
      Remaining H rehash side spine (treeWalk side (.branch c') ++ beyond side c 0) := by
  have bit := represents.holds.2 0
  rw [free] at bit
  obtain ⟨used, lower⟩ := lowestIndex_lowest nonzero
  have here : getBranch t.root 0 = some b' := by
    rw [← read, getBranch, cell_zero nonzero, getBranch, cell_eq used]
  have compact := represents.compact (lowestIndex t.root.mask)
  have fits : (c (lowestIndex t.root.mask)).Fits 11 _ := represents.fits _
  rw [slot] at compact fits
  obtain ⟨o, some_left⟩ := exists_occupied compact
  have nonzero' := mask_ne_zero holds some_left
  have points : Points H rehash ⟨b', side.nearest b'.mask⟩ (c', side.nearest b'.mask) :=
    ⟨holds, rfl, compact.2, 10, _, by decide, fits⟩
  have above : Aligned H rehash [⟨t.root, 0⟩] [(c, 0)] :=
    .cons (Points.root represents 0) .nil
  obtain ⟨spine, ran, remaining⟩ := dive_remaining side points above rfl
    (nearest_occupied side holds nonzero' fun _ set => set) (fits _) (show 10 < PARTS by decide)
    (show 10 < 11 by decide)
  refine ⟨spine, ?_, ?_⟩
  · rw [extreme, popChildless_cons nonzero, PARTS, dive, BranchOf.isBranch, isLeaf_eq]
    simp only [bit.2]
    rw [here]
    exact ran
  · rw [treeWalk_branch holds nonzero']
    simpa using remaining

theorem dive_first_leaf (represents : Represents H rehash t c) (free : c 0 = .empty)
    (nonzero : t.root.mask ≠ 0) {k : ℕ} {v : V}
    (slot : c (lowestIndex t.root.mask) = .leaf k v) : extreme side [⟨t.root, 0⟩] = none := by
  have bit := represents.holds.2 0
  have first := represents.holds.2 (lowestIndex t.root.mask)
  rw [free] at bit
  rw [slot] at first
  obtain ⟨-, -, l, cell, -⟩ := first
  have here : getBranch t.root 0 = none := by
    rw [getBranch, cell_zero nonzero, cell]
  rw [extreme, popChildless_cons nonzero, PARTS, dive, BranchOf.isBranch, isLeaf_eq]
  simp only [bit.2]
  rw [here]
  rfl

end Firsts

section Maps

/-- The first key of a map from `key` on -/
noncomputable def least (m : ℕ → Option V) (key : ℕ) : Option ℕ :=
  open Classical in if found : ∃ k, key ≤ k ∧ m k ≠ none then some (Nat.find found) else none

/-- What an operation does to a map; the first value of a key stays. -/
noncomputable def effect (m : ℕ → Option V) : Op V → ℕ → Option V
  | .insert key value => Function.update m key.toNat (some ((m key.toNat).getD value))
  | .remove key => Function.update m key.toNat none
  | .erase key =>
      match least m key.toNat with
      | none => m
      | some k => Function.update m k none

noncomputable def contents (ops : List (Op V)) : ℕ → Option V := ops.foldl effect fun _ => none

/-- The entries of a map in ascending order -/
structure Lists (m : ℕ → Option V) (l : List (ℕ × V)) : Prop where
  sorted : l.Pairwise fun x y => x.1 < y.1
  mem : ∀ k v, (k, v) ∈ l ↔ m k = some v

/-- The trie behaves as an ordered map. -/
structure Ordered (t : MerkleTrieBase V) (m : ℕ → Option V) : Prop where
  finds : ∀ key, key.toNat < 2 ^ 60 → t.find key = some (m key.toNat)
  begins : ∀ key, key.toNat < 2 ^ 60 → ∃ spine l, beginAt t key = some spine ∧
    Lists (fun k => if key.toNat ≤ k then m k else none) l ∧ Enumerates next spine l
  forwards : ∃ spine l, begin t = some spine ∧ Lists m l ∧ Enumerates next spine l
  backwards : ∃ spine l, previous t.root [] = some spine ∧ Lists m l ∧
    Enumerates (previous t.root) spine l.reverse

theorem least_eq_none {m : ℕ → Option V} {key : ℕ} (missing : ∀ k, key ≤ k → m k = none) :
    least m key = none := by
  unfold least
  rw [dif_neg]
  rintro ⟨k, le, found⟩
  exact found (missing k le)

theorem least_eq_some {m : ℕ → Option V} {key k : ℕ} (le : key ≤ k) (found : m k ≠ none)
    (first : ∀ j, key ≤ j → m j ≠ none → k ≤ j) : least m key = some k := by
  classical
  have some_left : ∃ k, key ≤ k ∧ m k ≠ none := ⟨k, le, found⟩
  unfold least
  rw [dif_pos some_left]
  have spec := Nat.find_spec some_left
  exact congrArg some (le_antisymm (Nat.find_le ⟨le, found⟩) (first _ spec.1 spec.2))

end Maps

section Runs

variable {H : Hashing V} {rehash : Bool} {c : Children V} {t : MerkleTrieBase V}

/-- The map of a tree -/
def entries (c : Children V) : ℕ → Option V := (branch c).lookup PARTS

theorem lists_leaves (represents : Represents H rehash t c) :
    Lists (entries c) (branch c).leaves :=
  ⟨leaves_sorted represents.fits, fun _ _ => mem_leaves_iff represents.fits⟩

theorem lists_filter {m : ℕ → Option V} {l : List (ℕ × V)} (lists : Lists m l) (key : ℕ) :
    Lists (fun k => if key ≤ k then m k else none) (l.filter fun x => key ≤ x.1) := by
  refine ⟨lists.sorted.filter _, fun k v => ?_⟩
  rw [List.mem_filter, lists.mem]
  by_cases le : key ≤ k
  · simp [le]
  · simp [le]

theorem lt_of_entry (represents : Represents H rehash t c) {k : ℕ} (found : entries c k ≠ none) :
    k < 2 ^ 60 := by
  obtain ⟨v, found⟩ := Option.ne_none_iff_exists'.1 found
  have above := key_div_of_mem_leaves represents.fits (mem_leaves_of_lookup found)
  exact Nat.lt_of_div_eq_zero (by decide) above

theorem step_represents (represents : Represents H rehash t c) {op : Op V}
    (inside : op.key.toNat < 2 ^ 60) : ∃ t' c', step H t op = some t' ∧
      Represents H rehash t' c' ∧ entries c' = effect (entries c) op := by
  cases op with
  | insert key value =>
    change key.toNat < 2 ^ 60 at inside
    obtain ⟨t', ran, represents'⟩ := represents.insert inside value
    refine ⟨t', _, ran, represents', funext fun k => ?_⟩
    rw [effect, Function.update_apply]
    exact lookup_add (d := 11) represents.fits (Nat.div_eq_of_lt inside) k
  | remove key =>
    obtain ⟨t', ran, represents'⟩ := represents.remove key
    refine ⟨t', _, ran, represents', funext fun k => ?_⟩
    rw [entries, lookup_remove represents.fits, effect, Function.update_apply]
    rfl
  | erase key =>
    change key.toNat < 2 ^ 60 at inside
    obtain ⟨spine, begun, remaining⟩ := beginAt_remaining represents inside
    have listed := lists_filter (lists_leaves represents) key.toNat
    rcases remaining with ⟨rfl, ended⟩ | ⟨leaf, path, here, -, split⟩
    · refine ⟨t, c, ?_, represents, ?_⟩
      · rw [step, begun]
        rfl
      · have missing : ∀ k, key.toNat ≤ k → entries c k = none := by
          intro k le
          by_contra found
          obtain ⟨v, found⟩ := Option.ne_none_iff_exists'.1 found
          have member := (listed.mem k v).2 ((if_pos le).trans found)
          rw [ended] at member
          cases member
        rw [effect, least_eq_none missing]
    · have head : (leaf.key.toNat, leaf.value) ∈
          (branch c).leaves.filter fun x => key.toNat ≤ x.1 := by
        rw [split]
        exact List.mem_cons_self
      have first := (listed.mem leaf.key.toNat leaf.value).1 head
      have le : key.toNat ≤ leaf.key.toNat := by
        by_contra less
        rw [if_neg less] at first
        cases first
      rw [if_pos le] at first
      have lowest : ∀ j, key.toNat ≤ j → entries c j ≠ none → leaf.key.toNat ≤ j := by
        intro j le found
        obtain ⟨v, found⟩ := Option.ne_none_iff_exists'.1 found
        have member := (listed.mem j v).2 ((if_pos le).trans found)
        rw [split, List.mem_cons] at member
        rcases member with same | later
        · exact (congrArg Prod.fst same).ge
        · have sorted := listed.sorted
          rw [split, List.pairwise_cons] at sorted
          exact (sorted.1 _ later).le
      have found : entries c leaf.key.toNat ≠ none := by
        rw [first]
        exact Option.some_ne_none _
      obtain ⟨t', ran, represents'⟩ := represents.remove leaf.key
      obtain ⟨spine', again, -⟩ := beginAt_remaining represents' (lt_of_entry represents found)
      have occupied : spine.isEmpty = false := by
        cases spine with
        | nil => cases here
        | cons cur rest => rfl
      refine ⟨t', _, ?_, represents', ?_⟩
      · have erased : erase H t spine = some (t', spine') := by
          refine Option.bind_eq_some_iff.2 ⟨leaf, here, ?_⟩
          refine Option.bind_eq_some_iff.2 ⟨t', ran, ?_⟩
          exact Option.bind_eq_some_iff.2 ⟨spine', again, rfl⟩
        rw [step, begun]
        change (if spine.isEmpty = true then some t else (erase H t spine).map Prod.fst) = some t'
        rw [occupied, erased]
        rfl
      · rw [effect, least_eq_some le found lowest]
        funext k
        dsimp only
        rw [entries, lookup_remove represents.fits, Function.update_apply]
        rfl

theorem run_represents {ops : List (Op V)} (represents : Represents H rehash t c)
    (inside : ∀ op ∈ ops, op.key.toNat < 2 ^ 60) : ∃ t' c', run H t ops = some t' ∧
      Represents H rehash t' c' ∧ entries c' = ops.foldl effect (entries c) := by
  induction ops generalizing t c with
  | nil => exact ⟨t, c, rfl, represents, rfl⟩
  | cons op ops ih =>
    obtain ⟨t₁, c₁, ran, represents₁, same⟩ := step_represents represents (inside op (by simp))
    obtain ⟨t', c', rest, represents', folded⟩ :=
      ih represents₁ fun op member => inside op (by simp [member])
    refine ⟨t', c', ?_, represents', ?_⟩
    · rw [run, ran]
      exact rest
    · rw [folded, same]
      rfl

theorem run_new (H : Hashing V) (rehash : Bool) {ops : List (Op V)}
    (inside : ∀ op ∈ ops, op.key.toNat < 2 ^ 60) :
    ∃ t c, run H { autoRehash := rehash } ops = some t ∧ Represents H rehash t c ∧
      entries c = contents ops := by
  obtain ⟨t, c, ran, represents, same⟩ := run_represents (represents_new H rehash) inside
  refine ⟨t, c, ran, represents, same.trans ?_⟩
  have nothing : entries (fun _ => .empty : Children V) = fun _ => none := by
    funext k
    rw [entries, PARTS, lookup_branch, lookup_empty]
  rw [nothing, contents]

theorem small_iff (represents : Represents H rehash t c) {k : ℕ} (found : entries c k ≠ none) :
    k < 2 ^ 55 ↔ digit 32 11 k = 0 := by
  have inside : k / 32 ^ 11 < 32 := Nat.div_lt_of_lt_mul (lt_of_entry represents found)
  rw [Fin.ext_iff, digit_val, Nat.mod_eq_of_lt inside]
  constructor
  · exact fun small => Nat.div_eq_of_lt small
  · exact fun zero => Nat.lt_of_div_eq_zero (by decide) zero

theorem exists_entry (represents : Represents H rehash t c) {i : Fin 32} (occupied : c i ≠ .empty) :
    ∃ k v, (k, v) ∈ (c i).leaves ∧ entries c k = some v ∧ digit 32 11 k = i := by
  have some_left := one_le_size (represents.compact i) occupied
  obtain ⟨⟨k, v⟩, member⟩ := List.exists_mem_of_length_pos some_left
  refine ⟨k, v, member, ?_, digit_of_div (key_div_of_mem_leaves (represents.fits i) member)⟩
  exact lookup_of_mem_leaves represents.fits ((mem_leaves_branch c _).2 ⟨i, member⟩)

theorem extreme_first (represents : Represents H rehash t c) (side : Side)
    (occupied : c 0 ≠ .empty) : ∃ spine, extreme side [⟨t.root, 0⟩] = some spine ∧
      Remaining H rehash side spine (treeWalk side (c 0) ++ beyond side c 0) := by
  obtain ⟨spine, ran, remaining⟩ :=
    extreme_remaining side (Points.root represents 0) .nil occupied
  exact ⟨spine, ran, by simpa using remaining⟩

theorem beyond_leftward_zero (c : Children V) : beyond leftward c 0 = [] := by
  rw [beyond, List.filter_eq_nil_iff.2, List.flatMap_nil]
  intro k _
  change ¬ (belowMask (0 : Fin 32).val).getLsbD k.val = true
  rw [getLsbD_belowMask (by decide)]
  simp

theorem enumerates_next {spine : Spine V} {l : List (ℕ × V)}
    (remaining : Remaining H rehash rightward spine l) : Enumerates next spine l :=
  enumerates_of_remaining (fun _ _ => rfl) remaining

theorem enumerates_previous {root : Branch V} {spine : Spine V} {l : List (ℕ × V)}
    (remaining : Remaining H rehash leftward spine l) : Enumerates (previous root) spine l :=
  enumerates_of_remaining (fun _ _ => rfl) remaining

theorem extreme_childless (represents : Represents H rehash t c) (side : Side)
    (childless : ∀ i, c i = .empty) : extreme side [⟨t.root, 0⟩] = some [] := by
  have zero : t.root.mask = 0 := by
    by_contra nonzero
    exact nearest_occupied side represents.holds nonzero (fun _ set => set) (childless _)
  have dropped : popChildless [(⟨t.root, 0⟩ : Cursor V)] = [] := if_pos zero
  rw [extreme, dropped]
  rfl

theorem extreme_alone (represents : Represents H rehash t c) (side : Side)
    (strict : (side.beyond 0).getLsbD 0 = false) (others : ∀ i ≠ 0, c i = .empty) :
    ∃ spine, extreme side [⟨t.root, 0⟩] = some spine ∧
      Remaining H rehash side spine (treeWalk side (c 0)) := by
  by_cases free : c 0 = .empty
  · have childless : ∀ i, c i = .empty := by
      intro i
      by_cases first : i = 0
      · rw [first, free]
      · exact others i first
    refine ⟨[], extreme_childless represents side childless, .inl ⟨rfl, ?_⟩⟩
    rw [free, treeWalk]
  · obtain ⟨spine, ran, remaining⟩ := extreme_first represents side free
    have bare : beyond side c 0 = [] := by
      rw [beyond, List.flatMap_eq_nil_iff]
      intro k place
      have set := (List.mem_filter.1 place).2
      by_cases first : k = 0
      · rw [first] at set
        exact absurd (set.symm.trans strict) (by decide)
      · rw [others k first, treeWalk]
    rw [bare, List.append_nil] at remaining
    exact ⟨spine, ran, remaining⟩

theorem leaves_alone (others : ∀ i ≠ 0, c i = .empty) : (branch c).leaves = (c 0).leaves := by
  have first : ((List.finRange 32).filter (· < (0 : Fin 32))) = [] := by
    rw [List.filter_eq_nil_iff]
    intro k _
    simp
  have rest : beyond rightward c 0 = [] := by
    rw [beyond_rightward, List.flatMap_eq_nil_iff]
    intro k place
    have above : 0 < k := of_decide_eq_true (List.mem_filter.1 place).2
    rw [others k (Ne.symm above.ne), leaves_empty]
  rw [leaves_around c 0, first, rest, List.flatMap_nil, List.nil_append, List.append_nil]

theorem ordered_iff (represents : Represents H rehash t c) :
    Ordered t (entries c) ↔ ∀ k, entries c k ≠ none → k < 2 ^ 55 := by
  have listed := lists_leaves represents
  constructor
  · intro ordered k found
    rw [small_iff represents found]
    by_contra high
    have slot : c (digit 32 11 k) ≠ .empty := by
      intro empty
      apply found
      rw [entries, PARTS, lookup_branch, empty, lookup_empty]
    have nonzero := mask_ne_zero represents.holds slot
    by_cases free : c 0 = .empty
    · -- The first cell is read as a branch in the slot 0, and met again in its own slot.
      have occupied : c (lowestIndex t.root.mask) ≠ .empty :=
        nearest_occupied rightward represents.holds nonzero fun _ set => set
      obtain ⟨spine, l, begun, lists, enumerates⟩ := ordered.forwards
      cases first : c (lowestIndex t.root.mask) with
      | empty => exact occupied first
      | leaf k' v =>
        rw [begin, leftmost, dive_first_leaf represents free nonzero first] at begun
        cases begun
      | branch c' =>
        have stands := represents.holds.2 (lowestIndex t.root.mask)
        rw [first] at stands
        obtain ⟨used, bit, b', cell, -, holds⟩ := stands
        have read : getBranch t.root (lowestIndex t.root.mask) = some b' := by
          rw [getBranch, cell_eq used, cell]
        obtain ⟨spine', ran, remaining⟩ :=
          dive_first rightward represents free nonzero read first holds
        obtain rfl := Option.some.inj (begun.symm.trans ran)
        have twice := enumerates.unique (enumerates_next remaining)
        obtain ⟨k', v, member, entry, -⟩ := exists_entry represents occupied
        have again : (k', v) ∈ beyond rightward c 0 := by
          have whole := (listed.mem k' v).2 entry
          rw [leaves_around c 0, free, List.mem_append, List.mem_append] at whole
          rcases whole with before | none_here | later
          · obtain ⟨j, place, -⟩ := List.mem_flatMap.1 before
            exact absurd (of_decide_eq_true (List.mem_filter.1 place).2) (by simp)
          · cases none_here
          · exact later
        rw [first, ← treeWalk_rightward] at member
        have sorted := lists.sorted
        rw [twice, List.pairwise_append] at sorted
        exact Nat.lt_irrefl _ (sorted.2.2 _ member _ again)
    · obtain ⟨spine, l, begun, lists, enumerates⟩ := ordered.backwards
      obtain ⟨spine', ran, remaining⟩ := extreme_first represents leftward free
      obtain rfl := Option.some.inj (begun.symm.trans ran)
      have short := enumerates.unique (enumerates_previous remaining)
      rw [beyond_leftward_zero, List.append_nil, treeWalk_leftward, List.reverse_inj] at short
      obtain ⟨v, entry⟩ := Option.ne_none_iff_exists'.1 found
      have member := (lists.mem k v).2 entry
      rw [short] at member
      exact high (digit_of_div (key_div_of_mem_leaves (represents.fits 0) member))
  · intro small
    have others : ∀ i ≠ 0, c i = .empty := by
      intro i other
      by_contra occupied
      obtain ⟨k, v, -, entry, place⟩ := exists_entry represents occupied
      have found : entries c k ≠ none := by
        rw [entry]
        exact Option.some_ne_none v
      exact other (place.symm.trans ((small_iff represents found).1 (small k found)))
    refine ⟨fun key _ => represents.find key, ?_, ?_, ?_⟩
    · intro key inside
      obtain ⟨spine, begun, remaining⟩ := beginAt_remaining represents inside
      exact ⟨spine, _, begun, lists_filter listed key.toNat, enumerates_next remaining⟩
    · obtain ⟨spine, ran, remaining⟩ := extreme_alone represents rightward (by decide) others
      rw [treeWalk_rightward, ← leaves_alone others] at remaining
      exact ⟨spine, _, ran, listed, enumerates_next remaining⟩
    · obtain ⟨spine, ran, remaining⟩ := extreme_alone represents leftward (by decide) others
      rw [treeWalk_leftward, ← leaves_alone others] at remaining
      exact ⟨spine, _, ran, listed, enumerates_previous remaining⟩

end Runs

/-- After any operations on keys of 60 bits the trie is an ordered map of what they left, just when
no key is left at or above `2 ^ 55`. -/
theorem ordered_iff_small (H : Hashing V) (rehash : Bool) (ops : List (Op V))
    (inside : ∀ op ∈ ops, op.key.toNat < 2 ^ 60) :
    ∃ t, run H { autoRehash := rehash } ops = some t ∧
      (Ordered t (contents ops) ↔ ∀ k, contents ops k ≠ none → k < 2 ^ 55) := by
  obtain ⟨t, c, ran, represents, same⟩ := run_new H rehash inside
  have ordered := ordered_iff represents
  rw [same] at ordered
  exact ⟨t, ran, ordered⟩

/-- The digest plays no part in the order. -/
def noDigest : Hashing Unit := ⟨id, fun _ => []⟩

theorem small_keys_ordered : ∃ t, run noDigest { autoRehash := true }
    [.insert 7 (), .insert 3 (), .erase 4] = some t ∧
      (Ordered t (contents [.insert 7 (), .insert 3 (), .erase 4]) ↔
        ∀ k, contents [.insert 7 (), .insert 3 (), .erase 4] k ≠ none → k < 2 ^ 55) :=
  ordered_iff_small noDigest true _ (by simp [Op.key])

/-- Every key is looked up as in the map that the operations make. -/
theorem finds_contents (H : Hashing V) (rehash : Bool) (ops : List (Op V))
    (inside : ∀ op ∈ ops, op.key.toNat < 2 ^ 60) :
    ∃ t, run H { autoRehash := rehash } ops = some t ∧
      ∀ key : UInt64, t.find key = some (contents ops key.toNat) := by
  obtain ⟨t, c, ran, represents, same⟩ := run_new H rehash inside
  exact ⟨t, ran, fun key => by rw [represents.find, ← same, entries]⟩

theorem finds_contents_three : ∃ t, run noDigest { autoRehash := false }
    [.insert 7 (), .insert 3 (), .erase 4] = some t ∧ ∀ key : UInt64, t.find key =
      some (contents [.insert 7 (), .insert 3 (), .erase 4] key.toNat) :=
  finds_contents noDigest false _ (by simp [Op.key])

/-- With a key outside the first slot the trie cannot be walked from `begin()`. -/
theorem high_key_unordered : ¬ ∀ ops : List (Op Unit), (∀ op ∈ ops, op.key.toNat < 2 ^ 60) →
    ∀ t, run noDigest {} ops = some t → Ordered t (contents ops) := by
  intro always
  have inside : ∀ op ∈ [Op.insert (36028797018963968 : UInt64) ()], op.key.toNat < 2 ^ 60 := by
    simp [Op.key]
  obtain ⟨t, c, ran, represents, same⟩ := run_new noDigest true inside
  have ordered : Ordered t (entries c) := same ▸ always _ inside t ran
  have found : entries c 36028797018963968 ≠ none := by
    rw [same]
    simp [contents, effect]
  exact absurd ((ordered_iff represents).1 ordered _ found) (by decide)

end Epilog.Common.MerkleIterator
