/- Module: Epilog/Common/MerkleTrie
   source: src/src/common/merkle_trie.hpp
   digest: The trie in memory: branches with packed cells, insertion, lookup, removal and hashes. -/

import Epilog.Db.Branch
import Epilog.Common.Bits

set_option autoImplicit false

namespace Epilog.Common.MerkleTrie

open Epilog.Lib.PackedSlots Epilog.Common.Bits Epilog.Db.Branch

/-- The blake2b digest of 32 bytes, and the bytes of a value as they lie in memory -/
structure Hashing (V : Type) where
  blake2b : Bytes → Bytes
  valueBytes : V → Bytes

/-- `hash_t()` -/
def zeroHash : Bytes := List.replicate 32 0

structure MerkleTrieLeaf (V : Type) where
  key : UInt64
  value : V
  deriving DecidableEq

/-- `merkle_trie_branch`, with `P` for what a cell of `data_` points to. A cell may be null, and the
hash of new memory is not known. -/
structure BranchOf (P : Type) where
  mask : BitVec 32 := 0
  leaf : BitVec 32 := 0
  hash : Option Bytes := none
  data : List (Option P) := []

namespace BranchOf

variable {P : Type}

def newRoot : BranchOf P := { hash := some zeroHash, data := List.replicate MAX_BRANCH none }

/-- `new merkle_trie_branch()`, which has no cells -/
def noCells : BranchOf P := { hash := some zeroHash }

def isLeaf (b : BranchOf P) (sub_index : Fin 32) : Bool :=
  ((b.leaf >>> sub_index.val) &&& 1#32) != 0#32

def isBranch (b : BranchOf P) (sub_index : Fin 32) : Bool := !b.isLeaf sub_index

def isEmpty (b : BranchOf P) (sub_index : Fin 32) : Bool :=
  ((b.mask >>> sub_index.val) &&& 1#32) == 0#32

def numChildren (b : BranchOf P) : ℕ := count b.mask

def getChildIndex (b : BranchOf P) (sub_index : Fin 32) : ℕ :=
  count (b.mask &&& ((1#32 <<< sub_index.val) - 1#32))

/-- `data_[get_child_index(sub_index)]` -/
def cell (b : BranchOf P) (sub_index : Fin 32) : Option P :=
  (b.data[b.getChildIndex sub_index]?).join

/-- A copy with a null cell for a slot that is free -/
def reallocateInsert (b : BranchOf P) (sub_index : Fin 32) : BranchOf P :=
  let n_left := count (b.mask &&& ((1#32 <<< sub_index.val) - 1#32))
  let n_right := count ((b.mask >>> sub_index.val) >>> 1)
  { b with
    hash := none
    data := b.data.take n_left ++ none :: (b.data.drop n_left).take n_right }

/-- A copy without the cell of an occupied slot -/
def reallocateRemove (b : BranchOf P) (sub_index : Fin 32) : BranchOf P :=
  let n_left := count (b.mask &&& ((1#32 <<< sub_index.val) - 1#32))
  let n_right := count ((b.mask >>> sub_index.val) >>> 1)
  { mask := b.mask &&& ~~~(1#32 <<< sub_index.val)
    leaf := b.leaf &&& ~~~(1#32 <<< sub_index.val)
    hash := none
    data := b.data.take n_left ++ (b.data.drop (n_left + 1)).take n_right }

/-- `data_[get_child_index(sub_index)] = p` -/
def setCell (b : BranchOf P) (sub_index : Fin 32) (p : P) : BranchOf P :=
  { b with data := b.data.set (b.getChildIndex sub_index) (some p) }

def setLeaf (b : BranchOf P) (sub_index : Fin 32) (p : P) : BranchOf P :=
  { b with
    mask := b.mask ||| (1#32 <<< sub_index.val)
    leaf := b.leaf ||| (1#32 <<< sub_index.val) }.setCell sub_index p

def setBranch (b : BranchOf P) (sub_index : Fin 32) (p : P) : BranchOf P :=
  { b with
    mask := b.mask ||| (1#32 <<< sub_index.val)
    leaf := b.leaf &&& ~~~(1#32 <<< sub_index.val) }.setCell sub_index p

/-- Every occupied slot has its cell. -/
def Full (b : BranchOf P) : Prop := Packed 32 b.mask.getLsbD b.data

/-- The pointer of an occupied slot -/
def entry (b : BranchOf P) (i : Fin 32) : Option P := (slot b.mask.getLsbD b.data i.val).join

end BranchOf

/-- What a pointer of `data_` leads to -/
inductive Pointer (V : Type)
  | leaf (l : MerkleTrieLeaf V)
  | branch (b : BranchOf (Pointer V))

abbrev Branch (V : Type) := BranchOf (Pointer V)

section Operations

variable {V : Type} (H : Hashing V)

/-- A cell that is read as a leaf but holds none has no defined meaning. -/
def getLeaf (b : Branch V) (sub_index : Fin 32) : Option (MerkleTrieLeaf V) :=
  match b.cell sub_index with
  | some (.leaf l) => some l
  | _ => none

def getBranch (b : Branch V) (sub_index : Fin 32) : Option (Branch V) :=
  match b.cell sub_index with
  | some (.branch child) => some child
  | _ => none

/-- `merkle_trie_leaf::compute_hash` -/
def leafBytes (l : MerkleTrieLeaf V) : Bytes := writeUint64 l.key.toBitVec ++ H.valueBytes l.value

/-- What the child at a position adds to the hash of its parent -/
def childBytes (b : Branch V) (sub_index : Fin 32) : Option Bytes :=
  if b.isLeaf sub_index then (getLeaf b sub_index).map (leafBytes H)
  else (getBranch b sub_index).bind fun child => child.hash

def recomputeHash (b : Branch V) : Branch V :=
  { b with
    hash := ((maskLoop 32 b.mask).mapM fun i => childBytes H b (Fin.ofNat 32 i)).map fun parts =>
      H.blake2b parts.flatten }

/-- `if (rehash) recompute_hash()` -/
def settle (rehash : Bool) (b : Branch V) : Branch V := if rehash then recomputeHash H b else b

/-- The part of the key that stands above `rest` further parts: `(_key >> (L - MAX_BRANCH_BITS -
_at_part)) & (MAX_BRANCH-1)` -/
def subIndex (rest : ℕ) (key : UInt64) : Fin 32 :=
  Fin.ofNat 32 (key.toNat >>> (MAX_BRANCH_BITS * rest))

/-- `insert_part`, below which `parts` parts of the key are left; with none left the amount of the
shift is out of range. -/
def insertPart (rehash : Bool) (key : UInt64) (value : V) : ℕ → Branch V → Option (Branch V)
  | 0, _ => none
  | parts + 1, parent =>
      let sub_index := subIndex parts key
      if parent.isEmpty sub_index then
        some (settle H rehash ((parent.reallocateInsert sub_index).setLeaf sub_index
          (.leaf { key, value })))
      else if parent.isLeaf sub_index then do
        let leaf ← getLeaf parent sub_index
        if leaf.key = key then some (settle H rehash parent)
        else do
          let sub_sub_index := subIndex (parts - 1) leaf.key
          let newBranch ← insertPart rehash key value parts
            { mask := 1#32 <<< sub_sub_index.val
              leaf := 1#32 <<< sub_sub_index.val
              data := [some (.leaf leaf)] }
          some (settle H rehash (parent.setBranch sub_index (.branch (settle H rehash newBranch))))
      else do
        let child ← getBranch parent sub_index
        let child ← insertPart rehash key value parts child
        some (settle H rehash (parent.setBranch sub_index (.branch child)))

def findPart (key : UInt64) : ℕ → Branch V → Option (Option (MerkleTrieLeaf V))
  | 0, _ => none
  | parts + 1, parent =>
      let sub_index := subIndex parts key
      if parent.isEmpty sub_index then some none
      else if parent.isLeaf sub_index then do
        let leaf ← getLeaf parent sub_index
        some (if leaf.key = key then some leaf else none)
      else do
        let child ← getBranch parent sub_index
        findPart key parts child

/-- The end of `remove_part`: a branch without children is deleted. -/
def removed (rehash : Bool) (parent : Branch V) : Bool × Option (Branch V) :=
  (true, if parent.numChildren = 0 then none else some (settle H rehash parent))

/-- Put a child back into its slot; a lone leaf takes the place of its branch. -/
def replaceChild (parent : Branch V) (sub_index : Fin 32) (child : Branch V) : Option (Branch V) :=
  let other_sub_index := Fin.ofNat 32 (lsb32 child.mask)
  if child.numChildren = 1 ∧ child.isLeaf other_sub_index then do
    let leaf ← getLeaf child other_sub_index
    some (parent.setLeaf sub_index (.leaf leaf))
  else some (parent.setBranch sub_index (.branch child))

/-- `remove_part`: whether the key was there, and the branch that is left -/
def removePart (rehash : Bool) (key : UInt64) : ℕ → Branch V → Option (Bool × Option (Branch V))
  | 0, _ => none
  | parts + 1, parent =>
      let sub_index := subIndex parts key
      if parent.isEmpty sub_index then some (false, some parent)
      else if parent.isLeaf sub_index then do
        let leaf ← getLeaf parent sub_index
        some (if leaf.key = key then removed H rehash (parent.reallocateRemove sub_index)
          else (false, some parent))
      else do
        let child ← getBranch parent sub_index
        let (r, child) ← removePart rehash key parts child
        if r then
          match child with
          | none => some (removed H rehash (parent.reallocateRemove sub_index))
          | some child => (replaceChild parent sub_index child).map (removed H rehash)
        else some (false, some parent)

/-- `rehash_all`, which calls itself for the branches below; `parts` bounds how deep. -/
def rehashAll : ℕ → Branch V → Option (Branch V)
  | parts, b =>
      if b.mask = 0 then some b
      else
        match parts with
        | 0 => none
        | parts + 1 => do
            let b ← (maskLoop 32 b.mask).foldlM (fun (b : Branch V) i =>
              if b.isBranch (Fin.ofNat 32 i) then do
                let child ← getBranch b (Fin.ofNat 32 i)
                let child ← rehashAll parts child
                some (b.setCell (Fin.ofNat 32 i) (.branch child))
              else some b) b
            some (recomputeHash H b)

/-- `L / MAX_BRANCH_BITS` for the keys of `L = 60` bits -/
def PARTS : ℕ := 12

structure MerkleTrieBase (V : Type) where
  root : Branch V := .newRoot
  dirty : Bool := false
  autoRehash : Bool := true

namespace MerkleTrieBase

def insert (t : MerkleTrieBase V) (key : UInt64) (value : V) : Option (MerkleTrieBase V) := do
  let root ← insertPart H t.autoRehash key value PARTS t.root
  some { t with root, dirty := t.dirty || !t.autoRehash }

def find (t : MerkleTrieBase V) (key : UInt64) : Option (Option V) := do
  let leaf ← findPart key PARTS t.root
  some (leaf.map fun leaf => leaf.value)

def remove (t : MerkleTrieBase V) (key : UInt64) : Option (MerkleTrieBase V) := do
  let (_, root) ← removePart H t.autoRehash key PARTS t.root
  some { t with root := root.getD .noCells, dirty := t.dirty || !t.autoRehash }

def setAutoRehash (t : MerkleTrieBase V) (b : Bool) : MerkleTrieBase V := { t with autoRehash := b }

def rehashAll (t : MerkleTrieBase V) : Option (MerkleTrieBase V) := do
  let root ← MerkleTrie.rehashAll H PARTS t.root
  some { t with root, dirty := false }

/-- `hash`, which asserts that no change is missing from it -/
def hash (t : MerkleTrieBase V) : Option Bytes := if t.dirty then none else t.root.hash

end MerkleTrieBase

end Operations

end Epilog.Common.MerkleTrie
