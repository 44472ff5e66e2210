/- Module: Epilog/Node/MerkleTerms
   source: src/src/node/local_interpreter.cpp (build_leaf_term, build_tree_term, set_hash, set_depth,
     check_position, build_merkle_tree), src/src/db/triedb.hpp (merkle_leaf, merkle_branch),
     src/src/common/term.hpp (new_big)
   digest: Merkle trees as terms, and the trees that are built from terms. -/

import Epilog.Db.Merkle
import Epilog.Lib.Fuel
import Mathlib.Algebra.BigOperators.Fin

set_option autoImplicit false

namespace Epilog.Node.MerkleTerms

open Epilog.Common.Bits Epilog.Db.Branch Epilog.Db.Merkle Epilog.Lib.Fuel

section Terms

/-- A bignum: its bytes, the last of which may have fewer bits in use -/
structure Big where
  numBits : ℕ
  bytes : Bytes
  length_eq : bytes.length = (numBits + 7) / 8

inductive Functor
  | branch
  | leaf
  | dottedPair
  | other (name : String)

/-- A term whose arguments are of the type `T` -/
inductive Shape (T : Type)
  | str (f : Functor) (args : List T)
  | int (v : ℤ)
  | big (b : Big)
  | emptyList
  | other

/-- The terms that are made here -/
inductive Term
  | str (f : Functor) (args : List Term)
  | int (v : ℤ)
  | big (b : Big)
  | emptyList

def Term.shape : Term → Shape Term
  | .str f args => .str f args
  | .int v => .int v
  | .big b => .big b
  | .emptyList => .emptyList

/-- `int_cell`: 61 bits with sign -/
def intCell (v : ℤ) : Term := .int (v.bmod (2 ^ 61))

/-- `new_big` and `set_big`; the header has 29 bits for the size. -/
def newBig (bytes : Bytes) : Term :=
  .big {
    numBits := 8 * bytes.length % 2 ^ 29
    bytes := bytes.take ((8 * bytes.length % 2 ^ 29 + 7) / 8)
    length_eq := by
      rw [List.length_take, Nat.min_eq_left]
      have less := Nat.mod_le (8 * bytes.length) (2 ^ 29)
      omega }

def listTerm : List Term → Term
  | [] => .emptyList
  | t :: l => .str .dottedPair [t, listTerm l]

end Terms

section Encoder

/-- Data of no bytes is a null pointer, and goes out like data that is not there. -/
def dataTerm : Option Bytes → Term
  | none | some [] => .emptyList
  | some (b :: data) => newBig (b :: data)

/-- `build_leaf_term` and `build_tree_term`; the key has to fit an `int64_t`, and each bit of the
mask has to have its child. -/
def buildTerm : MerkleNode → ℕ → Option Term
  | .null, _ => none
  | .leaf key data hash, pos =>
    if key.toNat < 2 ^ 63 then
      some (.str .leaf [newBig hash, intCell pos, intCell key.toNat, dataTerm data])
    else none
  | .branch depth mask child hash, pos => do
    let children ← (maskLoop 32 mask).mapM fun i => buildTerm (child (Fin.ofNat 32 i)) i
    let hashTerm := if hash.length ≠ 0 then newBig hash else .emptyList
    return .str .branch [hashTerm, intCell depth.toNat, intCell pos, listTerm children]

end Encoder

section Decoder

/-- `merkle_node` with the number of entries -/
inductive MerkleTree
  | null
  | leaf (key : UInt64) (data : Option Bytes) (hash : Bytes)
  /-- The last field lists the positions of all calls of `set_child`. -/
  | branch (depth : UInt8) (mask : BitVec 32) (num : UInt64) (child : Fin 32 → MerkleTree)
    (hash : Bytes) (placed : List ℕ)

namespace MerkleTree

/-- The tree without the numbers of entries -/
def node : MerkleTree → MerkleNode
  | .null => .null
  | .leaf key data hash => .leaf key data hash
  | .branch depth mask _ child hash _ => .branch depth mask (fun i => (child i).node) hash

/-- What a child adds to the number of entries -/
def numEntries : MerkleTree → UInt64
  | .null => 0
  | .leaf _ _ _ => 1
  | .branch _ _ num _ _ _ => num

def leafCount : MerkleTree → ℕ
  | .null => 0
  | .leaf _ _ _ => 1
  | .branch _ _ _ child _ _ => ∑ i, (child i).leafCount

/-- Each position has been used once at most, and the leaves are counted. -/
def WellBuilt : MerkleTree → Prop
  | .null | .leaf _ _ _ => True
  | .branch _ _ num child _ placed => placed.Nodup ∧
    num = UInt64.ofNat (∑ i, (child i).leafCount) ∧ ∀ i, (child i).WellBuilt

end MerkleTree

/-- A branch while its children are set -/
structure Building where
  mask : BitVec 32
  num : UInt64
  child : Fin 32 → MerkleTree
  placed : List ℕ

/-- Why a tree is not built: the builder returns false, or it writes beyond the array. -/
inductive Stop
  | fails
  | outOfBounds

/-- `set_child` and `set_num_entries` -/
def Building.setChild (b : Building) (node : MerkleTree) (pos : ℕ) :
    Except (Halt Stop) Building :=
  if below : pos < 32 then
    .ok {
      mask := b.mask ||| (1#32 <<< pos)
      num := b.num + node.numEntries
      child := Function.update b.child ⟨pos, below⟩ node
      placed := b.placed ++ [pos] }
  else .error (.thrown .outOfBounds)

variable {T : Type} (view : T → Shape T)

def setHash : Shape T → Option Bytes
  | .big b => if b.bytes.length ≤ 256 then some b.bytes else none
  | _ => none

def checkPosition : Shape T → Option ℕ
  | .int v => if 0 ≤ v ∧ v ≤ 255 then some v.toNat else none
  | _ => none

def setDepth (t : Shape T) : Option UInt8 := (checkPosition t).map UInt8.ofNat

def getKey : Shape T → Option UInt64
  | .int v => if 0 ≤ v then some (UInt64.ofNat v.toNat) else none
  | _ => none

def getData : Shape T → Option (Option Bytes)
  | .emptyList => some none
  | .big b => some (some b.bytes)
  | _ => none

def isLeaf (t : T) : Bool :=
  match view t with
  | .str .leaf [_, _, _, _] => true
  | _ => false

def buildLeaf (t : T) : Option (MerkleTree × ℕ) :=
  match view t with
  | .str .leaf [hash, pos, key, data] => do
    let hash ← setHash (view hash)
    let pos ← checkPosition (view pos)
    let key ← getKey (view key)
    let data ← getData (view data)
    return (.leaf key data hash, pos)
  | _ => none

/-- What stands before the children of a branch -/
structure Head (T : Type) where
  hash : Bytes
  depth : UInt8
  pos : ℕ
  children : T

def branchHead (t : T) : Option (Head T) :=
  match view t with
  | .str .branch [hash, depth, pos, children] => do
    let hash ← setHash (view hash)
    let depth ← setDepth (view depth)
    let pos ← checkPosition (view pos)
    return ⟨hash, depth, pos, children⟩
  | _ => none

/-- `is_list`, with the elements that the loop over the children visits -/
def isList : ℕ → T → Option (List T × Bool)
  | 0, _ => none
  | fuel + 1, t =>
    match view t with
    | .emptyList => some ([], true)
    | .str .dottedPair [child, rest] => (isList fuel rest).map fun p => (child :: p.1, p.2)
    | _ => some ([], false)

/-- What the functions return: false, if there is no value. -/
def orFail {α : Type} : Option α → Except (Halt Stop) α
  | some a => .ok a
  | none => .error (.thrown .fails)

/-- A child is built as what it is; one that is neither a leaf nor a branch fails as a branch. -/
def buildChild (build : T → Except (Halt Stop) (MerkleTree × ℕ)) (child : T) :
    Except (Halt Stop) (MerkleTree × ℕ) :=
  if isLeaf view child then orFail (buildLeaf view child) else build child

/-- The body of the loop over the children -/
def place (build : T → Except (Halt Stop) (MerkleTree × ℕ)) (b : Building) (child : T) :
    Except (Halt Stop) Building := do
  let x ← buildChild view build child
  b.setChild x.1 x.2

/-- `build_merkle_tree` for a branch: the tree and its position -/
def buildMerkleTree : ℕ → T → Except (Halt Stop) (MerkleTree × ℕ)
  | 0, _ => .error .starved
  | fuel + 1, t =>
    match branchHead view t with
    | none => .error (.thrown .fails)
    | some head =>
      match isList view fuel head.children with
      | none => .error .starved
      | some (_, false) => .error (.thrown .fails)
      | some (children, true) => do
        let b ← children.foldlM (place view (buildMerkleTree fuel)) ⟨0, 0, fun _ => .null, []⟩
        return (.branch head.depth b.mask b.num b.child head.hash b.placed, head.pos)

end Decoder

section Statement

/-- A tree comes back from its term. -/
def RoundTrip (m : MerkleRoot) : Prop :=
  ∃ t, buildTerm m.node 0 = some t ∧
    ∃ fuel tree, buildMerkleTree Term.shape fuel t = .ok (tree, 0) ∧ tree.node = m.node

variable {T : Type} (view : T → Shape T)

/-- The builder returns false, or a good tree. -/
def Acceptable : Except (Halt Stop) (MerkleTree × ℕ) → Prop
  | .ok p => p.1.WellBuilt
  | .error (.thrown .fails) => True
  | .error _ => False

/-- The builder comes to an acceptable end. -/
def Safe (t : T) : Prop := ∃ fuel, Acceptable (buildMerkleTree view fuel t)

/-- The trees whose terms say everything about them. The mask marks the children. -/
def Codable : MerkleNode → Prop
  | .null => False
  | .leaf key data hash => key.toNat < 2 ^ 60 ∧ hash.length ≤ 256 ∧
    ∀ d, data = some d → d ≠ [] ∧ 8 * d.length < 2 ^ 29
  | .branch _ mask child hash => hash ≠ [] ∧ hash.length ≤ 256 ∧
    ∀ i, (mask.getLsbD i.val = false ∧ child i = .null) ∨
      (mask.getLsbD i.val = true ∧ Codable (child i))

/-- A term is that of a list, and its elements are these; or the list does not end as it should. -/
def Listed (t : T) (children : List T) (proper : Bool) : Prop :=
  ∃ fuel, isList view fuel t = some (children, proper)

/-- The position that a term states for itself -/
def position (t : T) : ℕ :=
  if isLeaf view t then (buildLeaf view t).elim 0 (·.2) else (branchHead view t).elim 0 (·.pos)

/-- All parts of the term have the right form. -/
inductive WellFormed : T → Prop
  | leaf {t : T} (isLeaf : isLeaf view t = true) {x : MerkleTree × ℕ}
      (built : buildLeaf view t = some x) : WellFormed t
  | branch {t : T} {head : Head T} {children : List T} (isBranch : branchHead view t = some head)
      (listed : Listed view head.children children true)
      (each : ∀ c ∈ children, WellFormed c) : WellFormed t

/-- The term is finite as far as it is read, and the positions that come before the first part of a
wrong form are below the branching factor. -/
inductive InBounds : T → Prop
  | noBranch {t : T} (noBranch : branchHead view t = none) : InBounds t
  | improper {t : T} {head : Head T} {children : List T} (isBranch : branchHead view t = some head)
      (listed : Listed view head.children children false) : InBounds t
  | branch {t : T} {head : Head T} {children : List T} (isBranch : branchHead view t = some head)
      (listed : Listed view head.children children true)
      (inside : ∀ before c after, children = before ++ c :: after →
        (∀ b ∈ before, WellFormed view b) → InBounds c)
      (below : ∀ before c after, children = before ++ c :: after →
        (∀ b ∈ before, WellFormed view b) → WellFormed view c → position view c < 32) :
      InBounds t

/-- The children of a branch state different positions. -/
inductive Distinct : T → Prop
  | noBranch {t : T} (noBranch : branchHead view t = none) : Distinct t
  | branch {t : T} {head : Head T} {children : List T} (isBranch : branchHead view t = some head)
      (listed : Listed view head.children children true)
      (apart : (children.map (position view)).Nodup)
      (each : ∀ c ∈ children, Distinct c) : Distinct t

end Statement

end Epilog.Node.MerkleTerms
