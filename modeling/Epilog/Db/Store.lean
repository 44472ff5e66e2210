/- Module: Epilog/Db/Store
   source: src/src/db/triedb.hpp, src/src/db/triedb.cpp, src/src/db/triedb_params.hpp
   digest: The append-only node store and the root operations of the trie database. -/

import Epilog.Common.Bits
import Epilog.Db.Branch
import Mathlib.Data.Finset.Insert

set_option autoImplicit false

namespace Epilog.Db.Store

open Epilog.Common.Bits Epilog.Db.Branch

/-- `triedb_params`, with the vendored `blake2b` digest of 32 bytes as a parameter. -/
structure TriedbParams where
  bucketSize : ℕ
  bucketSize_pos : 0 < bucketSize
  useHashing : Bool
  blake2b : Bytes → Bytes
  blake2b_length : ∀ s, (blake2b s).length = 32

def VERSION_SZ : ℕ := 16
def LEAF_MAX_SIZE_IN_BYTES : ℕ := 2 * (1024 * 1024)

/-- `assertion` stands for a failed `assert` or for reading a node that is not there. -/
inductive Error
  | keyAlreadyExists (msg : String)
  | keyNotFound (msg : String)
  | assertion
  deriving DecidableEq, Repr

inductive Node
  | leaf (node : TriedbLeaf)
  | branch (node : TriedbBranch)
  deriving DecidableEq

/-- `root_id`: the position of the root's record in the roots file. -/
abbrev RootId := ℕ

structure TriedbRoot where
  id : RootId := 0
  previousId : RootId := 0
  ptr : ℕ := 0
  height : ℕ := 0
  numEntries : UInt64 := 0
  deriving DecidableEq, Repr

/-- Total size, height, number of entries, previous root and pointer. -/
def TriedbRoot.serializationSize : ℕ := 4 + 4 + 8 + 8 + 8

/-- What the database object and its files hold. Node caches are transparent. -/
structure Triedb where
  nodes : ℕ → Option Node := fun _ => none
  lastOffset : ℕ := 0
  roots : List (RootId × TriedbRoot) := []
  rootsFile : List TriedbRoot := []
  rootsPos : ℕ := VERSION_SZ + 4
  rootsAtHeight : ℕ → Finset RootId := fun _ => ∅

abbrev Access := EStateM Error Triedb

namespace Triedb

/-- The size of the roots file: its header and one record for each root. -/
def rootsEnd (s : Triedb) : ℕ := VERSION_SZ + 4 + TriedbRoot.serializationSize * s.rootsFile.length

def isEmpty (s : Triedb) : Bool := s.roots.isEmpty

def setRootEntry (s : Triedb) (id : RootId) (root : TriedbRoot) : Triedb :=
  { s with roots := (id, root) :: s.roots }

end Triedb

def leafSerializationSize (l : TriedbLeaf) : ℕ := 4 + 8 + 1 + l.hash.length + l.customData.length

def getLeaf (offset : ℕ) : Access TriedbLeaf := fun s =>
  match s.nodes offset with
  | some (.leaf l) => .ok l s
  | _ => .error .assertion s

def getBranch (offset : ℕ) : Access TriedbBranch := fun s =>
  match s.nodes offset with
  | some (.branch b) => .ok b s
  | _ => .error .assertion s

section Operations

variable (P : TriedbParams)

/-- Where a node of `numBytes` goes: it never crosses a bucket boundary. -/
def appendOffset (lastOffset numBytes : ℕ) : ℕ :=
  let bucketIndex := lastOffset / P.bucketSize
  let firstOffset := bucketIndex * P.bucketSize
  if lastOffset - firstOffset + numBytes ≥ P.bucketSize then (bucketIndex + 1) * P.bucketSize
  else lastOffset

def appendNode (node : Node) (numBytes : ℕ) (s : Triedb) : Triedb :=
  let offset := appendOffset P s.lastOffset numBytes
  { s with
    nodes := Function.update s.nodes offset (some node)
    lastOffset := offset + numBytes }

def appendLeafNode (l : TriedbLeaf) : Access ℕ := fun s =>
  let n := leafSerializationSize l
  let offset := appendOffset P s.lastOffset n
  if n < LEAF_MAX_SIZE_IN_BYTES then .ok offset (appendNode P (.leaf l) n s)
  else .error .assertion { s with lastOffset := offset }

def appendBranchNode (b : TriedbBranch) : Access ℕ := fun s =>
  let n := b.serializationSize
  .ok (appendOffset P s.lastOffset n) (appendNode P (.branch b) n s)

def leafHasher (l : TriedbLeaf) : TriedbLeaf :=
  { l with hash := P.blake2b (writeUint64 l.key.toBitVec ++ l.customData) }

/-- The hash of the child at `i`, as it enters the hash of the branch. -/
def childHash (b : TriedbBranch) (i : Fin 32) : Access Bytes := do
  if b.isBranch i then
    let subBranch ← getBranch (b.getChildPointer i)
    return subBranch.hash
  else if b.isLeaf i then
    let subLeaf ← getLeaf (b.getChildPointer i)
    return subLeaf.hash
  else return []

def branchHasher (b : TriedbBranch) : Access TriedbBranch := do
  if !P.useHashing then return b.setHash []
  else
    let hashes ← (maskLoop 32 b.mask).mapM fun i => childHash b (Fin.ofNat 32 i)
    return b.setHash
      (P.blake2b (UInt8.ofNat b.depth :: writeUint32 b.mask ++ hashes.flatten))

/-- `(key >> ((depth-1) * MAX_BRANCH_BITS)) & (MAX_BRANCH-1)` -/
def subIndex (depth : ℕ) (key : UInt64) : Fin 32 :=
  Fin.ofNat 32 ((key >>> UInt64.ofNat ((depth - 1) * MAX_BRANCH_BITS)) &&& 31).toNat

def computeMaxKeyBits (key : UInt64) : ℕ :=
  let required := msb64 key.toBitVec + 1
  (required + MAX_BRANCH_BITS - 1) / MAX_BRANCH_BITS * MAX_BRANCH_BITS

/-- Only the default leaf hasher exists. -/
def newLeaf (key : UInt64) (data : Bytes) : TriedbLeaf :=
  let l : TriedbLeaf := { key := key, customData := data, hash := [] }
  if P.useHashing then leafHasher P l else l

def keyExistsMessage (key : UInt64) : String :=
  "There's already a key '" ++ toString key ++ "' in the database."

def keyMissingMessage (atRoot : RootId) (key : UInt64) : String :=
  "Key '" ++ toString key ++ "' not found at root " ++ toString atRoot

/-- Hash a modified branch and append it. -/
def finishBranch (b : TriedbBranch) : Access (TriedbBranch × ℕ) := do
  let b ← branchHasher P b
  let ptr ← appendBranchNode P b
  return (b, ptr)

/-- `update_part`: the third result tells whether the key is new. The fuel is the depth. -/
def updatePart : ℕ → TriedbBranch → UInt64 → Bytes → Bool → Access (TriedbBranch × ℕ × Bool)
  | 0, _, _, _, _ => throw .assertion
  | fuel + 1, node, key, data, doInsert => do
      let depth := node.depth
      let sub := subIndex depth key
      if node.isEmpty sub then
        let leafPtr ← appendLeafNode P (newLeaf P key data)
        let newBranch := ((node.copy.setChildPointer sub leafPtr).setLeaf sub).addNumEntries 1
        let (b, ptr) ← finishBranch P newBranch
        return (b, ptr, true)
      else if node.isLeaf sub then
        let leaf ← getLeaf (node.getChildPointer sub)
        if leaf.key = key then
          if doInsert then throw (.keyAlreadyExists (keyExistsMessage key))
          else
            let leafPtr ← appendLeafNode P (newLeaf P key data)
            let (b, ptr) ← finishBranch P ((node.copy.setChildPointer sub leafPtr).setLeaf sub)
            return (b, ptr, false)
        else
          -- The leaf in the way moves one level down, below a branch that is never stored.
          let subSub := subIndex (depth - 1) leaf.key
          let tmp := ((({} : TriedbBranch).setDepth (depth - 1)).setChildPointer subSub
            (node.getChildPointer sub)).setLeaf subSub
          let (_, newChildPtr, newEntry) ← updatePart fuel tmp key data doInsert
          let newBranch := (node.copy.setChildPointer sub newChildPtr).setBranch sub
          let (b, ptr) ← finishBranch P
            (if newEntry then newBranch.addNumEntries 1 else newBranch)
          return (b, ptr, newEntry)
      else
        let child ← getBranch (node.getChildPointer sub)
        let (_, newChildPtr, newEntry) ← updatePart fuel child key data doInsert
        let newBranch := node.copy.setChildPointer sub newChildPtr
        let (b, ptr) ← finishBranch P (if newEntry then newBranch.addNumEntries 1 else newBranch)
        return (b, ptr, newEntry)

/-- `remove_part`, again with the depth as fuel. -/
def removePart (atRoot : RootId) : ℕ → TriedbBranch → UInt64 → Access (TriedbBranch × ℕ)
  | 0, _, _ => throw .assertion
  | fuel + 1, node, key => do
      let sub := subIndex node.depth key
      if node.isEmpty sub then throw (.keyNotFound (keyMissingMessage atRoot key))
      else if node.isLeaf sub then
        let leaf ← getLeaf (node.getChildPointer sub)
        if leaf.key ≠ key then
          -- The source throws the other exception type here.
          throw (.keyAlreadyExists (keyMissingMessage atRoot key))
        else finishBranch P ((node.copy.setEmpty sub).subNumEntries 1)
      else
        let child ← getBranch (node.getChildPointer sub)
        let (newChild, newChildPtr) ← removePart atRoot fuel child key
        let newBranch :=
          if newChild.mask = 0 then node.copy.setEmpty sub
          else node.copy.setChildPointer sub newChildPtr
        finishBranch P (newBranch.subNumEntries 1)

def getRoot (id : RootId) : Access TriedbRoot := fun s =>
  match s.roots.lookup id with
  | some root => .ok root s
  | none => .error .assertion s

/-- Seek to the end of the roots file, append a record and list the root under its height. -/
def writeRootAtEnd (root : TriedbRoot) (s : Triedb) : Triedb :=
  { s with
    rootsFile := s.rootsFile ++ [root]
    rootsPos := s.rootsEnd + TriedbRoot.serializationSize
    rootsAtHeight := Function.update s.rootsAtHeight root.height
      (insert root.id (s.rootsAtHeight root.height)) }

/-- `new_root()` asks for the position before it seeks to the end. -/
def newRoot : Access RootId := do
  let b ← branchHasher P (({} : TriedbBranch).setDepth 1)
  let ptr ← appendBranchNode P b
  let s ← get
  let rid := s.rootsPos
  let root : TriedbRoot := { id := rid, ptr := ptr }
  set ((writeRootAtEnd root s).setRootEntry rid root)
  return rid

def newRootFrom (parentId : RootId) : Access RootId := do
  let parent ← getRoot parentId
  let s ← get
  let rid := s.rootsEnd
  let root : TriedbRoot :=
    { id := rid, previousId := parent.id, ptr := parent.ptr, height := parent.height + 1,
      numEntries := parent.numEntries }
  set ((writeRootAtEnd root s).setRootEntry rid root)
  return rid

/-- Rewrite the record of the root in place; the stream stays behind that record. -/
def setRoot (id : RootId) (offset : ℕ) : Access Unit := do
  let root ← getRoot id
  let root := { root with ptr := offset }
  let s ← get
  let index := (root.id - (VERSION_SZ + 4)) / TriedbRoot.serializationSize
  set ({ s with
    rootsFile := s.rootsFile.set index root
    rootsPos := root.id + TriedbRoot.serializationSize }.setRootEntry id root)

def modifyNumEntries (id : RootId) (f : UInt64 → UInt64) : Access Unit := do
  let root ← getRoot id
  modify fun s => s.setRootEntry id { root with numEntries := f root.numEntries }

/-- Put branches above the root until its depth covers the bits of the key. -/
def growRoot (keyBits : ℕ) : ℕ → TriedbBranch → ℕ → ℕ → Access TriedbBranch
  | 0, _, _, _ => throw .assertion
  | fuel + 1, currentRoot, currentRootPtr, currentDepth => do
      if keyBits > currentDepth * MAX_BRANCH_BITS then
        let newRoot := (({} : TriedbBranch).setDepth (currentDepth + 1)).setChildPointer 0
          currentRootPtr
        let (newRoot, newRootPtr) ← finishBranch P newRoot
        growRoot keyBits fuel newRoot newRootPtr (currentDepth + 1)
      else return currentRoot

/-- A root that is not known ends in a failed assertion of `set_root`. -/
def insertOrUpdate (atRoot : RootId) (key : UInt64) (data : Bytes) (doInsert : Bool) :
    Access Unit := do
  let someRoot ← getRoot atRoot
  let currentRoot ← getBranch someRoot.ptr
  let currentRoot ← growRoot P (computeMaxKeyBits key) 14 currentRoot someRoot.ptr currentRoot.depth
  let (_, newBranchPtr, newEntry) ← updatePart P currentRoot.depth currentRoot key data doInsert
  if newEntry then modifyNumEntries atRoot (· + 1)
  setRoot atRoot newBranchPtr

def insert (atRoot : RootId) (key : UInt64) (data : Bytes) : Access Unit :=
  insertOrUpdate P atRoot key data true

def update (atRoot : RootId) (key : UInt64) (data : Bytes) : Access Unit :=
  insertOrUpdate P atRoot key data false

def remove (atRoot : RootId) (key : UInt64) : Access Unit := do
  let s ← get
  match s.roots.lookup atRoot with
  | none => throw (.keyNotFound (keyMissingMessage atRoot key))
  | some foundRoot =>
      let currentRoot ← getBranch foundRoot.ptr
      if computeMaxKeyBits key > currentRoot.depth * MAX_BRANCH_BITS then
        throw (.keyNotFound (keyMissingMessage atRoot key))
      else
        let (_, newBranchPtr) ← removePart P atRoot currentRoot.depth currentRoot key
        modifyNumEntries atRoot (· - 1)
        setRoot atRoot newBranchPtr

end Operations

end Epilog.Db.Store
