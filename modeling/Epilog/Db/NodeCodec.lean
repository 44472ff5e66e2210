/- Module: Epilog/Db/NodeCodec
   source: src/src/db/triedb.cpp (triedb_leaf::read, write, triedb_branch::read, write)
   digest: The bytes of leaf and branch nodes, and which nodes are read back from them. -/

import Epilog.Db.Store

set_option autoImplicit false

namespace Epilog.Db.NodeCodec

open Epilog.Common.Bits Epilog.Db.Branch Epilog.Db.Store

section Source

/-- `triedb_branch::MAX_SIZE_IN_BYTES` -/
def BRANCH_MAX_SIZE_IN_BYTES : ℕ := 1024

/-- `triedb_leaf::write`: the size of the hash is one byte, without a check. -/
def writeLeaf (l : TriedbLeaf) : Bytes :=
  writeUint32 (BitVec.ofNat 32 (leafSerializationSize l)) ++ (UInt8.ofNat l.hash.length ::
    (writeUint64 l.key.toBitVec ++ (l.hash ++ l.customData)))

/-- `triedb_leaf::read` of a new leaf; nothing where it reads behind the buffer or an assertion
fails. -/
def readLeaf (buffer : Bytes) : Option TriedbLeaf := do
  let sz := (readUint32 buffer).toNat
  let hash_size := (buffer.getD 4 0).toNat
  let key := UInt64.ofBitVec (readUint64 (buffer.drop 5))
  guard (13 + hash_size ≤ sz ∧ sz ≤ buffer.length ∧ sz < LEAF_MAX_SIZE_IN_BYTES)
  return { key, hash := (buffer.drop 13).take hash_size,
           customData := (buffer.drop (13 + hash_size)).take (sz - (13 + hash_size)) }

/-- The pointers of a branch as they are written -/
def pointerBytes (ptr : List ℕ) : Bytes := ptr.flatMap fun p => writeUint64 (BitVec.ofNat 64 p)

/-- What `triedb_branch::write` puts into its buffer -/
def branchBytes (b : TriedbBranch) : Bytes :=
  writeUint32 (BitVec.ofNat 32 b.serializationSize) ++
    (UInt8.ofNat b.depth :: UInt8.ofNat b.hash.length :: (writeUint32 b.mask ++
      (writeUint32 b.leaf ++ (writeUint64 b.num.toBitVec ++
        (pointerBytes (b.ptr.take b.numChildren) ++ b.hash)))))

/-- `triedb_branch::write`: the size of the hash goes through `checked_cast`. -/
def writeBranch (b : TriedbBranch) : Option Bytes := do
  guard (b.hash.length < 256)
  return branchBytes b

/-- `triedb_branch::read` of a new branch -/
def readBranch (buffer : Bytes) : Option TriedbBranch := do
  let sz := (readUint32 buffer).toNat
  guard (4 ≤ sz ∧ sz < BRANCH_MAX_SIZE_IN_BYTES)
  let depth := (buffer.getD 4 0).toNat
  let hash_sz := (buffer.getD 5 0).toNat
  let mask := readUint32 (buffer.drop 6)
  let leaf := readUint32 (buffer.drop 10)
  guard (22 ≤ sz)
  let num := UInt64.ofBitVec (readUint64 (buffer.drop 14))
  let n := count mask
  guard (22 + 8 * n ≤ sz ∧ sz ≤ buffer.length)
  let ptr := (List.range n).map fun i => (readUint64 (buffer.drop (22 + 8 * i))).toNat
  guard (hash_sz = sz - (22 + 8 * n))
  return { depth, mask, leaf, num, ptr, hash := (buffer.drop (22 + 8 * n)).take hash_sz }

end Source

section Leaves

theorem length_writeLeaf (l : TriedbLeaf) : (writeLeaf l).length = leafSerializationSize l := by
  simp only [writeLeaf, List.length_append, List.length_cons, length_writeUint32,
    length_writeUint64, leafSerializationSize]
  omega

theorem readLeaf_cut (l : TriedbLeaf) (rest : Bytes)
    (short : leafSerializationSize l < LEAF_MAX_SIZE_IN_BYTES) :
    readLeaf (writeLeaf l ++ rest) = some
      { key := l.key
        hash := (l.hash ++ l.customData).take (l.hash.length % 256)
        customData := (l.hash ++ l.customData).drop (l.hash.length % 256) } := by
  have size : (readUint32 (writeLeaf l ++ rest)).toNat = leafSerializationSize l := by
    unfold LEAF_MAX_SIZE_IN_BYTES at short
    rw [writeLeaf, List.append_assoc, readUint32_append, BitVec.toNat_ofNat,
      Nat.mod_eq_of_lt (by omega)]
  have behind : (writeLeaf l ++ rest).drop 4 = UInt8.ofNat l.hash.length ::
      (writeUint64 l.key.toBitVec ++ (l.hash ++ l.customData ++ rest)) := by
    rw [writeLeaf, List.append_assoc, List.drop_left' (length_writeUint32 _),
      List.cons_append, List.append_assoc]
  have hashSize : ((writeLeaf l ++ rest).getD 4 0).toNat = l.hash.length % 256 := by
    rw [List.getD_eq_getElem?_getD, ← List.head?_drop, behind]
    exact UInt8.toNat_ofNat'
  have atKey : (writeLeaf l ++ rest).drop 5 =
      writeUint64 l.key.toBitVec ++ (l.hash ++ l.customData ++ rest) := by
    rw [show 5 = 4 + 1 from rfl, ← List.drop_drop, behind, List.drop_one, List.tail_cons]
  have atHash : (writeLeaf l ++ rest).drop 13 = l.hash ++ l.customData ++ rest := by
    rw [show 13 = 5 + 8 from rfl, ← List.drop_drop, atKey,
      List.drop_left' (length_writeUint64 _)]
  have cut : l.hash.length % 256 ≤ (l.hash ++ l.customData).length := by
    rw [List.length_append]
    omega
  have total : leafSerializationSize l = 13 + (l.hash ++ l.customData).length := by
    rw [leafSerializationSize, List.length_append]
    omega
  have fits : 13 + l.hash.length % 256 ≤ leafSerializationSize l ∧
      leafSerializationSize l ≤ (writeLeaf l ++ rest).length ∧
      leafSerializationSize l < LEAF_MAX_SIZE_IN_BYTES := by
    rw [List.length_append, length_writeLeaf]
    exact ⟨by omega, by omega, short⟩
  unfold readLeaf
  dsimp only
  rw [size, hashSize]
  refine Option.bind_eq_some_iff.2 ⟨(), if_pos fits, ?_⟩
  rw [atKey, readUint64_append, ← List.drop_drop, atHash, List.take_append_of_le_length cut,
    List.drop_append_of_le_length cut, total, Nat.add_sub_add_left, List.take_left' (by
      rw [List.length_drop])]
  rfl

theorem readLeaf_iff (l : TriedbLeaf) (rest : Bytes)
    (short : leafSerializationSize l < LEAF_MAX_SIZE_IN_BYTES) :
    readLeaf (writeLeaf l ++ rest) = some l ↔ l.hash.length < 256 := by
  rw [readLeaf_cut l rest short]
  constructor
  · intro same
    have hashes := congrArg (fun r : Option TriedbLeaf => r.map fun l => l.hash.length) same
    have lengths := Option.some.inj hashes
    dsimp only at lengths
    rw [List.length_take] at lengths
    omega
  · intro small
    rw [Nat.mod_eq_of_lt small, List.take_left' rfl, List.drop_left' rfl]

end Leaves
theorem drop_after {buffer front back : Bytes} {k n : ℕ} (length : front.length = n)
    (here : buffer.drop k = front ++ back) : buffer.drop (k + n) = back := by
  rw [← List.drop_drop, here, List.drop_left' length]

theorem drop_byte {buffer back : Bytes} {v : UInt8} {k : ℕ} (here : buffer.drop k = v :: back) :
    buffer.drop (k + 1) = back := by
  rw [← List.drop_drop, here, List.drop_one, List.tail_cons]

section Branches

theorem length_pointerBytes (ptr : List ℕ) : (pointerBytes ptr).length = 8 * ptr.length := by
  induction ptr with
  | nil => rfl
  | cons p ptr ih =>
    rw [pointerBytes, List.flatMap_cons, List.length_append, length_writeUint64, ← pointerBytes, ih,
      List.length_cons]
    omega

theorem read_pointerBytes (ptr : List ℕ) (rest : Bytes) (fits : ∀ p ∈ ptr, p < 2 ^ 64) :
    ((List.range ptr.length).map fun i =>
      (readUint64 ((pointerBytes ptr ++ rest).drop (8 * i))).toNat) = ptr := by
  induction ptr with
  | nil => rfl
  | cons p ptr ih =>
    obtain ⟨fitsFirst, fitsRest⟩ := List.forall_mem_cons.1 fits
    have split : pointerBytes (p :: ptr) ++ rest =
        writeUint64 (BitVec.ofNat 64 p) ++ (pointerBytes ptr ++ rest) := by
      rw [pointerBytes, List.flatMap_cons, List.append_assoc, ← pointerBytes]
    have later (i : ℕ) : (pointerBytes (p :: ptr) ++ rest).drop (8 * (i + 1)) =
        (pointerBytes ptr ++ rest).drop (8 * i) := by
      rw [split, show 8 * (i + 1) = 8 + 8 * i by omega, ← List.drop_drop,
        List.drop_left' (length_writeUint64 _)]
    rw [List.length_cons, List.range_succ_eq_map, List.map_cons, List.map_map]
    congr 1
    · rw [Nat.mul_zero, List.drop_zero, split, readUint64_append, BitVec.toNat_ofNat,
        Nat.mod_eq_of_lt fitsFirst]
    · exact (List.map_congr_left fun i _ => by rw [Function.comp_apply, later]).trans
        (ih fitsRest)

/-- What the types of the fields hold, and an array with a pointer for each child -/
structure TypedBranch (b : TriedbBranch) : Prop where
  depth : b.depth < 256
  pointers : ∀ p ∈ b.ptr, p < 2 ^ 64
  children : b.numChildren ≤ b.ptr.length

theorem count_le (m : BitVec 32) : count m ≤ 32 := Nat.count_le _

variable {b : TriedbBranch}

theorem length_branchBytes (children : b.numChildren ≤ b.ptr.length) :
    (branchBytes b).length = b.serializationSize := by
  simp only [branchBytes, List.length_append, List.length_cons, length_writeUint32,
    length_writeUint64, length_pointerBytes, List.length_take, Nat.min_eq_left children,
    TriedbBranch.serializationSize]
  omega

theorem serializationSize_lt (small : b.hash.length < 256) :
    b.serializationSize < BRANCH_MAX_SIZE_IN_BYTES := by
  have children := count_le b.mask
  unfold TriedbBranch.serializationSize TriedbBranch.numChildren BRANCH_MAX_SIZE_IN_BYTES
  omega

theorem readBranch_bytes (typed : TypedBranch b) (small : b.hash.length < 256) (rest : Bytes) :
    readBranch (branchBytes b ++ rest) = some b.copy := by
  have length := length_branchBytes typed.children
  have sized := serializationSize_lt small
  have count_eq : (b.ptr.take b.numChildren).length = b.numChildren := by
    rw [List.length_take, Nat.min_eq_left typed.children]
  have size : (readUint32 (branchBytes b ++ rest)).toNat = b.serializationSize := by
    unfold BRANCH_MAX_SIZE_IN_BYTES at sized
    rw [branchBytes, List.append_assoc, readUint32_append, BitVec.toNat_ofNat,
      Nat.mod_eq_of_lt (by omega)]
  have at4 : (branchBytes b ++ rest).drop 4 = UInt8.ofNat b.depth :: UInt8.ofNat b.hash.length ::
      (writeUint32 b.mask ++ (writeUint32 b.leaf ++ (writeUint64 b.num.toBitVec ++
        (pointerBytes (b.ptr.take b.numChildren) ++ (b.hash ++ rest))))) := by
    rw [branchBytes, List.append_assoc, List.drop_left' (length_writeUint32 _)]
    simp only [List.cons_append, List.append_assoc]
  generalize branchBytes b = bytes at *
  have at5 := drop_byte at4
  have at6 := drop_byte at5
  have at10 := drop_after (length_writeUint32 _) at6
  have at14 := drop_after (length_writeUint32 _) at10
  have at22 := drop_after (length_writeUint64 _) at14
  have atHash := drop_after ((length_pointerBytes _).trans (congrArg (8 * ·) count_eq)) at22
  simp only [Nat.reduceAdd] at at5 at6 at10 at14 at22 atHash
  have depth : ((bytes ++ rest).getD 4 0).toNat = b.depth := by
    rw [List.getD_eq_getElem?_getD, ← List.head?_drop, at4]
    exact UInt8.toNat_ofNat'.trans (Nat.mod_eq_of_lt typed.depth)
  have hashSize : ((bytes ++ rest).getD 5 0).toNat = b.hash.length := by
    rw [List.getD_eq_getElem?_getD, ← List.head?_drop, at5]
    exact UInt8.toNat_ofNat'.trans (Nat.mod_eq_of_lt small)
  have mask : readUint32 ((bytes ++ rest).drop 6) = b.mask := by rw [at6, readUint32_append]
  have leaf : readUint32 ((bytes ++ rest).drop 10) = b.leaf := by rw [at10, readUint32_append]
  have num : readUint64 ((bytes ++ rest).drop 14) = b.num.toBitVec := by
    rw [at14, readUint64_append]
  have pointers : ((List.range b.numChildren).map fun i =>
      (readUint64 ((bytes ++ rest).drop (22 + 8 * i))).toNat) = b.ptr.take b.numChildren := by
    have read := read_pointerBytes (b.ptr.take b.numChildren) (b.hash ++ rest) fun p inside =>
      typed.pointers p (List.mem_of_mem_take inside)
    rw [count_eq] at read
    simpa only [← List.drop_drop, at22] using read
  have total : b.serializationSize = 22 + 8 * b.numChildren + b.hash.length := rfl
  unfold readBranch
  dsimp only
  rw [size, depth, hashSize, mask, leaf, num]
  refine Option.bind_eq_some_iff.2 ⟨(), if_pos ⟨by omega, sized⟩, ?_⟩
  refine Option.bind_eq_some_iff.2 ⟨(), if_pos (by omega), ?_⟩
  refine Option.bind_eq_some_iff.2 ⟨(), if_pos ?_, ?_⟩
  · rw [List.length_append, length]
    exact ⟨by change 22 + 8 * b.numChildren ≤ _; omega, by omega⟩
  refine Option.bind_eq_some_iff.2 ⟨(), if_pos ?_, ?_⟩
  · change b.hash.length = b.serializationSize - (22 + 8 * b.numChildren)
    omega
  change some (TriedbBranch.mk _ _ _ _ ((List.range b.numChildren).map fun i =>
    (readUint64 ((bytes ++ rest).drop (22 + 8 * i))).toNat)
    (((bytes ++ rest).drop (22 + 8 * b.numChildren)).take b.hash.length)) = _
  rw [atHash, List.take_left' rfl, pointers]
  rfl

end Branches


end Epilog.Db.NodeCodec
